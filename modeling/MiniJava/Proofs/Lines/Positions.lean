import Mathlib.Data.Set.Card
import Mathlib.Order.Bounds.Basic
import MiniJava.Proofs.Lines.Table
import MiniJava.Proofs.Report.Rows

/-!
# Positions are what they should be

The line of an offset counts the line terminators before it, and its column the characters since the
last of them; so it is said without going through the text. Positions between characters are in the
same order as the offsets.
-/

namespace MiniJava

/-! ## What a position counts -/

/-- The offsets between the characters of a text, its start and its end. -/
def boundaries (source : String) : Set Nat := {n | String.Pos.Raw.IsValid source ⟨n⟩}

/-- The line terminators of a text that end up to an offset. -/
def terminatorsUpTo (source : String) (offset : Nat) : Set Terminator :=
  {t | t.IsIn source.toList ∧ t.stop ≤ offset}

/-- A position stands for an offset, by what is in the text before it. -/
structure Position.Counts (p : Position) (source : String) (offset : Nat) : Prop where
  /-- An offset inside a character or past the end is moved back. -/
  offset_greatest :
    IsGreatest {n | n ∈ boundaries source ∧ n ≤ min offset source.utf8ByteSize} p.offset
  line_eq : p.line = 1 + (terminatorsUpTo source p.offset).ncard
  /-- A line starts where the last terminator ends, the first line at the start of the text. -/
  column_eq : ∃ start,
    IsGreatest (insert 0 (Terminator.stop '' terminatorsUpTo source p.offset)) start ∧
      p.column = 1 + (Span.slice ⟨start, p.offset⟩ source).length

section

variable {source : String} {pre post d : List Char} {offset : Nat} {ts : List Terminator}

theorem terminatorsUpTo_eq (h : source.toList = pre ++ post) :
    terminatorsUpTo source (utf8Length pre) = {t | t ∈ terminatorsFrom [] post.head? pre} := by
  ext t
  have hfilter := filter_terminatorsFrom [] pre post none
  rw [Option.or_none, ← h, List.nil_append] at hfilter
  rw [terminatorsUpTo, Set.mem_ofPred_eq, Set.mem_ofPred_eq, ← hfilter, List.mem_filter,
    decide_eq_true_eq, ← mem_terminators_iff, terminators]

theorem ncard_setOf_mem (h : ts.Pairwise fun t u => t.stop < u.stop) :
    {t | t ∈ ts}.ncard = ts.length := by
  have hnodup : ts.Nodup := h.imp fun hlt heq => Nat.ne_of_lt hlt (congrArg Terminator.stop heq)
  rw [← List.coe_toFinset, Set.ncard_coe_finset, List.toFinset_card_of_nodup hnodup]

theorem isGreatest_lastStop (h : ts.Pairwise fun t u => t.stop < u.stop) :
    IsGreatest (insert 0 (Terminator.stop '' {t | t ∈ ts})) (lastStop ts) := by
  rcases List.eq_nil_or_concat' ts with rfl | ⟨us, u, rfl⟩
  · exact ⟨.inl rfl, by simp [upperBounds, lastStop]⟩
  · have hlast : lastStop (us ++ [u]) = u.stop := by simp [lastStop]
    rw [hlast]
    refine ⟨.inr ⟨u, by simp, rfl⟩, ?_⟩
    rintro stop (rfl | ⟨t, ht, rfl⟩)
    · exact Nat.zero_le _
    · rcases List.mem_append.1 ht with ht | ht
      · exact Nat.le_of_lt (List.pairwise_append.1 h |>.2.2 t ht u (List.mem_singleton_self u))
      · rw [List.mem_singleton.1 ht]

/-- The position between two parts of a text. -/
theorem counts_passAll (h : source.toList = pre ++ post) (hle : utf8Length pre ≤ offset)
    (hlt : ∀ c ∈ post.head?, offset < utf8Length pre + c.utf8Size) :
    (Position.origin.passAll post.head? pre).Counts source offset := by
  have hoffset : (Position.origin.passAll post.head? pre).offset = utf8Length pre := by
    rw [Position.offset_passAll, Position.origin, Nat.zero_add]
  have hordered := pairwise_terminatorsFrom [] post.head? pre
  obtain ⟨hline, a, b, rfl, hlast, hcolumn⟩ := Position.Tallies.of_append pre post
  constructor
  case offset_greatest =>
    have hvalid := isValid_of_toList_eq h
    have hsize := utf8Length_toList source
    rw [h, utf8Length_append] at hsize
    rw [hoffset]
    refine ⟨⟨hvalid, by omega⟩, ?_⟩
    rintro n ⟨hn, hmin⟩
    by_contra hmore
    have heq := LineTable.eq_of_isValid h hn (by omega) fun c hc =>
      Nat.lt_of_le_of_lt (Nat.le_trans hmin (Nat.min_le_left _ _)) (hlt c hc)
    omega
  case line_eq =>
    rw [hoffset, terminatorsUpTo_eq h, ncard_setOf_mem hordered, hline, Nat.add_comm]
  case column_eq =>
    refine ⟨utf8Length a, ?_, ?_⟩
    · rw [hoffset, terminatorsUpTo_eq h, ← hlast]
      exact isGreatest_lastStop hordered
    · have hslice := Span.slice_of_toList_eq (h.trans (List.append_assoc a b post))
      rw [hoffset, utf8Length_append, hslice, String.length_ofList, hcolumn, Nat.add_comm]

/-! ## Their order -/

theorem LineColumn.Before.trans {p q r : LineColumn} (hpq : p.Before q) (hqr : q.Before r) :
    p.Before r := by
  unfold Before at *
  omega

theorem Position.before_pass (p : Position) (c : Char) (next : Option Char) :
    p.lineColumn.Before (p.pass c next).lineColumn := by
  unfold pass
  split
  next => exact .inl (Nat.lt_succ_self _)
  next => exact .inr ⟨rfl, Nat.lt_succ_self _⟩

theorem Position.before_passAll (p : Position) (next : Option Char) {cs : List Char} (h : cs ≠ []) :
    p.lineColumn.Before (p.passAll next cs).lineColumn := by
  induction cs generalizing p with
  | nil => exact absurd rfl h
  | cons c cs ih =>
    rw [passAll_cons]
    have hfirst := p.before_pass c (cs.head?.or next)
    by_cases hcs : cs = []
    · rw [hcs] at hfirst ⊢
      exact hfirst
    · exact hfirst.trans (ih _ hcs)

/-- Positions between characters come one after the other. -/
theorem before_of_lt {o o' : Nat} (ho : o ∈ boundaries source) (ho' : o' ∈ boundaries source)
    (hlt : o < o') : ((Source.ofString source).position o).lineColumn.Before
      ((Source.ofString source).position o').lineColumn := by
  obtain ⟨a, b, hsplit, rfl⟩ := exists_of_isValid ho
  obtain ⟨a', b', hsplit', rfl⟩ := exists_of_isValid ho'
  rcases List.append_eq_append_iff.1 (hsplit.symm.trans hsplit') with ⟨d, rfl, rfl⟩ | ⟨d, rfl, rfl⟩
  · have hd : d ≠ [] := by
      rintro rfl
      rw [List.append_nil] at hlt
      exact Nat.lt_irrefl _ hlt
    rw [Source.ofString, hsplit, Source.position_eq_passAll, ← List.append_assoc,
      Source.position_eq_passAll, Position.passAll_append, List.head?_append]
    exact Position.before_passAll _ _ hd
  · rw [utf8Length_append] at hlt
    omega

end

namespace LineTable

/--
A table tells the position of each offset, and no look at the table or at the text fails on the way.
Positions between characters are in the order of the offsets, so no two are the same.
-/
theorem position_counts (source : String) :
    (∀ offset, ∃ p, (ofString source).position offset = .ok p ∧ p.Counts source offset) ∧
    (∀ o ∈ boundaries source, ∀ o' ∈ boundaries source, o < o' →
      ∃ p p', (ofString source).position o = .ok p ∧ (ofString source).position o' = .ok p' ∧
        p.lineColumn.Before p'.lineColumn) ∧
    Set.InjOn (fun o => ((ofString source).position o).map Position.lineColumn)
      (boundaries source) := by
  refine ⟨fun offset => ?_, fun o ho o' ho' hlt => ?_, fun o ho o' ho' heq => ?_⟩
  · obtain ⟨pre, post, htext, hposition, hle, hlt⟩ := exists_position source offset
    refine ⟨_, position_ofString source offset, ?_⟩
    rw [hposition]
    exact counts_passAll htext hle hlt
  · exact ⟨_, _, position_ofString source o, position_ofString source o', before_of_lt ho ho' hlt⟩
  · simp only [position_ofString, Except.map, Except.ok.injEq] at heq
    rcases Nat.lt_trichotomy o o' with hlt | rfl | hlt
    · exact absurd (before_of_lt ho ho' hlt) (LineColumn.Above.not_before (.inl heq.symm))
    · rfl
    · exact absurd (before_of_lt ho' ho hlt) (LineColumn.Above.not_before (.inl heq))

end LineTable

end MiniJava
