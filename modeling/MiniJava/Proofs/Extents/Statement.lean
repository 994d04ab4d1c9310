import MiniJava.Proofs.Extents.Expression
import MiniJava.Proofs.Grammar.Recurs
import MiniJava.Proofs.Statement.Sound

/-!
# Where statements stand

A statement goes from the first to the last token that was taken for it, skipped ones included.
Skipping takes a token in any case where a statement could stand, so that no statement in a list is
empty.
-/

namespace MiniJava

/-- The statement was read from `ys` between two places of the text. -/
structure Stmt.At (source : String) (c : Cursor) (ys : List Terminal) (s : Stmt) (d : Cursor)
    (fs : List Fault) : Prop where
  passage : Passage source c ys d
  taken : ys ≠ []
  span_eq : s.span = ⟨c.nextStart, d.lastStop⟩
  yield_eq : fs = [] → ys = s.yield
  extents : Extents source s.nodes fs

namespace Stmt.At

variable {source : String} {c d : Cursor} {ys : List Terminal} {s : Stmt} {fs : List Fault}
  {ns : List Node}

theorem stretch (h : s.At source c ys d fs) : Stretch source c [s.span] d := by
  rw [h.span_eq]
  exact h.passage.stretch_span h.taken

theorem of_parts (hp : Passage source c ys d) (hys : ys ≠ [])
    (hspan : s.span = ⟨c.nextStart, d.lastStop⟩) (hyield : fs = [] → ys = s.yield)
    (hnodes : s.nodes = .stmt s :: ns) (hnested : (Node.stmt s).Nested)
    (hns : Extents source ns fs) : s.At source c ys d fs := by
  refine ⟨hp, hys, hspan, hyield, ?_⟩
  rw [hnodes]
  exact hns.cons_of_passage hp hys (by rw [Node.extents, hspan]) hyield hnested

end Stmt.At

namespace Region

/-- Skipping takes a token of this kind; in a class or a block, the brace that closes it stays. -/
def Takes (region : Region) (kind : TokenKind) : Prop :=
  kind ≠ .endOfInput ∧ (region = .toplevel ∨ kind ≠ .rightBrace)

theorem skip_pos {region : Region} {t : Token} (ts : List Token) (h : region.Takes t.kind) :
    0 < region.skip false (t :: ts) := by
  cases region with
  | statements =>
    have hk := h.2.resolve_left nofun
    simp only [skip, skipStatement, hk, if_false, Bool.false_eq_true, false_and]
    split <;> exact Nat.succ_pos _
  | members =>
    have hk := h.2.resolve_left nofun
    simp only [skip, skipMember, hk, if_false, Bool.false_eq_true, false_and, and_false]
    split
    · exact Nat.succ_pos _
    · split <;> exact Nat.succ_pos _
  | toplevel => exact Nat.succ_pos _

end Region

namespace Parse

open Reader Reading Terminal

variable {ε : Type} {source : String} {E : ε → Prop} {inner : Reader Fault Stmt} {room : Nat}
  {origin c : Cursor} {ys : List Terminal}

/-! ## Statements without others inside -/

theorem advances_assignmentTo {name : String} (hname : Passage source origin [.ident name] c) :
    (assignmentTo origin.nextStart name c).Advances source (Fault.Holds source) c
      fun ys s d fs => s.At source origin (.ident name :: ys) d fs := by
  rw [assignmentTo, look_bind]
  generalize hk : c.current.kind = kind
  split
  next =>
    refine advances_advance_word_bind hk rfl fun hd => ?_
    apply advances_bind (advances_expression source _)
    rintro ys e d fs - ⟨rfl, rfl, he⟩
    refine advances_expect_bind rfl fun d' hd' => ?_
    have hp := hname.trans (hd.trans (he.passage.trans hd'))
    refine advances_spanFrom_bind hp (by simp) rfl (advances_pure ?_)
    exact .of_parts hp (List.cons_ne_nil _ _) rfl (fun _ => rfl) rfl
      ((hname.trans hd).stretch.trans (he.stretch.trans hd'.stretch)).row he.extents
  next =>
    refine advances_advance_word_bind hk rfl fun hd => ?_
    apply advances_bind (advances_expression source _)
    rintro ys i d fs - ⟨rfl, rfl, hi⟩
    refine advances_expect_bind rfl fun d' hd' => advances_expect_bind rfl fun d'' hd'' => ?_
    apply advances_bind (advances_expression source _)
    rintro ys e d''' fs - ⟨rfl, rfl, he⟩
    refine advances_expect_bind rfl fun d₄ hd₄ => ?_
    have hp := hname.trans (hd.trans (hi.passage.trans
      ((hd'.trans hd'').trans (he.passage.trans hd₄))))
    refine advances_spanFrom_bind hp (by simp) rfl (advances_pure ?_)
    have hrow := ((hname.trans hd).stretch.trans (hi.stretch.trans
      ((hd'.trans hd'').stretch.trans (he.stretch.trans hd₄.stretch)))).row
    exact .of_parts hp (List.cons_ne_nil _ _) rfl (fun _ => rfl) rfl hrow
      (hi.extents.append he.extents)
  next hassign hbracket =>
    exact advances_failUnexpected
      (fun _ => by simpa [Expectation.Admits, hk] using ⟨hassign, hbracket⟩) _

theorem advances_assignment (source : String) (c : Cursor) :
    (assignment c).Advances source (Fault.Holds source) c (Stmt.At source c) :=
  advances_expect_identifier_bind fun _ => advances_assignmentTo

theorem advances_printStatement (source : String) (c : Cursor) :
    (printStatement c).Advances source (Fault.Holds source) c (Stmt.At source c) := by
  refine advances_expect_bind rfl fun d hd => ?_
  apply advances_bind (advances_parenthesized source d)
  rintro ys e d' fs hvalue ⟨rfl, rfl, he, hns⟩
  refine advances_expect_bind rfl fun d'' hd' => ?_
  have hp := hd.trans (hvalue.trans hd')
  refine advances_spanFrom_bind hp (by simp) rfl (advances_pure ?_)
  exact .of_parts hp (List.cons_ne_nil _ _) rfl (fun _ => by simp [Stmt.yield]) rfl
    (hd.stretch.trans (he.trans hd'.stretch)).row hns

/-- What holds of a `recur` that was read from `c` on. -/
def RecurAt (source : String) (c : Cursor) : Post Recur := fun ys r d fs =>
  fs = [] ∧ ys = r.yield ∧ r.span = ⟨c.nextStart, d.lastStop⟩ ∧ Extents source r.nodes []

theorem advances_recur (source : String) (c : Cursor) :
    (recur c).Advances source (Fault.Holds source) c (RecurAt source c) := by
  refine advances_expect_bind rfl fun d hd => ?_
  apply advances_bind (advances_parenthesized source d)
  rintro ys e d' fs hcond ⟨rfl, rfl, he, hens⟩
  refine advances_expect_bind rfl fun d₁ h₁ => advances_expect_bind rfl fun d₂ h₂ => ?_
  apply advances_bind (advances_arguments source d₂)
  rintro ys es d₃ fs hargs ⟨rfl, rfl, hes, hesns⟩
  refine advances_expect_bind rfl fun d₄ h₄ => advances_expect_bind rfl fun d₅ h₅ => ?_
  apply advances_bind (advances_expression source d₅)
  rintro ys f d₆ fs - ⟨rfl, rfl, hf⟩
  refine advances_expect_bind rfl fun d₇ h₇ => ?_
  have hp := hd.trans (hcond.trans ((h₁.trans h₂).trans (hargs.trans
    ((h₄.trans h₅).trans (hf.passage.trans h₇)))))
  refine advances_spanFrom_bind hp (by simp) rfl
    (advances_pure ⟨rfl, by simp [Recur.yield], rfl, ?_⟩)
  have hrow := (hd.stretch.trans (he.trans ((h₁.trans h₂).stretch.trans (hes.trans
    ((h₄.trans h₅).stretch.trans (hf.stretch.trans h₇.stretch)))))).row
  refine (hens.append (hesns.append hf.extents)).cons_of_passage hp (by simp) rfl
    (fun _ => by simp [Recur.yield]) ?_
  simpa [Node.Nested] using hrow

theorem advances_recurStatement (source : String) (c : Cursor) :
    (recurStatement c).Advances source (Fault.Holds source) c (Stmt.At source c) := by
  apply advances_bind (advances_recur source c)
  rintro ys r d fs hp ⟨rfl, rfl, hspan, hns⟩
  refine advances_pure ?_
  rw [List.append_nil, List.append_nil]
  exact .of_parts hp (List.cons_ne_nil _ _) hspan (fun _ => rfl) rfl trivial hns

/-! ## Recovery -/

/-- After a fault, reading moves on wherever the faulty construct could have stood. -/
theorem advances_recover {region : Region} {fault : Fault} (hp : Passage source origin ys c)
    (hfault : fault.Holds source) :
    ((recover region origin fault : Reader ε Unit) c).Advances source E c fun zs _ _ fs =>
      fs ≠ [] ∧ (region.Takes origin.current.kind → ys ++ zs ≠ []) := by
  refine advances_report_bind (fun _ => hfault) ((advances_resync region origin c).mono ?_)
  rintro zs _ d fs ⟨rfl, hlen⟩
  refine ⟨by simp, fun htakes hnil => ?_⟩
  obtain ⟨rfl, rfl⟩ := List.append_eq_nil_iff.1 hnil
  obtain ⟨taken, hahead, htaken, htokens⟩ := hp.reaches
  rw [List.map_eq_nil_iff.1 htaken, List.nil_append] at hahead
  obtain ⟨ts, hts⟩ := Cursor.exists_ahead_eq htakes.1
  have hmoved : ¬ origin.pos < c.pos := by
    refine mt (Cursor.room_lt_room htokens (by simp [hts])) ?_
    rw [c.room_eq, origin.room_eq, hahead]
    exact Nat.lt_irrefl _
  have hpos := Region.skip_pos ts htakes
  rw [decide_eq_false hmoved, ← hahead, hts, List.length_nil, List.length_cons] at hlen
  omega

theorem takes_of_atListEnd (h : atListEnd c = false) :
    Region.statements.Takes c.current.kind := by
  refine ⟨fun hk => ?_, .inr fun hk => ?_⟩ <;> simp [atListEnd, hk] at h

/-- Where a statement could stand, one is read or some tokens are skipped. -/
theorem advances_recovering
    (h : (inner c).Advances source (Fault.Holds source) c (Stmt.At source c)) :
    ((recovering inner : Reader ε Stmt) c).Advances source E c fun ys s d fs =>
      Extents source s.nodes fs ∧ (atListEnd c = false → s.At source c ys d fs) := by
  rw [recovering, here_bind]
  apply advances_rescue (h.mono fun _ _ _ _ hs => ⟨hs.extents, fun _ => hs⟩)
  intro fault ys d fs hfault hp
  apply advances_bind (advances_recover hp hfault)
  rintro zs _ d' gs hp' ⟨hgs, htaken⟩
  have hpass := hp.trans hp'
  have hvalid := hp.origin.valid_spanFrom hp'.goal
  have hfaulty : fs ++ (gs ++ []) ≠ [] := by simp [hgs]
  refine advances_pure ⟨.of_faulty (List.forall_mem_singleton.2
    ⟨List.forall_mem_singleton.2 hvalid, trivial⟩) hfaulty, fun hend => ?_⟩
  have htaken := htaken (takes_of_atListEnd hend)
  have hlt := hpass.lt htaken
  rw [List.append_nil]
  refine .of_parts hpass htaken ?_ (fun hnil => absurd hnil hfaulty) rfl trivial .nil
  change (⟨c.nextStart, max c.nextStart d'.lastStop⟩ : Span) = _
  rw [Nat.max_eq_right (Nat.le_of_lt hlt)]
  rfl

/-- What holds of statements that were read from `c` on, up to where no further one can stand. -/
def StatementsAt (source : String) (c : Cursor) : Post (List Stmt) := fun ys ss d fs =>
  (fs = [] → ys = ss.flatMap Stmt.yield) ∧ Stretch source c (ss.map Stmt.span) d ∧
    Extents source (ss.flatMap Stmt.nodes) fs

theorem atListEnd_of_ahead_eq_nil (hnil : c.ahead = []) : atListEnd c = true := by
  rw [atListEnd, Cursor.kind_current_of_ahead_eq_nil hnil]

theorem advances_manyStatements (h : ∀ d : Cursor, d.ahead.length ≤ room →
      (inner d).Advances source (Fault.Holds source) d (Stmt.At source d))
    (hc : c.ahead.length ≤ room) :
    ((manyUntil atListEnd (recovering inner) room : Reader ε (List Stmt)) c).Advances source E c
      (StatementsAt source c) := by
  refine advances_manyUntil (I := Stmt.At source) (fun d _ => atListEnd_of_ahead_eq_nil)
    (fun d hd _ => ⟨fun _ => rfl, (Passage.refl hd).stretch, .nil⟩) ?_ (fun d hd hend => ?_) hc hc
  · rintro c ys s d fs zs ss e gs - - hs ⟨hyield, hss, hns⟩
    refine ⟨fun hnil => ?_, hs.stretch.trans hss, hs.extents.append hns⟩
    obtain ⟨hf, hg⟩ := List.append_eq_nil_iff.1 hnil
    rw [hs.yield_eq hf, hyield hg, List.flatMap_cons]
  · exact (advances_recovering (h d hd)).mono fun _ _ _ _ hs => ⟨(hs.2 hend).taken, hs.2 hend⟩

/-! ## Statements with others inside -/

theorem advances_blockOf (h : ∀ d : Cursor, d.ahead.length ≤ room →
      (inner d).Advances source (Fault.Holds source) d (Stmt.At source d))
    (hk : c.current.kind = .leftBrace) (hc : c.ahead.length ≤ room + 1) :
    (blockOf inner room c).Advances source (Fault.Holds source) c (Stmt.At source c) := by
  refine advances_advance_word_bind hk rfl fun hd => ?_
  apply advances_bind (advances_manyStatements h (hd.reaches.length_ahead_lt (by simp) hc))
  rintro ys ss d fs hss ⟨hyield, hstretch, hns⟩
  refine advances_expect_bind rfl fun d' hd' => ?_
  have hp := hd.trans (hss.trans hd')
  refine advances_spanFrom_bind hp (by simp) rfl (advances_pure ?_)
  rw [List.append_nil]
  have hrow := (hd.stretch.trans (hstretch.trans hd'.stretch)).row
  refine .of_parts hp (List.cons_ne_nil _ _) rfl (fun hf => ?_) rfl ?_ ?_
  · rw [hyield hf, Stmt.yield, Stmt.yieldList_eq]
  · simpa [Node.Nested] using hrow
  · rwa [Stmt.nodesList_eq]

/-- What holds of the second branch of an `if` that was read, or that stands in for one. -/
def BranchAt (source : String) (c : Cursor) : Post Stmt := fun ys s d fs =>
  (fs = [] → ys = word .elseKw :: s.yield) ∧ Extents source s.nodes fs ∧
    (Stretch source c [s.span] d ∨ s.IsMissing)

theorem advances_missingElse (hk : c.current.kind ≠ .elseKw) :
    (missingElse c).Advances source (Fault.Holds source) c (BranchAt source c) := by
  rw [missingElse, look_bind]
  refine .of_place fun hc => advances_report_bind (fun _ => holds_of_kind_ne hc rfl hk _)
    (advances_pure ⟨by simp, .of_faulty ?_ (List.cons_ne_nil _ _), .inr ⟨_, rfl⟩⟩)
  exact List.forall_mem_singleton.2 ⟨List.forall_mem_singleton.2 hc.valid_point, trivial⟩

theorem advances_elseBranchOf (h : ∀ d : Cursor, d.ahead.length ≤ room →
      (inner d).Advances source (Fault.Holds source) d (Stmt.At source d))
    (hc : c.ahead.length ≤ room) :
    (elseBranchOf inner c).Advances source (Fault.Holds source) c (BranchAt source c) := by
  refine advances_eat_bind rfl (fun d hd => ?_) fun hk => advances_missingElse hk
  apply (h d (hd.reaches.length_ahead_le hc)).mono
  intro ys s d' fs hs
  refine ⟨fun hf => ?_, hs.extents, .inl (hd.stretch.trans hs.stretch)⟩
  rw [hs.yield_eq hf]

theorem advances_ifElseOf (h : ∀ d : Cursor, d.ahead.length ≤ room →
      (inner d).Advances source (Fault.Holds source) d (Stmt.At source d))
    (hk : c.current.kind = .ifKw) (hc : c.ahead.length ≤ room + 1) :
    (ifElseOf inner c).Advances source (Fault.Holds source) c (Stmt.At source c) := by
  refine advances_advance_word_bind hk rfl fun hd => ?_
  apply advances_bind (advances_parenthesized source _)
  rintro ys e d fs hcond ⟨rfl, rfl, he, hens⟩
  have hlen := (hd.trans hcond).reaches.length_ahead_lt (by simp) hc
  apply advances_bind (h d hlen)
  intro ys s d' fs hthen hs
  apply advances_bind (advances_elseBranchOf h (hthen.reaches.length_ahead_le hlen))
  rintro zs t d'' gs helse ⟨hyield, htns, hbranch⟩
  have hp := hd.trans (hcond.trans (hthen.trans helse))
  refine advances_spanFrom_bind hp (by simp) rfl (advances_pure ?_)
  have hall := hens.append (hs.extents.append htns)
  refine .of_parts (by simpa using hp) (by simp) rfl (fun hf => ?_) rfl ?_ (by simpa using hall)
  · obtain ⟨hf, hg⟩ : fs = [] ∧ gs = [] := by simpa using hf
    rw [hs.yield_eq hf, hyield hg]
    simp [Stmt.yield]
  · refine hbranch.imp (fun ht => ?_) fun hmissing => ⟨?_, hmissing⟩
    · exact (hd.stretch.trans (he.trans (hs.stretch.trans ht))).row
    · exact (hd.stretch.trans (he.trans (hs.stretch.trans helse.stretch))).row

theorem advances_whileLoopOf (h : ∀ d : Cursor, d.ahead.length ≤ room →
      (inner d).Advances source (Fault.Holds source) d (Stmt.At source d))
    (hk : c.current.kind = .whileKw) (hc : c.ahead.length ≤ room + 1) :
    (whileLoopOf inner c).Advances source (Fault.Holds source) c (Stmt.At source c) := by
  refine advances_advance_word_bind hk rfl fun hd => ?_
  apply advances_bind (advances_parenthesized source _)
  rintro ys e d fs hcond ⟨rfl, rfl, he, hens⟩
  apply advances_bind (h d ((hd.trans hcond).reaches.length_ahead_lt (by simp) hc))
  intro ys s d' fs hbody hs
  have hp := hd.trans (hcond.trans hbody)
  refine advances_spanFrom_bind hp (by simp) rfl (advances_pure ?_)
  refine .of_parts (by simpa using hp) (by simp) rfl (fun hf => ?_) rfl
    (hd.stretch.trans (he.trans hs.stretch)).row (by simpa using hens.append hs.extents)
  rw [hs.yield_eq (by simpa using hf)]
  simp [Stmt.yield]

theorem advances_statementOf (h : ∀ d : Cursor, d.ahead.length ≤ room →
      (inner d).Advances source (Fault.Holds source) d (Stmt.At source d))
    (hc : c.ahead.length ≤ room + 1) :
    (statementOf inner room c).Advances source (Fault.Holds source) c (Stmt.At source c) := by
  rw [statementOf, look_bind]
  generalize hk : c.current.kind = kind
  split
  next => exact advances_blockOf h hk hc
  next => exact advances_ifElseOf h hk hc
  next => exact advances_whileLoopOf h hk hc
  next => exact advances_printStatement source c
  next => exact advances_assignment source c
  next => exact advances_recurStatement source c
  next h₁ h₂ h₃ h₄ h₅ h₆ =>
    refine advances_failUnexpected (fun _ => ?_) _
    simpa [statementStart, Expectation.Admits, hk] using ⟨h₁, h₂, h₃, h₄, h₅, h₆⟩

theorem advances_statementWithin (room : Nat) {c : Cursor} (hc : c.ahead.length ≤ room) :
    (statementWithin room c).Advances source (Fault.Holds source) c (Stmt.At source c) := by
  induction room generalizing c with
  | zero =>
    have hk := Cursor.kind_current_of_ahead_eq_nil (List.length_eq_zero_iff.1 (Nat.le_zero.1 hc))
    rw [statementWithin_of_endOfInput hk]
    exact advances_failUnexpected (fun _ => by simp [statementStart, Expectation.Admits, hk]) _
  | succ room ih => exact advances_statementOf (fun _ => ih) hc

theorem advances_statement (source : String) (c : Cursor) :
    (statement c).Advances source (Fault.Holds source) c (Stmt.At source c) :=
  advances_statementWithin c.room c.length_le_room

theorem advances_statements (source : String) (c : Cursor) :
    ((statements : Reader ε (List Stmt)) c).Advances source E c (StatementsAt source c) :=
  advances_manyStatements (fun d _ => advances_statement source d) c.length_le_room

/-- Each `recur` that is reported has its place in the text. -/
theorem advances_reportRecurs {rs : List Recur} {ns : List Node} {fs : List Fault}
    (hns : Extents source ns fs) (hrs : recurStatements ns = rs) (c : Cursor) :
    ((reportRecurs rs : Reader ε Unit) c).Advances source E c fun ys _ d fs =>
      ys = [] ∧ d = c ∧ fs = misplacedRecurs rs := by
  have hfaults : (rs.map fun r => Entry.fault (.misplaced .recurEndsMethod r.span)).filterMap
      Entry.fault? = misplacedRecurs rs := by
    simp [misplacedRecurs, Entry.fault?, List.filterMap_map, Function.comp_def]
  refine advances_noteAll (fun _ => ?_) ⟨rfl, rfl, hfaults⟩
  refine List.forall_mem_map.2 fun r hr => ?_
  rw [← hrs] at hr
  obtain ⟨n, hn, hnr⟩ := List.mem_filterMap.1 hr
  unfold Node.recurStatement? at hnr
  split at hnr
  next =>
    cases hnr
    exact (hns.placed _ hn).valid _ List.mem_cons_self
  next => cases hnr

end Parse

end MiniJava
