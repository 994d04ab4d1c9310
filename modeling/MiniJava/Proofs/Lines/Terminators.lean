import MiniJava.Proofs.Lexing.Tiling

/-!
# Line terminators

What ends a line is said of a place in a text, by the characters before and after it. The
terminators of a text in order are found by going through it, and positions and lines are told from
them.
-/

namespace MiniJava

/-! ## What ends a line -/

/--
What ends a line between the text before it and the text after it: the pair `\r\n`, or a `\n` or a
`\r` that belongs to no such pair.
-/
inductive Terminates (before : List Char) : List Char → List Char → Prop
  | pair {after : List Char} : Terminates before ['\r', '\n'] after
  | lineFeed {after : List Char} (h : before.getLast? ≠ some '\r') : Terminates before ['\n'] after
  | carriageReturn {after : List Char} (h : after.head? ≠ some '\n') :
      Terminates before ['\r'] after

/-- A line terminator: its characters, and the byte offset at which it ends. -/
structure Terminator where
  chars : List Char
  stop : Nat
deriving DecidableEq

namespace Terminator

/-- The terminator is one of a text. -/
def IsIn (t : Terminator) (cs : List Char) : Prop :=
  ∃ before after, cs = before ++ (t.chars ++ after) ∧ Terminates before t.chars after ∧
    t.stop = utf8Length (before ++ t.chars)

/-- The terminator that ends with the character `c` after the text `before`. -/
def endingWith (before : List Char) (c : Char) : Terminator where
  chars := if c = '\n' ∧ before.getLast? = some '\r' then ['\r', '\n'] else [c]
  stop := utf8Length (before ++ [c])

theorem exists_of_isIn {t : Terminator} {cs : List Char} (h : t.IsIn cs) :
    ∃ pre c post, cs = pre ++ c :: post ∧ Position.endsLine c post.head? ∧
      t = endingWith pre c := by
  obtain ⟨chars, stop⟩ := t
  obtain ⟨before, after, rfl, hends, hstop⟩ := h
  dsimp only at hends hstop ⊢
  subst hstop
  cases hends with
  | pair => exact ⟨before ++ ['\r'], '\n', after, by simp, rfl, by simp [endingWith]⟩
  | lineFeed h => exact ⟨before, '\n', after, rfl, rfl, by simp [endingWith, h]⟩
  | carriageReturn h =>
    exact ⟨before, '\r', after, rfl, by simpa [Position.endsLine] using h, by simp [endingWith]⟩

theorem isIn_endingWith (pre : List Char) {c : Char} {post : List Char}
    (h : Position.endsLine c post.head?) : (endingWith pre c).IsIn (pre ++ c :: post) := by
  simp only [Position.endsLine, Bool.or_eq_true, beq_iff_eq, Bool.and_eq_true, bne_iff_ne] at h
  rcases h with rfl | ⟨rfl, hnext⟩
  · by_cases hpair : pre.getLast? = some '\r'
    · obtain ⟨before, rfl⟩ := List.getLast?_eq_some_iff.1 hpair
      refine ⟨before, post, by simp [endingWith], ?_, by simp [endingWith]⟩
      rw [endingWith, if_pos ⟨rfl, hpair⟩]
      exact .pair
    · refine ⟨pre, post, by simp [endingWith, hpair], ?_, by simp [endingWith, hpair]⟩
      rw [endingWith, if_neg fun h => hpair h.2]
      exact .lineFeed hpair
  · refine ⟨pre, post, by simp [endingWith], ?_, by simp [endingWith]⟩
    rw [endingWith, if_neg (by simp)]
    exact .carriageReturn hnext

end Terminator

/-! ## All terminators of a text -/

/-- The terminators among some characters after the text `before`, if `next` comes after them. -/
def terminatorsFrom (before : List Char) (next : Option Char) : List Char → List Terminator
  | [] => []
  | c :: cs =>
    (if Position.endsLine c (cs.head?.or next) then [.endingWith before c] else []) ++
      terminatorsFrom (before ++ [c]) next cs

/-- The terminators of a text, in order. -/
def terminators (source : String) : List Terminator := terminatorsFrom [] none source.toList

section

variable {before cs ds pre post a b : List Char} {next : Option Char} {t : Terminator}

theorem mem_terminatorsFrom : t ∈ terminatorsFrom before next cs ↔
    ∃ pre c post, cs = pre ++ c :: post ∧ Position.endsLine c (post.head?.or next) ∧
      t = .endingWith (before ++ pre) c := by
  induction cs generalizing before with
  | nil => simp [terminatorsFrom]
  | cons d cs ih =>
    rw [terminatorsFrom, List.mem_append, ih]
    constructor
    · rintro (h | ⟨pre, c, post, rfl, hends, rfl⟩)
      · split at h
        next hends => exact ⟨[], d, cs, rfl, hends, by simpa using h⟩
        next => cases h
      · exact ⟨d :: pre, c, post, rfl, hends, by simp⟩
    · rintro ⟨pre, c, post, hsplit, hends, rfl⟩
      cases pre with
      | nil =>
        obtain ⟨rfl, rfl⟩ : d = c ∧ cs = post := by simpa using hsplit
        rw [if_pos hends]
        exact .inl (by simp)
      | cons e pre =>
        obtain ⟨rfl, rfl⟩ : d = e ∧ cs = pre ++ c :: post := by simpa using hsplit
        exact .inr ⟨pre, c, post, rfl, hends, by simp⟩

/-- Going through a text finds its terminators. -/
theorem mem_terminators_iff {source : String} :
    t ∈ terminators source ↔ t.IsIn source.toList := by
  rw [terminators, mem_terminatorsFrom]
  constructor
  · rintro ⟨pre, c, post, hsplit, hends, rfl⟩
    rw [Option.or_none] at hends
    rw [hsplit]
    exact Terminator.isIn_endingWith pre hends
  · intro h
    obtain ⟨pre, c, post, hsplit, hends, rfl⟩ := Terminator.exists_of_isIn h
    exact ⟨pre, c, post, hsplit, by rwa [Option.or_none], rfl⟩

theorem stop_of_mem_terminatorsFrom (h : t ∈ terminatorsFrom before next cs) :
    utf8Length before < t.stop ∧ t.stop ≤ utf8Length (before ++ cs) := by
  obtain ⟨pre, c, post, rfl, -, rfl⟩ := mem_terminatorsFrom.1 h
  have hpos := c.utf8Size_pos
  simp only [Terminator.endingWith, utf8Length_append, utf8Length_cons, utf8Length_nil]
  omega

/-- The terminators are found in order. -/
theorem pairwise_terminatorsFrom (before : List Char) (next : Option Char) (cs : List Char) :
    (terminatorsFrom before next cs).Pairwise fun t u => t.stop < u.stop := by
  induction cs generalizing before with
  | nil => exact .nil
  | cons c cs ih =>
    rw [terminatorsFrom, List.pairwise_append]
    refine ⟨by split <;> simp, ih _, fun t ht u hu => ?_⟩
    split at ht
    · rw [List.mem_singleton.1 ht]
      exact (stop_of_mem_terminatorsFrom hu).1
    · cases ht

theorem terminatorsFrom_append : terminatorsFrom before next (cs ++ ds) =
    terminatorsFrom before (ds.head?.or next) cs ++ terminatorsFrom (before ++ cs) next ds := by
  induction cs generalizing before with
  | nil => simp [terminatorsFrom]
  | cons c cs ih =>
    rw [List.cons_append, terminatorsFrom, terminatorsFrom, ih, List.head?_append, Option.or_assoc]
    simp

/-- The terminators that end up to a place in a text are those before it. -/
theorem filter_terminatorsFrom (before pre post : List Char) (next : Option Char) :
    (terminatorsFrom before next (pre ++ post)).filter (·.stop ≤ utf8Length (before ++ pre)) =
      terminatorsFrom before (post.head?.or next) pre := by
  have hfirst : ∀ t ∈ terminatorsFrom before (post.head?.or next) pre,
      decide (t.stop ≤ utf8Length (before ++ pre)) = true :=
    fun t ht => decide_eq_true (stop_of_mem_terminatorsFrom ht).2
  have hlater : ∀ t ∈ terminatorsFrom (before ++ pre) next post,
      ¬ decide (t.stop ≤ utf8Length (before ++ pre)) = true := by
    intro t ht hle
    have hlt := (stop_of_mem_terminatorsFrom ht).1
    exact Nat.not_le_of_lt hlt (of_decide_eq_true hle)
  rw [terminatorsFrom_append, List.filter_append, List.filter_eq_self.2 hfirst,
    List.filter_eq_nil_iff.2 hlater, List.append_nil]

/-! ## Positions -/

/-- The byte offset at which the last of some terminators ends, or else the start of the text. -/
def lastStop (ts : List Terminator) : Nat := (ts.getLast?.map Terminator.stop).getD 0

/-- The position counts the terminators of the text before it, and the characters since the last. -/
structure Position.Tallies (p : Position) (ts : List Terminator) (before : List Char) : Prop where
  line_eq : p.line = ts.length + 1
  column_eq : ∃ a b, before = a ++ b ∧ lastStop ts = utf8Length a ∧ p.column = b.length + 1

namespace Position.Tallies

variable {p : Position} {ts : List Terminator}

theorem origin : Position.origin.Tallies [] [] := ⟨rfl, [], [], rfl, rfl, rfl⟩

theorem pass (h : p.Tallies ts before) (c : Char) (next : Option Char) :
    (p.pass c next).Tallies
      (ts ++ if Position.endsLine c next then [.endingWith before c] else []) (before ++ [c]) := by
  obtain ⟨a, b, hbefore, hstart, hcolumn⟩ := h.column_eq
  unfold Position.pass
  split
  next =>
    refine ⟨by simp [h.line_eq], before ++ [c], [], by simp, ?_, rfl⟩
    simp [lastStop, Terminator.endingWith]
  next =>
    rw [List.append_nil]
    refine ⟨h.line_eq, a, b ++ [c], by rw [hbefore, List.append_assoc], hstart, ?_⟩
    rw [hcolumn, List.length_append, List.length_singleton]

theorem passAll (h : p.Tallies ts before) (next : Option Char) (cs : List Char) :
    (p.passAll next cs).Tallies (ts ++ terminatorsFrom before next cs) (before ++ cs) := by
  induction cs generalizing p ts before with
  | nil => simpa [terminatorsFrom, Position.passAll] using h
  | cons c cs ih =>
    have hrest := ih (h.pass c (cs.head?.or next))
    rw [List.append_assoc, List.append_assoc, List.singleton_append] at hrest
    rwa [terminatorsFrom, passAll_cons]

/-- The position before some part of a text counts the terminators before that part. -/
theorem of_append (pre post : List Char) : (Position.origin.passAll post.head? pre).Tallies
    (terminatorsFrom [] post.head? pre) pre := by
  simpa using origin.passAll post.head? pre

end Position.Tallies

/-! ## Lines -/

/-- The byte offsets at which some lines start. -/
def Line.starts (offset : Nat) : List Line → List Nat
  | [] => []
  | l :: ls => offset :: starts (offset + utf8Length l.chars) ls

theorem Line.length_starts (offset : Nat) (ls : List Line) :
    (starts offset ls).length = ls.length := by
  induction ls generalizing offset with
  | nil => rfl
  | cons l ls ih => rw [starts, List.length_cons, ih, List.length_cons]

theorem Line.starts_append (offset : Nat) (ls ms : List Line) : starts offset (ls ++ ms) =
    starts offset ls ++ starts (offset + utf8Length (ls.flatMap chars)) ms := by
  induction ls generalizing offset with
  | nil => rfl
  | cons l ls ih =>
    rw [List.cons_append, starts, ih, starts, List.flatMap_cons, utf8Length_append,
      Nat.add_assoc, List.cons_append]

theorem Line.split_ne_nil (breaks : Char → Bool) (cs : List Char) : split breaks cs ≠ [] := by
  fun_induction split breaks cs with
  | case4 c cs _ _ ih => cases h : split breaks cs <;> simp [consFirst]
  | _ => simp

theorem terminatorsFrom_pair : terminatorsFrom before next ('\r' :: '\n' :: cs) =
    .endingWith (before ++ ['\r']) '\n' :: terminatorsFrom (before ++ ['\r', '\n']) next cs := by
  simp [terminatorsFrom, Position.endsLine]

theorem terminatorsFrom_break {c : Char} (hc : Source.isBreak c)
    (hpair : ∀ cs', c = '\r' → cs = '\n' :: cs' → False) : terminatorsFrom before none (c :: cs) =
      .endingWith before c :: terminatorsFrom (before ++ [c]) none cs := by
  have hends : Position.endsLine c (cs.head?.or none) := by
    rcases (Element.isBreak_iff c).1 hc with rfl | rfl
    · cases cs with
      | nil => rfl
      | cons d cs =>
        have hd : d ≠ '\n' := fun hd => hpair cs rfl (by rw [hd])
        simpa [Position.endsLine] using hd
    · rfl
  rw [terminatorsFrom, if_pos hends, List.singleton_append]

theorem terminatorsFrom_other {c : Char} (hc : ¬ Source.isBreak c) :
    terminatorsFrom before next (c :: cs) = terminatorsFrom (before ++ [c]) next cs := by
  have hends : ¬ Position.endsLine c (cs.head?.or next) := by
    obtain ⟨hr, hn⟩ := not_or.1 (mt (Element.isBreak_iff c).2 hc)
    simp [Position.endsLine, hr, hn]
  rw [terminatorsFrom, if_neg hends, List.nil_append]

namespace Line

/-- What stands on a line ends no line, and its ending does nothing else. -/
theorem forall_mem_split (cs : List Char) : ∀ l ∈ split Source.isBreak cs,
    (∀ c ∈ l.text, ¬ Source.isBreak c) ∧ ∀ c ∈ l.ending, Source.isBreak c := by
  fun_induction split Source.isBreak cs with
  | case1 => simp
  | case2 cs ih => exact List.forall_mem_cons.2 ⟨by simp [Source.isBreak], ih⟩
  | case3 c cs _ hbreak ih => exact List.forall_mem_cons.2 ⟨by simp [hbreak], ih⟩
  | case4 c cs _ hbreak ih =>
    obtain ⟨l, ls, hsplit⟩ := List.exists_cons_of_ne_nil (split_ne_nil Source.isBreak cs)
    rw [hsplit, List.forall_mem_cons] at ih
    rw [hsplit, consFirst, List.forall_mem_cons]
    exact ⟨⟨List.forall_mem_cons.2 ⟨hbreak, ih.1.1⟩, ih.1.2⟩, ih.2⟩

/-- A line starts at the start of the text and after each terminator. -/
theorem starts_split (before cs : List Char) :
    starts (utf8Length before) (split Source.isBreak cs) =
      utf8Length before :: (terminatorsFrom before none cs).map Terminator.stop := by
  fun_induction split Source.isBreak cs generalizing before with
  | case1 => rfl
  | case2 cs ih =>
    rw [terminatorsFrom_pair, List.map_cons, starts, ← utf8Length_append]
    simpa [chars, Terminator.endingWith] using ih (before ++ ['\r', '\n'])
  | case3 c cs hpair hbreak ih =>
    rw [terminatorsFrom_break hbreak hpair, List.map_cons, starts, ← utf8Length_append]
    simpa [chars, Terminator.endingWith] using ih (before ++ [c])
  | case4 c cs hpair hbreak ih =>
    obtain ⟨l, ls, hsplit⟩ := List.exists_cons_of_ne_nil (split_ne_nil Source.isBreak cs)
    have hrest := ih (before ++ [c])
    rw [hsplit, starts, List.cons.injEq] at hrest
    rw [terminatorsFrom_other hbreak, ← hrest.2, hsplit, consFirst, starts]
    simp [chars, utf8Length_append, Nat.add_assoc]

/-- Each line but the last one has the characters of a terminator as its ending. -/
theorem map_ending_split (h : cs.head? = some '\n' → before.getLast? ≠ some '\r') :
    (split Source.isBreak cs).map ending =
      (terminatorsFrom before none cs).map Terminator.chars ++ [[]] := by
  fun_induction split Source.isBreak cs generalizing before with
  | case1 => rfl
  | case2 cs ih =>
    have hnext : cs.head? = some '\n' → (before ++ ['\r', '\n']).getLast? ≠ some '\r' := by simp
    rw [terminatorsFrom_pair, List.map_cons, List.map_cons, ih hnext]
    simp [Terminator.endingWith]
  | case3 c cs hpair hbreak ih =>
    have hnext : cs.head? = some '\n' → (before ++ [c]).getLast? ≠ some '\r' := by
      intro hhead hlast
      obtain ⟨cs', rfl⟩ := List.head?_eq_some_iff.1 hhead
      exact hpair cs' (by simpa using hlast) rfl
    rw [terminatorsFrom_break hbreak hpair, List.map_cons, List.map_cons, ih hnext]
    have hsingle : ¬ (c = '\n' ∧ before.getLast? = some '\r') := by
      rintro ⟨rfl, hlast⟩
      exact h rfl hlast
    simp [Terminator.endingWith, hsingle]
  | case4 c cs hpair hbreak ih =>
    obtain ⟨l, ls, hsplit⟩ := List.exists_cons_of_ne_nil (split_ne_nil Source.isBreak cs)
    have hother : (before ++ [c]).getLast? ≠ some '\r' := by
      simp only [List.getLast?_append, List.getLast?_singleton, Option.some_or]
      rintro heq
      rw [Option.some.inj heq] at hbreak
      exact hbreak rfl
    have hrest := ih fun _ => hother
    rw [hsplit] at hrest
    rw [terminatorsFrom_other hbreak, ← hrest, hsplit]
    rfl

end Line

namespace Source

/-- There is one line more than there are terminators. -/
theorem lineCount_eq (source : String) :
    (ofString source).lineCount = (terminators source).length + 1 := by
  have hlength := congrArg List.length (Line.starts_split [] source.toList)
  rwa [Line.length_starts, List.length_cons, List.length_map] at hlength

/-- The end of a text is on its last line. -/
theorem line_passAll (source : String) :
    (Position.origin.passAll none source.toList).line = (ofString source).lineCount := by
  rw [lineCount_eq]
  exact (Position.Tallies.of_append source.toList []).line_eq

end Source

end

end MiniJava
