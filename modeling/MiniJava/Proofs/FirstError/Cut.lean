import Mathlib.Data.List.Forall2
import MiniJava.Proofs.FirstError.Onward
import MiniJava.Proofs.Reading.Advances

/-!
# Two readings of texts that begin alike

Two texts are cut where they cease to be known to agree, and one reader is run on both. Up to the
cut both runs do the same. `Reading.Joint` says what the next tokens of the two texts make of that:
if these are alike, both runs take them or object to them alike; if not, and the first run objects,
then the second one takes its token whenever the objection would have admitted it.
-/

namespace MiniJava

/-- The kind and the text of a token. -/
def Token.word (t : Token) : TokenKind × String := (t.kind, t.lexeme)

/-- What a token is admitted for is decided by its word. -/
theorem Expectation.admits_congr {t u : Token} (h : t.word = u.word) {x : Expectation} :
    x.Admits t ↔ x.Admits u := by
  obtain ⟨hkind, hlexeme⟩ := Prod.mk.inj h
  cases x <;> simp only [Admits, hkind, hlexeme]

/-- The tokens of a text, cut in two, and the mark of its end. -/
structure Cut where
  before : List Token
  after : List Token
  final : Token
  final_kind : final.kind = .endOfInput

namespace Cut

/-- The token after the cut; after the last one, the mark of the end. -/
def next (k : Cut) : Token := k.after.headD k.final

/-- The number of tokens before the cut. -/
def size (k : Cut) : Nat := k.before.length

/-- The number of tokens after the first `n`. -/
def room (k : Cut) (n : Nat) : Nat := k.size + k.after.length - n

end Cut

/-! ## Places before the cut -/

/-- The place after the first `n` tokens, which all stand before the cut. -/
structure Cursor.In (c : Cursor) (k : Cut) (n : Nat) : Prop where
  ahead : c.ahead = k.before.drop n ++ k.after
  final : c.final = k.final
  le : n ≤ k.size

namespace Cursor.In

variable {c : Cursor} {k : Cut} {n : Nat}

theorem lt_or_eq (h : c.In k n) : n < k.size ∨ n = k.size := Nat.lt_or_eq_of_le h.le

theorem ahead_at (h : c.In k k.size) : c.ahead = k.after := by
  rw [h.ahead, Cut.size, List.drop_length, List.nil_append]

theorem length_eq (h : c.In k n) : c.ahead.length = k.room n := by
  rw [h.ahead, List.length_append, List.length_drop, Cut.room, Nat.sub_add_comm h.le, Cut.size]

theorem length_le {start room : Nat} (h : c.In k n) (hstart : start ≤ n)
    (hroom : k.room start ≤ room) : c.ahead.length ≤ room := by
  rw [h.length_eq]
  exact (Nat.sub_le_sub_left hstart _).trans hroom

theorem length_lt {i : Nat} {c' : Cursor} (h : c.In k n) (h' : c'.In k i) (hlt : n < i) :
    c'.ahead.length < c.ahead.length := by
  have hle := h'.le
  rw [h.length_eq, h'.length_eq, Cut.room, Cut.room]
  omega

theorem current_at (h : c.In k k.size) : c.current = k.next := by
  rw [Cursor.current_eq, h.ahead_at, h.final, Cut.next]

theorem current_before (h : c.In k n) (hn : n < k.size) : c.current = k.before.get ⟨n, hn⟩ := by
  rw [Cursor.current_eq, h.ahead, List.drop_eq_getElem_cons hn, List.cons_append, List.headD_cons]
  rfl

theorem current_mem (h : c.In k n) (hn : n < k.size) : c.current ∈ k.before := by
  rw [h.current_before hn]
  exact List.get_mem _ _

theorem drop_one (h : c.In k n) (hn : n < k.size) : (c.drop 1).In k (n + 1) := by
  refine ⟨?_, (c.final_drop 1).trans h.final, hn⟩
  rw [ahead_drop, h.ahead, List.drop_append_of_le_length, List.drop_drop, Nat.add_comm]
  rw [List.length_drop]
  exact Nat.sub_pos_of_lt hn

/-- Where a token is ahead, the second kind is that of the token after it. -/
theorem secondKind_eq (h : c.In k n) (hn : n < k.size) :
    c.secondKind = (c.drop 1).current.kind := by
  have hahead := h.ahead
  rw [List.drop_eq_getElem_cons hn, List.cons_append] at hahead
  rw [secondKind_eq_match, current_eq, ahead_drop, hahead, List.drop_succ_cons, List.drop_zero]
  cases hrest : k.before.drop (n + 1) ++ k.after with
  | nil => exact (c.drop 1).kind_final.symm
  | cons t ts => rfl

end Cursor.In

theorem Cut.after_ne_nil {k : Cut} (h : k.next.kind ≠ .endOfInput) : k.after ≠ [] := by
  rintro hnil
  rw [next, hnil, List.headD_nil] at h
  exact h k.final_kind

/-- Places of two texts with the same words before them, from which the cuts are equally far. -/
structure Cut.Places (k k' : Cut) (n : Nat) (c d : Cursor) : Prop where
  words : k.before.map Token.word = k'.before.map Token.word
  left : c.In k n
  right : d.In k' n

namespace Cut.Places

variable {k k' : Cut} {n : Nat} {c d : Cursor}

theorem size_eq (h : k.Places k' n c d) : k.size = k'.size := by
  simpa only [List.length_map, Cut.size] using congrArg List.length h.words

theorem lt_right (h : k.Places k' n c d) (hn : n < k.size) : n < k'.size := h.size_eq ▸ hn

theorem word_eq (h : k.Places k' n c d) (hn : n < k.size) :
    c.current.word = d.current.word := by
  rw [h.left.current_before hn, h.right.current_before (h.lt_right hn)]
  have hword := congrArg (·[n]?) h.words
  simp only [List.getElem?_map, List.getElem?_eq_getElem hn,
    List.getElem?_eq_getElem (h.lt_right hn), Option.map_some, Option.some.injEq] at hword
  exact hword

theorem kind_eq (h : k.Places k' n c d) (hn : n < k.size) : c.current.kind = d.current.kind :=
  congrArg Prod.fst (h.word_eq hn)

theorem drop_one (h : k.Places k' n c d) (hn : n < k.size) :
    k.Places k' (n + 1) (c.drop 1) (d.drop 1) :=
  ⟨h.words, h.left.drop_one hn, h.right.drop_one (h.lt_right hn)⟩

theorem right_at (h : k.Places k' k.size c d) : d.In k' k'.size := h.size_eq ▸ h.right

/-- Before the cut there is room for one token more than after the next one. -/
theorem smaller {start room room' : Nat} (h : k.Places k' n c d) (hstart : start ≤ n)
    (hn : n < k.size) (hroom : k.room start ≤ room) (hroom' : k'.room start ≤ room') :
    ∃ r r', room = r + 1 ∧ room' = r' + 1 ∧ k.room (n + 1) ≤ r ∧ k'.room (n + 1) ≤ r' := by
  have hn' := h.lt_right hn
  simp only [Cut.room] at *
  exact ⟨room - 1, room' - 1, by omega, by omega, by omega, by omega⟩

end Cut.Places

/-! ## What reading makes of the token after the cut -/

/-- What reading comes to, as far as the next token after the cut decides. -/
inductive Verdict where
  /-- There is an objection to a token before the cut. -/
  | early
  /-- The token after the cut is taken without any objection so far. -/
  | passes
  /-- The first objection is one to the token after the cut. -/
  | objects (expected : List Expectation) (hint : Option Hint)

variable {ε ε' α β σ : Type}

/-- Reading comes to a verdict at the cut. -/
inductive Reading.Meets [Failure ε] (r : Reading ε α) (k : Cut) : Verdict → Prop
  | early {o : Objection} (ho : o ∈ r.objections) (h : o.found ∈ k.before) : Meets r k .early
  | passes {c : Cursor} (hc : c.In k k.size) (hne : k.after ≠ []) (h : r.From (c.drop 1)) :
      Meets r k .passes
  | objects {c : Cursor} {expected : List Expectation} {hint : Option Hint}
      (later : List Objection) (hc : c.In k k.size) (h : r.From c)
      (hfirst : r.objections = ⟨k.next, expected, hint⟩ :: later) :
      Meets r k (.objects expected hint)

theorem Cut.word_ne {k k' : Cut} (h : k.next.kind ≠ k'.next.kind) :
    k.next.word ≠ k'.next.word :=
  fun heq => h (congrArg Prod.fst heq)

/-- The verdict on one text does not speak against the next token of another one. -/
def Cut.Excuses (k : Cut) : Verdict → Prop
  | .early | .passes => True
  | .objects expected _ => ∀ x ∈ expected, ¬ x.Admits k.next

/--
Reading takes the token after the cut if that is among what is expected there, and otherwise objects
that it is not.
-/
structure Reading.Answers [Failure ε] (r : Reading ε α) (k : Cut) (expected : List Expectation)
    (hint : Option Hint) : Prop where
  takes : (∃ x ∈ expected, x.Admits k.next) → r.Meets k .passes
  refuses : (∀ x ∈ expected, ¬ x.Admits k.next) → r.Meets k (.objects expected hint)

/-- Reading stops at the cut, and has not objected to anything. -/
structure Reading.Halts [Failure ε] (r : Reading ε α) (k : Cut) : Prop where
  outcome : ∃ a, r.outcome = .ok a
  objections : r.objections = []
  cursor : r.cursor.In k k.size

/-- Reading gives a value without taking a token, and does not object to anything. -/
structure Reading.Quiet [Failure ε] (r : Reading ε α) (c : Cursor) (a : α) : Prop where
  outcome : r.outcome = .ok a
  cursor : r.cursor = c
  objections : r.objections = []

/--
What reading comes to is settled at the cut, whatever the other text says: it has a verdict that is
as `P` asks, or it stops at the cut, as `X` allows.
-/
def Reading.Settled [Failure ε] (r : Reading ε α) (k : Cut) (P : Verdict → Prop) (X : Prop) :
    Prop :=
  (∃ v, r.Meets k v ∧ P v) ∨ X ∧ r.Halts k

/--
Two readings, each of a text that is cut. Either both succeed before the cut, at least `n` tokens
from the start; or both come to the same verdict at tokens that are alike; or these are not alike,
and the first reading does not speak against the second token, or the second one takes that token.
Where `X` holds the first reading may stop at the cut instead, and the second one where `Y` does.
-/
inductive Reading.Joint [Failure ε] (k k' : Cut) (X Y : Prop) (n : Nat) (V : α → α → Prop)
    (r s : Reading ε α) : Prop
  | together {a b : α} {m : Nat} (ha : r.outcome = .ok a) (hb : s.outcome = .ok b) (hv : V a b)
      (hr : r.objections = []) (hs : s.objections = []) (hm : n ≤ m)
      (h : k.Places k' m r.cursor s.cursor)
  | both {v : Verdict} (heq : k.next.word = k'.next.word) (hr : r.Meets k v) (hs : s.Meets k' v)
  | left (hne : k.next.word ≠ k'.next.word) (hr : r.Settled k k'.Excuses X)
  | right (hne : k.next.word ≠ k'.next.word) (hs : s.Settled k' (· = .passes) Y)

/-- Two readings of which neither stops where the other one goes on. -/
abbrev Reading.JointAny [Failure ε] (k k' : Cut) (n : Nat) (r s : Reading ε α) : Prop :=
  r.Joint k k' False False n (fun _ _ => True) s

namespace Reading

variable [Failure ε] [Failure ε'] {k k' : Cut} {X Y : Prop} {V : α → α → Prop} {n : Nat}
  {r s : Reading ε α} {v : Verdict} {P : Verdict → Prop}

theorem Meets.mono {s : Reading ε' β} (h : r.Meets k v) (hext : r.Extends s) : s.Meets k v := by
  obtain ⟨later, heq, -⟩ := id hext.objections
  cases h with
  | early ho hmem => exact .early (heq ▸ List.mem_append_left _ ho) hmem
  | passes hc hne hfrom => exact .passes hc hne (hext.from_start hfrom)
  | objects rest hc hfrom hfirst =>
    refine .objects (rest ++ later) hc (hext.from_start hfrom) ?_
    rw [heq, hfirst, List.cons_append]

theorem Answers.mono {s : Reading ε' β} {expected : List Expectation} {hint : Option Hint}
    (h : r.Answers k expected hint) (hext : r.Extends s) : s.Answers k expected hint :=
  ⟨fun ht => (h.takes ht).mono hext, fun ht => (h.refuses ht).mono hext⟩

theorem Meets.settled (h : r.Meets k v) (hv : P v) : r.Settled k P X := .inl ⟨v, h, hv⟩

/-- Where the next token of the other text is not expected, no verdict speaks against it. -/
theorem Answers.excused {expected : List Expectation} {hint : Option Hint}
    (h : r.Answers k expected hint) (hu : ∀ x ∈ expected, ¬ x.Admits k'.next) :
    ∃ v, r.Meets k v ∧ k'.Excuses v := by
  by_cases ht : ∃ x ∈ expected, x.Admits k.next
  · exact ⟨_, h.takes ht, trivial⟩
  · exact ⟨_, h.refuses fun x hx hadmits => ht ⟨x, hx, hadmits⟩, hu⟩

theorem Joint.of_early (hr : r.Meets k .early) (hs : s.Meets k' .early) :
    r.Joint k k' X Y n V s := by
  by_cases heq : k.next.word = k'.next.word
  · exact .both heq hr hs
  · exact .left heq (hr.settled trivial)

/-- Two readings that expect the same, and give the same hint where they find the same. -/
theorem Joint.of_answers_with {expected : List Expectation} {hint hint' : Option Hint}
    (hhint : k.next.word = k'.next.word → hint = hint') (hr : r.Answers k expected hint)
    (hs : s.Answers k' expected hint') : r.Joint k k' X Y n V s := by
  by_cases ht : ∃ x ∈ expected, x.Admits k.next
  · by_cases heq : k.next.word = k'.next.word
    · have hu : ∃ x ∈ expected, x.Admits k'.next := by
        obtain ⟨x, hx, hadmits⟩ := ht
        exact ⟨x, hx, (Expectation.admits_congr heq).1 hadmits⟩
      exact .both heq (hr.takes ht) (hs.takes hu)
    · exact .left heq ((hr.takes ht).settled trivial)
  · have ht' : ∀ x ∈ expected, ¬ x.Admits k.next := fun x hx hadmits => ht ⟨x, hx, hadmits⟩
    by_cases hu : ∃ x ∈ expected, x.Admits k'.next
    · obtain ⟨x, hx, hadmits⟩ := hu
      have hne : k.next.word ≠ k'.next.word := fun heq =>
        ht' x hx ((Expectation.admits_congr heq).2 hadmits)
      exact .right hne ((hs.takes ⟨x, hx, hadmits⟩).settled rfl)
    · have hu' : ∀ x ∈ expected, ¬ x.Admits k'.next := fun x hx hadmits => hu ⟨x, hx, hadmits⟩
      by_cases heq : k.next.word = k'.next.word
      · exact .both heq (hr.refuses ht') (hhint heq ▸ hs.refuses hu')
      · exact .left heq ((hr.refuses ht').settled hu')

theorem Joint.of_answers {expected : List Expectation} {hint : Option Hint}
    (hr : r.Answers k expected hint) (hs : s.Answers k' expected hint) :
    r.Joint k k' X Y n V s :=
  .of_answers_with (fun _ => rfl) hr hs

/-- Each reading takes its token after the cut if that is in `A`; nothing is said of others. -/
theorem Joint.of_choice {A : TokenKind → Prop}
    (hr : A k.next.kind → r.Meets k .passes) (hs : A k'.next.kind → s.Meets k' .passes)
    (hno : ¬ A k.next.kind → ¬ A k'.next.kind → r.Joint k k' X Y n V s) :
    r.Joint k k' X Y n V s := by
  by_cases ht : A k.next.kind <;> by_cases hu : A k'.next.kind
  · by_cases heq : k.next.word = k'.next.word
    · exact .both heq (hr ht) (hs hu)
    · exact .left heq ((hr ht).settled trivial)
  · exact .left (Cut.word_ne fun heq => hu (heq ▸ ht)) ((hr ht).settled trivial)
  · exact .right (Cut.word_ne fun heq => ht (heq ▸ hu)) ((hs hu).settled rfl)
  · exact hno ht hu

theorem Joint.mono {W : α → α → Prop} {m : Nat} (h : r.Joint k k' X Y n V s) (hm : m ≤ n)
    (hV : ∀ a b, V a b → W a b) : r.Joint k k' X Y m W s := by
  cases h with
  | together ha hb hv hr hs hle hplaces =>
    exact .together ha hb (hV _ _ hv) hr hs (Nat.le_trans hm hle) hplaces
  | both heq hr hs => exact .both heq hr hs
  | left hne hr => exact .left hne hr
  | right hne hs => exact .right hne hs

theorem Settled.widen (h : r.Settled k P X) {X' : Prop} (hX : X → X') : r.Settled k P X' :=
  h.imp_right fun ⟨hx, hhalts⟩ => ⟨hX hx, hhalts⟩

theorem Joint.widen (h : r.Joint k k' X Y n V s) {X' Y' : Prop} (hX : X → X') (hY : Y → Y') :
    r.Joint k k' X' Y' n V s := by
  cases h with
  | together ha hb hv hr hs hle hplaces => exact .together ha hb hv hr hs hle hplaces
  | both heq hr hs => exact .both heq hr hs
  | left hne hr => exact .left hne (hr.widen hX)
  | right hne hs => exact .right hne (hs.widen hY)

/-- Reading `s` goes on from `r`, and makes nothing else of it if `r` succeeded. -/
structure Keeps (r : Reading ε α) (s : Reading ε' α) : Prop where
  onward : r.Extends s
  outcome : ∀ a, r.outcome = .ok a → s.outcome = .ok a
  cursor : ∀ a, r.outcome = .ok a → s.cursor = r.cursor
  objections : ∀ a, r.outcome = .ok a → s.objections = r.objections

variable {r' s' : Reading ε' α}

theorem Settled.of_keeps (h : r.Settled k P X) (hr : r.Keeps r') : r'.Settled k P X := by
  rcases h with ⟨v, hv, hp⟩ | ⟨hx, ⟨a, ha⟩, hnone, hcursor⟩
  · exact .inl ⟨v, hv.mono hr.onward, hp⟩
  · exact .inr ⟨hx, ⟨a, hr.outcome a ha⟩, (hr.objections a ha).trans hnone,
      (hr.cursor a ha).symm ▸ hcursor⟩

theorem Joint.of_keeps (h : r.Joint k k' X Y n V s) (hr : r.Keeps r') (hs : s.Keeps s') :
    r'.Joint k k' X Y n V s' := by
  cases h with
  | @together a b _ ha hb hv hnone hnone' hle hplaces =>
    refine .together (hr.outcome a ha) (hs.outcome b hb) hv ((hr.objections a ha).trans hnone)
      ((hs.objections b hb).trans hnone') hle ?_
    rw [hr.cursor a ha, hs.cursor b hb]
    exact hplaces
  | both heq hv hv' => exact .both heq (hv.mono hr.onward) (hv'.mono hs.onward)
  | left hne hv => exact .left hne (hv.of_keeps hr)
  | right hne hv => exact .right hne (hv.of_keeps hs)

end Reading

end MiniJava
