import Mathlib.Data.List.Infix
import MiniJava.Proofs.Parallel.Pairing

/-!
# The keyword of a class as a border

Reading what stands before a class never takes the keyword of that class, as long as the braces
before it are closed: no reader of members or statements takes it, and every way to skip tokens
stops at it.
-/

namespace MiniJava

open TokenKind (leftBrace rightBrace classKw)

/-- In every tail of the tokens enough braces are closed, so that each open one is closed later. -/
def BracesClosed (kinds : List TokenKind) : Prop :=
  ∀ tail ∈ kinds.tails, tail.count leftBrace ≤ tail.count rightBrace

instance (kinds : List TokenKind) : Decidable (BracesClosed kinds) :=
  inferInstanceAs (Decidable (∀ _ ∈ _, _))

theorem BracesClosed.count_le {kinds : List TokenKind} (h : BracesClosed kinds) :
    kinds.count leftBrace ≤ kinds.count rightBrace :=
  h kinds ((List.mem_tails _ _).2 (List.suffix_refl kinds))

theorem BracesClosed.of_suffix {kinds tail : List TokenKind} (h : BracesClosed kinds)
    (htail : tail <:+ kinds) : BracesClosed tail := fun _ hsuffix =>
  h _ ((List.mem_tails _ _).2 (((List.mem_tails _ _).1 hsuffix).trans htail))

/-! ## Skipping -/

section Skip

variable {border : Token} {rest : List Token}

namespace Region

theorem skipStatement_le (hborder : border.kind = classKw) (ts : List Token) {moved : Bool}
    (hmoved : moved = false → ts ≠ []) :
    skipStatement moved (ts ++ border :: rest) ≤ ts.length := by
  induction ts generalizing moved with
  | nil =>
    cases moved with
    | false => exact absurd rfl (hmoved rfl)
    | true => simp [skipStatement, hborder, opensStatement]
  | cons t ts ih =>
    have hrest := @ih true (by simp)
    rw [List.cons_append, skipStatement, List.length_cons]
    split_ifs <;> omega

/-- Within `depth` braces, enough braces are to follow before the border. -/
theorem skipMember_le (hborder : border.kind = classKw) (ts : List Token) {moved : Bool}
    (hmoved : moved = false → ts ≠ []) {depth : Nat}
    (hdepth : depth + (ts.map Token.kind).count leftBrace ≤ (ts.map Token.kind).count rightBrace) :
    skipMember moved depth (ts ++ border :: rest) ≤ ts.length := by
  -- all braces open at this depth close before the border, so it is met at depth 0
  induction ts generalizing moved depth with
  | nil =>
    obtain rfl : depth = 0 := by simpa using hdepth
    cases moved with
    | false => exact absurd rfl (hmoved rfl)
    | true => simp [skipMember, hborder]
  | cons t ts ih =>
    have hrest := fun depth => @ih true (by simp) depth
    rw [List.map_cons, List.count_cons, List.count_cons] at hdepth
    rw [List.cons_append, skipMember.eq_def, List.length_cons]
    dsimp only
    by_cases hopen : t.kind = leftBrace
    · have hdeeper := hrest (depth + 1) (by simp [hopen] at hdepth; omega)
      rw [if_pos hopen]
      omega
    by_cases hclose : t.kind = rightBrace
    · rw [if_neg hopen, if_pos hclose]
      rcases depth with _ | _ | depth
      · exact Nat.zero_le _
      · exact Nat.le_add_left _ _
      · have hshallower := hrest (depth + 1) (by simp [hclose] at hdepth; omega)
        exact Nat.succ_le_succ hshallower
    · have hsame := hrest depth (by simpa [hopen, hclose] using hdepth)
      rw [if_neg hopen, if_neg hclose]
      split_ifs <;> omega

theorem skipToClass_le (hborder : border.kind = classKw) (ts : List Token) {moved : Bool}
    (hmoved : moved = false → ts ≠ []) :
    skipToClass moved (ts ++ border :: rest) ≤ ts.length := by
  induction ts generalizing moved with
  | nil =>
    cases moved with
    | false => exact absurd rfl (hmoved rfl)
    | true => simp [skipToClass, hborder]
  | cons t ts ih =>
    have hrest := @ih true (by simp)
    rw [List.cons_append, skipToClass, List.length_cons]
    split_ifs <;> omega

/-- Skipping stops before the border, unless the border is where it has to start. -/
theorem skip_le (hborder : border.kind = classKw) (region : Region) {ts : List Token}
    {moved : Bool} (hmoved : moved = false → ts ≠ []) (hclosed : BracesClosed (ts.map Token.kind)) :
    region.skip moved (ts ++ border :: rest) ≤ ts.length := by
  have hcount := hclosed.count_le
  cases region with
  | statements => exact skipStatement_le hborder ts hmoved
  | members => exact skipMember_le hborder ts hmoved (by omega)
  | toplevel => exact skipToClass_le hborder ts hmoved

end Region

end Skip

/-! ## Places before a border -/

/-- A place before the token `border`, after which `rest` comes. -/
structure Cursor.Before (border : Token) (rest : List Token) (c : Cursor) (ts : List Token) :
    Prop where
  regular : c.Regular
  ahead : c.ahead = ts ++ border :: rest
  closed : BracesClosed (ts.map Token.kind)
  start_le : ∀ t ∈ ts, t.span.start ≤ border.span.start

namespace Cursor.Before

variable {border : Token} {rest ts : List Token} {c : Cursor}

theorem current_start_le (h : c.Before border rest ts) :
    c.current.span.start ≤ border.span.start := by
  rw [Cursor.current_eq, h.ahead]
  cases ts with
  | nil => exact Nat.le_refl _
  | cons t ts => exact h.start_le t List.mem_cons_self

theorem ne_nil (h : c.Before border rest ts) (hfree : c.ahead ≠ border :: rest) : ts ≠ [] := by
  rintro rfl
  exact hfree h.ahead

theorem drop (h : c.Before border rest ts) {n : Nat} (hn : n ≤ ts.length) :
    (c.drop n).Before border rest (ts.drop n) := by
  refine ⟨(c.reaches_drop n).regular h.regular, ?_, ?_, ?_⟩
  · rw [Cursor.ahead_drop, h.ahead, List.drop_append_of_le_length hn]
  · rw [List.map_drop]
    exact h.closed.of_suffix (List.drop_suffix n _)
  · exact fun t ht => h.start_le t (List.mem_of_mem_drop ht)

end Cursor.Before

/-- Places before the keyword of a class are paired with themselves; the keyword is not passed. -/
def Pairing.border (border : Token) (rest : List Token) (hborder : border.kind = classKw) :
    Pairing where
  Starts p q := p = q ∧ p ≤ border.span.start
  Pairs c d := c = d ∧ ∃ ts, c.Before border rest ts
  Free ts := ts ≠ border :: rest
  regular := fun ⟨_, _, h⟩ => h.regular
  pos_eq := fun ⟨heq, _⟩ => heq ▸ rfl
  room_eq := fun ⟨heq, _⟩ => heq ▸ rfl
  current := fun ⟨heq, _, h⟩ => heq ▸ ⟨rfl, rfl, rfl, h.current_start_le⟩
  secondKind_eq := fun ⟨heq, _⟩ => heq ▸ rfl
  kindAt_eq := fun ⟨heq, _⟩ ⟨hstart, _⟩ => heq ▸ hstart ▸ rfl
  free := by
    intro c d _ hkind hahead
    rw [Cursor.current_eq, hahead] at hkind
    exact hkind hborder
  drop_one := by
    rintro c _ ⟨rfl, ts, h⟩ hfree
    have hpos := List.length_pos_iff.2 (h.ne_nil hfree)
    exact ⟨rfl, _, h.drop hpos⟩
  skip := by
    rintro c _ region moved ⟨rfl, ts, h⟩ hfree
    have hle : region.skip moved c.ahead ≤ ts.length := by
      rw [h.ahead]
      exact Region.skip_le hborder region (fun hno => h.ne_nil (hfree hno)) h.closed
    exact ⟨rfl, rfl, _, h.drop hle⟩

end MiniJava
