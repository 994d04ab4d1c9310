import MiniJava.Proofs.Extents.Statement
import MiniJava.Proofs.FirstError.Rules
import MiniJava.Proofs.Progress.Trail

/-!
# Bounds that never matter

Readers of nested constructs are bounded by a number of tokens. Any two bounds that are not below the
number of tokens ahead give the same reading, so that no reading ends because a bound is reached.
-/

namespace MiniJava

variable {ε ε' α β : Type}

/-- Where a token is taken, one fewer is ahead. -/
theorem Cursor.length_ahead_drop_one_lt {c : Cursor}
    (h : c.current.kind ≠ .endOfInput) : (c.drop 1).ahead.length < c.ahead.length := by
  rw [(Cursor.reaches_drop_one h).length_eq]
  exact Nat.lt_add_of_pos_left Nat.one_pos

namespace Reader

open Reading

theorem bind_congr {p q : Reader ε α} {f g : α → Reader ε β} {c : Cursor} (h : p c = q c)
    (hf : ∀ a, (p c).outcome = .ok a → f a (p c).cursor = g a (p c).cursor) :
    (p >>= f) c = (q >>= g) c := by
  rcases hp : p c with ⟨e | a, d, journal⟩
  · rw [bind_apply_of_error hp, bind_apply_of_error (h ▸ hp)]
  · rw [hp] at hf
    rw [bind_apply_of_ok hp, bind_apply_of_ok (h ▸ hp), hf a rfl]

theorem map_congr {p q : Reader ε α} (g : α → β) {c : Cursor} (h : p c = q c) :
    (g <$> p) c = (g <$> q) c := by
  simp only [Functor.map, Reader.map, h]

/-- Two readers read alike at each place of a text with at most `n` tokens ahead. -/
def AgreeWithin (source : String) (n : Nat) (p q : Reader ε α) : Prop :=
  ∀ c : Cursor, c.Of source → c.ahead.length ≤ n → p c = q c

section Rules

variable {source : String} {n m : Nat} {p q : Reader ε α} {f g : α → Reader ε β} {c : Cursor}

theorem AgreeWithin.refl (p : Reader ε α) : AgreeWithin source n p p := fun _ _ _ => rfl

theorem agree_bind [Taking p] (hp : AgreeWithin source n p q)
    (hf : ∀ a, AgreeWithin source n (f a) (g a)) : AgreeWithin source n (p >>= f) (q >>= g) := by
  intro c hc hlen
  obtain ⟨hd, hle⟩ := Taking.of_cursor p hc
  exact bind_congr (hp c hc hlen) fun a _ => hf a _ hd (hle.trans hlen)

/-- What follows the same reader. -/
theorem agree_after [Taking p] (hf : ∀ a, AgreeWithin source n (f a) (g a)) :
    AgreeWithin source n (p >>= f) (p >>= g) :=
  agree_bind (.refl p) hf

/-- Once a token is taken, one fewer is ahead. -/
theorem agree_advance_bind {f g : Token → Reader ε β}
    (hf : ∀ t, AgreeWithin source n (f t) (g t)) :
    AgreeWithin source (n + 1) (advance >>= f) (advance >>= g) := by
  intro c hc hlen
  rw [advance_bind, advance_bind]
  apply hf _ _ (hc.drop 1)
  rw [Cursor.ahead_drop, List.length_drop]
  omega

theorem agree_rescue {p q : Reader ε α} (handle : ε → Reader ε' α)
    (h : AgreeWithin source n p q) : AgreeWithin source n (rescue p handle) (rescue q handle) := by
  intro c hc hlen
  simp only [rescue, h c hc hlen]

theorem agree_ite {P : Prop} [Decidable P] {p' q' : Reader ε α} (h : AgreeWithin source n p q)
    (h' : AgreeWithin source n p' q') :
    AgreeWithin source n (if P then p else p') (if P then q else q') := by
  split
  · exact h
  · exact h'

end Rules

/-! ## Loops -/

section Loops

variable {source : String} {n rounds rounds' : Nat} {c : Cursor}

theorem afterItem_of_ne {item : Reader Fault α} {a : α} (h : c.current.kind ≠ .comma) :
    afterItem item rounds a c = ⟨.ok [a], c, []⟩ := by
  cases rounds with
  | zero => rw [afterItem, isAt_bind, decide_eq_false h]; rfl
  | succ rounds => rw [afterItem, eat_bind_of_ne h]; rfl

/-- Each further item takes a comma, so that there is a round for each. -/
theorem agree_sepByComma {item item' : Reader Fault α} [Taking item]
    (h : AgreeWithin source n item item') (hr : n ≤ rounds) (hr' : n ≤ rounds') :
    AgreeWithin source n (sepByComma item rounds) (sepByComma item' rounds') := by
  have hall : ∀ {rounds rounds' : Nat} {c : Cursor}, c.Of source → c.ahead.length ≤ n →
      c.ahead.length ≤ rounds → c.ahead.length ≤ rounds' →
        sepByComma item rounds c = sepByComma item' rounds' c := by
    intro rounds
    induction rounds with
    | zero =>
      intro rounds' c hc hlen hr hr'
      rw [sepByComma_eq, sepByComma_eq]
      obtain ⟨hd, hle⟩ := Taking.of_cursor item hc
      refine bind_congr (h c hc hlen) fun a _ => ?_
      have hnil : (item c).cursor.ahead = [] := List.length_eq_zero_iff.1 (by omega)
      have hk := Cursor.kind_current_of_ahead_eq_nil hnil
      rw [afterItem_of_ne (by simp [hk]), afterItem_of_ne (by simp [hk])]
    | succ rounds ih =>
      intro rounds' c hc hlen hr hr'
      rw [sepByComma_eq, sepByComma_eq]
      obtain ⟨hd, hle⟩ := Taking.of_cursor item hc
      refine bind_congr (h c hc hlen) fun a _ => ?_
      generalize (item c).cursor = d at hd hle
      by_cases hk : d.current.kind = .comma
      · have hless : (d.drop 1).ahead.length < d.ahead.length :=
          Cursor.length_ahead_drop_one_lt (by simp [hk])
        obtain ⟨rounds', rfl⟩ := Nat.exists_eq_succ_of_ne_zero (n := rounds') (by omega)
        rw [afterItem, afterItem, eat_bind_of_kind hk, eat_bind_of_kind hk, if_pos rfl, if_pos rfl]
        exact map_congr _ (ih (hd.drop 1) (by omega) (by omega) (by omega))
      · rw [afterItem_of_ne hk, afterItem_of_ne hk]
  exact fun c hc hlen => hall hc hlen (hlen.trans hr) (hlen.trans hr')

/-- Each item takes a token, so that there is a round for each. -/
theorem agree_manyUntil {stop : Cursor → Bool} (item : Reader ε α) {item' : Reader ε α}
    [Taking item]
    (hend : ∀ c : Cursor, c.Of source → c.ahead = [] → stop c = true)
    (htakes : ∀ c : Cursor, c.Of source → c.ahead.length ≤ n → stop c = false →
      ∀ a, (item c).outcome = .ok a → (item c).cursor.ahead.length < c.ahead.length)
    (h : AgreeWithin source n item item') (hr : n ≤ rounds) (hr' : n ≤ rounds') :
    AgreeWithin source n (manyUntil stop item rounds) (manyUntil stop item' rounds') := by
  have hall : ∀ {rounds rounds' : Nat} {c : Cursor}, c.Of source → c.ahead.length ≤ n →
      c.ahead.length ≤ rounds → c.ahead.length ≤ rounds' →
        manyUntil stop item rounds c = manyUntil stop item' rounds' c := by
    intro rounds
    induction rounds with
    | zero =>
      intro rounds' c hc hlen hr hr'
      have hs := hend c hc (List.length_eq_zero_iff.1 (Nat.le_zero.1 hr))
      rw [manyUntil_of_stop hs, manyUntil_of_stop hs]
    | succ rounds ih =>
      intro rounds' c hc hlen hr hr'
      cases hs : stop c with
      | true => rw [manyUntil_of_stop hs, manyUntil_of_stop hs]
      | false =>
        have hne : c.ahead ≠ [] := fun hnil => by simp [hend c hc hnil] at hs
        have hpos := List.length_pos_iff.2 hne
        obtain ⟨rounds', rfl⟩ := Nat.exists_eq_succ_of_ne_zero (n := rounds') (by omega)
        rw [manyUntil, manyUntil, here_bind, here_bind, hs]
        refine bind_congr (h c hc hlen) fun a ha => map_congr _ ?_
        have hless := htakes c hc hlen hs a ha
        exact ih (Taking.of_cursor item hc).1 (by omega) (by omega) (by omega)
  exact fun c hc hlen => hall hc hlen (hlen.trans hr) (hlen.trans hr')

end Loops

end Reader

namespace Parse

open Reader Reading

variable {source : String} {n : Nat}

/-! ## Expressions -/

section Stages

variable {read read' : StageReader} [∀ stage, Built AnyRule Fault.ObjectsAt (read stage)]

theorem agree_above (h : ∀ stage, AgreeWithin source n (read stage) (read' stage)) (floor : Nat) :
    AgreeWithin source n (above read floor) (above read' floor) :=
  agree_bind (h _) fun _ => h _

theorem agree_creationFrom (h : ∀ stage, AgreeWithin source n (read stage) (read' stage))
    (start : Nat) : AgreeWithin source n (creationFrom read start) (creationFrom read' start) := by
  refine agree_after fun t => ?_
  split
  · exact agree_after fun _ => agree_after fun _ => agree_bind (agree_above h 0) fun _ => .refl _
  · exact .refl _
  · exact .refl _

theorem agree_operandFrom (h : ∀ stage, AgreeWithin source n (read stage) (read' stage)) :
    AgreeWithin source (n + 1) (operandFrom read) (operandFrom read') := by
  refine agree_after fun first => ?_
  cases first.kind with
  | bang => exact agree_advance_bind fun _ => agree_bind (h _) fun _ => .refl _
  | leftParen => exact agree_advance_bind fun _ => agree_bind (agree_above h 0) fun _ => .refl _
  | newKw => exact agree_advance_bind fun _ => agree_creationFrom h _
  | _ => exact .refl _

theorem agree_argumentsOf {item item' : Reader Fault Expr} [Taking item] {room room' : Nat}
    (h : AgreeWithin source n item item') (hr : n ≤ room) (hr' : n ≤ room') :
    AgreeWithin source n (argumentsOf item room) (argumentsOf item' room') :=
  agree_after fun _ => agree_ite (.refl _) (agree_sepByComma h hr hr')

/-- Taking an operator leaves fewer tokens for what follows. -/
theorem agree_takeOperator_bind (h : ∀ stage, AgreeWithin source n (read stage) (read' stage))
    {room room' : Nat} (hr : n ≤ room) (hr' : n ≤ room') (left : Expr) (op : Operator)
    {k k' : Expr → Reader Fault Expr} (hk : ∀ e, AgreeWithin source n (k e) (k' e)) :
    AgreeWithin source (n + 1) (takeOperator read room left op >>= k)
      (takeOperator read' room' left op >>= k') := by
  cases op with
  | binary sign =>
    simp only [takeOperator, bind_assoc, pure_bind]
    exact agree_advance_bind fun _ => agree_bind (agree_above h _) fun _ => agree_after fun _ => hk _
  | index =>
    simp only [takeOperator, bind_assoc, pure_bind]
    exact agree_advance_bind fun _ => agree_bind (agree_above h 0) fun _ =>
      agree_after fun _ => agree_after fun _ => hk _
  | length =>
    simp only [takeOperator, bind_assoc, pure_bind]
    exact agree_advance_bind fun _ => agree_after fun _ => agree_after fun _ => hk _
  | call =>
    simp only [takeOperator, bind_assoc, pure_bind]
    exact agree_advance_bind fun _ => agree_after fun _ => agree_after fun _ =>
      agree_bind (agree_argumentsOf (agree_above h 0) hr hr') fun _ =>
        agree_after fun _ => agree_after fun _ => hk _

theorem agree_operatorsFrom (h : ∀ stage, AgreeWithin source n (read stage) (read' stage))
    {room room' : Nat} (hr : n ≤ room) (hr' : n ≤ room') (floor : Nat) (left : Expr) :
    AgreeWithin source (n + 1) (operatorsFrom read room floor left)
      (operatorsFrom read' room' floor left) := by
  refine agree_after fun cursor => ?_
  split
  · exact .refl _
  · exact agree_ite (.refl _) (agree_takeOperator_bind h hr hr' left _ fun _ => h _)

end Stages

/-- Bounds on the tokens of an expression do not matter where there are no more tokens ahead. -/
theorem agree_stageWithin (source : String) {n room room' : Nat} (hr : n ≤ room) (hr' : n ≤ room')
    (stage : Stage) : AgreeWithin source n (stageWithin room stage) (stageWithin room' stage) := by
  induction n generalizing room room' stage with
  | zero =>
    intro c hc hlen
    have hk := Cursor.kind_current_of_ahead_eq_nil (List.length_eq_zero_iff.1 (Nat.le_zero.1 hlen))
    cases stage with
    | operand => rw [stageWithin_operand_of_endOfInput hk, stageWithin_operand_of_endOfInput hk]
    | after floor left =>
      rw [stageWithin_after_of_endOfInput hk, stageWithin_after_of_endOfInput hk]
  | succ n ih =>
    obtain ⟨room, rfl⟩ := Nat.exists_eq_succ_of_ne_zero (Nat.ne_zero_of_lt hr)
    obtain ⟨room', rfl⟩ := Nat.exists_eq_succ_of_ne_zero (Nat.ne_zero_of_lt hr')
    have hle : n ≤ room := Nat.le_of_succ_le_succ hr
    have hle' : n ≤ room' := Nat.le_of_succ_le_succ hr'
    cases stage with
    | operand => exact agree_operandFrom fun stage => ih hle hle' stage
    | after floor left =>
      exact agree_operatorsFrom (fun stage => ih hle hle' stage) hle hle' floor left

/-! ## Statements -/

section Statements

variable {inner inner' : Reader Fault Stmt}

theorem agree_recovering (h : AgreeWithin source n inner inner') :
    AgreeWithin source n (recovering inner : Reader ε Stmt) (recovering inner') :=
  agree_after fun _ => agree_rescue _ h

/-- Where a statement could stand, reading one moves on. -/
theorem length_recovering_lt {c : Cursor} (hc : c.Of source) (hend : atListEnd c = false)
    (h : (inner c).Advances source (Fault.Holds source) c (Stmt.At source c)) {s : Stmt}
    (hs : (recovering inner c : Reading ε Stmt).outcome = .ok s) :
    (recovering inner c : Reading ε Stmt).cursor.ahead.length < c.ahead.length := by
  obtain ⟨-, -, ys, hp, hread⟩ := advances_recovering (E := fun _ => True) h hc
  have hpos := List.length_pos_iff.2 ((hread s hs).2 hend).taken
  have hlen := hp.reaches.length_eq
  omega

theorem agree_elseBranchOf (h : AgreeWithin source n inner inner') :
    AgreeWithin source n (elseBranchOf inner) (elseBranchOf inner') :=
  agree_after fun _ => agree_ite h (.refl _)

variable [Built AnyRule Fault.ObjectsAt inner]

theorem agree_blockOf (h : AgreeWithin source n inner inner') {room room' : Nat}
    (hadvances : ∀ d : Cursor, d.ahead.length ≤ n →
      (inner d).Advances source (Fault.Holds source) d (Stmt.At source d))
    (hr : n ≤ room) (hr' : n ≤ room') :
    AgreeWithin source (n + 1) (blockOf inner room) (blockOf inner' room') := by
  refine agree_advance_bind fun _ => agree_bind ?_ fun _ => .refl _
  refine agree_manyUntil _ (fun d _ => atListEnd_of_ahead_eq_nil) ?_ (agree_recovering h) hr hr'
  exact fun d hd hlen hend s hs => length_recovering_lt hd hend (hadvances d hlen) hs

theorem agree_ifElseOf (h : AgreeWithin source n inner inner') :
    AgreeWithin source (n + 1) (ifElseOf inner) (ifElseOf inner') :=
  agree_advance_bind fun _ => agree_after fun _ => agree_bind h fun _ =>
    agree_bind (agree_elseBranchOf h) fun _ => .refl _

theorem agree_whileLoopOf (h : AgreeWithin source n inner inner') :
    AgreeWithin source (n + 1) (whileLoopOf inner) (whileLoopOf inner') :=
  agree_advance_bind fun _ => agree_after fun _ => agree_bind h fun _ => .refl _

theorem agree_statementOf (h : AgreeWithin source n inner inner') {room room' : Nat}
    (hadvances : ∀ d : Cursor, d.ahead.length ≤ n →
      (inner d).Advances source (Fault.Holds source) d (Stmt.At source d))
    (hr : n ≤ room) (hr' : n ≤ room') :
    AgreeWithin source (n + 1) (statementOf inner room) (statementOf inner' room') := by
  refine agree_after fun t => ?_
  split
  · exact agree_blockOf h hadvances hr hr'
  · exact agree_ifElseOf h
  · exact agree_whileLoopOf h
  all_goals exact .refl _

end Statements

/-- Bounds on the tokens of a statement do not matter where there are no more tokens ahead. -/
theorem agree_statementWithin (source : String) {n room room' : Nat} (hr : n ≤ room)
    (hr' : n ≤ room') :
    AgreeWithin source n (statementWithin room) (statementWithin room') := by
  induction n generalizing room room' with
  | zero =>
    intro c hc hlen
    have hk := Cursor.kind_current_of_ahead_eq_nil (List.length_eq_zero_iff.1 (Nat.le_zero.1 hlen))
    rw [statementWithin_of_endOfInput hk, statementWithin_of_endOfInput hk]
  | succ n ih =>
    obtain ⟨room, rfl⟩ := Nat.exists_eq_succ_of_ne_zero (Nat.ne_zero_of_lt hr)
    obtain ⟨room', rfl⟩ := Nat.exists_eq_succ_of_ne_zero (Nat.ne_zero_of_lt hr')
    have hle : n ≤ room := Nat.le_of_succ_le_succ hr
    have hle' : n ≤ room' := Nat.le_of_succ_le_succ hr'
    exact agree_statementOf (ih hle hle')
      (fun d hd => advances_statementWithin room (hd.trans hle)) hle hle'

end Parse

end MiniJava
