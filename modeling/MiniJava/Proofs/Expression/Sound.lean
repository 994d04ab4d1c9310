import MiniJava.Parsing.Expression
import MiniJava.Proofs.Grammar.Nodes
import MiniJava.Proofs.Grammar.Yield
import MiniJava.Proofs.Reading.Loops

/-!
# What is read as an expression

An expression that is read yields the tokens that were taken, keeps to the grammar, and ends where
no operator follows that it could take in. The loop over operators keeps one invariant: the operator
that comes next may take in all that was read before it.
-/

namespace MiniJava

namespace Operator

/-- How tightly the operand on the left of an operator has to hold together. -/
def grip (op : Operator) : Nat := min op.leftPower postfixLevel

theorem grip_le (op : Operator) : op.grip ≤ postfixLevel := Nat.min_le_right _ _

theorem grip_binary (op : BinaryOp) : (binary op).grip = op.precedence := by cases op <;> rfl

theorem precedence_lt (op : BinaryOp) : op.precedence < postfixLevel := by cases op <;> decide

/-- An operator that may not follow `op` to its right may take in what `op` makes. -/
theorem grip_le_of_leftPower_lt {op next : Operator} (h : next.leftPower < op.rightPower) :
    next.grip ≤ op.grip := by
  simp only [grip, rightPower] at h ⊢
  omega

theorem kind_of_at? {current next : TokenKind} {op : BinaryOp}
    (h : at? current next = some (binary op)) : current = op.tokenKind := by
  cases current <;> simp only [at?, reduceCtorEq, Option.some.injEq, binary.injEq] at h <;>
    first | (subst h; rfl) | (split at h <;> cases h)

theorem kind_of_at?_index {current next : TokenKind} (h : at? current next = some index) :
    current = .leftBracket := by
  cases current <;> simp only [at?, reduceCtorEq, Option.some.injEq] at h <;>
    first | rfl | (split at h <;> cases h)

theorem kind_of_at?_length {current next : TokenKind} (h : at? current next = some length) :
    current = .dot ∧ next = .lengthKw := by
  cases current <;> simp only [at?, reduceCtorEq, Option.some.injEq] at h
  split at h
  next hn => exact ⟨rfl, hn⟩
  next => cases h

theorem kind_of_at?_call {current next : TokenKind} (h : at? current next = some call) :
    current = .dot := by
  cases current <;> simp only [at?, reduceCtorEq, Option.some.injEq] at h
  rfl

end Operator

theorem BinaryOp.isSome_spelling_tokenKind (op : BinaryOp) :
    op.tokenKind.spelling?.isSome := by
  cases op <;> rfl

namespace Parse

open Reader Reading Terminal

/-- What holds of an operand that was read. -/
def OperandRead : Post Expr := fun ys e _ fs =>
  fs = [] ∧ ys = e.yield ∧ e.Legal ∧ Expr.atomic ≤ e.strength

/-- What holds of an expression that was read after `before`, down to operators of power `floor`. -/
def ReadDownTo (floor : Nat) (before : List Terminal) : Post Expr := fun ys e d fs =>
  fs = [] ∧ before ++ ys = e.yield ∧ e.Legal ∧ floor ≤ e.strength ∧
    ∀ op ∈ d.operator?, op.leftPower < floor

/-- A reader of stages that does what it should within `room` tokens. -/
structure SoundStages (read : StageReader) (room : Nat) : Prop where
  operand : ∀ c : Cursor, c.ahead.length ≤ room → (read .operand c).Ensures c OperandRead
  after : ∀ (floor : Nat) (left : Expr) (c : Cursor), floor ≤ Operator.postfixLevel →
    left.Legal → floor ≤ left.strength → (∀ op ∈ c.operator?, op.grip ≤ left.strength) →
    c.ahead.length ≤ room → (read (.after floor left) c).Ensures c (ReadDownTo floor left.yield)

variable {read : StageReader} {room floor : Nat} {c d : Cursor}

theorem ensures_above (hread : SoundStages read room) (hfloor : floor ≤ Operator.postfixLevel)
    (hc : c.ahead.length ≤ room) : (above read floor c).Ensures c (ReadDownTo floor []) := by
  apply ensures_bind (hread.operand c hc)
  rintro ys e d fs hd ⟨rfl, rfl, he, hs⟩
  have hpost : Operator.postfixLevel ≤ e.strength := Nat.le_trans (by decide) hs
  refine (hread.after floor e d hfloor he (Nat.le_trans hfloor hpost)
    (fun op _ => Nat.le_trans op.grip_le hpost) (hd.length_ahead_le hc)).mono ?_
  rintro zs e' d' fs ⟨rfl, hy, hrest⟩
  exact ⟨rfl, hy, hrest⟩

/-! ## Operands -/

theorem ensures_leaf {build : Span → Expr} (hk : c.current.kind ≠ .endOfInput)
    (h : c.current.Regular → ∀ s, (build s).yield = [c.current.terminal] ∧ (build s).Legal ∧
      Expr.atomic ≤ (build s).strength) : (leaf build c).Ensures c OperandRead := by
  apply ensures_advance_bind hk
  intro hreg _
  rw [spanFrom_bind]
  obtain ⟨hy, hl, hs⟩ := h hreg ⟨_, _⟩
  exact ensures_pure ⟨rfl, hy.symm, hl, hs⟩

theorem ensures_negation (hread : SoundStages read room) (hk : c.current.kind = .bang)
    (hc : c.ahead.length ≤ room + 1) : (negation read c).Ensures c OperandRead := by
  apply ensures_advance_word_bind hk rfl
  intro hd
  apply ensures_bind (hread.operand _ (hd.length_ahead_lt (by simp) hc))
  rintro ys e d fs - ⟨rfl, rfl, he, hs⟩
  rw [spanFrom_bind]
  refine ensures_pure ⟨rfl, by simp [Expr.yield], ?_, Nat.le_refl _⟩
  exact List.forall_mem_cons.2 ⟨⟨⟨nofun, trivial, hs⟩, id⟩, he⟩

theorem ensures_grouping (hread : SoundStages read room) (hk : c.current.kind = .leftParen)
    (hc : c.ahead.length ≤ room + 1) : (grouping read c).Ensures c OperandRead := by
  apply ensures_advance_word_bind hk rfl
  intro hd
  apply ensures_bind (ensures_above hread (Nat.zero_le _) (hd.length_ahead_lt (by simp) hc))
  rintro ys e d fs - ⟨rfl, hy, he, -, -⟩
  apply ensures_expect_bind rfl
  intro _ d' _
  rw [spanFrom_bind]
  refine ensures_pure ⟨rfl, by simpa [Expr.yield] using hy, ?_, Nat.le_refl _⟩
  exact List.forall_mem_cons.2 ⟨⟨⟨nofun, trivial, trivial⟩, id⟩, he⟩

/-- What holds of what was read after `new`. -/
theorem ensures_creationFrom (hread : SoundStages read room) (start : Nat)
    (hc : c.ahead.length ≤ room) : (creationFrom read start c).Ensures c fun ys e d fs =>
      OperandRead (word .newKw :: ys) e d fs := by
  rw [creationFrom, look_bind]
  generalize hk : c.current.kind = kind
  split
  next =>
    apply ensures_advance_word_bind hk rfl
    intro hd
    apply ensures_expect_bind rfl
    intro _ d' hd'
    refine ensures_bind (ensures_above hread (Nat.zero_le _)
      ((hd.trans hd').length_ahead_le hc)) ?_
    rintro ys e d'' fs - ⟨rfl, hy, he, -, -⟩
    apply ensures_expect_bind rfl
    intro _ _ _
    rw [spanFrom_bind]
    refine ensures_pure ⟨rfl, by simpa [Expr.yield] using hy, ?_, Nat.le_refl _⟩
    exact List.forall_mem_cons.2 ⟨⟨⟨List.forall_mem_nil _, trivial, trivial⟩, id⟩, he⟩
  next =>
    apply ensures_advance_bind (by rw [hk]; rintro ⟨⟩)
    intro hreg _
    refine ensures_expect_bind rfl fun _ _ _ => ensures_expect_bind rfl fun _ _ _ => ?_
    rw [spanFrom_bind, Token.terminal_ident hk]
    refine ensures_pure ⟨rfl, rfl, ?_, Nat.le_refl _⟩
    refine List.forall_mem_singleton.2 ⟨⟨?_, trivial, trivial⟩, id⟩
    exact List.forall_mem_singleton.2 (hreg.named hk)
  next => exact ensures_failUnexpected _ _ _

theorem ensures_creation (hread : SoundStages read room) (hk : c.current.kind = .newKw)
    (hc : c.ahead.length ≤ room + 1) : (creation read c).Ensures c OperandRead :=
  ensures_advance_word_bind hk rfl fun hd =>
    ensures_creationFrom hread _ (hd.length_ahead_lt (List.cons_ne_nil _ _) hc)

theorem ensures_operandFrom (hread : SoundStages read room) (hc : c.ahead.length ≤ room + 1) :
    (operandFrom read c).Ensures c OperandRead := by
  rw [operandFrom, look_bind]
  cases hk : c.current.kind with
  | integer value =>
    apply ensures_leaf (by rw [hk]; nofun)
    intro hreg s
    rw [Token.terminal_number hk]
    refine ⟨rfl, ?_, Nat.le_refl _⟩
    exact List.forall_mem_singleton.2 ⟨⟨nofun, hreg.inRange _ hk, trivial⟩, id⟩
  | trueKw | falseKw | thisKw =>
    apply ensures_leaf (by rw [hk]; nofun)
    intro hreg s
    rw [hreg.terminal_word hk rfl]
    exact ⟨rfl, List.forall_mem_singleton.2 ⟨⟨nofun, trivial, trivial⟩, id⟩, Nat.le_refl _⟩
  | identifier =>
    apply ensures_leaf (by rw [hk]; nofun)
    intro hreg s
    rw [Token.terminal_ident hk]
    refine ⟨rfl, List.forall_mem_singleton.2 ⟨⟨?_, trivial, trivial⟩, id⟩, Nat.le_refl _⟩
    exact List.forall_mem_singleton.2 (hreg.named hk)
  | bang => exact ensures_negation hread hk hc
  | leftParen => exact ensures_grouping hread hk hc
  | newKw => exact ensures_creation hread hk hc
  | _ => exact ensures_failUnexpected _ _ _

/-! ## Operators -/

/-- What holds of arguments that were read. -/
def ArgumentsRead : Post (List Expr) := fun ys es _ fs =>
  fs = [] ∧ ys = Expr.yieldList es ∧ ∀ e ∈ es, e.Legal

theorem ensures_argumentsOf {item : Reader Fault Expr} (hc : c.ahead.length ≤ room)
    (hitem : ∀ d : Cursor, d.ahead.length ≤ room →
      (item d).Ensures d fun ys e _ fs => fs = [] ∧ ys = e.yield ∧ e.Legal) (rounds : Nat) :
    (argumentsOf item rounds c).Ensures c ArgumentsRead := by
  rw [argumentsOf, isAt_bind]
  split
  · exact ensures_pure ⟨rfl, rfl, nofun⟩
  · apply (ensures_sepByComma hitem rounds hc).mono
    rintro ys es d fs ⟨rfl, -, rfl, hes⟩
    exact ⟨rfl, (Expr.yieldList_eq es).symm, hes⟩

/-- What holds after `op` took in `left`: the next operator may take in the outcome. -/
def OperatorTaken (left : Expr) (op : Operator) : Post Expr := fun ys e d fs =>
  fs = [] ∧ ys ≠ [] ∧ left.yield ++ ys = e.yield ∧ e.Legal ∧ e.strength = op.grip ∧
    ∀ next ∈ d.operator?, next.grip ≤ op.grip

variable {left : Expr}

theorem ensures_takeOperator (hread : SoundStages read room) (hc : c.ahead.length ≤ room + 1)
    (hleft : left.Legal) {op : Operator} (hop : c.operator? = some op)
    (hgrip : op.grip ≤ left.strength) :
    (takeOperator read room left op c).Ensures c (OperatorTaken left op) := by
  cases op with
  | binary sign =>
    refine ensures_advance_word_bind (Operator.kind_of_at? hop)
      sign.isSome_spelling_tokenKind fun hd => ?_
    refine ensures_bind (ensures_above hread (Operator.precedence_lt sign)
      (hd.length_ahead_lt (by simp) hc)) ?_
    rintro ys e d fs - ⟨rfl, hy, he, hs, hnext⟩
    rw [spanFrom_bind]
    refine ensures_pure ⟨rfl, nofun, by simpa [Expr.yield] using hy, ?_,
      (Operator.grip_binary sign).symm, fun next h => ?_⟩
    · rw [Operator.grip_binary] at hgrip
      refine List.forall_mem_cons.2 ⟨⟨⟨nofun, trivial, hgrip, hs⟩, id⟩, ?_⟩
      exact List.forall_mem_append.2 ⟨hleft, he⟩
    · exact Operator.grip_le_of_leftPower_lt (hnext next h)
  | index =>
    refine ensures_advance_word_bind (Operator.kind_of_at?_index hop) rfl fun hd => ?_
    refine ensures_bind (ensures_above hread (Nat.zero_le _)
      (hd.length_ahead_lt (by simp) hc)) ?_
    rintro ys e d fs - ⟨rfl, hy, he, -, -⟩
    apply ensures_expect_bind rfl
    intro _ d' _
    rw [spanFrom_bind]
    refine ensures_pure ⟨rfl, nofun, by simpa [Expr.yield] using hy, ?_, rfl,
      fun next _ => next.grip_le⟩
    refine List.forall_mem_cons.2 ⟨⟨⟨nofun, trivial, hgrip⟩, id⟩, ?_⟩
    exact List.forall_mem_append.2 ⟨hleft, he⟩
  | length =>
    obtain ⟨hk, hk'⟩ := Operator.kind_of_at?_length hop
    apply ensures_advance_word_bind hk rfl
    intro hd
    apply ensures_advance_word_bind (Cursor.kind_current_drop_one hk' (by nofun)) rfl
    intro _
    rw [spanFrom_bind]
    refine ensures_pure ⟨rfl, nofun, rfl, ?_, rfl, fun next _ => next.grip_le⟩
    exact List.forall_mem_cons.2 ⟨⟨⟨nofun, trivial, hgrip⟩, id⟩, hleft⟩
  | call =>
    refine ensures_advance_word_bind (Operator.kind_of_at?_call hop) rfl fun hd => ?_
    refine ensures_expectName_bind fun m d hm hd' => ensures_expect_bind rfl fun _ d' hd'' => ?_
    have hlen := (hd.trans (hd'.trans hd'')).length_ahead_lt (by simp) hc
    refine ensures_bind (ensures_argumentsOf hlen (fun e he =>
      (ensures_above hread (Nat.zero_le _) he).mono ?_) room) ?_
    · rintro ys e d fs ⟨rfl, hy, he, -⟩
      exact ⟨rfl, hy, he⟩
    rintro ys es d fs - ⟨rfl, rfl, hes⟩
    apply ensures_expect_bind rfl
    intro _ d' _
    rw [spanFrom_bind]
    refine ensures_pure ⟨rfl, nofun, by simp [Expr.yield], ?_, rfl, fun next _ => next.grip_le⟩
    exact Expr.legal_call hm hleft hgrip hes

theorem ensures_operatorsFrom (hread : SoundStages read room)
    (hfloor : floor ≤ Operator.postfixLevel) (hleft : left.Legal) (hs : floor ≤ left.strength)
    (hgrip : ∀ op ∈ c.operator?, op.grip ≤ left.strength) (hc : c.ahead.length ≤ room + 1) :
    (operatorsFrom read room floor left c).Ensures c (ReadDownTo floor left.yield) := by
  rw [operatorsFrom, here_bind]
  cases hop : c.operator? with
  | none =>
    rw [show Operator.at? c.current.kind c.secondKind = none from hop]
    exact ensures_pure ⟨rfl, List.append_nil _, hleft, hs, by rw [hop]; nofun⟩
  | some op =>
    rw [show Operator.at? c.current.kind c.secondKind = some op from hop]
    dsimp only
    split
    next hlt =>
      refine ensures_pure ⟨rfl, List.append_nil _, hleft, hs, ?_⟩
      rw [hop]
      rintro _ ⟨rfl⟩
      exact hlt
    next hge =>
      apply ensures_bind (ensures_takeOperator hread hc hleft hop (hgrip op hop))
      rintro ys e d fs hd ⟨rfl, hys, hy, he, hse, hnext⟩
      have hfloor' : floor ≤ e.strength := by
        rw [hse]
        exact Nat.le_min.2 ⟨Nat.le_of_not_lt hge, hfloor⟩
      rw [← hse] at hnext
      apply (hread.after floor e d hfloor he hfloor' hnext (hd.length_ahead_lt hys hc)).mono
      rintro zs e' d' fs ⟨rfl, hy', hrest⟩
      exact ⟨rfl, by rw [← hy', ← hy, List.append_assoc], hrest⟩

/-- Each bound is enough for as many tokens. -/
theorem soundStages (room : Nat) : SoundStages (stageWithin room) room := by
  induction room with
  | zero =>
    have hout : SoundStages (fun _ => outOfRoom operandStart) 0 :=
      ⟨fun c _ => ensures_outOfRoom _ _ _, fun floor left c _ _ _ _ _ => ensures_outOfRoom _ _ _⟩
    exact ⟨fun c hc => ensures_operandFrom hout (Nat.le_succ_of_le hc),
      fun floor left c hfloor hl hs hgrip hc =>
        ensures_operatorsFrom hout hfloor hl hs hgrip (Nat.le_succ_of_le hc)⟩
  | succ room ih =>
    exact ⟨fun c hc => ensures_operandFrom ih hc, fun floor left c hfloor hl hs hgrip hc =>
      ensures_operatorsFrom ih hfloor hl hs hgrip hc⟩

/-! ## Whole expressions -/

/-- What holds of an expression that was read. -/
def ExpressionRead : Post Expr := fun ys e _ fs =>
  fs = [] ∧ ys = e.yield ∧ e.Legal

theorem ensures_expression (c : Cursor) : (expression c).Ensures c ExpressionRead := by
  have hroom := c.length_le_room
  apply (ensures_above (soundStages c.room) (Nat.zero_le _) hroom).mono
  rintro ys e _ fs ⟨rfl, hy, he, -⟩
  exact ⟨rfl, hy, he⟩

theorem ensures_arguments (c : Cursor) : (arguments c).Ensures c ArgumentsRead :=
  ensures_argumentsOf (Nat.le_refl _) (fun d _ => ensures_expression d) c.room

theorem ensures_parenthesized (c : Cursor) :
    (parenthesized c).Ensures c fun ys e _ fs =>
      fs = [] ∧ ys = word .leftParen :: (e.yield ++ [word .rightParen]) ∧ e.Legal := by
  refine ensures_expect_bind rfl fun _ d _ => ensures_bind (ensures_expression d) ?_
  rintro ys e d fs - ⟨rfl, rfl, he⟩
  exact ensures_expect_bind rfl fun _ _ _ => ensures_pure ⟨rfl, rfl, he⟩

end Parse

end MiniJava
