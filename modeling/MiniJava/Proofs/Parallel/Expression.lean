import MiniJava.Proofs.Expression.Sound
import MiniJava.Proofs.Parallel.Pairing
import MiniJava.Tree.Spans

/-!
# Two readings of expressions

From paired places, two readings of an expression give trees that differ in spans only, or fail for
the same cause.
-/

namespace MiniJava

/-- Two expressions that differ in spans only. -/
def Expr.Twin (e f : Expr) : Prop := e.withoutSpans = f.withoutSpans

namespace Expr.Twin

theorem list {es fs : List Expr} (h : List.Forall₂ Expr.Twin es fs) :
    Expr.withoutSpansList es = Expr.withoutSpansList fs := by
  induction h with
  | nil => rfl
  | cons he _ ih => rw [Expr.withoutSpansList, he, ih, Expr.withoutSpansList]

end Expr.Twin

/-- Two failures that correspond, and two expressions that differ in spans only. -/
abbrev Reading.ParallelExpr (P : Pairing) (r s : Reading Fault Expr) : Prop :=
  r.Parallel P (Fault.Twin P.Starts) Expr.Twin s

namespace Parse

open Reader Reading

variable {P : Pairing} {c d : Cursor}

/-- What is asked of the reader of smaller parts. -/
structure ParallelStages (P : Pairing) (read : StageReader) : Prop where
  operand : ∀ c d, P.Pairs c d → (read .operand c).ParallelExpr P (read .operand d)
  after : ∀ floor e e' c d, P.Pairs c d → Expr.Twin e e' →
    (read (.after floor e) c).ParallelExpr P (read (.after floor e') d)

variable {read : StageReader}

theorem parallel_above (hread : ParallelStages P read) (floor : Nat) (h : P.Pairs c d) :
    (above read floor c).ParallelExpr P (above read floor d) := by
  apply parallel_bind (hread.operand c d h)
  intro e e' c' d' h' he
  exact hread.after floor e e' c' d' h' he

theorem parallel_leaf {build build' : Span → Expr} (h : P.Pairs c d) (hfree : P.Free c.ahead)
    (hbuild : ∀ s s', Expr.Twin (build s) (build' s')) :
    (leaf build c).ParallelExpr P (leaf build' d) := by
  apply parallel_advance_bind h hfree
  intro t u _ h'
  apply parallel_spanFrom_bind
  intro s s' _ _
  exact parallel_pure h' (hbuild s s')

theorem parallel_negation (hread : ParallelStages P read) (h : P.Pairs c d)
    (hfree : P.Free c.ahead) : (negation read c).ParallelExpr P (negation read d) := by
  apply parallel_advance_bind h hfree
  intro t u _ h'
  apply parallel_bind (hread.operand _ _ h')
  intro e e' c' d' h' he
  apply parallel_spanFrom_bind
  intro s s' _ _
  apply parallel_pure h'
  simpa only [Expr.Twin, Expr.withoutSpans, Expr.not.injEq, true_and] using he

theorem parallel_grouping (hread : ParallelStages P read) (h : P.Pairs c d)
    (hfree : P.Free c.ahead) : (grouping read c).ParallelExpr P (grouping read d) := by
  apply parallel_advance_bind h hfree
  intro t u _ h'
  apply parallel_bind (parallel_above hread 0 h')
  intro e e' c' d' h' he
  apply parallel_expect_bind h' (by decide)
  intro _ _ c' d' h' _
  apply parallel_spanFrom_bind
  intro s s' _ _
  apply parallel_pure h'
  simpa only [Expr.Twin, Expr.withoutSpans, Expr.paren.injEq, true_and] using he

theorem parallel_creationFrom (hread : ParallelStages P read) (start start' : Nat)
    (h : P.Pairs c d) :
    (creationFrom read start c).ParallelExpr P (creationFrom read start' d) := by
  rw [creationFrom, creationFrom, look_bind, look_bind, ← P.kind_eq h, ← P.lexeme_eq h]
  generalize hk : c.current.kind = kind
  split
  next =>
    apply parallel_advance_bind h (P.free h (by simp [hk]))
    intro _ _ _ h'
    apply parallel_expect_bind h' (by decide)
    intro _ _ c' d' h' _
    apply parallel_bind (parallel_above hread 0 h')
    intro e e' c' d' h' he
    apply parallel_expect_bind h' (by decide)
    intro _ _ c' d' h' _
    apply parallel_spanFrom_bind
    intro s s' _ _
    apply parallel_pure h'
    simpa only [Expr.Twin, Expr.withoutSpans, Expr.newArray.injEq, true_and] using he
  next =>
    apply parallel_advance_bind h (P.free h (by simp [hk]))
    intro _ _ _ h'
    apply parallel_expect_bind h' (by decide)
    intro _ _ c' d' h' _
    apply parallel_expect_bind h' (by decide)
    intro _ _ c' d' h' _
    apply parallel_spanFrom_bind
    intro s s' _ _
    exact parallel_pure h' rfl
  next => exact parallel_failUnexpected h _

theorem parallel_creation (hread : ParallelStages P read) (h : P.Pairs c d)
    (hfree : P.Free c.ahead) : (creation read c).ParallelExpr P (creation read d) := by
  apply parallel_advance_bind h hfree
  intro t u _ h'
  exact parallel_creationFrom hread t.span.start u.span.start h'

theorem parallel_operandFrom (hread : ParallelStages P read) (h : P.Pairs c d) :
    (operandFrom read c).ParallelExpr P (operandFrom read d) := by
  rw [operandFrom, look_bind, look_bind, ← P.kind_eq h, ← P.lexeme_eq h]
  cases hk : c.current.kind with
  | integer | trueKw | falseKw | identifier | thisKw =>
    exact parallel_leaf h (P.free h (by simp [hk])) fun _ _ => rfl
  | bang => exact parallel_negation hread h (P.free h (by simp [hk]))
  | leftParen => exact parallel_grouping hread h (P.free h (by simp [hk]))
  | newKw => exact parallel_creation hread h (P.free h (by simp [hk]))
  | _ => exact parallel_failUnexpected h _

theorem parallel_argumentsOf {item : Reader Fault Expr}
    (hitem : ∀ c d, P.Pairs c d → (item c).ParallelExpr P (item d)) (room : Nat)
    (h : P.Pairs c d) :
    (argumentsOf item room c).Parallel P (Fault.Twin P.Starts) (List.Forall₂ Expr.Twin)
      (argumentsOf item room d) := by
  apply parallel_isAt_bind h
  split
  · exact parallel_pure h .nil
  · exact parallel_sepByComma hitem room h

/-- An operator is no class, so a border is not in its way. -/
theorem free_of_operator (h : P.Pairs c d) {op : Operator} (hop : c.operator? = some op) :
    P.Free c.ahead := by
  apply P.free h
  intro hk
  rw [Cursor.operator?, hk] at hop
  cases hop

theorem parallel_takeOperator (hread : ParallelStages P read) (room : Nat) {e e' : Expr}
    (he : Expr.Twin e e') (op : Operator) (h : P.Pairs c d) (hop : c.operator? = some op) :
    (takeOperator read room e op c).ParallelExpr P (takeOperator read room e' op d) := by
  have hfree := free_of_operator h hop
  cases op with
  | binary sign =>
    apply parallel_advance_bind h hfree
    intro _ _ _ h'
    apply parallel_bind (parallel_above hread _ h')
    intro r r' c' d' h' hr
    apply parallel_spanFrom_bind
    intro s s' _ _
    apply parallel_pure h'
    simpa only [Expr.Twin, Expr.withoutSpans, Expr.binary.injEq, true_and] using ⟨he, hr⟩
  | index =>
    apply parallel_advance_bind h hfree
    intro _ _ _ h'
    apply parallel_bind (parallel_above hread 0 h')
    intro i i' c' d' h' hi
    apply parallel_expect_bind h' (by decide)
    intro _ _ c' d' h' _
    apply parallel_spanFrom_bind
    intro s s' _ _
    apply parallel_pure h'
    simpa only [Expr.Twin, Expr.withoutSpans, Expr.index.injEq, true_and] using ⟨he, hi⟩
  | length =>
    obtain ⟨-, hsecond⟩ := Operator.kind_of_at?_length hop
    apply parallel_advance_bind h hfree
    intro _ _ _ h'
    have hk := Cursor.kind_current_drop_one hsecond (by simp)
    apply parallel_advance_bind h' (P.free h' (by simp [hk]))
    intro _ _ _ h'
    apply parallel_spanFrom_bind
    intro s s' _ _
    apply parallel_pure h'
    simpa only [Expr.Twin, Expr.withoutSpans, Expr.length.injEq, true_and] using he
  | call =>
    apply parallel_advance_bind h hfree
    intro _ _ _ h'
    apply parallel_expectName_bind h'
    intro n c' d' h'
    apply parallel_expect_bind h' (by decide)
    intro _ _ c' d' h' _
    have hargs := parallel_argumentsOf (fun c d => parallel_above hread 0) room h'
    apply parallel_bind hargs
    intro as as' c' d' h' has
    apply parallel_expect_bind h' (by decide)
    intro _ _ c' d' h' _
    apply parallel_spanFrom_bind
    intro s s' _ _
    apply parallel_pure h'
    simpa only [Expr.Twin, Expr.withoutSpans, Expr.call.injEq, true_and] using
      ⟨he, Expr.Twin.list has⟩

theorem parallel_operatorsFrom (hread : ParallelStages P read) (room floor : Nat) {e e' : Expr}
    (he : Expr.Twin e e') (h : P.Pairs c d) :
    (operatorsFrom read room floor e c).ParallelExpr P (operatorsFrom read room floor e' d) := by
  rw [operatorsFrom, operatorsFrom, here_bind, here_bind, ← P.kind_eq h, ← P.secondKind_eq h]
  cases hop : Operator.at? c.current.kind c.secondKind with
  | none => exact parallel_pure h he
  | some op =>
    by_cases hfloor : op.leftPower < floor
    · simp only [if_pos hfloor]
      exact parallel_pure h he
    · simp only [if_neg hfloor]
      apply parallel_bind (parallel_takeOperator hread room he op h hop)
      intro f f' c' d' h' hf
      exact hread.after floor f f' c' d' h' hf

theorem parallelStages (P : Pairing) (room : Nat) : ParallelStages P (stageWithin room) := by
  induction room with
  | zero =>
    have hout : ParallelStages P fun _ => outOfRoom operandStart :=
      ⟨fun c d h => parallel_outOfRoom h _, fun floor e e' c d h he => parallel_outOfRoom h _⟩
    refine ⟨fun c d h => ?_, fun floor e e' c d h he => ?_⟩
    · exact parallel_operandFrom hout h
    · exact parallel_operatorsFrom hout 0 floor he h
  | succ room ih =>
    refine ⟨fun c d h => ?_, fun floor e e' c d h he => ?_⟩
    · exact parallel_operandFrom ih h
    · exact parallel_operatorsFrom ih room floor he h

/-! ## Whole expressions -/

theorem parallel_expression (h : P.Pairs c d) : (expression c).ParallelExpr P (expression d) :=
  parallel_withRoom h (parallel_above (parallelStages P c.room) 0 h)

theorem parallel_arguments (h : P.Pairs c d) :
    (arguments c).Parallel P (Fault.Twin P.Starts) (List.Forall₂ Expr.Twin) (arguments d) :=
  parallel_withRoom h (parallel_argumentsOf (fun _ _ => parallel_expression) c.room h)

theorem parallel_parenthesized (h : P.Pairs c d) :
    (parenthesized c).ParallelExpr P (parenthesized d) := by
  apply parallel_expect_bind h (by decide)
  intro _ _ c' d' h' _
  apply parallel_bind (parallel_expression h')
  intro e e' c' d' h' he
  apply parallel_expect_bind h' (by decide)
  intro _ _ c' d' h' _
  exact parallel_pure h' he

end Parse

end MiniJava
