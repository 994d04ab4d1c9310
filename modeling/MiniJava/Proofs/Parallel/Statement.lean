import MiniJava.Proofs.Declaration.Unread
import MiniJava.Proofs.Parallel.Expression
import MiniJava.Proofs.Statement.Sound

/-!
# Two readings of statements

A statement that cannot be read is skipped. Two readings skip the same number of tokens, since both
have come equally far when they fail.
-/

namespace MiniJava

variable {Starts : Nat → Nat → Prop}

/-- Two spans that start at places which correspond. -/
def Span.Twin (Starts : Nat → Nat → Prop) (s t : Span) : Prop := Starts s.start t.start

/-- Two `recur`s that differ in spans only and start at places which correspond. -/
structure Recur.Twin (Starts : Nat → Nat → Prop) (r r' : Recur) : Prop where
  tree : r.withoutSpans = r'.withoutSpans
  span : r.span.Twin Starts r'.span

/--
Two statements that differ in spans only. Each `recur` starts where its twin does, and so does a
statement that could not be read.
-/
structure Stmt.Twin (Starts : Nat → Nat → Prop) (s s' : Stmt) : Prop where
  tree : s.withoutSpans = s'.withoutSpans
  recurs : List.Forall₂ (Recur.Twin Starts) s.recurs s'.recurs
  unread : Option.Rel (Span.Twin Starts) s.unread? s'.unread?

namespace Stmt.Twin

theorem list_tree {ss ss' : List Stmt} (h : List.Forall₂ (Stmt.Twin Starts) ss ss') :
    Stmt.withoutSpansList ss = Stmt.withoutSpansList ss' := by
  induction h with
  | nil => rfl
  | cons hs _ ih => rw [Stmt.withoutSpansList, hs.tree, ih, Stmt.withoutSpansList]

theorem list_recurs {ss ss' : List Stmt} (h : List.Forall₂ (Stmt.Twin Starts) ss ss') :
    List.Forall₂ (Recur.Twin Starts) (Stmt.recursList ss) (Stmt.recursList ss') := by
  induction h with
  | nil => exact .nil
  | cons hs _ ih => exact List.rel_append hs.recurs ih

theorem error {s s' : Span} (h : s.Twin Starts s') : (Stmt.error s).Twin Starts (.error s') :=
  ⟨rfl, .nil, .some h⟩

/-- Statements without others inside hold no `recur`. -/
theorem plain {s s' : Stmt} (h : s.withoutSpans = s'.withoutSpans)
    (hs : s.recurs = [] ∧ s.unread? = none) (hs' : s'.recurs = [] ∧ s'.unread? = none) :
    s.Twin Starts s' := by
  refine ⟨h, ?_, ?_⟩
  · rw [hs.1, hs'.1]
    exact .nil
  · rw [hs.2, hs'.2]
    exact .none

end Stmt.Twin

/-- Two failures that correspond, and two statements that do. -/
abbrev Reading.ParallelStmt (P : Pairing) (r s : Reading Fault Stmt) : Prop :=
  r.Parallel P (Fault.Twin P.Starts) (Stmt.Twin P.Starts) s

namespace Parse

open Reader Reading

variable {ε α : Type} {P : Pairing} {c d : Cursor} {E : ε → ε → Prop}

/-! ## Statements without others inside -/

theorem parallel_assignmentTo (start start' : Nat) (name : String) (h : P.Pairs c d) :
    (assignmentTo start name c).ParallelStmt P (assignmentTo start' name d) := by
  rw [assignmentTo, assignmentTo, look_bind, look_bind, ← P.kind_eq h]
  generalize hk : c.current.kind = kind
  split
  next =>
    apply parallel_advance_bind h (P.free h (by simp [hk]))
    intro _ _ _ h'
    apply parallel_bind (parallel_expression h')
    intro e e' c' d' h' he
    apply parallel_expect_bind h' (by decide)
    intro _ _ c' d' h' _
    apply parallel_spanFrom_bind
    intro s s' _ _
    apply parallel_pure h'
    refine .plain ?_ ⟨rfl, rfl⟩ ⟨rfl, rfl⟩
    simpa only [Expr.Twin, Stmt.withoutSpans, Stmt.assign.injEq, true_and] using he
  next =>
    apply parallel_advance_bind h (P.free h (by simp [hk]))
    intro _ _ _ h'
    apply parallel_bind (parallel_expression h')
    intro i i' c' d' h' hi
    apply parallel_expect_bind h' (by decide)
    intro _ _ c' d' h' _
    apply parallel_expect_bind h' (by decide)
    intro _ _ c' d' h' _
    apply parallel_bind (parallel_expression h')
    intro e e' c' d' h' he
    apply parallel_expect_bind h' (by decide)
    intro _ _ c' d' h' _
    apply parallel_spanFrom_bind
    intro s s' _ _
    apply parallel_pure h'
    refine .plain ?_ ⟨rfl, rfl⟩ ⟨rfl, rfl⟩
    simpa only [Stmt.withoutSpans, Stmt.assignElement.injEq, true_and] using ⟨hi, he⟩
  next => exact parallel_failUnexpected h _

theorem parallel_assignment (h : P.Pairs c d) :
    (assignment c).ParallelStmt P (assignment d) := by
  apply parallel_expect_bind h (by decide)
  intro t u c' d' h' htwin
  rw [htwin.lexeme]
  exact parallel_assignmentTo t.span.start u.span.start u.lexeme h'

theorem parallel_printStatement (h : P.Pairs c d) :
    (printStatement c).ParallelStmt P (printStatement d) := by
  apply parallel_expect_bind h (by decide)
  intro t u c' d' h' _
  apply parallel_bind (parallel_parenthesized h')
  intro e e' c' d' h' he
  apply parallel_expect_bind h' (by decide)
  intro _ _ c' d' h' _
  apply parallel_spanFrom_bind
  intro s s' _ _
  apply parallel_pure h'
  refine .plain ?_ ⟨rfl, rfl⟩ ⟨rfl, rfl⟩
  simpa only [Expr.Twin, Stmt.withoutSpans, Stmt.println.injEq, true_and] using he

theorem parallel_recur (h : P.Pairs c d) :
    (recur c).Parallel P (Fault.Twin P.Starts) (Recur.Twin P.Starts) (recur d) := by
  apply parallel_expect_bind h (by decide)
  intro t u c' d' h' htwin
  apply parallel_bind (parallel_parenthesized h')
  intro e e' c' d' h' he
  apply parallel_expect_bind h' (by decide)
  intro _ _ c' d' h' _
  apply parallel_expect_bind h' (by decide)
  intro _ _ c' d' h' _
  apply parallel_bind (parallel_arguments h')
  intro as as' c' d' h' has
  apply parallel_expect_bind h' (by decide)
  intro _ _ c' d' h' _
  apply parallel_expect_bind h' (by decide)
  intro _ _ c' d' h' _
  apply parallel_bind (parallel_expression h')
  intro f f' c' d' h' hf
  apply parallel_expect_bind h' (by decide)
  intro _ _ c' d' h' _
  apply parallel_spanFrom_bind
  intro s s' hs hs'
  apply parallel_pure h'
  refine ⟨?_, ?_⟩
  · have hargs := Expr.Twin.list has
    rw [Expr.withoutSpansList_eq, Expr.withoutSpansList_eq] at hargs
    simpa only [Recur.withoutSpans, Recur.mk.injEq, true_and] using ⟨he, hargs, hf⟩
  · rw [Span.Twin, hs, hs']
    exact htwin.start

theorem parallel_recurStatement (h : P.Pairs c d) :
    (recurStatement c).ParallelStmt P (recurStatement d) := by
  apply parallel_bind (parallel_recur h)
  intro r r' c' d' h' hr
  apply parallel_pure h'
  refine ⟨?_, .cons hr .nil, .none⟩
  simpa only [Stmt.withoutSpans, Stmt.recur.injEq] using hr.tree

/-! ## Recovery -/

theorem parallel_recover {o o' : Cursor} {fault fault' : Fault} (region : Region)
    (h : P.Pairs c d) (ho : P.Pairs o o') (hfree : ¬ o.pos < c.pos → P.Free c.ahead)
    (hf : fault.Twin P.Starts fault') :
    ((recover region o fault : Reader ε Unit) c).Parallel P E (fun _ _ => True)
      ((recover region o' fault' : Reader ε Unit) d) :=
  have hskip := parallel_resync (E := E) region h ho hfree
  ⟨hskip.outcomes, hskip.pairs, .cons hf hskip.faults⟩

/--
A construct that cannot be read is reported and skipped. Where no token of it was read, the first
token that is skipped is the one at which it was to start.
-/
theorem parallel_rescue_recover {p q : Reader Fault α} {k k' : Unit → Reader ε α}
    {V : α → α → Prop} {Q : Post α} (region : Region) (h : P.Pairs c d) (hfree : P.Free c.ahead)
    (hp : (p c).Parallel P (Fault.Twin P.Starts) V (q d)) (htaken : (p c).Ensures c Q)
    (hk : ∀ c' d', P.Pairs c' d' → (k () c').Parallel P E V (k' () d')) :
    (rescue p (fun fault => recover region c fault >>= k) c).Parallel P E V
      (rescue q (fun fault => recover region d fault >>= k') d) := by
  apply parallel_rescue hp
  intro fault fault' hf h'
  obtain ⟨ys, hreach, -⟩ := htaken (P.regular h)
  have hfree' : ¬ c.pos < (p c).cursor.pos → P.Free (p c).cursor.ahead := fun hpos =>
    hreach.ahead_eq hpos ▸ hfree
  apply parallel_bind (parallel_recover region h' h hfree' hf)
  intro _ _ c'' d'' h'' _
  exact hk c'' d'' h''

variable {inner : Reader Fault Stmt}

/-- What is asked of the reader of the statements inside. -/
structure ParallelInner (P : Pairing) (inner : Reader Fault Stmt) : Prop where
  parallel : ∀ c d, P.Pairs c d → (inner c).ParallelStmt P (inner d)
  taken : ∀ c, (inner c).Ensures c StatementRead

theorem parallel_recovering (hinner : ParallelInner P inner) (h : P.Pairs c d)
    (hfree : P.Free c.ahead) :
    ((recovering inner : Reader ε Stmt) c).Parallel P E (Stmt.Twin P.Starts)
      ((recovering inner : Reader ε Stmt) d) := by
  rw [recovering, here_bind, here_bind]
  apply parallel_rescue_recover .statements h hfree (hinner.parallel c d h) (hinner.taken c)
  intro c' d' h'
  apply parallel_spanFrom_bind
  intro s s' hs hs'
  refine parallel_pure h' (.error ?_)
  rw [Span.Twin, hs, hs']
  exact (P.current h).start

theorem atListEnd_eq (h : P.Pairs c d) : atListEnd c = atListEnd d := by
  rw [atListEnd, atListEnd, P.kind_eq h]

theorem free_of_atListEnd (h : P.Pairs c d) (hc : atListEnd c = false) : P.Free c.ahead := by
  apply P.free h
  intro hk
  simp [atListEnd, hk] at hc

theorem parallel_manyStatements (hinner : ParallelInner P inner) (rounds : Nat)
    (h : P.Pairs c d) :
    ((manyUntil atListEnd (recovering inner) rounds : Reader ε (List Stmt)) c).Parallel P E
      (List.Forall₂ (Stmt.Twin P.Starts)) (manyUntil atListEnd (recovering inner) rounds d) := by
  refine parallel_manyUntil (fun _ _ => atListEnd_eq) (fun c d h hc => ?_) rounds h
  exact parallel_recovering hinner h (free_of_atListEnd h hc)

/-! ## Statements with others inside -/

theorem parallel_blockOf (hinner : ParallelInner P inner) (room : Nat) (h : P.Pairs c d)
    (hfree : P.Free c.ahead) : (blockOf inner room c).ParallelStmt P (blockOf inner room d) := by
  apply parallel_advance_bind h hfree
  intro t u _ h'
  apply parallel_bind (parallel_manyStatements hinner room h')
  intro ss ss' c' d' h' hss
  apply parallel_expect_bind h' (by decide)
  intro _ _ c' d' h' _
  apply parallel_spanFrom_bind
  intro s s' _ _
  apply parallel_pure h'
  refine ⟨?_, Stmt.Twin.list_recurs hss, .none⟩
  simpa only [Stmt.withoutSpans, Stmt.block.injEq, true_and] using Stmt.Twin.list_tree hss

theorem parallel_missingElse (h : P.Pairs c d) :
    (missingElse c).ParallelStmt P (missingElse d) := by
  rw [missingElse, look_bind, look_bind]
  apply parallel_bind (parallel_report h (.unexpected (P.current h) _ _))
  intro _ _ c' d' h' _
  exact parallel_pure h' (.error (P.current h).start)

theorem parallel_elseBranchOf (hinner : ParallelInner P inner) (h : P.Pairs c d) :
    (elseBranchOf inner c).ParallelStmt P (elseBranchOf inner d) := by
  apply parallel_eat_bind h (by decide)
  intro taken c' d' h'
  cases taken with
  | true => exact hinner.parallel c' d' h'
  | false => exact parallel_missingElse h'

theorem parallel_ifElseOf (hinner : ParallelInner P inner) (h : P.Pairs c d)
    (hfree : P.Free c.ahead) : (ifElseOf inner c).ParallelStmt P (ifElseOf inner d) := by
  apply parallel_advance_bind h hfree
  intro t u _ h'
  apply parallel_bind (parallel_parenthesized h')
  intro e e' c' d' h' he
  apply parallel_bind (hinner.parallel c' d' h')
  intro b b' c' d' h' hb
  apply parallel_bind (parallel_elseBranchOf hinner h')
  intro o o' c' d' h' ho
  apply parallel_spanFrom_bind
  intro s s' _ _
  apply parallel_pure h'
  refine ⟨?_, List.rel_append hb.recurs ho.recurs, .none⟩
  simpa only [Expr.Twin, Stmt.withoutSpans, Stmt.ifElse.injEq, true_and] using
    ⟨he, hb.tree, ho.tree⟩

theorem parallel_whileLoopOf (hinner : ParallelInner P inner) (h : P.Pairs c d)
    (hfree : P.Free c.ahead) : (whileLoopOf inner c).ParallelStmt P (whileLoopOf inner d) := by
  apply parallel_advance_bind h hfree
  intro t u _ h'
  apply parallel_bind (parallel_parenthesized h')
  intro e e' c' d' h' he
  apply parallel_bind (hinner.parallel c' d' h')
  intro b b' c' d' h' hb
  apply parallel_spanFrom_bind
  intro s s' _ _
  apply parallel_pure h'
  refine ⟨?_, hb.recurs, .none⟩
  simpa only [Expr.Twin, Stmt.withoutSpans, Stmt.whileLoop.injEq, true_and] using ⟨he, hb.tree⟩

theorem parallel_statementOf (hinner : ParallelInner P inner) (room : Nat) (h : P.Pairs c d) :
    (statementOf inner room c).ParallelStmt P (statementOf inner room d) := by
  rw [statementOf, look_bind, look_bind, ← P.kind_eq h]
  generalize hk : c.current.kind = kind
  split
  next => exact parallel_blockOf hinner room h (P.free h (by simp [hk]))
  next => exact parallel_ifElseOf hinner h (P.free h (by simp [hk]))
  next => exact parallel_whileLoopOf hinner h (P.free h (by simp [hk]))
  next => exact parallel_printStatement h
  next => exact parallel_assignment h
  next => exact parallel_recurStatement h
  next => exact parallel_failUnexpected h _

theorem parallelStatementWithin (P : Pairing) (room : Nat) :
    ParallelInner P (statementWithin room) := by
  refine ⟨?_, ensures_statementWithin room⟩
  induction room with
  | zero =>
    have hout : ParallelInner P (outOfRoom statementStart) :=
      ⟨fun c d h => parallel_outOfRoom h _, fun c => ensures_outOfRoom _ c _⟩
    exact fun c d h => parallel_statementOf hout 0 h
  | succ room ih =>
    exact fun c d h => parallel_statementOf ⟨ih, ensures_statementWithin room⟩ room h

theorem parallelStatement (P : Pairing) : ParallelInner P statement :=
  ⟨fun c _ h => parallel_withRoom h ((parallelStatementWithin P c.room).parallel _ _ h),
    ensures_statement⟩

theorem parallel_statements (h : P.Pairs c d) :
    ((statements : Reader ε (List Stmt)) c).Parallel P E (List.Forall₂ (Stmt.Twin P.Starts))
      ((statements : Reader ε (List Stmt)) d) :=
  parallel_withRoom h (parallel_manyStatements (parallelStatement P) c.room h)

theorem parallel_reportRecurs {rs rs' : List Recur} (h : P.Pairs c d)
    (hrs : List.Forall₂ (Recur.Twin P.Starts) rs rs') :
    ((reportRecurs rs : Reader ε Unit) c).Parallel P E (fun _ _ => True)
      ((reportRecurs rs' : Reader ε Unit) d) := by
  apply parallel_noteAll h
  induction hrs with
  | nil => exact .nil
  | cons hr _ ih => exact .cons (.misplaced hr.span _) ih

end Parse

end MiniJava
