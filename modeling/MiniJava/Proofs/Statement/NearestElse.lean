import MiniJava.Proofs.Extents.Nodes
import MiniJava.Proofs.Grammar.Gaps
import MiniJava.Proofs.Statement.Sound

/-!
# Which `if` an `else` belongs to

A statement is open if it ends with an `if` that has no `else`. What follows an open statement is no
`else`, since it would have been taken for that `if`; so the first branch of an `if` that has both
is never open. This holds of every statement that is given, whatever faults there are.
-/

namespace MiniJava

/-! ## Open statements -/

/-- The statement ends with an `if` that has no `else`. A block closes what is in it. -/
def Stmt.IsOpen : Stmt → Prop
  | .ifElse _ _ _ e => e.IsMissing ∨ e.IsOpen
  | .whileLoop _ _ b => b.IsOpen
  | .block .. | .println .. | .assign .. | .assignElement .. | .recur _ | .error _ => False

/--
If the node is an `if`, then its `else` is missing, or it is followed by what was read as a
statement, and no `if` that ends the first branch could have taken it.
-/
def Node.ElseNearest : Node → Prop
  | stmt (.ifElse _ _ t e) => e.IsMissing ∨ ¬ (stmt e).IsError ∧ ¬ t.IsOpen
  | _ => True

/-- The statement has no others inside, and stands for something that was read. -/
def Stmt.IsSimple : Stmt → Prop
  | .println .. | .assign .. | .assignElement .. | .recur _ => True
  | .block .. | .ifElse .. | .whileLoop .. | .error _ => False

/-- Every `else` among some nodes belongs to the nearest `if`. -/
def ElsesNearest (ns : List Node) : Prop := ∀ n ∈ ns, n.ElseNearest

namespace ElsesNearest

variable {n : Node} {ns ms : List Node}

theorem cons (hn : n.ElseNearest) (h : ElsesNearest ns) : ElsesNearest (n :: ns) :=
  List.forall_mem_cons.2 ⟨hn, h⟩

theorem append (h : ElsesNearest ns) (h' : ElsesNearest ms) : ElsesNearest (ns ++ ms) :=
  List.forall_mem_append.2 ⟨h, h'⟩

/-- Where no statement is, there is no `else`. -/
theorem of_stmt_notMem (h : ∀ s, .stmt s ∉ ns) : ElsesNearest ns := by
  intro n hn
  cases n with
  | stmt s => exact absurd hn (h s)
  | program | classDecl | method | var | param | recur | expr => trivial

theorem expr (e : Expr) : ElsesNearest e.nodes := of_stmt_notMem fun s => e.stmt_notMem_nodes s

theorem result (r : MethodResult) : ElsesNearest r.nodes :=
  of_stmt_notMem fun s => r.stmt_notMem_nodes s

theorem error (span : Span) : ElsesNearest (Stmt.error span).nodes :=
  List.forall_mem_singleton.2 trivial

theorem of_isSimple {s : Stmt} (h : s.IsSimple) : ElsesNearest s.nodes := by
  cases s with
  | println _ v | assign _ _ v => exact cons trivial (expr v)
  | assignElement _ _ i v => exact cons trivial ((expr i).append (expr v))
  | recur r => exact cons trivial (of_stmt_notMem fun s => r.stmt_notMem_nodes s)
  | block | ifElse | whileLoop | error => exact h.elim

end ElsesNearest

/-- What holds of a statement that was read up to `d`: if it is open, then no `else` is there. -/
structure Stmt.ReadUpTo (s : Stmt) (d : Cursor) : Prop where
  nearest : ElsesNearest s.nodes
  noElse : s.IsOpen → d.current.kind ≠ .elseKw
  noError : ¬ (Node.stmt s).IsError

/-- What holds of a second branch that was read up to `d`, or that is missing, after `t`. -/
structure Stmt.SecondOf (t e : Stmt) (d : Cursor) : Prop where
  nearest : ElsesNearest e.nodes
  belongs : e.IsMissing ∨ ¬ (Node.stmt e).IsError ∧ ¬ t.IsOpen
  noElse : e.IsMissing ∨ e.IsOpen → d.current.kind ≠ .elseKw

namespace Stmt

variable {s t e : Stmt} {d d' : Cursor}

theorem not_isMissing_of_noError (h : ¬ (Node.stmt s).IsError) : ¬ s.IsMissing := by
  rintro ⟨offset, rfl⟩
  exact h trivial

theorem readUpTo_of_isSimple (h : s.IsSimple) (d : Cursor) : s.ReadUpTo d := by
  cases s with
  | println | assign | assignElement | recur => exact ⟨.of_isSimple h, False.elim, id⟩
  | block | ifElse | whileLoop | error => exact h.elim

theorem readUpTo_block {span : Span} {ss : List Stmt} (h : ElsesNearest (ss.flatMap nodes))
    (d : Cursor) : (block span ss).ReadUpTo d := by
  refine ⟨.cons trivial ?_, False.elim, id⟩
  rwa [nodesList_eq]

theorem readUpTo_whileLoop {span : Span} {condition : Expr} (h : s.ReadUpTo d) :
    (whileLoop span condition s).ReadUpTo d :=
  ⟨.cons trivial ((ElsesNearest.expr condition).append h.nearest), h.noElse, id⟩

theorem readUpTo_ifElse {span : Span} {condition : Expr} (ht : t.ReadUpTo d)
    (he : t.SecondOf e d') : (ifElse span condition t e).ReadUpTo d' where
  nearest := .cons he.belongs
    ((ElsesNearest.expr condition).append (ht.nearest.append he.nearest))
  noElse := he.noElse
  noError := id

/-- An `else` that was taken shows that the first branch was not open. -/
theorem secondOf_of_else {c : Cursor} (ht : t.ReadUpTo c) (hc : c.current.kind = .elseKw)
    (he : e.ReadUpTo d) : t.SecondOf e d where
  nearest := he.nearest
  belongs := .inr ⟨he.noError, fun hopen => ht.noElse hopen hc⟩
  noElse := by
    rintro (hmissing | hopen)
    · exact absurd hmissing (not_isMissing_of_noError he.noError)
    · exact he.noElse hopen

theorem secondOf_missing (t : Stmt) (offset : Nat) (hd : d.current.kind ≠ .elseKw) :
    t.SecondOf (.error (.point offset)) d :=
  ⟨.error _, .inl ⟨offset, rfl⟩, fun _ => hd⟩

end Stmt

/-! ## Statements without others inside -/

namespace Parse

open Reader Reading

variable {ε : Type} {inner : Reader Fault Stmt} {c : Cursor}

theorem simple_assignmentTo (start : Nat) (name : String) (c : Cursor) :
    (assignmentTo start name c).Ensures c fun _ s _ _ => s.IsSimple := by
  rw [assignmentTo, look_bind]
  generalize hk : c.current.kind = kind
  split
  next =>
    refine ensures_advance_word_bind hk rfl fun _ => ensures_bind (ensures_expression _) ?_
    intro _ _ _ _ _ _
    exact ensures_expect_bind rfl fun _ _ _ => ensures_pure trivial
  next =>
    refine ensures_advance_word_bind hk rfl fun _ => ensures_bind (ensures_expression _) ?_
    intro _ _ _ _ _ _
    refine ensures_expect_bind rfl fun _ _ _ => ensures_expect_bind rfl fun _ d _ => ?_
    apply ensures_bind (ensures_expression d)
    intro _ _ _ _ _ _
    exact ensures_expect_bind rfl fun _ _ _ => ensures_pure trivial
  next => exact ensures_failUnexpected _ _ _

theorem simple_assignment (c : Cursor) :
    (assignment c).Ensures c fun _ s _ _ => s.IsSimple := by
  by_cases hk : c.current.kind = .identifier
  · rw [assignment, bind_apply_of_ok (expect_of_kind hk)]
    intro hc
    have hne : c.current.kind ≠ .endOfInput := by rw [hk]; decide
    exact Ensures.after (Q := fun _ (s : Stmt) _ _ => s.IsSimple) (Cursor.reaches_drop_one hne)
      (simple_assignmentTo _ _ _) hc
  · rw [assignment, bind_apply_of_error (expect_of_ne hk)]
    exact ensures_fail _ c _

theorem simple_printStatement (c : Cursor) :
    (printStatement c).Ensures c fun _ s _ _ => s.IsSimple := by
  refine ensures_expect_bind rfl fun _ d _ => ensures_bind (ensures_parenthesized d) ?_
  intro _ _ _ _ _ _
  exact ensures_expect_bind rfl fun _ _ _ => ensures_pure trivial

theorem simple_recurStatement (c : Cursor) :
    (recurStatement c).Ensures c fun _ s _ _ => s.IsSimple :=
  ensures_bind (ensures_recur c) fun _ _ _ _ _ _ => ensures_pure trivial

/-! ## Statements with others inside -/

theorem nearest_recovering (h : ∀ d : Cursor, (inner d).Ensures d fun _ s e _ => s.ReadUpTo e)
    (c : Cursor) : ((recovering inner : Reader ε Stmt) c).Ensures c fun _ s _ _ =>
      ElsesNearest s.nodes := by
  rw [recovering, here_bind]
  refine ensures_rescue ((h c).mono fun _ _ _ _ hs => hs.nearest) fun fault _ d _ _ => ?_
  apply ensures_bind (ensures_recover .statements c fault d)
  intro _ _ _ _ _ _
  exact ensures_pure (.error _)

theorem nearest_manyStatements
    (h : ∀ d : Cursor, (inner d).Ensures d fun _ s e _ => s.ReadUpTo e) (rounds : Nat)
    (c : Cursor) :
    ((manyUntil atListEnd (recovering inner) rounds : Reader ε (List Stmt)) c).Ensures c
      fun _ ss _ _ => ElsesNearest (ss.flatMap Stmt.nodes) :=
  ensures_manyUntil (I := fun _ s _ => ElsesNearest s.nodes)
    (J := fun _ ss _ => ElsesNearest (ss.flatMap Stmt.nodes)) (List.forall_mem_nil _)
    (fun _ _ _ _ _ _ hs hss => by
      rw [List.flatMap_cons]
      exact hs.append hss) (nearest_recovering h) rounds c

theorem nearest_blockOf (h : ∀ d : Cursor, (inner d).Ensures d fun _ s e _ => s.ReadUpTo e)
    (room : Nat) (hk : c.current.kind = .leftBrace) :
    (blockOf inner room c).Ensures c fun _ s d _ => s.ReadUpTo d := by
  apply ensures_advance_word_bind hk rfl
  intro _
  apply ensures_bind (nearest_manyStatements h room _)
  intro _ _ _ _ _ hss
  exact ensures_expect_bind rfl fun _ _ _ => ensures_pure (Stmt.readUpTo_block hss _)

theorem nearest_missingElse (t : Stmt) (hk : c.current.kind ≠ .elseKw) :
    (missingElse c).Ensures c fun _ e d _ => t.SecondOf e d := by
  rw [missingElse, look_bind]
  refine ensures_bind (R := fun _ _ d _ => d = c) (ensures_report rfl) ?_
  rintro _ _ _ _ - rfl
  exact ensures_pure (Stmt.secondOf_missing t _ hk)

theorem nearest_elseBranchOf (h : ∀ d : Cursor, (inner d).Ensures d fun _ s e _ => s.ReadUpTo e)
    {t : Stmt} (ht : t.ReadUpTo c) :
    (elseBranchOf inner c).Ensures c fun _ e d _ => t.SecondOf e d := by
  refine ensures_eat_bind rfl (fun d hd => ?_) fun hk => ?_
  · exact (h d).mono fun _ _ _ _ he => Stmt.secondOf_of_else ht hd.kind_current he
  · exact nearest_missingElse t hk

theorem nearest_ifElseOf (h : ∀ d : Cursor, (inner d).Ensures d fun _ s e _ => s.ReadUpTo e)
    (hk : c.current.kind = .ifKw) :
    (ifElseOf inner c).Ensures c fun _ s d _ => s.ReadUpTo d := by
  refine ensures_advance_word_bind hk rfl fun _ => ensures_bind (ensures_parenthesized _) ?_
  intro _ _ d _ _ _
  apply ensures_bind (h d)
  intro _ _ _ _ _ ht
  apply ensures_bind (nearest_elseBranchOf h ht)
  intro _ _ _ _ _ he
  exact ensures_pure (Stmt.readUpTo_ifElse ht he)

theorem nearest_whileLoopOf (h : ∀ d : Cursor, (inner d).Ensures d fun _ s e _ => s.ReadUpTo e)
    (hk : c.current.kind = .whileKw) :
    (whileLoopOf inner c).Ensures c fun _ s d _ => s.ReadUpTo d := by
  refine ensures_advance_word_bind hk rfl fun _ => ensures_bind (ensures_parenthesized _) ?_
  intro _ _ d _ _ _
  apply ensures_bind (h d)
  intro _ _ _ _ _ hs
  exact ensures_pure (Stmt.readUpTo_whileLoop hs)

theorem nearest_statementOf (h : ∀ d : Cursor, (inner d).Ensures d fun _ s e _ => s.ReadUpTo e)
    (room : Nat) (c : Cursor) :
    (statementOf inner room c).Ensures c fun _ s d _ => s.ReadUpTo d := by
  rw [statementOf, look_bind]
  generalize hk : c.current.kind = kind
  split
  next => exact nearest_blockOf h room hk
  next => exact nearest_ifElseOf h hk
  next => exact nearest_whileLoopOf h hk
  next => exact (simple_printStatement c).mono fun _ _ d _ hs => Stmt.readUpTo_of_isSimple hs d
  next => exact (simple_assignment c).mono fun _ _ d _ hs => Stmt.readUpTo_of_isSimple hs d
  next => exact (simple_recurStatement c).mono fun _ _ d _ hs => Stmt.readUpTo_of_isSimple hs d
  next => exact ensures_failUnexpected _ _ _

theorem nearest_statementWithin (room : Nat) (c : Cursor) :
    (statementWithin room c).Ensures c fun _ s d _ => s.ReadUpTo d := by
  induction room generalizing c with
  | zero => exact nearest_statementOf (fun d => ensures_outOfRoom _ d _) 0 c
  | succ room ih => exact nearest_statementOf ih room c

theorem nearest_statement (c : Cursor) :
    (statement c).Ensures c fun _ s d _ => s.ReadUpTo d :=
  nearest_statementWithin c.room c

theorem nearest_statements (c : Cursor) :
    ((statements : Reader ε (List Stmt)) c).Ensures c fun _ ss _ _ =>
      ElsesNearest (ss.flatMap Stmt.nodes) :=
  nearest_manyStatements nearest_statement c.room c

end Parse

end MiniJava
