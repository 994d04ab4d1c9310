import MiniJava.Proofs.Grammar.Terminal
import MiniJava.Printing.Grouping
import MiniJava.Tree.Walk

/-!
# The nodes of a tree

All nodes of a tree, each before those below it, and what may be asked of a single node. A tree is
well formed if each of its nodes is.
-/

namespace MiniJava

/-! ## Listing -/

mutual

/-- The nodes of an expression. -/
def Expr.nodes : Expr → List Node
  | .integer s v => [.expr (.integer s v)]
  | .boolean s v => [.expr (.boolean s v)]
  | .identifier s n => [.expr (.identifier s n)]
  | .this s => [.expr (.this s)]
  | .newArray s e => .expr (.newArray s e) :: e.nodes
  | .newObject s n => [.expr (.newObject s n)]
  | .index s a i => .expr (.index s a i) :: (a.nodes ++ i.nodes)
  | .length s a => .expr (.length s a) :: a.nodes
  | .call s r m as => .expr (.call s r m as) :: (r.nodes ++ Expr.nodesList as)
  | .not s e => .expr (.not s e) :: e.nodes
  | .binary s l op r => .expr (.binary s l op r) :: (l.nodes ++ r.nodes)
  | .paren s e => .expr (.paren s e) :: e.nodes
  | .error s => [.expr (.error s)]

/-- The nodes of some expressions. -/
def Expr.nodesList : List Expr → List Node
  | [] => []
  | e :: es => e.nodes ++ Expr.nodesList es

end

theorem Expr.nodesList_eq (es : List Expr) : Expr.nodesList es = es.flatMap Expr.nodes := by
  induction es with
  | nil => rfl
  | cons e es ih => simp [Expr.nodesList, ih]

/-- The nodes of a `recur`. -/
def Recur.nodes (r : Recur) : List Node :=
  .recur r :: (r.condition.nodes ++ (r.args.flatMap Expr.nodes ++ r.fallback.nodes))

mutual

/-- The nodes of a statement. -/
def Stmt.nodes : Stmt → List Node
  | .block s ss => .stmt (.block s ss) :: Stmt.nodesList ss
  | .ifElse s c t e => .stmt (.ifElse s c t e) :: (c.nodes ++ (t.nodes ++ e.nodes))
  | .whileLoop s c b => .stmt (.whileLoop s c b) :: (c.nodes ++ b.nodes)
  | .println s v => .stmt (.println s v) :: v.nodes
  | .assign s n v => .stmt (.assign s n v) :: v.nodes
  | .assignElement s n i v => .stmt (.assignElement s n i v) :: (i.nodes ++ v.nodes)
  | .recur r => .stmt (.recur r) :: r.nodes
  | .error s => [.stmt (.error s)]

/-- The nodes of some statements. -/
def Stmt.nodesList : List Stmt → List Node
  | [] => []
  | s :: ss => s.nodes ++ Stmt.nodesList ss

end

theorem Stmt.nodesList_eq (ss : List Stmt) : Stmt.nodesList ss = ss.flatMap Stmt.nodes := by
  induction ss with
  | nil => rfl
  | cons s ss ih => simp [Stmt.nodesList, ih]

/-- The nodes of the result of a method. -/
def MethodResult.nodes : MethodResult → List Node
  | returns _ e => e.nodes
  | recurs r => r.nodes

/-- The nodes of a method. -/
def Method.nodes (m : Method) : List Node :=
  .method m :: (m.params.map Node.param ++ (m.locals.map Node.var ++
    (m.body.flatMap Stmt.nodes ++ m.result.nodes)))

/-- The nodes of a class. -/
def ClassDecl.nodes (c : ClassDecl) : List Node :=
  .classDecl c :: (c.fields.map Node.var ++ c.methods.flatMap Method.nodes)

/-- The nodes of a program. The main class shows in its statement only. -/
def Program.nodes (p : Program) : List Node :=
  .program p :: (p.main.body.nodes ++ p.classes.flatMap ClassDecl.nodes)

/-- A node and the nodes below it. -/
def Node.nodes : Node → List Node
  | program p => p.nodes
  | classDecl k => k.nodes
  | method m => m.nodes
  | var v => [var v]
  | param v => [param v]
  | stmt s => s.nodes
  | recur r => r.nodes
  | expr e => e.nodes

/-! ## Conditions on a node -/

/-- The class that a type names. -/
def TypeName.names : TypeName → List String
  | named n => [n]
  | int | boolean | intArray => []

namespace Node

/-- The names that stand at a node itself, those of types included. -/
def names : Node → List String
  | program p => [p.main.name, p.main.argsName]
  | classDecl c => c.name :: c.superclass.toList
  | method m => m.name :: m.returnType.names
  | var v | param v => v.name :: v.type.names
  | stmt (.assign _ n _) | stmt (.assignElement _ n _ _) => [n]
  | expr (.identifier _ n) | expr (.newObject _ n) | expr (.call _ _ n _) => [n]
  | stmt _ | recur _ | expr _ => []

/-- Each name at the node is an identifier. -/
def Named (n : Node) : Prop := ∀ x ∈ n.names, IsName x

/-- An integer literal is not negative. -/
def InRange : Node → Prop
  | expr (.integer _ v) => 0 ≤ v.toInt
  | _ => True

/--
The operands of an expression hold together tightly enough: the left operand of an operator as
tightly as the operator, the right one tighter, and what a negation takes in is one operand.
-/
def Grouped : Node → Prop
  | expr (.index _ a _) | expr (.length _ a) | expr (.call _ a _ _) =>
    Operator.postfixLevel ≤ a.strength
  | expr (.not _ e) => Expr.atomic ≤ e.strength
  | expr (.binary _ l op r) => op.precedence ≤ l.strength ∧ op.precedence < r.strength
  | _ => True

/-- The node stands for what could not be read. -/
def IsError : Node → Prop
  | stmt (.error _) | expr (.error _) => True
  | _ => False

/-- The node is a `recur` that stands as a statement. -/
def IsRecurStatement : Node → Prop
  | stmt (.recur _) => True
  | _ => False

/-- The node is made as the grammar asks, unless it is an error. -/
structure Proper (n : Node) : Prop where
  named : n.Named
  inRange : n.InRange
  grouped : n.Grouped

/-- The node can be printed: its name and its value have a spelling. -/
structure Spellable (n : Node) : Prop where
  named : n.Named
  inRange : n.InRange
  noError : ¬ n.IsError

instance : DecidablePred Named := fun n =>
  inferInstanceAs (Decidable (∀ x ∈ n.names, IsName x))

instance : DecidablePred InRange
  | expr (.integer _ v) => inferInstanceAs (Decidable (0 ≤ v.toInt))
  | expr (.boolean ..) | expr (.identifier ..) | expr (.this _) | expr (.newArray ..)
  | expr (.newObject ..) | expr (.index ..) | expr (.length ..) | expr (.call ..)
  | expr (.not ..) | expr (.binary ..) | expr (.paren ..) | expr (.error _)
  | program _ | classDecl _ | method _ | var _ | param _ | stmt _ | recur _ => isTrue trivial

instance : DecidablePred IsError
  | stmt (.error _) | expr (.error _) => isTrue trivial
  | stmt (.block ..) | stmt (.ifElse ..) | stmt (.whileLoop ..) | stmt (.println ..)
  | stmt (.assign ..) | stmt (.assignElement ..) | stmt (.recur _)
  | expr (.integer ..) | expr (.boolean ..) | expr (.identifier ..) | expr (.this _)
  | expr (.newArray ..) | expr (.newObject ..) | expr (.index ..) | expr (.length ..)
  | expr (.call ..) | expr (.not ..) | expr (.binary ..) | expr (.paren ..)
  | program _ | classDecl _ | method _ | var _ | param _ | recur _ => isFalse id

instance : DecidablePred Spellable := fun n =>
  decidable_of_iff (n.Named ∧ n.InRange ∧ ¬ n.IsError)
    ⟨fun ⟨hn, hr, he⟩ => ⟨hn, hr, he⟩, fun ⟨hn, hr, he⟩ => ⟨hn, hr, he⟩⟩

/-- The node can be read back from what it yields. -/
structure Readable (n : Node) : Prop where
  grouped : n.Grouped
  noError : ¬ n.IsError

/-- The node is made as the grammar asks. -/
structure Legal (n : Node) : Prop extends n.Proper where
  noError : ¬ n.IsError

/-- The node is part of a correct program. -/
structure WellFormed (n : Node) : Prop extends n.Legal where
  noRecur : ¬ n.IsRecurStatement

theorem Legal.readable {n : Node} (h : n.Legal) : n.Readable := ⟨h.grouped, h.noError⟩

theorem Proper.spellable {n : Node} (h : n.Proper) (he : ¬ n.IsError) : n.Spellable :=
  ⟨h.named, h.inRange, he⟩

end Node

/-- An expression that keeps to the grammar. -/
def Expr.Legal (e : Expr) : Prop := ∀ n ∈ e.nodes, n.Legal

theorem Expr.legal_call {s : Span} {r : Expr} {m : String} {es : List Expr} (hm : IsName m)
    (hr : r.Legal) (hs : Operator.postfixLevel ≤ r.strength) (hes : ∀ e ∈ es, e.Legal) :
    (Expr.call s r m es).Legal := by
  refine List.forall_mem_cons.2 ⟨⟨⟨List.forall_mem_singleton.2 hm, trivial, hs⟩, id⟩, ?_⟩
  rw [Expr.nodesList_eq, List.forall_mem_append]
  exact ⟨hr, List.forall_mem_flatMap.2 hes⟩

/-- A program that keeps to the grammar. -/
def Program.WellFormed (p : Program) : Prop := ∀ n ∈ p.nodes, n.WellFormed

end MiniJava
