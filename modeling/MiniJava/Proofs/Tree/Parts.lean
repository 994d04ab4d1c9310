import MiniJava.Proofs.Grammar.Nodes

/-!
# Parts of nodes

The nodes right below a node are its parts, in the order of the text. What is said of all nodes of a
tree can be said along the parts: by induction, by a fold, or by the path that leads to a node.
-/

namespace MiniJava

/-! ## Parts -/

/-- The parts of an expression. -/
def Expr.parts : Expr → List Node
  | newArray _ e | length _ e | not _ e | paren _ e => [.expr e]
  | index _ a i => [.expr a, .expr i]
  | call _ r _ es => .expr r :: es.map .expr
  | binary _ l _ r => [.expr l, .expr r]
  | integer .. | boolean .. | identifier .. | this _ | newObject .. | error _ => []

/-- The parts of a statement. -/
def Stmt.parts : Stmt → List Node
  | block _ ss => ss.map .stmt
  | ifElse _ c t e => [.expr c, .stmt t, .stmt e]
  | whileLoop _ c b => [.expr c, .stmt b]
  | println _ v | assign _ _ v => [.expr v]
  | assignElement _ _ i v => [.expr i, .expr v]
  | recur r => [.recur r]
  | error _ => []

/-- The node that a result is. -/
def MethodResult.node : MethodResult → Node
  | returns _ e => .expr e
  | recurs r => .recur r

namespace Node

/-- The nodes right below a node, in the order of the text. -/
def parts : Node → List Node
  | program p => stmt p.main.body :: p.classes.map classDecl
  | classDecl k => k.fields.map var ++ k.methods.map method
  | method m => m.params.map param ++ (m.locals.map var ++ (m.body.map stmt ++ [m.result.node]))
  | var _ | param _ => []
  | stmt s => s.parts
  | recur r => expr r.condition :: (r.args.map expr ++ [expr r.fallback])
  | expr e => e.parts

/-- The nodes below a node are those of its parts. -/
theorem nodes_eq (n : Node) : n.nodes = n :: n.parts.flatMap nodes := by
  cases n with
  | expr e =>
    cases e <;> simp [nodes, Expr.nodes, parts, Expr.parts, Expr.nodesList_eq, List.flatMap_map]
  | stmt s =>
    cases s <;> simp [nodes, Stmt.nodes, parts, Stmt.parts, Stmt.nodesList_eq, List.flatMap_map]
  | recur r => simp [nodes, Recur.nodes, parts, List.flatMap_map]
  | var v | param v => rfl
  | method m =>
    have hresult : m.result.node.nodes = m.result.nodes := by cases m.result <;> rfl
    simp only [parts, List.flatMap_append, List.flatMap_map, List.flatMap_singleton, hresult]
    simp only [nodes, Method.nodes, List.map_eq_flatMap]
  | classDecl k =>
    simp only [parts, List.flatMap_append, List.flatMap_map]
    simp only [nodes, ClassDecl.nodes, List.map_eq_flatMap]
  | program p => simp [nodes, Program.nodes, parts, List.flatMap_map]

theorem length_nodes_lt {n m : Node} (h : m ∈ n.parts) : m.nodes.length < n.nodes.length := by
  obtain ⟨before, after, hparts⟩ := List.append_of_mem h
  rw [nodes_eq n, hparts]
  simp only [List.flatMap_append, List.flatMap_cons, List.length_cons, List.length_append]
  omega

/-- What holds of a node if it holds of its parts holds of all nodes. -/
theorem induction {P : Node → Prop} (step : ∀ n : Node, (∀ m ∈ n.parts, P m) → P n) (n : Node) :
    P n :=
  step n fun m _ => induction step m
termination_by n.nodes.length
decreasing_by exact length_nodes_lt ‹_›

/-- What a node is worth, found from what its parts are worth. -/
def fold {β : Type} (f : Node → List β → β) (n : Node) : β :=
  f n (n.parts.attach.map fun m => fold f m.1)
termination_by n.nodes.length
decreasing_by exact length_nodes_lt m.2

theorem fold_eq {β : Type} (f : Node → List β → β) (n : Node) :
    n.fold f = f n (n.parts.map (fold f)) := by
  rw [fold, List.attach_map_val]

/-- The node that a path leads to from a node; each step goes to the part with that number. -/
def at? : Node → List Nat → Option Node
  | n, [] => some n
  | n, i :: path => n.parts[i]?.bind fun m => m.at? path

end Node

end MiniJava
