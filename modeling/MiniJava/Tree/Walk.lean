import MiniJava.Tree.Basic

/-!
# Walking a tree

A walk goes through a tree from the top down and, at each node, through its parts in the order of
the text. `Visits` says what is done at the nodes of each kind, which may be to go no further, or to
change what the walk gives back. `visitParts` is the walk below a node, and `visit` the walk that
starts at it.
-/

namespace MiniJava

/-- A node that a walk meets. -/
inductive Node where
  | program (p : Program)
  | classDecl (c : ClassDecl)
  | method (m : Method)
  | var (v : Variable)
  | param (v : Variable)
  | stmt (s : Stmt)
  | recur (r : Recur)
  | expr (e : Expr)
deriving Inhabited

/-- What a node is, with its name if it declares one. -/
def Node.label : Node → String
  | program _ => "program"
  | classDecl c => "class " ++ c.name
  | method m => "method " ++ m.name
  | var v => "var " ++ v.name
  | param v => "param " ++ v.name
  | stmt s => "stmt " ++ s.kindName
  | recur _ => "recur"
  | expr e => "expr " ++ e.kindName

/--
What is done at the nodes of a tree. Each field is given a node and the walk below it, which gives
the node as the walk leaves it. By default that walk is made.
-/
structure Visits (m : Type → Type) where
  program : Program → m Program → m Program := fun _ below => below
  classDecl : ClassDecl → m ClassDecl → m ClassDecl := fun _ below => below
  method : Method → m Method → m Method := fun _ below => below
  var : Variable → m Variable → m Variable := fun _ below => below
  param : Variable → m Variable → m Variable := fun _ below => below
  stmt : Stmt → m Stmt → m Stmt := fun _ below => below
  recur : Recur → m Recur → m Recur := fun _ below => below
  expr : Expr → m Expr → m Expr := fun _ below => below

/--
The same at all nodes: `act` is given the node, what it is if the walk does not go below it, and the
walk below it.
-/
def Visits.each {m : Type → Type} (act : {α : Type} → Node → α → m α → m α) : Visits m where
  program p below := act (.program p) p below
  classDecl c below := act (.classDecl c) c below
  method d below := act (.method d) d below
  var x below := act (.var x) x below
  param x below := act (.param x) x below
  stmt s below := act (.stmt s) s below
  recur r below := act (.recur r) r below
  expr e below := act (.expr e) e below

/-! ## The walk -/

section

variable {m : Type → Type} [Monad m] (v : Visits m)

mutual

/-- Walk over the parts of an expression. -/
def Expr.visitParts : Expr → m Expr
  | .integer s n => pure (.integer s n)
  | .boolean s b => pure (.boolean s b)
  | .identifier s n => pure (.identifier s n)
  | .this s => pure (.this s)
  | .newArray s e => return .newArray s (← v.expr e e.visitParts)
  | .newObject s n => pure (.newObject s n)
  | .index s a i => return .index s (← v.expr a a.visitParts) (← v.expr i i.visitParts)
  | .length s a => return .length s (← v.expr a a.visitParts)
  | .call s r n as => return .call s (← v.expr r r.visitParts) n (← Expr.visitList as)
  | .not s e => return .not s (← v.expr e e.visitParts)
  | .binary s l o r => return .binary s (← v.expr l l.visitParts) o (← v.expr r r.visitParts)
  | .paren s e => return .paren s (← v.expr e e.visitParts)
  | .error s => pure (.error s)

/-- Walk over expressions, the first one first. -/
def Expr.visitList : List Expr → m (List Expr)
  | [] => pure []
  | e :: es => return (← v.expr e e.visitParts) :: (← Expr.visitList es)

end

/-- Walk over an expression. -/
def Expr.visit (e : Expr) : m Expr := v.expr e (e.visitParts v)

/-- Walk over the parts of a `recur`: its condition, its arguments, and what it falls back to. -/
def Recur.visitParts (r : Recur) : m Recur := do
  let condition ← r.condition.visit v
  let args ← Expr.visitList v r.args
  let fallback ← r.fallback.visit v
  return { r with condition, args, fallback }

/-- Walk over a `recur`. -/
def Recur.visit (r : Recur) : m Recur := v.recur r (r.visitParts v)

mutual

/-- Walk over the parts of a statement. -/
def Stmt.visitParts : Stmt → m Stmt
  | .block s ss => return .block s (← Stmt.visitList ss)
  | .ifElse s c t e =>
    return .ifElse s (← c.visit v) (← v.stmt t t.visitParts) (← v.stmt e e.visitParts)
  | .whileLoop s c b => return .whileLoop s (← c.visit v) (← v.stmt b b.visitParts)
  | .println s e => return .println s (← e.visit v)
  | .assign s n e => return .assign s n (← e.visit v)
  | .assignElement s n i e => return .assignElement s n (← i.visit v) (← e.visit v)
  | .recur r => return .recur (← r.visit v)
  | .error s => pure (.error s)

/-- Walk over statements, the first one first. -/
def Stmt.visitList : List Stmt → m (List Stmt)
  | [] => pure []
  | s :: ss => return (← v.stmt s s.visitParts) :: (← Stmt.visitList ss)

end

/-- Walk over a statement. -/
def Stmt.visit (s : Stmt) : m Stmt := v.stmt s (s.visitParts v)

/-- Walk over the result of a method, which is met as an expression or as a `recur`. -/
def MethodResult.visit : MethodResult → m MethodResult
  | returns s e => return returns s (← e.visit v)
  | recurs r => return recurs (← r.visit v)

/-- Walk over a field or a local variable, which has no parts. -/
def Variable.visit (x : Variable) : m Variable := v.var x (pure x)

/-- Walk over a parameter, which has no parts. -/
def Variable.visitParam (x : Variable) : m Variable := v.param x (pure x)

/-- Walk over the parts of a method: parameters, local variables, statements and the result. -/
def Method.visitParts (d : Method) : m Method := do
  let params ← d.params.mapM (Variable.visitParam v)
  let locals ← d.locals.mapM (Variable.visit v)
  let body ← Stmt.visitList v d.body
  let result ← d.result.visit v
  return { d with params, locals, body, result }

/-- Walk over a method. -/
def Method.visit (d : Method) : m Method := v.method d (d.visitParts v)

/-- Walk over the parts of a class: fields and methods. -/
def ClassDecl.visitParts (c : ClassDecl) : m ClassDecl := do
  let fields ← c.fields.mapM (Variable.visit v)
  let methods ← c.methods.mapM (Method.visit v)
  return { c with fields, methods }

/-- Walk over a class. -/
def ClassDecl.visit (c : ClassDecl) : m ClassDecl := v.classDecl c (c.visitParts v)

/-- Walk over the parts of a program: the statement of the main class, and the other classes. -/
def Program.visitParts (p : Program) : m Program := do
  let body ← p.main.body.visit v
  let classes ← p.classes.mapM (ClassDecl.visit v)
  return { p with main := { p.main with body }, classes }

/-- Walk over a program. -/
def Program.visit (p : Program) : m Program := v.program p (p.visitParts v)

end

/-! ## Visitors -/

/-- The expression, with another name if it is an identifier. -/
def Expr.renameSelf (f : String → String) : Expr → Expr
  | identifier s n => identifier s (f n)
  | e => e

/-- What is done on a walk that may end early at a node and gives identifiers new names. -/
structure Visitor (m : Type → Type) where
  /-- Meet a node, and say whether to go below it. -/
  enter : Node → m Bool
  /-- The new name of an identifier that is an expression. -/
  rename : String → String := id

variable {m : Type → Type} [Monad m]

/-- Give the identifiers among the expressions new names, and do nothing else. -/
def Visits.renaming (f : String → String) : Visits m where
  expr _ below := do return (← below).renameSelf f

namespace Visitor

/-- Meet a node, and walk below it unless the visitor says not to. -/
def meet (v : Visitor m) {α : Type} (n : Node) (self : α) (below : m α) : m α := do
  if ← v.enter n then below else return self

/-- What the visitor does at the nodes of a tree. -/
def visits (v : Visitor m) : Visits m :=
  { Visits.each v.meet with
    expr := fun e below => do return (← v.meet (.expr e) e below).renameSelf v.rename }

end Visitor

/-- Walk over a program with a visitor. -/
def Program.walk (v : Visitor m) (p : Program) : m Program := p.visit v.visits

end MiniJava
