import MiniJava.Tree.Basic

/-!
# Replacing the expressions of a tree

`mapExprs` puts another expression in the place of each outermost expression of a tree, and keeps
all else as it is.
-/

namespace MiniJava

variable (f : Expr → Expr)

/-- Replace the expressions of a `recur`. -/
def Recur.mapExprs (r : Recur) : Recur :=
  { r with condition := f r.condition, args := r.args.map f, fallback := f r.fallback }

mutual

/-- Replace the expressions of a statement. -/
def Stmt.mapExprs : Stmt → Stmt
  | .block s ss => .block s (Stmt.mapExprsList ss)
  | .ifElse s c t e => .ifElse s (f c) t.mapExprs e.mapExprs
  | .whileLoop s c b => .whileLoop s (f c) b.mapExprs
  | .println s v => .println s (f v)
  | .assign s n v => .assign s n (f v)
  | .assignElement s n i v => .assignElement s n (f i) (f v)
  | .recur r => .recur (r.mapExprs f)
  | .error s => .error s

/-- Replace the expressions of a list of statements. -/
def Stmt.mapExprsList : List Stmt → List Stmt
  | [] => []
  | s :: ss => s.mapExprs :: Stmt.mapExprsList ss

end

theorem Stmt.mapExprsList_eq (ss : List Stmt) :
    Stmt.mapExprsList f ss = ss.map (Stmt.mapExprs f) := by
  induction ss with
  | nil => rfl
  | cons s ss ih => simp [Stmt.mapExprsList, ih]

/-- Replace the expressions of a result. -/
def MethodResult.mapExprs : MethodResult → MethodResult
  | returns s e => returns s (f e)
  | recurs r => recurs (r.mapExprs f)

/-- Replace the expressions of a method. -/
def Method.mapExprs (m : Method) : Method :=
  { m with body := m.body.map (Stmt.mapExprs f), result := m.result.mapExprs f }

/-- Replace the expressions of a class. -/
def ClassDecl.mapExprs (c : ClassDecl) : ClassDecl :=
  { c with methods := c.methods.map (Method.mapExprs f) }

/-- Replace the expressions of the main class. -/
def MainClass.mapExprs (m : MainClass) : MainClass := { m with body := m.body.mapExprs f }

/-- Replace the expressions of a program. -/
def Program.mapExprs (p : Program) : Program :=
  { p with main := p.main.mapExprs f, classes := p.classes.map (ClassDecl.mapExprs f) }

end MiniJava
