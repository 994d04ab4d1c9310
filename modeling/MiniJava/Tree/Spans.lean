import MiniJava.Tree.Equality
import MiniJava.Tree.Walk

/-!
# Trees up to spans

`withoutSpans` forgets where the nodes of a tree stand. Two programs are structurally equal when
they differ in spans only. `Visits.erasing` forgets the same on a walk, node by node.
-/

namespace MiniJava

mutual

/-- The expression with every span forgotten. -/
def Expr.withoutSpans : Expr → Expr
  | .integer _ v => .integer Span.nowhere v
  | .boolean _ v => .boolean Span.nowhere v
  | .identifier _ n => .identifier Span.nowhere n
  | .this _ => .this Span.nowhere
  | .newArray _ e => .newArray Span.nowhere e.withoutSpans
  | .newObject _ n => .newObject Span.nowhere n
  | .index _ a i => .index Span.nowhere a.withoutSpans i.withoutSpans
  | .length _ a => .length Span.nowhere a.withoutSpans
  | .call _ r m as => .call Span.nowhere r.withoutSpans m (Expr.withoutSpansList as)
  | .not _ e => .not Span.nowhere e.withoutSpans
  | .binary _ l o r => .binary Span.nowhere l.withoutSpans o r.withoutSpans
  | .paren _ e => .paren Span.nowhere e.withoutSpans
  | .error _ => .error Span.nowhere

/-- The expressions of a list with every span forgotten. -/
def Expr.withoutSpansList : List Expr → List Expr
  | [] => []
  | e :: es => e.withoutSpans :: Expr.withoutSpansList es

end

theorem Expr.withoutSpansList_eq (es : List Expr) :
    Expr.withoutSpansList es = es.map Expr.withoutSpans := by
  induction es with
  | nil => rfl
  | cons e es ih => simp [Expr.withoutSpansList, ih]

/-- The `recur` with every span forgotten. -/
def Recur.withoutSpans (r : Recur) : Recur :=
  { span := Span.nowhere
    condition := r.condition.withoutSpans
    args := r.args.map Expr.withoutSpans
    fallback := r.fallback.withoutSpans }

mutual

/-- The statement with every span forgotten. -/
def Stmt.withoutSpans : Stmt → Stmt
  | .block _ ss => .block Span.nowhere (Stmt.withoutSpansList ss)
  | .ifElse _ c t e => .ifElse Span.nowhere c.withoutSpans t.withoutSpans e.withoutSpans
  | .whileLoop _ c b => .whileLoop Span.nowhere c.withoutSpans b.withoutSpans
  | .println _ v => .println Span.nowhere v.withoutSpans
  | .assign _ n v => .assign Span.nowhere n v.withoutSpans
  | .assignElement _ n i v => .assignElement Span.nowhere n i.withoutSpans v.withoutSpans
  | .recur r => .recur r.withoutSpans
  | .error _ => .error Span.nowhere

/-- The statements of a list with every span forgotten. -/
def Stmt.withoutSpansList : List Stmt → List Stmt
  | [] => []
  | s :: ss => s.withoutSpans :: Stmt.withoutSpansList ss

end

theorem Stmt.withoutSpansList_eq (ss : List Stmt) :
    Stmt.withoutSpansList ss = ss.map Stmt.withoutSpans := by
  induction ss with
  | nil => rfl
  | cons s ss ih => simp [Stmt.withoutSpansList, ih]

/-- The variable with its span forgotten. -/
def Variable.withoutSpans (v : Variable) : Variable := { v with span := Span.nowhere }

/-- The result with every span forgotten. -/
def MethodResult.withoutSpans : MethodResult → MethodResult
  | returns _ e => returns Span.nowhere e.withoutSpans
  | recurs r => recurs r.withoutSpans

/-- The method with every span forgotten. -/
def Method.withoutSpans (m : Method) : Method :=
  { span := Span.nowhere
    name := m.name
    returnType := m.returnType
    params := m.params.map Variable.withoutSpans
    locals := m.locals.map Variable.withoutSpans
    body := m.body.map Stmt.withoutSpans
    result := m.result.withoutSpans }

/-- The class with every span forgotten. -/
def ClassDecl.withoutSpans (c : ClassDecl) : ClassDecl :=
  { span := Span.nowhere
    name := c.name
    superclass := c.superclass
    fields := c.fields.map Variable.withoutSpans
    methods := c.methods.map Method.withoutSpans }

/-- The main class with every span forgotten. -/
def MainClass.withoutSpans (m : MainClass) : MainClass :=
  { m with span := Span.nowhere, body := m.body.withoutSpans }

/-- The program with every span forgotten. -/
def Program.withoutSpans (p : Program) : Program :=
  { span := Span.nowhere
    main := p.main.withoutSpans
    classes := p.classes.map ClassDecl.withoutSpans }

/-! ## Forgetting spans on a walk -/

/-- The expression with its own span replaced. -/
def Expr.withSpan (span : Span) : Expr → Expr
  | integer _ v => integer span v
  | boolean _ v => boolean span v
  | identifier _ n => identifier span n
  | this _ => this span
  | newArray _ e => newArray span e
  | newObject _ n => newObject span n
  | index _ a i => index span a i
  | length _ a => length span a
  | call _ r m as => call span r m as
  | not _ e => not span e
  | binary _ l o r => binary span l o r
  | paren _ e => paren span e
  | error _ => error span

/-- The statement with its own span replaced. A `recur` has none besides that of its part. -/
def Stmt.withSpan (span : Span) : Stmt → Stmt
  | block _ ss => block span ss
  | ifElse _ c t e => ifElse span c t e
  | whileLoop _ c b => whileLoop span c b
  | println _ v => println span v
  | assign _ n v => assign span n v
  | assignElement _ n i v => assignElement span n i v
  | recur r => recur r
  | error _ => error span

/-- The result with its own span replaced. A `recur` has none besides that of its part. -/
def MethodResult.withSpan (span : Span) : MethodResult → MethodResult
  | returns _ e => returns span e
  | recurs r => recurs r

/--
Forget the spans of the nodes that are met. The main class is not met, nor is a `return`: their
spans are forgotten with those of the program and of the method.
-/
def Visits.erasing : Visits Id where
  program _ below := do
    let p ← below
    return { p with span := Span.nowhere, main := { p.main with span := Span.nowhere } }
  classDecl _ below := do return { (← below) with span := Span.nowhere }
  method _ below := do
    let d ← below
    return { d with span := Span.nowhere, result := d.result.withSpan Span.nowhere }
  var _ below := do return { (← below) with span := Span.nowhere }
  param _ below := do return { (← below) with span := Span.nowhere }
  stmt _ below := do return (← below).withSpan Span.nowhere
  recur _ below := do return { (← below) with span := Span.nowhere }
  expr _ below := do return (← below).withSpan Span.nowhere

/-- The program with the span of every node forgotten on a walk. -/
def Program.erased (p : Program) : Program := (p.visit .erasing).run

/-- Whether two programs are equal but for their spans. -/
def Program.structurallyEq (p q : Program) : Bool := p.withoutSpans = q.withoutSpans

end MiniJava
