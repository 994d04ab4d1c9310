import MiniJava.Proofs.Grammar.Terminal
import MiniJava.Tree.Basic
import MiniJava.Tree.Operator
import MiniJava.Tree.Spans

/-!
# What a tree yields

The row of terminals that a tree is read from. Trees hold the parentheses that group expressions
as nodes, so no others are added.
-/

namespace MiniJava

open Terminal

/-! ## Expressions -/

mutual

/-- The terminals of an expression. An error node yields none. -/
def Expr.yield : Expr → List Terminal
  | .integer _ v => [number v]
  | .boolean _ true => [word .trueKw]
  | .boolean _ false => [word .falseKw]
  | .identifier _ n => [ident n]
  | .this _ => [word .thisKw]
  | .newArray _ e =>
    word .newKw :: word .intKw :: word .leftBracket :: (e.yield ++ [word .rightBracket])
  | .newObject _ n => [word .newKw, ident n, word .leftParen, word .rightParen]
  | .index _ a i => a.yield ++ word .leftBracket :: (i.yield ++ [word .rightBracket])
  | .length _ a => a.yield ++ [word .dot, word .lengthKw]
  | .call _ r m as =>
    r.yield ++ word .dot :: ident m :: word .leftParen :: (Expr.yieldList as ++ [word .rightParen])
  | .not _ e => word .bang :: e.yield
  | .binary _ l op r => l.yield ++ word op.tokenKind :: r.yield
  | .paren _ e => word .leftParen :: (e.yield ++ [word .rightParen])
  | .error _ => []

/-- The terminals of expressions with commas between them. -/
def Expr.yieldList : List Expr → List Terminal
  | [] => []
  | e :: es => e.yield ++ Expr.yieldMore es

/-- The terminals of expressions with a comma before each. -/
def Expr.yieldMore : List Expr → List Terminal
  | [] => []
  | e :: es => word .comma :: (e.yield ++ Expr.yieldMore es)

end

theorem Expr.yieldMore_eq (es : List Expr) :
    Expr.yieldMore es = es.flatMap fun e => word .comma :: e.yield := by
  induction es with
  | nil => rfl
  | cons e es ih => simp [Expr.yieldMore, ih]

theorem Expr.yieldList_eq (es : List Expr) :
    Expr.yieldList es = commaSeparated Expr.yield es := by
  cases es with
  | nil => rfl
  | cons e es => rw [Expr.yieldList, Expr.yieldMore_eq, commaSeparated]

mutual

/-- What an expression yields does not depend on where it stands. -/
theorem Expr.yield_withoutSpans : ∀ e : Expr, e.withoutSpans.yield = e.yield
  | .integer .. | .boolean _ true | .boolean _ false | .identifier .. | .this _ | .newObject ..
  | .error _ => rfl
  | .newArray _ e | .length _ e | .not _ e | .paren _ e => by
    rw [Expr.withoutSpans, Expr.yield, Expr.yield, e.yield_withoutSpans]
  | .index _ a i => by
    rw [Expr.withoutSpans, Expr.yield, Expr.yield, a.yield_withoutSpans, i.yield_withoutSpans]
  | .call _ r _ as => by
    rw [Expr.withoutSpans, Expr.yield, Expr.yield, r.yield_withoutSpans,
      Expr.yieldList_withoutSpansList as]
  | .binary _ l _ r => by
    rw [Expr.withoutSpans, Expr.yield, Expr.yield, l.yield_withoutSpans, r.yield_withoutSpans]

theorem Expr.yieldList_withoutSpansList :
    ∀ es : List Expr, Expr.yieldList (Expr.withoutSpansList es) = Expr.yieldList es
  | [] => rfl
  | e :: es => by
    rw [Expr.withoutSpansList, Expr.yieldList, Expr.yieldList, e.yield_withoutSpans,
      Expr.yieldMore_withoutSpansList es]

theorem Expr.yieldMore_withoutSpansList :
    ∀ es : List Expr, Expr.yieldMore (Expr.withoutSpansList es) = Expr.yieldMore es
  | [] => rfl
  | e :: es => by
    rw [Expr.withoutSpansList, Expr.yieldMore, Expr.yieldMore, e.yield_withoutSpans,
      Expr.yieldMore_withoutSpansList es]

end

/-! ## Statements -/

/-- The terminals of a `recur`. -/
def Recur.yield (r : Recur) : List Terminal :=
  word .recurKw :: word .leftParen :: (r.condition.yield ++
    word .rightParen :: word .question :: word .leftParen :: (Expr.yieldList r.args ++
      word .rightParen :: word .colon :: (r.fallback.yield ++ [word .semicolon])))

mutual

/-- The terminals of a statement. -/
def Stmt.yield : Stmt → List Terminal
  | .block _ ss => word .leftBrace :: (Stmt.yieldList ss ++ [word .rightBrace])
  | .ifElse _ c t e =>
    word .ifKw :: word .leftParen ::
      (c.yield ++ word .rightParen :: (t.yield ++ word .elseKw :: e.yield))
  | .whileLoop _ c b =>
    word .whileKw :: word .leftParen :: (c.yield ++ word .rightParen :: b.yield)
  | .println _ v =>
    word .printlnKw :: word .leftParen :: (v.yield ++ [word .rightParen, word .semicolon])
  | .assign _ n v => ident n :: word .assign :: (v.yield ++ [word .semicolon])
  | .assignElement _ n i v =>
    ident n :: word .leftBracket ::
      (i.yield ++ word .rightBracket :: word .assign :: (v.yield ++ [word .semicolon]))
  | .recur r => r.yield
  | .error _ => []

/-- The terminals of statements, one after the other. -/
def Stmt.yieldList : List Stmt → List Terminal
  | [] => []
  | s :: ss => s.yield ++ Stmt.yieldList ss

end

theorem Stmt.yieldList_eq (ss : List Stmt) : Stmt.yieldList ss = ss.flatMap Stmt.yield := by
  induction ss with
  | nil => rfl
  | cons s ss ih => simp [Stmt.yieldList, ih]

/-! ## Declarations -/

/-- The terminals of the name of a type. -/
def TypeName.yield : TypeName → List Terminal
  | int => [word .intKw]
  | boolean => [word .booleanKw]
  | intArray => [word .intKw, word .leftBracket, word .rightBracket]
  | named n => [ident n]

/-- The terminals of a parameter. -/
def Variable.yield (v : Variable) : List Terminal := v.type.yield ++ [ident v.name]

/-- The terminals of a field or of a local variable. -/
def Variable.yieldDecl (v : Variable) : List Terminal := v.yield ++ [word .semicolon]

/-- The terminals of the result of a method. -/
def MethodResult.yield : MethodResult → List Terminal
  | returns _ e => word .returnKw :: (e.yield ++ [word .semicolon])
  | recurs r => r.yield

/-- The terminals of a method. -/
def Method.yield (m : Method) : List Terminal :=
  word .publicKw :: (m.returnType.yield ++ ident m.name :: word .leftParen ::
    (commaSeparated Variable.yield m.params ++ word .rightParen :: word .leftBrace ::
      (m.locals.flatMap Variable.yieldDecl ++ (m.body.flatMap Stmt.yield ++
        (m.result.yield ++ [word .rightBrace])))))

/-- The terminals that name the class from which a class inherits. -/
def ClassDecl.yieldSuperclass : Option String → List Terminal
  | some n => [word .extendsKw, ident n]
  | none => []

/-- The terminals of a class. -/
def ClassDecl.yield (c : ClassDecl) : List Terminal :=
  word .classKw :: ident c.name :: (yieldSuperclass c.superclass ++ word .leftBrace ::
    (c.fields.flatMap Variable.yieldDecl ++
      (c.methods.flatMap Method.yield ++ [word .rightBrace])))

/-- The terminals between `class` and the body of the main method. -/
def MainClass.yieldHead (className argsName : String) : List Terminal :=
  [ident className, word .leftBrace, word .publicKw, word .staticKw, word .voidKw, ident "main",
    word .leftParen, word .stringKw, word .leftBracket, word .rightBracket, ident argsName,
    word .rightParen]

/-- The terminals of the main class. -/
def MainClass.yield (m : MainClass) : List Terminal :=
  word .classKw :: (yieldHead m.name m.argsName ++ word .leftBrace ::
    (m.body.yield ++ [word .rightBrace, word .rightBrace]))

/-- The terminals of a program. -/
def Program.yield (p : Program) : List Terminal :=
  p.main.yield ++ p.classes.flatMap ClassDecl.yield

end MiniJava
