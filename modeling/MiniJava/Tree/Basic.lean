import MiniJava.Source.Span

/-!
# Trees

The tree of a program, from expressions up to classes. Every node knows its span. `error` nodes
stand where the text could not be read.
-/

namespace MiniJava

/-- The operators between two operands. -/
inductive BinaryOp where
  | and | lessThan | plus | minus | times
deriving DecidableEq, Inhabited

/-- The sign of an operator. -/
def BinaryOp.symbol : BinaryOp → String
  | and => "&&"
  | lessThan => "<"
  | plus => "+"
  | minus => "-"
  | times => "*"

/-- The name of a type. Classes are known by name only. -/
inductive TypeName where
  | int
  | boolean
  | intArray
  | named (name : String)
deriving DecidableEq, Inhabited

/-- Expressions. Parentheses of the text are nodes of their own. -/
inductive Expr where
  | integer (span : Span) (value : Int32)
  | boolean (span : Span) (value : Bool)
  | identifier (span : Span) (name : String)
  | this (span : Span)
  | newArray (span : Span) (size : Expr)
  | newObject (span : Span) (name : String)
  | index (span : Span) (array position : Expr)
  | length (span : Span) (array : Expr)
  | call (span : Span) (receiver : Expr) (method : String) (args : List Expr)
  | not (span : Span) (operand : Expr)
  | binary (span : Span) (left : Expr) (op : BinaryOp) (right : Expr)
  | paren (span : Span) (inner : Expr)
  | error (span : Span)

instance : Inhabited Expr := ⟨.error Span.nowhere⟩

/-- Where the expression stands. -/
def Expr.span : Expr → Span
  | integer span _ | boolean span _ | identifier span _ | this span | newArray span _
  | newObject span _ | index span _ _ | length span _ | call span _ _ _ | not span _
  | binary span _ _ _ | paren span _ | error span => span

/-- The name of the form of an expression. -/
def Expr.kindName : Expr → String
  | integer .. => "IntLiteral"
  | boolean .. => "BoolLiteral"
  | identifier .. => "Identifier"
  | this .. => "This"
  | newArray .. => "NewArray"
  | newObject .. => "NewObject"
  | index .. => "ArrayIndex"
  | length .. => "ArrayLength"
  | call .. => "MethodCall"
  | not .. => "Not"
  | binary .. => "Binary"
  | paren .. => "Paren"
  | error .. => "Error"

/-- `recur (condition) ? (args) : fallback;` -/
structure Recur where
  span : Span
  condition : Expr
  args : List Expr
  fallback : Expr
deriving Inhabited

/-- Statements. An `if` always has two branches. -/
inductive Stmt where
  | block (span : Span) (statements : List Stmt)
  | ifElse (span : Span) (condition : Expr) (thenBranch elseBranch : Stmt)
  | whileLoop (span : Span) (condition : Expr) (body : Stmt)
  | println (span : Span) (value : Expr)
  | assign (span : Span) (name : String) (value : Expr)
  | assignElement (span : Span) (name : String) (index value : Expr)
  | recur (recur : Recur)
  | error (span : Span)

instance : Inhabited Stmt := ⟨.error Span.nowhere⟩

/-- Where the statement stands. -/
def Stmt.span : Stmt → Span
  | block span _ | ifElse span _ _ _ | whileLoop span _ _ | println span _ | assign span _ _
  | assignElement span _ _ _ | error span => span
  | recur r => r.span

/-- The name of the form of a statement. -/
def Stmt.kindName : Stmt → String
  | block .. => "Block"
  | ifElse .. => "If"
  | whileLoop .. => "While"
  | println .. => "Print"
  | assign .. => "Assign"
  | assignElement .. => "ArrayAssign"
  | recur .. => "Recur"
  | error .. => "Error"

/-- Whether the statement is a block. -/
def Stmt.isBlock : Stmt → Bool
  | block .. => true
  | _ => false

/-- A field, a parameter or a local variable. -/
structure Variable where
  span : Span
  name : String
  type : TypeName
deriving DecidableEq, Inhabited

/-- How a method ends: with the value it returns, or by running again. -/
inductive MethodResult where
  | returns (span : Span) (value : Expr)
  | recurs (recur : Recur)
deriving Inhabited

/-- Where the result stands. -/
def MethodResult.span : MethodResult → Span
  | returns span _ => span
  | recurs r => r.span

/-- A method of a class. -/
structure Method where
  span : Span
  name : String
  returnType : TypeName
  params : List Variable
  locals : List Variable
  body : List Stmt
  result : MethodResult
deriving Inhabited

/-- A class with fields and methods. -/
structure ClassDecl where
  span : Span
  name : String
  superclass : Option String
  fields : List Variable
  methods : List Method
deriving Inhabited

/-- The class that holds the one statement at which a program starts. -/
structure MainClass where
  span : Span
  name : String
  argsName : String
  body : Stmt
deriving Inhabited

/-- A program: a main class and other classes. -/
structure Program where
  span : Span
  main : MainClass
  classes : List ClassDecl
deriving Inhabited

end MiniJava
