import MiniJava.Printing.Grouping
import MiniJava.Printing.Piece
import MiniJava.Tree.Equality

/-!
# Printing trees

Each tree has one printed form, with one statement or declaration on a line. `spell` gives the
pieces of a tree just as it is; a tree is printed after its operands are grouped.
-/

namespace MiniJava

open Piece

/-! ## Expressions -/

mutual

/-- The pieces of an expression. -/
def Expr.spell : Expr → List Piece
  | .integer _ v => [number v]
  | .boolean _ true => [word .trueKw]
  | .boolean _ false => [word .falseKw]
  | .identifier _ n => [ident n]
  | .this _ => [word .thisKw]
  | .newArray _ e =>
    [word .newKw, space, word .intKw, word .leftBracket] ++ (e.spell ++ [word .rightBracket])
  | .newObject _ n =>
    [word .newKw, space, ident n, word .leftParen, word .rightParen]
  | .index _ a i => a.spell ++ ([word .leftBracket] ++ i.spell ++ [word .rightBracket])
  | .length _ a => a.spell ++ [word .dot, word .lengthKw]
  | .call _ r m as =>
    r.spell ++ ([word .dot, ident m, word .leftParen] ++ Expr.spellList as ++ [word .rightParen])
  | .not _ e => word .bang :: e.spell
  | .binary _ l op r => l.spell ++ ([space, word op.tokenKind, space] ++ r.spell)
  | .paren _ e => [word .leftParen] ++ (e.spell ++ [word .rightParen])
  | .error _ => [placeholder]

/-- The pieces of expressions with commas between them. -/
def Expr.spellList : List Expr → List Piece
  | [] => []
  | e :: es => e.spell ++ Expr.spellMore es

/-- The pieces of expressions with a comma before each. -/
def Expr.spellMore : List Expr → List Piece
  | [] => []
  | e :: es => [word .comma, space] ++ e.spell ++ Expr.spellMore es

end

/-! ## Statements -/

/-- The pieces of a `recur` on a line of its own. -/
def Recur.spell (r : Recur) : List Piece :=
  [margin, word .recurKw, space, word .leftParen] ++ r.condition.spell ++
    [word .rightParen, space, word .question, space, word .leftParen] ++
    Expr.spellList r.args ++ [word .rightParen, space, word .colon, space] ++
    r.fallback.spell ++ [word .semicolon, newline]

/-- What stands between the head of a statement and its body. -/
def Stmt.openBody (body : Stmt) : List Piece :=
  if body.isBlock then [space] else [newline, indent]

/-- What stands after the body of a statement and belongs to it. -/
def Stmt.closeBody (body : Stmt) : List Piece := if body.isBlock then [] else [dedent]

mutual

/--
The pieces of a statement. A block that is `attached` goes on on the line of the head before it, and
ends with its brace; all else takes up whole lines.
-/
def Stmt.spell (attached : Bool) : Stmt → List Piece
  | .block _ ss =>
    (if attached then [] else [margin]) ++ [word .leftBrace, newline, indent] ++
      Stmt.spellList ss ++ [dedent, margin, word .rightBrace] ++
      (if attached then [] else [newline])
  | .ifElse _ c t e =>
    [margin, word .ifKw, space, word .leftParen] ++ c.spell ++ [word .rightParen] ++
      t.openBody ++ t.spell true ++ t.closeBody ++
      [if t.isBlock then space else margin, word .elseKw] ++
      e.openBody ++ e.spell true ++ e.closeBody ++ (if e.isBlock then [newline] else [])
  | .whileLoop _ c b =>
    [margin, word .whileKw, space, word .leftParen] ++ c.spell ++ [word .rightParen] ++
      b.openBody ++ b.spell true ++ b.closeBody ++ (if b.isBlock then [newline] else [])
  | .println _ v =>
    [margin, word .printlnKw, word .leftParen] ++ v.spell ++
      [word .rightParen, word .semicolon, newline]
  | .assign _ n v =>
    [margin, ident n, space, word .assign, space] ++ v.spell ++ [word .semicolon, newline]
  | .assignElement _ n i v =>
    [margin, ident n, word .leftBracket] ++ i.spell ++
      [word .rightBracket, space, word .assign, space] ++ v.spell ++
      [word .semicolon, newline]
  | .recur r => r.spell
  | .error _ => [margin, placeholder, newline]

/-- The pieces of statements, one after the other. -/
def Stmt.spellList : List Stmt → List Piece
  | [] => []
  | s :: ss => s.spell false ++ Stmt.spellList ss

end

/-! ## Declarations -/

/-- The pieces of the name of a type. -/
def TypeName.spell : TypeName → List Piece
  | int => [word .intKw]
  | boolean => [word .booleanKw]
  | intArray => [word .intKw, word .leftBracket, word .rightBracket]
  | named n => [ident n]

/-- The pieces of a variable: its type and its name. -/
def Variable.spell (v : Variable) : List Piece := v.type.spell ++ [space, ident v.name]

/-- The pieces of a variable on a line of its own. -/
def Variable.spellLine (v : Variable) : List Piece :=
  [margin] ++ v.spell ++ [word .semicolon, newline]

/-- The pieces of parameters, with a comma before each. -/
def Variable.spellMore (vs : List Variable) : List Piece :=
  vs.flatMap fun v => [word .comma, space] ++ v.spell

/-- The pieces of parameters, with commas between them. -/
def Variable.spellParams : List Variable → List Piece
  | [] => []
  | v :: vs => v.spell ++ Variable.spellMore vs

/-- The pieces of the result of a method. -/
def MethodResult.spell : MethodResult → List Piece
  | returns _ e => [margin, word .returnKw, space] ++ e.spell ++ [word .semicolon, newline]
  | recurs r => r.spell

/-- The pieces of a method. -/
def Method.spell (m : Method) : List Piece :=
  [margin, word .publicKw, space] ++ m.returnType.spell ++
    [space, ident m.name, word .leftParen] ++ Variable.spellParams m.params ++
    [word .rightParen, space, word .leftBrace, newline, indent] ++
    m.locals.flatMap Variable.spellLine ++ Stmt.spellList m.body ++ m.result.spell ++
    [dedent, margin, word .rightBrace, newline]

/-- The pieces of methods, with an empty line between them. -/
def Method.spellList (ms : List Method) : List Piece :=
  List.intercalate [newline] (ms.map Method.spell)

/-- The pieces that name the class from which a class inherits. -/
def ClassDecl.spellSuperclass : Option String → List Piece
  | some n => [space, word .extendsKw, space, ident n]
  | none => []

/-- The pieces of a class: fields, an empty line, and methods. -/
def ClassDecl.spell (c : ClassDecl) : List Piece :=
  [margin, word .classKw, space, ident c.name] ++ spellSuperclass c.superclass ++
    [space, word .leftBrace, newline, indent] ++ c.fields.flatMap Variable.spellLine ++
    (if c.fields.isEmpty || c.methods.isEmpty then [] else [newline]) ++
    Method.spellList c.methods ++ [dedent, margin, word .rightBrace, newline]

/-- The pieces of the main class. -/
def MainClass.spell (m : MainClass) : List Piece :=
  [margin, word .classKw, space, ident m.name, space, word .leftBrace, newline, indent,
    margin, word .publicKw, space, word .staticKw, space, word .voidKw, space,
    ident "main", word .leftParen, word .stringKw, word .leftBracket, word .rightBracket,
    space, ident m.argsName, word .rightParen, space, word .leftBrace, newline, indent] ++
    m.body.spell false ++
    [dedent, margin, word .rightBrace, newline, dedent, margin, word .rightBrace, newline]

/-- The pieces of a program: the classes, with an empty line before each but the first. -/
def Program.spell (p : Program) : List Piece :=
  p.main.spell ++ p.classes.flatMap fun c => newline :: c.spell

/-! ## Text -/

/-- A tree that can be printed by itself. -/
inductive Printable where
  | program (p : Program)
  | main (m : MainClass)
  | classDecl (c : ClassDecl)
  | method (m : Method)
  | stmt (s : Stmt)
  | expr (e : Expr)
deriving DecidableEq, Inhabited

/-- The pieces with which a tree is printed. -/
def Printable.pieces : Printable → List Piece
  | program p => (p.mapExprs Expr.grouped).spell
  | main m => (m.mapExprs Expr.grouped).spell
  | classDecl c => (c.mapExprs Expr.grouped).spell
  | method m => (m.mapExprs Expr.grouped).spell
  | stmt s => (s.mapExprs Expr.grouped).spell false
  | expr e => e.grouped.spell

/-- Print a tree after what is printed already. -/
def Printer.visit (p : Printer) (t : Printable) : Printer := p.putAll t.pieces

/-- The text of a tree. -/
def Printable.print (t : Printable) : String := (Printer.empty.visit t).text

/-- The text of an expression. -/
def Expr.print (e : Expr) : String := (Printable.expr e).print

/-- The text of a statement, on lines of its own. -/
def Stmt.print (s : Stmt) : String := (Printable.stmt s).print

/-- The text of a program. -/
def Program.print (p : Program) : String := (Printable.program p).print

end MiniJava
