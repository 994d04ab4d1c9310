import MiniJava.Tree.Basic

/-!
# Dumps of trees

A dump shows a tree with every field of every node, one field or item on a line, four blanks for
each level.
-/

namespace MiniJava

/-- The lines of a dump. -/
abbrev Dump := List String

namespace Dump

/-- Lines one level further in, with a label before the first and a comma after the last. -/
def entry (label : String) : Dump → Dump
  | [] => []
  | [line] => ["    " ++ label ++ line ++ ","]
  | line :: next :: rest =>
    ("    " ++ label ++ line) :: (next :: rest).dropLast.map ("    " ++ ·) ++
      ["    " ++ rest.getLastD next ++ ","]

/-- A value that takes one line. -/
def atom (text : String) : Dump := [text]

/-- A node with named fields. -/
def record (name : String) (fields : List (String × Dump)) : Dump :=
  (name ++ " \x7b") :: (fields.flatMap fun (label, d) => entry (label ++ ": ") d) ++ ["\x7d"]

/-- A node with fields that have no names. -/
def tuple (name : String) (items : List Dump) : Dump :=
  (name ++ "(") :: items.flatMap (entry "") ++ [")"]

/-- A list of nodes. -/
def list : List Dump → Dump
  | [] => ["[]"]
  | items => "[" :: items.flatMap (entry "") ++ ["]"]

/-- A character within quotes. -/
def quotedChar (c : Char) : String :=
  match c with
  | '"' => "\\\""
  | '\\' => "\\\\"
  | '\n' => "\\n"
  | '\r' => "\\r"
  | '\t' => "\\t"
  | '\x00' => "\\0"
  | c => String.singleton c

/-- A text within quotes. -/
def quoted (text : String) : String := "\"" ++ String.join (text.toList.map quotedChar) ++ "\""

/-- A text. -/
def text (s : String) : Dump := atom (quoted s)

/-- The text of a dump. -/
def render (d : Dump) : String := "\n".intercalate d

end Dump

open Dump

/-- The dump of a span. -/
def Span.dump (s : Span) : Dump := atom (Nat.repr s.start ++ ".." ++ Nat.repr s.stop)

/-- The name of an operator in a dump. -/
def BinaryOp.dump : BinaryOp → Dump
  | and => atom "And"
  | lessThan => atom "LessThan"
  | plus => atom "Plus"
  | minus => atom "Minus"
  | times => atom "Times"

/-- The dump of a type. -/
def TypeName.dump : TypeName → Dump
  | int => atom "Int"
  | boolean => atom "Boolean"
  | intArray => atom "IntArray"
  | named n => tuple "Class" [Dump.text n]

/-- The dump of an expression of a given form. -/
def Expr.dumpNode (span : Span) (kind : Dump) : Dump :=
  record "Expr" [("kind", kind), ("span", span.dump)]

mutual

/-- The dump of an expression. -/
def Expr.dump : Expr → Dump
  | .integer s v => dumpNode s (tuple "IntLiteral" [atom (toString v.toInt)])
  | .boolean s v => dumpNode s (tuple "BoolLiteral" [atom (if v then "true" else "false")])
  | .identifier s n => dumpNode s (tuple "Identifier" [Dump.text n])
  | .this s => dumpNode s (atom "This")
  | .newArray s e => dumpNode s (tuple "NewArray" [e.dump])
  | .newObject s n => dumpNode s (tuple "NewObject" [Dump.text n])
  | .index s a i => dumpNode s (record "ArrayIndex" [("array", a.dump), ("index", i.dump)])
  | .length s a => dumpNode s (tuple "ArrayLength" [a.dump])
  | .call s r m as =>
    dumpNode s <| record "MethodCall"
      [("receiver", r.dump), ("method", Dump.text m), ("args", Dump.list (Expr.dumpList as))]
  | .not s e => dumpNode s (tuple "Not" [e.dump])
  | .binary s l op r => dumpNode s (tuple "Binary" [l.dump, op.dump, r.dump])
  | .paren s e => dumpNode s (tuple "Paren" [e.dump])
  | .error s => dumpNode s (atom "Error")

/-- The dumps of some expressions. -/
def Expr.dumpList : List Expr → List Dump
  | [] => []
  | e :: es => e.dump :: Expr.dumpList es

end

/-- The dump of a `recur`. -/
def Recur.dump (r : Recur) : Dump :=
  record "Recur"
    [("span", r.span.dump), ("condition", r.condition.dump),
      ("args", Dump.list (Expr.dumpList r.args)), ("fallback", r.fallback.dump)]

mutual

/-- The dump of a statement. -/
def Stmt.dump : Stmt → Dump
  | .block s ss =>
    record "Block" [("span", s.dump), ("statements", Dump.list (Stmt.dumpList ss))]
  | .ifElse s c t e =>
    record "If"
      [("span", s.dump), ("condition", c.dump), ("then_branch", t.dump), ("else_branch", e.dump)]
  | .whileLoop s c b =>
    record "While" [("span", s.dump), ("condition", c.dump), ("body", b.dump)]
  | .println s v => record "Print" [("span", s.dump), ("value", v.dump)]
  | .assign s n v =>
    record "Assign" [("span", s.dump), ("name", Dump.text n), ("value", v.dump)]
  | .assignElement s n i v =>
    record "ArrayAssign"
      [("span", s.dump), ("name", Dump.text n), ("index", i.dump), ("value", v.dump)]
  | .recur r => tuple "Recur" [r.dump]
  | .error s => record "Error" [("span", s.dump)]

/-- The dumps of some statements. -/
def Stmt.dumpList : List Stmt → List Dump
  | [] => []
  | s :: ss => s.dump :: Stmt.dumpList ss

end

/-- The dump of a variable, which is named by its role. -/
def Variable.dump (role : String) (v : Variable) : Dump :=
  record role [("span", v.span.dump), ("name", Dump.text v.name), ("ty", v.type.dump)]

/-- The dump of the result of a method. -/
def MethodResult.dump : MethodResult → Dump
  | returns s e => record "Return" [("span", s.dump), ("value", e.dump)]
  | recurs r => tuple "Recur" [r.dump]

/-- The dump of a method. -/
def Method.dump (m : Method) : Dump :=
  record "MethodDecl"
    [("span", m.span.dump), ("name", Dump.text m.name), ("return_type", m.returnType.dump),
      ("params", Dump.list (m.params.map (Variable.dump "Param"))),
      ("locals", Dump.list (m.locals.map (Variable.dump "VarDecl"))),
      ("body", Dump.list (Stmt.dumpList m.body)), ("result", m.result.dump)]

/-- The dump of the name of a superclass. -/
def ClassDecl.dumpSuperclass : Option String → Dump
  | some n => tuple "Some" [Dump.text n]
  | none => atom "None"

/-- The dump of a class. -/
def ClassDecl.dump (c : ClassDecl) : Dump :=
  record "ClassDecl"
    [("span", c.span.dump), ("name", Dump.text c.name),
      ("superclass", dumpSuperclass c.superclass),
      ("fields", Dump.list (c.fields.map (Variable.dump "VarDecl"))),
      ("methods", Dump.list (c.methods.map Method.dump))]

/-- The dump of the main class. -/
def MainClass.dump (m : MainClass) : Dump :=
  record "MainClass"
    [("span", m.span.dump), ("name", Dump.text m.name), ("args_name", Dump.text m.argsName),
      ("body", m.body.dump)]

/-- The dump of a program. -/
def Program.dump (p : Program) : Dump :=
  record "Program"
    [("span", p.span.dump), ("main", p.main.dump),
      ("classes", Dump.list (p.classes.map ClassDecl.dump))]

end MiniJava
