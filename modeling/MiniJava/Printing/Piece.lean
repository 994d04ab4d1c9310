import MiniJava.Lexical.Token

/-!
# Pieces of printed text

Printed text is a row of pieces: words of the language, names and numbers, and between them what
makes up the layout. How much blank space a margin takes depends on the level of indentation, which
some pieces change.
-/

namespace MiniJava

/-- A piece of printed text. -/
inductive Piece where
  /-- A keyword, an operator or a punctuation mark. -/
  | word (kind : TokenKind)
  | ident (name : String)
  | number (value : Int32)
  /-- What stands for a part that could not be read. -/
  | placeholder
  | space
  | newline
  /-- The blanks at the start of a line. -/
  | margin
  /-- Go one level further in. -/
  | indent
  /-- Go one level back. -/
  | dedent
deriving DecidableEq, Inhabited

namespace Piece

/-- The number of blanks for one level. -/
def indentStep : Nat := 4

/-- An integer in decimal digits, with a minus sign if it is negative. -/
def digits (value : Int32) : String :=
  let n := value.toInt
  if n < 0 then "-" ++ Nat.repr n.natAbs else Nat.repr n.natAbs

/-- The text of a piece at a level. -/
def text (level : Nat) : Piece → String
  | word kind => kind.spelling?.getD ""
  | ident name => name
  | number value => digits value
  | placeholder => "/* error */"
  | space => " "
  | newline => "\n"
  | margin => String.ofList (List.replicate (level * indentStep) ' ')
  | indent | dedent => ""

/-- The level after a piece. -/
def levelAfter (level : Nat) : Piece → Nat
  | indent => level + 1
  | dedent => level - 1
  | word _ | ident _ | number _ | placeholder | space | newline | margin => level

end Piece

/-- A text under construction, and the level at which it goes on. -/
structure Printer where
  level : Nat
  text : String
deriving DecidableEq, Inhabited

namespace Printer

/-- Nothing printed yet. -/
def empty : Printer := ⟨0, ""⟩

/-- Print one more piece. -/
def put (p : Printer) (piece : Piece) : Printer :=
  ⟨piece.levelAfter p.level, p.text ++ piece.text p.level⟩

/-- Print more pieces. -/
def putAll (p : Printer) (pieces : List Piece) : Printer := pieces.foldl put p

@[simp] theorem putAll_nil (p : Printer) : p.putAll [] = p := rfl

@[simp] theorem putAll_cons (p : Printer) (piece : Piece) (pieces : List Piece) :
    p.putAll (piece :: pieces) = (p.put piece).putAll pieces := rfl

end Printer

end MiniJava
