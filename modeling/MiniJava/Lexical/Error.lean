import MiniJava.Report.Diagnostic

/-!
# Lexical errors

What can be wrong with the characters of a text. None of these ends the reading of tokens.
-/

namespace MiniJava

/-- What is wrong at one place of the text. -/
inductive LexicalFault where
  /-- A character that starts no token; it is skipped. -/
  | unrecognizedCharacter (char : Char)
  /-- A number beyond the range of integers; it is read as zero. -/
  | integerOutOfRange (literal : String)
  /-- A block comment without an end; it reaches to the end of the text. -/
  | unterminatedComment
deriving DecidableEq, Inhabited

namespace LexicalFault

/-- The fault in words. -/
def message : LexicalFault → String
  | unrecognizedCharacter char => "unrecognized character `" ++ String.singleton char ++ "`"
  | integerOutOfRange literal => "integer literal `" ++ literal ++ "` does not fit in 32 bits"
  | unterminatedComment => "unterminated block comment"

/-- The remark that goes with the fault. -/
def note : LexicalFault → String
  | unrecognizedCharacter _ => "the character was skipped"
  | integerOutOfRange _ => "integer literals range from 0 to 2147483647"
  | unterminatedComment => "block comments are closed with `*/`"

end LexicalFault

/-- A lexical fault and its place. -/
structure LexicalError where
  fault : LexicalFault
  span : Span
  position : Position
deriving DecidableEq, Inhabited

/-- The diagnostic of a lexical error. -/
def LexicalError.toDiagnostic (e : LexicalError) : Diagnostic :=
  { kind := .lexical
    message := e.fault.message
    span := e.span
    position := e.position
    notes := [e.fault.note] }

end MiniJava
