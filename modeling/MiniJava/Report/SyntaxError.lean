import MiniJava.Lexical.Token
import MiniJava.Report.Diagnostic

/-!
# Syntax errors

A syntax error in words: what was found, what could have stood there, and a remark.
-/

namespace MiniJava

/-- A syntax error. An empty `found` means that no single token is to blame. -/
structure SyntaxError where
  message : String
  found : String
  expected : List String
  span : Span
  position : Position
  note : Option String := none
deriving DecidableEq, Inhabited

namespace SyntaxError

/-- A token that could not stand where it does. -/
def unexpected (t : Token) (expected : List String) : SyntaxError :=
  { message := "unexpected " ++ t.describe
    found := t.describe
    expected
    span := t.span
    position := t.position }

/-- An error at a token, in words of its own. -/
def custom (message : String) (t : Token) : SyntaxError :=
  { message, found := t.describe, expected := [], span := t.span, position := t.position }

/-- An error of a whole construct. -/
def spanning (message : String) (span : Span) (position : Position) : SyntaxError :=
  { message, found := "", expected := [], span, position }

/-- The error at another place of the text. -/
def withSpan (e : SyntaxError) (span : Span) : SyntaxError := { e with span }

/-- The error with a remark in place of any other. -/
def withNote (e : SyntaxError) (note : String) : SyntaxError := { e with note := some note }

/-- The diagnostic of a syntax error. -/
def toDiagnostic (e : SyntaxError) : Diagnostic :=
  { kind := .syntactic
    message := e.message
    span := e.span
    position := e.position
    expected := e.expected
    found := if e.found.isEmpty then none else some e.found
    notes := e.note.toList }

end SyntaxError

end MiniJava
