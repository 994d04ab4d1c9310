import MiniJava.Source.Span

/-!
# Diagnostics

A diagnostic is one finding about a source text, with all that a report can show of it.
-/

namespace MiniJava

/-- A finding is about the characters of the text or about its grammar. -/
inductive DiagnosticKind where
  | lexical
  | syntactic
deriving DecidableEq, Inhabited

/-- The name of a kind of finding in reports. -/
def DiagnosticKind.name : DiagnosticKind → String
  | .lexical => "lexical"
  | .syntactic => "syntax"

/-- One finding: what is wrong, where, what would have been right, what was there, and remarks. -/
structure Diagnostic where
  kind : DiagnosticKind
  message : String
  span : Span := Span.nowhere
  position : Position := ⟨0, 0, 0⟩
  expected : List String := []
  found : Option String := none
  notes : List String := []
deriving DecidableEq, Inhabited

namespace Diagnostic

/-- Add a remark after those already there. -/
def withNote (d : Diagnostic) (note : String) : Diagnostic := { d with notes := d.notes ++ [note] }

/-- What would have been right, in words: one thing, or several with "or" before the last. -/
def expectedSummary? (d : Diagnostic) : Option String :=
  match d.expected with
  | [] => none
  | [only] => some ("expected " ++ only)
  | first :: second :: rest =>
    some ("expected one of " ++ ", ".intercalate (first :: (second :: rest).dropLast) ++ " or " ++
      rest.getLastD second)

/-- The finding on one line. -/
def headline (d : Diagnostic) : String :=
  d.position.display ++ ": " ++ d.kind.name ++ " error: " ++ d.message

end Diagnostic

end MiniJava
