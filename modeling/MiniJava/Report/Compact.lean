import MiniJava.Report.Diagnostic
import MiniJava.Report.Styled

/-!
# Compact reports

A compact report of a diagnostic has a headline, its position, what was expected, and the remarks,
each on a line.
-/

namespace MiniJava

open Chunk

namespace Style

/-- The kind of an error at the head of a report. -/
def errorKind : Style := ⟨[1, 31]⟩

/-- The message of a report. -/
def message : Style := ⟨[1]⟩

/-- The signs at the start of the lines of a report. -/
def sign : Style := ⟨[1, 34]⟩

/-- The remarks of a report. -/
def remark : Style := ⟨[90]⟩

end Style

namespace Diagnostic

/-- What was expected and what was found, if anything in particular was expected. -/
def expectation? (d : Diagnostic) : Option String :=
  d.expectedSummary?.map fun summary => summary ++ ", found " ++ d.found.getD "nothing"

/-- A line of a compact report that says more about the error. -/
def remarkLine (text : String) : StyledText :=
  [plain "  ", styled .sign "=", plain " ", styled .remark text, plain "\n"]

/-- The compact report of a diagnostic. -/
def compact (d : Diagnostic) : StyledText :=
  [styled .errorKind ("error[" ++ d.kind.name ++ "]"), plain ": ", styled .message d.message,
    plain "\n  ", styled .sign "-->", plain (" " ++ d.position.display ++ "\n")] ++
    d.expectation?.toList.flatMap remarkLine ++
    d.notes.flatMap fun note => remarkLine ("note: " ++ note)

/-- Compact reports, with an empty line after each if `spaced`. -/
def compactAll (spaced : Bool) (ds : List Diagnostic) : StyledText :=
  ds.flatMap fun d => d.compact ++ if spaced then [plain "\n"] else []

end Diagnostic

end MiniJava
