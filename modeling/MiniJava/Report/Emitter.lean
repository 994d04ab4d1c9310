import MiniJava.Report.Compact

/-!
# Emitters

An emitter writes compact reports, with styles or without. The plain form of a report is put
together by itself and not taken from the styled one.
-/

namespace MiniJava

/-- The compact report of a diagnostic without styles. -/
def Diagnostic.plainReport (d : Diagnostic) : String :=
  "error[" ++ d.kind.name ++ "]: " ++ d.message ++ "\n" ++
    ("  --> " ++ d.position.display ++ "\n") ++
    (match d.expectedSummary? with
      | some summary => "  = " ++ summary ++ ", found " ++ d.found.getD "nothing" ++ "\n"
      | none => "") ++
    String.join (d.notes.map fun note => "  = note: " ++ note ++ "\n")

/-- What writes compact reports. -/
structure Emitter where
  colored : Bool
deriving DecidableEq, Inhabited

namespace Emitter

/-- Write the report of a diagnostic; whether styles show is up to the `terminal` as well. -/
def emit (e : Emitter) (terminal : Bool) (d : Diagnostic) : String :=
  if e.colored then d.compact.render terminal else d.plainReport

/-- Write reports, with an empty line after each if `spaced`. -/
def emitAll (e : Emitter) (terminal spaced : Bool) (ds : List Diagnostic) : String :=
  if e.colored then (Diagnostic.compactAll spaced ds).render terminal
  else String.join (ds.map fun d => d.plainReport ++ if spaced then "\n" else "")

theorem emitAll_nil (e : Emitter) (terminal spaced : Bool) : e.emitAll terminal spaced [] = "" := by
  unfold emitAll
  split <;> rfl

end Emitter

end MiniJava
