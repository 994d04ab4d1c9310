import MiniJava.Parsing.Declaration
import MiniJava.Report.Collector

/-!
# Analysis of a text

`parse`, `parseExpression` and `parseStatement` read a text. Each gives a tree, in which error nodes
stand for what could not be read, and the diagnostics of the text in the order of their places.
-/

namespace MiniJava

/-- What was found out about a text. -/
structure Analysis (α : Type) where
  tree : α
  diagnostics : List Diagnostic
  /-- The number of tokens of the text, the mark of its end included. -/
  tokenCount : Nat
  /-- Where, and over how many tokens, reading had to skip. -/
  skips : List (Region × Nat)

namespace Analysis

/-- Whether anything is wrong with the text. -/
def hasErrors {α : Type} (a : Analysis α) : Bool := !a.diagnostics.isEmpty

/-- The tree of a text without fault, or what is wrong with it. -/
def toExcept {α : Type} (a : Analysis α) : Except (List Diagnostic) α :=
  if a.diagnostics.isEmpty then .ok a.tree else .error a.diagnostics

end Analysis

namespace Entry

/-- The fault that was noted. -/
def fault? : Entry → Option Fault
  | fault f => some f
  | skipped .. | exhausted => none

/-- The skipping that was noted. -/
def skip? : Entry → Option (Region × Nat)
  | skipped region count => some (region, count)
  | fault _ | exhausted => none

end Entry

/-- What a reader that never fails gives. -/
def Reading.value {α : Type} (r : Reading Empty α) : α :=
  match r.outcome with
  | .ok a => a
  | .error e => nomatch e

/-- Read a text with a reader. -/
def analyze {α : Type} (reader : Reader Empty α) (source : String) : Analysis α :=
  let text := Source.ofString source
  let tokenization := tokenize source
  let reading := reader (startOf source)
  let lexical := tokenization.errors.map LexicalError.toDiagnostic
  let syntactic := (reading.journal.filterMap Entry.fault?).map fun fault =>
    (fault.toSyntaxError text).toDiagnostic
  { tree := reading.value
    diagnostics := ((Collector.empty.addAll lexical).addAll syntactic).sorted.toList
    tokenCount := tokenization.all.length
    skips := reading.journal.filterMap Entry.skip? }

namespace Parse

open Reader

/-- Report a token after the end of what was read. -/
def expectEnd : Reader Empty Unit := do
  if atEnd (← here) then return ()
  else
    let found ← look
    report (.unexpected found [.token .endOfInput] none)

/-- Read an expression, or stand in for one up to where reading stopped. -/
def wholeExpression : Reader Empty Expr := do
  let start := (← look).span.start
  let e ← rescue expression fun fault => do
    report fault
    return .error ⟨start, (← here).lastStop⟩
  expectEnd
  return e

/-- Read a statement, or stand in for one. -/
def wholeStatement : Reader Empty Stmt := do
  let s ← recovering statement
  expectEnd
  return s

end Parse

/-- Read a program. -/
def parse (source : String) : Analysis Program := analyze Parse.program source

/-- Read an expression that takes up the whole text. -/
def parseExpression (source : String) : Analysis Expr := analyze Parse.wholeExpression source

/-- Read a statement that takes up the whole text. -/
def parseStatement (source : String) : Analysis Stmt := analyze Parse.wholeStatement source

end MiniJava
