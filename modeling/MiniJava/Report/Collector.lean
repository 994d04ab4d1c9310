import MiniJava.Report.Diagnostic

/-!
# Collecting diagnostics

A collector keeps diagnostics in the order in which they came, until it is told to sort them by
the place where they start. Those that start at the same place keep their order.
-/

namespace MiniJava

/-- The diagnostics gathered so far. -/
structure Collector where
  toList : List Diagnostic
deriving DecidableEq, Inhabited

namespace Collector

/-- A collector that holds nothing. -/
def empty : Collector := ⟨[]⟩

/-- Take in a diagnostic. -/
def add (c : Collector) (d : Diagnostic) : Collector := ⟨c.toList ++ [d]⟩

/-- Take in diagnostics, the first one first. -/
def addAll (c : Collector) (ds : List Diagnostic) : Collector := ⟨c.toList ++ ds⟩

/-- Order the diagnostics by where they start. -/
def sorted (c : Collector) : Collector :=
  ⟨c.toList.mergeSort fun d e => d.span.start ≤ e.span.start⟩

/-- How many diagnostics of a kind there are. -/
def count (c : Collector) (kind : DiagnosticKind) : Nat := c.toList.countP (·.kind = kind)

/-- How many diagnostics there are. -/
def size (c : Collector) : Nat := c.toList.length

/-- Whether there is no diagnostic. -/
def isEmpty (c : Collector) : Bool := c.toList.isEmpty

/-- Whether something is wrong. -/
def hasErrors (c : Collector) : Bool := !c.isEmpty

/-- Every diagnostic is of one of the two kinds. -/
theorem count_add_count (c : Collector) : c.count .lexical + c.count .syntactic = c.size := by
  obtain ⟨ds⟩ := c
  simp only [count, size]
  induction ds with
  | nil => rfl
  | cons d ds ih =>
    cases h : d.kind <;> simp [h] <;> omega

end Collector

end MiniJava
