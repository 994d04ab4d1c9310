import MiniJava.Proofs.Lexing.Places
import MiniJava.Proofs.Reading.Succeeds

/-!
# Analyses

What is found out about a text comes from its tokens: the tree is what a reader gives at the start
of the tokens, and the diagnostics are the lexical errors and the faults that were noted.
-/

namespace MiniJava

variable {α : Type} {reader : Reader Empty α} {source : String}

/-- A fault as it is shown to a reader of the text. -/
def Fault.toDiagnostic (source : String) (fault : Fault) : Diagnostic :=
  (fault.toSyntaxError (Source.ofString source)).toDiagnostic

theorem Reading.outcome_eq_ok (r : Reading Empty α) : r.outcome = .ok r.value := by
  obtain ⟨e | a, c, journal⟩ := r
  · exact e.elim
  · rfl

/-- The diagnostics are sorted, but none is lost and none is added. -/
theorem diagnostics_analyze_perm (reader : Reader Empty α) (source : String) :
    (analyze reader source).diagnostics.Perm
      ((tokenize source).errors.map LexicalError.toDiagnostic ++
        (reader (startOf source)).faults.map (Fault.toDiagnostic source)) :=
  List.mergeSort_perm _ _

/-- At most one fault, in a text without lexical errors, needs no sorting. -/
theorem diagnostics_analyze_of_length_le (herrors : (tokenize source).errors = [])
    (hlength : (reader (startOf source)).faults.length ≤ 1) :
    (analyze reader source).diagnostics =
      (reader (startOf source)).faults.map (Fault.toDiagnostic source) := by
  have hperm := diagnostics_analyze_perm reader source
  rw [herrors, List.map_nil, List.nil_append] at hperm
  generalize (reader (startOf source)).faults = fs at hlength hperm ⊢
  match fs with
  | [] => exact List.perm_nil.1 hperm
  | [f] => exact List.perm_singleton.1 hperm

theorem diagnostics_analyze_eq_nil_iff :
    (analyze reader source).diagnostics = [] ↔
      (tokenize source).errors = [] ∧ (reader (startOf source)).faults = [] := by
  have hperm := diagnostics_analyze_perm reader source
  rw [← List.perm_nil, hperm.congr_left, List.perm_nil, List.append_eq_nil_iff,
    List.map_eq_nil_iff, List.map_eq_nil_iff]

/-- The tokens of a text, as the grammar sees them. -/
def terminalsOf (source : String) : List Terminal := (tokenize source).tokens.map Token.terminal

/-- What lies ahead at the start of a text. -/
theorem startOf_sees (source : String) : (startOf source).Sees (terminalsOf source) :=
  ⟨congrArg (List.map Token.terminal) (Cursor.ahead_startOf source)⟩

/-- What is taken from the start of a text up to its end is all of it. -/
theorem terminalsOf_of_reaches {ys : List Terminal} {d : Cursor}
    (h : (startOf source).Reaches ys d) (hend : d.ahead = []) : ys = terminalsOf source := by
  have hall := h.terminals_eq
  rw [(startOf_sees source).terminals_eq, Cursor.terminals, hend, List.map_nil,
    List.append_nil] at hall
  exact hall.symm

/-- What reading ensures of a value holds of the tree. -/
theorem Reading.Ensures.tree {P : α → Prop}
    (h : (reader (startOf source)).Ensures (startOf source) fun _ a _ _ => P a) :
    P (analyze reader source).tree := by
  obtain ⟨_, -, hread⟩ := h (startOf_regular source)
  exact hread _ (Reading.outcome_eq_ok _)

end MiniJava
