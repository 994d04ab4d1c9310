import MiniJava.Proofs.Printing.Grouping
import MiniJava.Proofs.Printing.Spans
import MiniJava.Proofs.Printing.Spelling
import MiniJava.Proofs.Program.Grammar

/-!
# Reading what was printed

A program that can be printed is read back from its text with the parentheses that were put in, and
all that is reported are its `recur` statements. Printing it once more changes nothing.
-/

namespace MiniJava

/-! ## The tokens of a printed program -/

theorem Program.toList_print (p : Program) :
    p.print.toList = Piece.render 0 (p.mapExprs Expr.grouped).spell :=
  (Printable.program p).toList_print

/-- The text of a program that can be printed has the tokens of the grouped program. -/
theorem Program.scans_print {p : Program} (hp : ∀ n ∈ p.nodes, n.Spellable) :
    Scans p.print.toList (p.mapExprs Expr.grouped).yield := by
  have hspell : ∀ n ∈ (p.mapExprs Expr.grouped).nodes, n.Spellable := fun n hn =>
    have h := Program.legal_grouped hp n hn
    h.spellable h.noError
  rw [p.toList_print, ← Program.terminals_spell]
  exact Piece.scans_render (Program.joined_spell hspell) 0

theorem Program.terminalsOf_print {p : Program} (hp : ∀ n ∈ p.nodes, n.Spellable) :
    terminalsOf p.print = (p.mapExprs Expr.grouped).yield := by
  rw [terminalsOf, terminals_tokenize]
  exact (Program.scans_print hp).terminals

theorem Program.errors_tokenize_print {p : Program} (hp : ∀ n ∈ p.nodes, n.Spellable) :
    (tokenize p.print).errors = [] :=
  (errors_tokenize _).2 (Program.scans_print hp).noFault

/-! ## The tree of a printed program -/

/-- What is reported of a `recur` that stands as a statement. -/
def Recur.misplaced (source : String) (r : Recur) : Diagnostic :=
  (Fault.misplaced .recurEndsMethod r.span).toDiagnostic source

variable {p : Program}

theorem tree_parse_print (hp : ∀ n ∈ p.nodes, n.Spellable) :
    (parse p.print).tree.withoutSpans = (p.mapExprs Expr.grouped).withoutSpans := by
  have hread : ∀ n ∈ (p.mapExprs Expr.grouped).nodes, n.Readable := fun n hn =>
    (Program.legal_grouped hp n hn).readable
  exact (tree_parse_of_yield hread (Program.terminalsOf_print hp).symm).1

/-- All that is reported of a printed program are the `recur` statements in it. -/
theorem diagnostics_parse_print (hp : ∀ n ∈ p.nodes, n.Spellable) :
    (parse p.print).diagnostics.Perm
      ((recurStatements (parse p.print).tree.nodes).map (Recur.misplaced p.print)) := by
  have hread : ∀ n ∈ (p.mapExprs Expr.grouped).nodes, n.Readable := fun n hn =>
    (Program.legal_grouped hp n hn).readable
  have hfaults := (tree_parse_of_yield hread (Program.terminalsOf_print hp).symm).2
  have hperm := diagnostics_analyze_perm Parse.program p.print
  rw [Program.errors_tokenize_print hp, hfaults, Parse.misplacedRecurs, List.map_map] at hperm
  rw [Program.recurStatements_nodes]
  exact hperm

theorem recurStatements_parse_print (hp : ∀ n ∈ p.nodes, n.Spellable) :
    (recurStatements (parse p.print).tree.nodes).map Recur.withoutSpans =
      (recurStatements p.nodes).map fun r => (r.mapExprs Expr.grouped).withoutSpans := by
  rw [Program.recurStatements_nodes, Program.recurStatements_nodes,
    Program.map_recurs_congr (tree_parse_print hp), Program.recurs_mapExprs, List.map_map]
  rfl

/-- Grouping a grouped program changes nothing, so it has one text. -/
theorem Program.print_grouped (hp : ∀ n ∈ p.nodes, n.Spellable) :
    (p.mapExprs Expr.grouped).print = p.print := by
  have hself : (p.mapExprs Expr.grouped).mapExprs Expr.grouped = p.mapExprs Expr.grouped :=
    Program.grouped_eq_self fun n hn => (Program.legal_grouped hp n hn).grouped
  rw [Program.print, Printable.print, Printer.visit, Printable.pieces, hself]
  rfl

/--
A program that can be printed is read back up to spans and the parentheses that were put in. One
diagnostic is given for each of its `recur` statements and no other, and the text is final.
-/
theorem parse_print (hp : ∀ n ∈ p.nodes, n.Spellable) :
    p.Padded (parse p.print).tree ∧
    ((parse p.print).diagnostics.Perm
        ((recurStatements (parse p.print).tree.nodes).map (Recur.misplaced p.print)) ∧
      (recurStatements (parse p.print).tree.nodes).map Recur.withoutSpans =
        (recurStatements p.nodes).map fun r => (r.mapExprs Expr.grouped).withoutSpans) ∧
    (parse p.print).tree.print = p.print := by
  refine ⟨⟨Expr.grouped, Expr.padded_grouped, tree_parse_print hp⟩, ?_, ?_⟩
  · exact ⟨diagnostics_parse_print hp, recurStatements_parse_print hp⟩
  · rw [Program.print_congr (tree_parse_print hp), Program.print_grouped hp]

/-- A main class that prints a sum times a length, and then asks to run again. -/
def sumTimes : Program :=
  let at0 := Span.nowhere
  let out := Expr.call at0 (.identifier at0 "System") "out" []
  let sum := Expr.binary at0 (.integer at0 1) .plus out
  let product := Expr.binary at0 sum .times (.length at0 (.not at0 (.this at0)))
  let again := Stmt.recur ⟨at0, .boolean at0 true, [sum], product⟩
  ⟨at0, ⟨at0, "Main", "args", .block at0 [.println at0 product, again]⟩, []⟩

theorem parse_print_sumTimes : (∀ n ∈ sumTimes.nodes, n.Spellable) ∧
    sumTimes.Padded (parse sumTimes.print).tree ∧
    (parse sumTimes.print).diagnostics.length = 1 ∧
    (parse sumTimes.print).tree.print = sumTimes.print :=
  have hp : ∀ n ∈ sumTimes.nodes, n.Spellable := by decide +kernel
  have ⟨htree, ⟨hperm, hrecurs⟩, hprint⟩ := parse_print hp
  have hone : (recurStatements (parse sumTimes.print).tree.nodes).length = 1 := by
    have hlength := congrArg List.length hrecurs
    rwa [List.length_map, List.length_map] at hlength
  ⟨hp, htree, by simpa [hone] using hperm.length_eq, hprint⟩

/-! ## Texts that are printed again -/

/-- A text in printed form: the text of the tree that it is read as. -/
def reprint (source : String) : String := (parse source).tree.print

section Reprint

variable {source : String}

/-- Nodes that could be read can be printed, and their operands need no further parentheses. -/
theorem proper_of_mem_nodes_parse (h : ∀ n ∈ (parse source).tree.nodes, ¬ n.IsError) :
    ∀ n ∈ (parse source).tree.nodes, n.Proper := by
  obtain ⟨ys, -, hread⟩ := Parse.ensures_program (startOf source) (startOf_regular source)
  exact (hread _ (Reading.outcome_eq_ok _)).2 h

theorem spellable_of_mem_nodes_parse (h : ∀ n ∈ (parse source).tree.nodes, ¬ n.IsError) :
    ∀ n ∈ (parse source).tree.nodes, n.Spellable := fun n hn =>
  (proper_of_mem_nodes_parse h n hn).spellable (h n hn)

theorem tree_parse_reprint (h : ∀ n ∈ (parse source).tree.nodes, ¬ n.IsError) :
    (parse (reprint source)).tree.withoutSpans = (parse source).tree.withoutSpans := by
  have hself : (parse source).tree.mapExprs Expr.grouped = (parse source).tree :=
    Program.grouped_eq_self fun n hn => (proper_of_mem_nodes_parse h n hn).grouped
  rw [reprint, tree_parse_print (spellable_of_mem_nodes_parse h), hself]

theorem recurStatements_parse_reprint (h : ∀ n ∈ (parse source).tree.nodes, ¬ n.IsError) :
    (recurStatements (parse (reprint source)).tree.nodes).map Recur.withoutSpans =
      (recurStatements (parse source).tree.nodes).map Recur.withoutSpans := by
  rw [Program.recurStatements_nodes, Program.recurStatements_nodes]
  exact Program.map_recurs_congr (tree_parse_reprint h)

/-- No `recur` statement is in the tree of a text without faults. -/
theorem recurStatements_parse_of_clean (hclean : (parse source).diagnostics = []) :
    recurStatements (parse source).tree.nodes = [] := by
  obtain ⟨-, hfaults⟩ := diagnostics_analyze_eq_nil_iff.1 hclean
  refine (recurStatements_eq_nil_iff _).2 fun n hn => ?_
  exact ((wellFormed_of_faults_program hfaults).1 n hn).noRecur

/-- Where nothing was reported of a text, nothing is reported of its printed form. -/
theorem diagnostics_parse_reprint_of_clean (h : ∀ n ∈ (parse source).tree.nodes, ¬ n.IsError)
    (hclean : (parse source).diagnostics = []) : (parse (reprint source)).diagnostics = [] := by
  have hsame := recurStatements_parse_reprint h
  rw [recurStatements_parse_of_clean hclean, List.map_nil, List.map_eq_nil_iff] at hsame
  have hperm := diagnostics_parse_print (spellable_of_mem_nodes_parse h)
  rw [← reprint, hsame, List.map_nil, List.perm_nil] at hperm
  exact hperm

/--
A text whose tree has no error nodes is read as the same tree again once it is printed, whatever was
reported of the text. One diagnostic is given for each `recur` statement of the tree and no other,
and the printed form is final.
-/
theorem parse_reprint (h : ∀ n ∈ (parse source).tree.nodes, ¬ n.IsError) :
    (parse source).tree.structurallyEq (parse (reprint source)).tree ∧
    ((parse (reprint source)).diagnostics.Perm
        ((recurStatements (parse (reprint source)).tree.nodes).map
          (Recur.misplaced (reprint source))) ∧
      (recurStatements (parse (reprint source)).tree.nodes).map Recur.withoutSpans =
        (recurStatements (parse source).tree.nodes).map Recur.withoutSpans) ∧
    ((parse source).diagnostics = [] → (parse (reprint source)).diagnostics = []) ∧
    reprint (reprint source) = reprint source := by
  have htree := tree_parse_reprint h
  refine ⟨decide_eq_true htree.symm, ?_, diagnostics_parse_reprint_of_clean h, ?_⟩
  · exact ⟨diagnostics_parse_print (spellable_of_mem_nodes_parse h),
      recurStatements_parse_reprint h⟩
  · exact Program.print_congr htree

/-- Two braces are missing, and a `recur` stands in the main method. -/
theorem parse_reprint_unclosed :
    let source := "class A \x7b public static void main(String[] a) \x7b recur (1) ? (b, 2) : c;"
    (∀ n ∈ (parse source).tree.nodes, ¬ n.IsError) ∧
      (parse source).tree.structurallyEq (parse (reprint source)).tree ∧
      reprint (reprint source) = reprint source :=
  have h := by decide +kernel
  have ⟨htree, _, _, hprint⟩ := parse_reprint h
  ⟨h, htree, hprint⟩

end Reprint

end MiniJava
