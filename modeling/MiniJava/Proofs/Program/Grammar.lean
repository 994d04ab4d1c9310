import MiniJava.Proofs.Program.Complete
import MiniJava.Proofs.Reading.Analysis

/-!
# The grammar of programs

A text is accepted if and only if its tokens are the yield of a correct program, and then this
program is what it is read as.
-/

namespace MiniJava

/-- A text whose tokens are the yield of a readable program is read as this program. -/
theorem tree_parse_of_yield {source : String} {p : Program} (hp : ∀ n ∈ p.nodes, n.Readable)
    (hy : p.yield = terminalsOf source) :
    (parse source).tree.withoutSpans = p.withoutSpans ∧
      ((Parse.program : Reader Empty Program) (startOf source)).faults =
        Parse.misplacedRecurs (parse source).tree.recurs := by
  have hsees := startOf_sees source
  rw [← hy] at hsees
  obtain ⟨p', hok, hspans, hfaults, -⟩ := Parse.succeeds_program (ε := Empty) hp hsees
  obtain rfl : (parse source).tree = p' := by
    rw [Reading.outcome_eq_ok] at hok
    exact Except.ok.inj hok
  exact ⟨hspans, hfaults⟩

/-- A correct program is read without faults. -/
theorem faults_program_of_wellFormed {source : String} {p : Program} (hp : p.WellFormed)
    (hy : p.yield = terminalsOf source) :
    ((Parse.program : Reader Empty Program) (startOf source)).faults = [] := by
  obtain ⟨hspans, hfaults⟩ :=
    tree_parse_of_yield (fun n hn => (hp n hn).readable) hy
  have hnone : p.recurs = [] := by
    rw [← p.recurStatements_nodes]
    exact (recurStatements_eq_nil_iff _).2 fun n hn => (hp n hn).noRecur
  have hsame := Program.map_recurs_congr hspans
  rw [hnone, List.map_nil, List.map_eq_nil_iff] at hsame
  rw [hfaults, hsame]
  rfl

/-- A program that is read without faults is correct, and no token is lost. -/
theorem wellFormed_of_faults_program {source : String}
    (h : ((Parse.program : Reader Empty Program) (startOf source)).faults = []) :
    (parse source).tree.WellFormed ∧ (parse source).tree.yield = terminalsOf source := by
  obtain ⟨ys, hreach, hread⟩ := Parse.ensures_program (startOf source) (startOf_regular source)
  obtain ⟨rfl, hp, hend⟩ := (hread _ (Reading.outcome_eq_ok _)).1 h
  exact ⟨hp, terminalsOf_of_reaches hreach hend⟩

/--
The parser accepts the texts of correct programs and no others. The tree of an accepted text is
correct and yields all of its tokens; every correct program that does is this tree up to spans.
-/
theorem parse_accepts_iff (source : String) :
    ((parse source).diagnostics = [] ↔ (tokenize source).errors = [] ∧
      ∃ p : Program, p.WellFormed ∧ p.yield = terminalsOf source) ∧
    ((parse source).diagnostics = [] →
      ((parse source).tree.WellFormed ∧ (parse source).tree.yield = terminalsOf source) ∧
      ∀ p : Program, p.WellFormed → p.yield = terminalsOf source →
        p.withoutSpans = (parse source).tree.withoutSpans) := by
  rw [parse, diagnostics_analyze_eq_nil_iff]
  refine ⟨⟨fun ⟨hlex, hf⟩ => ?_, fun ⟨hlex, p, hp, hy⟩ => ?_⟩, fun ⟨_, hf⟩ => ?_⟩
  · exact ⟨hlex, _, wellFormed_of_faults_program hf⟩
  · exact ⟨hlex, faults_program_of_wellFormed hp hy⟩
  · refine ⟨wellFormed_of_faults_program hf, fun p hp hy => ?_⟩
    exact (tree_parse_of_yield (fun n hn => (hp n hn).readable) hy).1.symm

end MiniJava
