import MiniJava.Proofs.Extents.Reparsing
import MiniJava.Proofs.Lexing.Seam
import MiniJava.Proofs.Program.Grammar

/-!
# Expressions, statements and programs

An expression is read by itself as it is read on the right of an assignment, and a statement as it
is read in the main method of a program.
-/

namespace MiniJava

open Terminal

/-! ## Whole statements -/

namespace Parse

open Reader Reading

theorem ensures_wholeStatement (c : Cursor) :
    (wholeStatement c).Ensures c fun ys s d fs =>
      fs = [] → ys = s.yield ∧ (∀ n ∈ s.nodes, n.Legal) ∧ d.ahead = [] := by
  refine ensures_bind (ensures_recovering ensures_statement c) fun ys s d fs _ hs => ?_
  refine ensures_bind (ensures_expectEnd d) fun zs _ d' gs _ hend => ensures_pure fun hnil => ?_
  obtain ⟨hf, hnil⟩ := List.append_eq_nil_iff.1 hnil
  obtain ⟨hg, -⟩ := List.append_eq_nil_iff.1 hnil
  obtain ⟨rfl, hahead⟩ := hend hg
  exact ⟨by simp [hs.yield_eq hf], hs.good hf, hahead⟩

end Parse

/-- A statement that is read without faults keeps to the grammar, and no token is lost. -/
theorem yield_parseStatement {source : String}
    (h : (Parse.wholeStatement (startOf source)).faults = []) :
    (∀ n ∈ (parseStatement source).tree.nodes, n.Legal) ∧
      (parseStatement source).tree.yield = terminalsOf source := by
  obtain ⟨ys, hreach, hread⟩ :=
    Parse.ensures_wholeStatement (startOf source) (startOf_regular source)
  obtain ⟨rfl, hs, hend⟩ := hread _ (Reading.outcome_eq_ok _) h
  exact ⟨hs, terminalsOf_of_reaches hreach hend⟩

/-- A name and a sign of assignment start nothing but an assignment. -/
theorem Stmt.exists_of_yield_assign {s : Stmt} {n : String} {ys : List Terminal}
    (h : s.yield = ident n :: word .assign :: ys) :
    ∃ span v, s = .assign span n v ∧ v.yield ++ [word .semicolon] = ys := by
  cases s with
  | assign span n' v =>
    simp [Stmt.yield, Terminal.ident] at h
    obtain ⟨rfl, h⟩ := h
    exact ⟨span, v, rfl, h⟩
  | _ => simp [Stmt.yield, Recur.yield, Terminal.ident, Terminal.word] at h

/-! ## Texts around an expression and around a statement -/

/-- The text as the value of an assignment to `x`. -/
def assigned (source : String) : String := framed "x =" source ";"

/-- The text as the body of the main method of a program. -/
def inMain (source : String) : String :=
  framed "class M \x7b public static void main(String[] a) \x7b" source "\x7d \x7d"

section

variable {source : String}

theorem terminalsOf_assigned (h : (tokenize source).errors = []) :
    terminalsOf (assigned source) =
      ident "x" :: word .assign :: (terminalsOf source ++ [word .semicolon]) := by
  rw [assigned, terminalsOf_framed (by decide +kernel) h]
  have hbefore : terminalsOf "x =" = [ident "x", word .assign] := by decide +kernel
  have hafter : terminalsOf ";" = [word .semicolon] := by decide +kernel
  rw [hbefore, hafter]
  rfl

theorem terminalsOf_inMain (h : (tokenize source).errors = []) :
    terminalsOf (inMain source) = word .classKw :: (MainClass.yieldHead "M" "a" ++
      word .leftBrace :: (terminalsOf source ++ [word .rightBrace, word .rightBrace])) := by
  rw [inMain, terminalsOf_framed (by decide +kernel) h]
  have hbefore : terminalsOf "class M \x7b public static void main(String[] a) \x7b" =
      word .classKw :: (MainClass.yieldHead "M" "a" ++ [word .leftBrace]) := by decide +kernel
  have hafter : terminalsOf "\x7d \x7d" = [word .rightBrace, word .rightBrace] := by
    decide +kernel
  rw [hbefore, hafter]
  simp

theorem errors_assigned : (tokenize (assigned source)).errors = [] ↔
    (tokenize source).errors = [] :=
  errors_framed (by decide +kernel) (by decide +kernel) (by decide +kernel) (by decide)

theorem errors_inMain : (tokenize (inMain source)).errors = [] ↔
    (tokenize source).errors = [] :=
  errors_framed (by decide +kernel) (by decide +kernel) (by decide +kernel) (by decide)

/-- An expression without faults is one on the right of an assignment. -/
theorem parseStatement_assigned (h : (parseExpression source).diagnostics = []) :
    (parseStatement (assigned source)).diagnostics = [] ∧
      (parseStatement (assigned source)).tree.withoutSpans =
        .assign .nowhere "x" (parseExpression source).tree.withoutSpans := by
  obtain ⟨hlex, hf⟩ := diagnostics_analyze_eq_nil_iff.1 h
  obtain ⟨he, hy⟩ := yield_parseExpression hf
  have hs : (Stmt.assign .nowhere "x" (parseExpression source).tree).Readable :=
    List.forall_mem_cons.2 ⟨⟨trivial, id⟩, he⟩
  have hyield : (Stmt.assign .nowhere "x" (parseExpression source).tree).yield =
      terminalsOf (assigned source) := by
    rw [terminalsOf_assigned hlex, Stmt.yield, hy]
  obtain ⟨htree, hfaults⟩ := tree_parseStatement hs hyield
  exact ⟨diagnostics_analyze_eq_nil_iff.2 ⟨errors_assigned.2 hlex, hfaults⟩, htree⟩

/-- The right of an assignment without faults is an expression. -/
theorem diagnostics_parseExpression_of_assigned
    (h : (parseStatement (assigned source)).diagnostics = []) :
    (parseExpression source).diagnostics = [] := by
  obtain ⟨hlex, hf⟩ := diagnostics_analyze_eq_nil_iff.1 h
  rw [errors_assigned] at hlex
  obtain ⟨hs, hy⟩ := yield_parseStatement hf
  rw [terminalsOf_assigned hlex] at hy
  obtain ⟨span, v, htree, hv⟩ := Stmt.exists_of_yield_assign hy
  rw [htree] at hs
  have hreadable : v.Readable := fun n hn => (hs n (List.mem_cons_of_mem _ hn)).readable
  obtain ⟨-, hfaults⟩ := tree_parseExpression hreadable (List.append_cancel_right hv)
  exact diagnostics_analyze_eq_nil_iff.2 ⟨hlex, hfaults⟩

/-- A statement without faults and without `recur` is the body of a main method. -/
theorem parse_inMain (h : (parseStatement source).diagnostics = [])
    (hrecur : ∀ n ∈ (parseStatement source).tree.nodes, ¬ n.IsRecurStatement) :
    (parse (inMain source)).diagnostics = [] ∧
      (parse (inMain source)).tree.main.body.withoutSpans =
        (parseStatement source).tree.withoutSpans := by
  obtain ⟨hlex, hf⟩ := diagnostics_analyze_eq_nil_iff.1 h
  obtain ⟨hs, hy⟩ := yield_parseStatement hf
  let p : Program := ⟨.nowhere, ⟨.nowhere, "M", "a", (parseStatement source).tree⟩, []⟩
  have hp : p.WellFormed := by
    have hnames : ∀ x ∈ (Node.program p).names, IsName x := by
      show ∀ x ∈ ["M", "a"], IsName x
      decide +kernel
    refine List.forall_mem_cons.2 ⟨⟨⟨⟨hnames, trivial, trivial⟩, id⟩, id⟩, ?_⟩
    rw [List.flatMap_nil, List.append_nil]
    exact fun n hn => ⟨hs n hn, hrecur n hn⟩
  have hyield : p.yield = terminalsOf (inMain source) := by
    rw [terminalsOf_inMain hlex, Program.yield, MainClass.yield, hy]
    simp [p]
  obtain ⟨htree, -⟩ := tree_parse_of_yield (fun n hn => (hp n hn).readable) hyield
  have hfaults := faults_program_of_wellFormed hp hyield
  refine ⟨diagnostics_analyze_eq_nil_iff.2 ⟨errors_inMain.2 hlex, hfaults⟩, ?_⟩
  exact congrArg (fun p => p.main.body) htree

end

/--
Whatever the text, it is an expression without faults if and only if it is one on the right of an
assignment, and the same one. A statement without faults and without `recur` is the same one as the
body of a main method.
-/
theorem entry_points_agree (s : String) :
    ((parseExpression s).diagnostics = [] ↔
      (parseStatement ("x = " ++ s ++ "\n;")).diagnostics = []) ∧
    ((parseStatement ("x = " ++ s ++ "\n;")).diagnostics = [] →
      (parseStatement ("x = " ++ s ++ "\n;")).tree.withoutSpans =
        .assign .nowhere "x" (parseExpression s).tree.withoutSpans) ∧
    ((parseStatement s).diagnostics = [] →
      (∀ n ∈ (parseStatement s).tree.nodes, ¬ n.IsRecurStatement) →
      let program := "class M \x7b public static void main(String[] a) \x7b " ++ s ++ "\n\x7d \x7d"
      (parse program).diagnostics = [] ∧ (parse program).tree.main.body.withoutSpans =
        (parseStatement s).tree.withoutSpans) := by
  have hassigned : "x = " ++ s ++ "\n;" = assigned s := by
    rw [← String.toList_inj]
    simp [assigned, framed]
  have hmain : "class M \x7b public static void main(String[] a) \x7b " ++ s ++ "\n\x7d \x7d" =
      inMain s := by
    rw [← String.toList_inj]
    simp [inMain, framed]
  rw [hassigned, hmain]
  refine ⟨⟨fun h => (parseStatement_assigned h).1, diagnostics_parseExpression_of_assigned⟩,
    fun h => ?_, parse_inMain⟩
  exact (parseStatement_assigned (diagnostics_parseExpression_of_assigned h)).2

/-- An expression and a statement that end with a comment up to the end of the line. -/
theorem entry_points_agree_commented :
    (parseStatement ("x = " ++ "y[0] // first" ++ "\n;")).diagnostics = [] ∧
      (parse ("class M \x7b public static void main(String[] a) \x7b " ++ "x = y[0]; // first" ++
        "\n\x7d \x7d")).diagnostics = [] := by
  obtain ⟨⟨hassigned, -⟩, -, -⟩ := entry_points_agree "y[0] // first"
  obtain ⟨-, -, hmain⟩ := entry_points_agree "x = y[0]; // first"
  have hrecur : recurStatements (parseStatement "x = y[0]; // first").tree.nodes = [] := by
    decide +kernel
  exact ⟨hassigned (by decide +kernel),
    (hmain (by decide +kernel) ((recurStatements_eq_nil_iff _).1 hrecur)).1⟩

end MiniJava
