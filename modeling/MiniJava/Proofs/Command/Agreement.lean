import MiniJava.Command
import MiniJava.Proofs.Extents.Program
import MiniJava.Proofs.Printing.RoundTrip

/-!
# What the tasks of the command have in common

All tasks read their file in the same way. Each ends with success if nothing is wrong with what it
looks at, and what is said of a program does not depend on whether it is printed or only checked.
-/

namespace MiniJava

variable {source : String}

/-! ## What is known of a text without diagnostics -/

theorem errors_eq_nil_of_clean (hclean : (parse source).diagnostics = []) :
    (tokenize source).errors = [] :=
  (diagnostics_analyze_eq_nil_iff.1 hclean).1

theorem not_isError_of_clean (hclean : (parse source).diagnostics = []) :
    ∀ n ∈ (parse source).tree.nodes, ¬ n.IsError := by
  obtain ⟨-, hfaults⟩ := diagnostics_analyze_eq_nil_iff.1 hclean
  exact fun n hn => ((wellFormed_of_faults_program hfaults).1 n hn).noError

/-- What is wrong with the words of a program is wrong with the program. -/
theorem mem_diagnostics_of_mem_errors {e : LexicalError} (he : e ∈ (tokenize source).errors) :
    e.toDiagnostic ∈ (parse source).diagnostics :=
  (diagnostics_analyze_perm Parse.program source).mem_iff.2
    (List.mem_append_left _ (List.mem_map_of_mem he))

/-- There is a report with source of every diagnostic, since its span is not reversed. -/
theorem isSome_annotated? {d : Diagnostic} (hd : d ∈ (parse source).diagnostics) (file : String)
    (page : Annotated.Page) : (d.annotated? file page).isSome := by
  have hadvances := Parse.advances_program (E := fun _ : Empty => True) source (startOf source)
  have hvalid := valid_span_of_mem_diagnostics hadvances hd
  rw [Diagnostic.annotated?, if_neg (Nat.not_lt.2 hvalid.ordered)]
  dsimp only
  split <;> rfl

theorem Analysis.log_zero (a : Analysis Program) : a.log 0 = "" := by
  have hskips : String.join (a.skips.flatMap fun _ => []) = "" := by
    rw [List.flatMap_eq_nil_iff.2 fun _ _ => rfl]
    rfl
  simpa [Analysis.log] using hskips

attribute [ext] Outcome

namespace Command

/-! ## Reading the file -/

/-- Contents that are given decide by themselves whether they are a text. -/
theorem decode_ok (bytes : ByteArray) : decode (.ok bytes) =
    (String.fromUTF8? bytes).elim (.error .invalidText) .ok := by
  simp only [decode, bind, Except.bind]
  cases String.fromUTF8? bytes <;> rfl

theorem decode_toUTF8 (source : String) : decode (.ok source.toUTF8) = .ok source := by
  have hsome : String.fromUTF8? source.toUTF8 = some source := dif_pos source.isValidUTF8
  rw [decode_ok, hsome]
  rfl

/-- What is not the UTF-8 of a text cannot be read. -/
theorem exists_decode_error {contents : Except ReadError ByteArray}
    (h : ∀ source : String, contents ≠ .ok source.toUTF8) : ∃ e, decode contents = .error e := by
  cases contents with
  | error e => exact ⟨e, rfl⟩
  | ok bytes =>
    have hnone : String.fromUTF8? bytes = none :=
      dif_neg fun hvalid => h (String.fromUTF8 bytes hvalid) rfl
    refine ⟨.invalidText, ?_⟩
    rw [decode_ok, hnone]
    rfl

/-- What the command does with a text, if it is asked to do this task. -/
def on (c : Command) (task : Task) (dumpTree : Bool) (source : String) : Outcome :=
  { c with task, dumpTree }.run (.ok source.toUTF8)

/-- The line that tells how many errors a file has. -/
def summary (c : Command) (count : Nat) : String :=
  "✗ " ++ Nat.repr count ++ " error(s) in " ++ c.file ++ "\n"

variable {c : Command} {dumpTree : Bool}

theorem run_of_decode_error {contents : Except ReadError ByteArray} {e : ReadError}
    (h : decode contents = .error e) :
    (c.run contents).success = false ∧ (c.run contents).stdout = "" := by
  rw [run, h]
  exact ⟨rfl, rfl⟩

theorem on_tokens : c.on .tokens dumpTree source =
    { c with task := .tokens, dumpTree }.runTokens source := by
  rw [on, run, decode_toUTF8]

theorem on_parse : c.on .parse dumpTree source =
    { c with task := .parse, dumpTree }.runParse source := by
  rw [on, run, decode_toUTF8]

/-- Printing a program gives its reprint. -/
theorem stdout_parse : (c.on .parse false source).stdout = reprint source := by
  rw [on_parse]
  rfl

theorem on_check : c.on .check dumpTree source =
    { c with task := .check, dumpTree }.runCheck source := by
  rw [on, run, decode_toUTF8]

/-! ## Success -/

theorem success_tokens_iff :
    (c.on .tokens dumpTree source).success = true ↔ (tokenize source).errors = [] := by
  rw [on_tokens]
  exact List.isEmpty_iff

theorem not_hasErrors_iff {α : Type} (a : Analysis α) :
    (!a.hasErrors) = true ↔ a.diagnostics = [] := by
  rw [Analysis.hasErrors, Bool.not_not, List.isEmpty_iff]

theorem success_parse_iff :
    (c.on .parse dumpTree source).success = true ↔ (MiniJava.parse source).diagnostics = [] := by
  rw [on_parse]
  exact not_hasErrors_iff _

theorem success_check_iff :
    (c.on .check dumpTree source).success = true ↔ (MiniJava.parse source).diagnostics = [] := by
  rw [on_check, ← not_hasErrors_iff, runCheck]
  cases (MiniJava.parse source).hasErrors <;> simp

/-! ## What is written -/

theorem reports_nil (c : Command) (source : String) : c.reports source [] = "" := by
  unfold reports
  split
  · exact Emitter.emitAll_nil _ _ _
  · rfl

section

variable (hquiet : c.verbosity = 0)
include hquiet

theorem stderr_parse : (c.on .parse dumpTree source).stderr =
    c.reports source (MiniJava.parse source).diagnostics := by
  rw [on_parse, runParse, hquiet, Analysis.log_zero]
  exact String.empty_append

/-- Nothing is said of a program without diagnostics. -/
theorem stderr_parse_of_clean (hclean : (MiniJava.parse source).diagnostics = []) :
    (c.on .parse dumpTree source).stderr = "" := by
  rw [stderr_parse hquiet, hclean, reports_nil]

/-- What is said of a file that is checked is what is said when it is printed, and a summary. -/
theorem stderr_check : (c.on .check dumpTree source).stderr =
    (c.on .parse dumpTree source).stderr ++
      if (MiniJava.parse source).diagnostics = [] then ""
      else c.summary (MiniJava.parse source).diagnostics.length := by
  by_cases hclean : (MiniJava.parse source).diagnostics = []
  · have herrors : (MiniJava.parse source).hasErrors = false := by
      rw [Analysis.hasErrors, hclean]
      rfl
    rw [stderr_parse_of_clean hquiet hclean, if_pos hclean, on_check, runCheck, herrors, hquiet]
    exact Analysis.log_zero _
  · have herrors : (MiniJava.parse source).hasErrors = true := by
      rw [← Bool.not_eq_false, ← Bool.not_eq_true', not_hasErrors_iff]
      exact hclean
    rw [stderr_parse hquiet, if_neg hclean, on_check, runCheck, herrors, hquiet,
      Analysis.log_zero]
    simp only [summary, if_true, String.empty_append, String.append_assoc]
    rfl

theorem stderr_check_of_clean (hclean : (MiniJava.parse source).diagnostics = []) :
    (c.on .check dumpTree source).stderr = "" := by
  rw [stderr_check hquiet, stderr_parse_of_clean hquiet hclean, if_pos hclean]
  rfl

/-- A program that is printed without errors is printed in the same way again. -/
theorem on_parse_reprint (hclean : (MiniJava.parse source).diagnostics = []) :
    c.on .parse false (reprint source) = ⟨true, reprint source, ""⟩ := by
  have herror := not_isError_of_clean hclean
  have hagain := diagnostics_parse_reprint_of_clean herror hclean
  have hstdout : (c.on .parse false (reprint source)).stdout = reprint source := by
    rw [stdout_parse]
    exact Program.print_congr (tree_parse_reprint herror)
  exact Outcome.ext (success_parse_iff.2 hagain) hstdout (stderr_parse_of_clean hquiet hagain)

end

/-- How the tasks of the command, asked for a text with these flags, go together. -/
structure Agree (c : Command) (source : String) : Prop where
  /-- No report fails, whether of a program or of its tokens. -/
  reported : ∀ d ∈ (MiniJava.parse source).diagnostics ++
    (tokenize source).errors.map LexicalError.toDiagnostic,
      (d.annotated? c.file (.ofText source)).isSome
  parse_succeeds : ∀ dumpTree, (c.on .parse dumpTree source).success = true ↔
    (MiniJava.parse source).diagnostics = []
  check_succeeds : ∀ dumpTree, (c.on .check dumpTree source).success = true ↔
    (MiniJava.parse source).diagnostics = []
  tokens_succeeds : ∀ dumpTree, (c.on .tokens dumpTree source).success = true ↔
    (tokenize source).errors = []
  tokens_of_check : ∀ dumpTree, (c.on .check dumpTree source).success = true →
    (c.on .tokens dumpTree source).success = true
  /-- A check says what is said when the file is printed, and a summary of the errors. -/
  check_stderr : ∀ dumpTree, (c.on .check dumpTree source).stderr =
    (c.on .parse dumpTree source).stderr ++
      if (MiniJava.parse source).diagnostics = [] then ""
      else c.summary (MiniJava.parse source).diagnostics.length
  silent : (MiniJava.parse source).diagnostics = [] →
    ∀ dumpTree, (c.on .check dumpTree source).stderr = "" ∧
      (c.on .parse dumpTree source).stderr = ""
  /-- What is printed without errors can be printed again, from any file, and stays as it is. -/
  stable : (c.on .parse false source).success = true →
    ∀ file, { c with file }.on .parse false (c.on .parse false source).stdout =
      ⟨true, (c.on .parse false source).stdout, ""⟩

theorem agree (hquiet : c.verbosity = 0) (source : String) : c.Agree source where
  reported d hd := by
    rcases List.mem_append.1 hd with hd | hd
    · exact isSome_annotated? hd _ _
    · obtain ⟨e, he, rfl⟩ := List.mem_map.1 hd
      exact isSome_annotated? (mem_diagnostics_of_mem_errors he) _ _
  parse_succeeds _ := success_parse_iff
  check_succeeds _ := success_check_iff
  tokens_succeeds _ := success_tokens_iff
  tokens_of_check _ hcheck :=
    success_tokens_iff.2 (errors_eq_nil_of_clean (success_check_iff.1 hcheck))
  check_stderr _ := stderr_check hquiet
  silent hclean _ := ⟨stderr_check_of_clean hquiet hclean, stderr_parse_of_clean hquiet hclean⟩
  stable hsuccess file := by
    rw [stdout_parse]
    exact on_parse_reprint (c := { c with file }) hquiet (success_parse_iff.1 hsuccess)

end Command

/--
Without `-v`, the tasks of the command agree on every file that holds a text, and every task fails
without output on any other file.
-/
theorem commands_agree (c : Command) (hquiet : c.verbosity = 0)
    (contents : Except ReadError ByteArray) :
    (∃ source : String, contents = .ok source.toUTF8 ∧ c.Agree source) ∨
      (∀ source : String, contents ≠ .ok source.toUTF8) ∧
        ∀ task dumpTree, ({ c with task, dumpTree }.run contents).success = false ∧
          ({ c with task, dumpTree }.run contents).stdout = "" := by
  by_cases htext : ∃ source : String, contents = .ok source.toUTF8
  · obtain ⟨source, rfl⟩ := htext
    exact .inl ⟨source, rfl, Command.agree hquiet source⟩
  · have hnone : ∀ source : String, contents ≠ .ok source.toUTF8 := fun source heq =>
      htext ⟨source, heq⟩
    obtain ⟨e, he⟩ := Command.exists_decode_error hnone
    exact .inr ⟨hnone, fun _ _ => Command.run_of_decode_error he⟩

/-- The tasks agree on a text that is no program. -/
theorem commands_agree_unfinished :
    (Command.mk .check "f" false false true 0).Agree "class A \x7b" := by
  obtain ⟨source, hsource, hagree⟩ | ⟨hnone, -⟩ :=
    commands_agree (.mk .check "f" false false true 0) rfl (.ok "class A \x7b".toUTF8)
  · have heq : "class A \x7b" = source :=
      String.toByteArray_inj.1 (Except.ok.inj hsource)
    exact heq ▸ hagree
  · exact absurd rfl (hnone "class A \x7b")

end MiniJava
