import MiniJava.Report.Emitter

/-!
# Reports with and without styles

Without the escape sequences in it, a compact report with styles is the plain report, unless the
diagnostic has escape characters of its own. Both are written by themselves, and say the same.
-/

namespace MiniJava

/-! ## Escape sequences -/

namespace Style

/-- Whether a character is part of the numbers between `ESC[` and `m`. -/
def isCode (c : Char) : Bool := c.isDigit || c == ';'

/-- What follows the escape sequence at the start of a text, if there is one. -/
def afterSequence? : List Char → Option (List Char)
  | '\x1b' :: '[' :: cs =>
    match cs.dropWhile isCode with
    | 'm' :: rest => some rest
    | _ => none
  | _ => none

theorem length_lt_of_afterSequence? {cs rest : List Char} (h : afterSequence? cs = some rest) :
    rest.length < cs.length := by
  unfold afterSequence? at h
  split at h
  case h_1 cs =>
    split at h
    case h_1 hdrop =>
      have hle := (List.dropWhile_suffix isCode (l := cs)).length_le
      rw [hdrop] at hle
      cases h
      simp only [List.length_cons] at hle ⊢
      omega
    case h_2 => cases h
  case h_2 => cases h

/-- A text with its escape sequences left out. -/
def strip : List Char → List Char
  | [] => []
  | c :: cs =>
    match _h : afterSequence? (c :: cs) with
    | some rest => strip rest
    | none => c :: strip cs
termination_by cs => cs.length
decreasing_by
  · exact length_lt_of_afterSequence? ‹_›
  · exact Nat.lt_succ_self _

variable {cs t w : List Char} {c : Char}

theorem strip_cons (hc : c ≠ '\x1b') : strip (c :: cs) = c :: strip cs := by
  have hnone : afterSequence? (c :: cs) = none := by
    unfold afterSequence?
    split
    case h_1 heq => exact absurd (List.cons.inj heq).1 hc
    case h_2 => rfl
  rw [strip]
  split
  case h_1 hsome => simp [hnone] at hsome
  case h_2 => rfl

/-- Text without escape characters stays. -/
theorem strip_append (ht : '\x1b' ∉ t) : strip (t ++ cs) = t ++ strip cs := by
  induction t with
  | nil => rfl
  | cons c t ih =>
    rw [List.mem_cons, not_or] at ht
    rw [List.cons_append, strip_cons (Ne.symm ht.1), ih ht.2, List.cons_append]

/-- An escape sequence goes. -/
theorem strip_sequence (hw : ∀ c ∈ w, isCode c) :
    strip ('\x1b' :: '[' :: (w ++ 'm' :: cs)) = strip cs := by
  have hdrop : (w ++ 'm' :: cs).dropWhile isCode = 'm' :: cs := by
    rw [List.dropWhile_append_of_pos hw]
    rfl
  have hsome : afterSequence? ('\x1b' :: '[' :: (w ++ 'm' :: cs)) = some cs := by
    simp only [afterSequence?, hdrop]
  rw [strip]
  split
  case h_1 hrest =>
    rw [hsome] at hrest
    cases hrest
    rfl
  case h_2 hnone => simp [hsome] at hnone

theorem forall_mem_intercalate {P : Char → Prop} {sep : List Char} (hsep : ∀ c ∈ sep, P c) :
    ∀ {ts : List (List Char)}, (∀ t ∈ ts, ∀ c ∈ t, P c) → ∀ c ∈ sep.intercalate ts, P c
  | [], _ => by simp
  | [t], h => by simpa using h
  | t :: t' :: ts, h => by
    have hmore := forall_mem_intercalate hsep fun u hu => h u (List.mem_cons_of_mem t hu)
    rw [List.intercalate_cons_cons]
    intro c hc
    simp only [List.mem_append] at hc
    obtain (hc | hc) | hc := hc
    · exact h t List.mem_cons_self c hc
    · exact hsep c hc
    · exact hmore c hc

theorem strip_opening (s : Style) : strip (s.opening ++ cs) = strip cs := by
  have hcodes : ∀ c ∈ (";".intercalate (s.codes.map Nat.repr)).toList, isCode c = true := by
    have hsign : ∀ c ∈ ";".toList, isCode c = true := List.all_eq_true.1 (by decide)
    rw [String.toList_intercalate, List.map_map]
    refine forall_mem_intercalate hsign fun t ht c hc => ?_
    obtain ⟨n, -, rfl⟩ := List.mem_map.1 ht
    rw [Function.comp_apply, Nat.toList_repr] at hc
    rw [isCode, Nat.isDigit_of_mem_toDigits (by decide) (by decide) hc, Bool.true_or]
  simp only [opening, List.cons_append, List.append_assoc]
  exact strip_sequence hcodes

theorem strip_closing : strip (closing ++ cs) = strip cs :=
  strip_sequence (w := ['0']) (List.all_eq_true.1 (by decide))

theorem reopen_eq (ht : '\x1b' ∉ t) (opening : List Char) : reopen opening t = t := by
  fun_induction reopen opening t with
  | case1 cs => simp at ht
  | case2 c cs _ ih => rw [ih fun h => ht (List.mem_cons_of_mem c h)]
  | case3 => rfl

/-- What is put around a text to give it a style goes. -/
theorem strip_wrap (s : Style) (ht : '\x1b' ∉ t) : strip (s.wrap t ++ cs) = t ++ strip cs := by
  rw [wrap, reopen_eq ht, List.append_assoc, List.append_assoc, strip_opening, strip_append ht,
    strip_closing]

end Style

/-- A text without the escape sequences in it. -/
def withoutSequences (s : String) : String := String.ofList (Style.strip s.toList)

/-- No character of the text is the one that escape sequences start with. -/
def NoEscape (s : String) : Prop := '\x1b' ∉ s.toList
deriving Decidable

theorem Chunk.strip_chars {c : Chunk} (h : NoEscape c.text) (colored : Bool) (cs : List Char) :
    Style.strip (c.chars colored ++ cs) = c.text.toList ++ Style.strip cs := by
  obtain ⟨_ | style, text⟩ := c
  · exact Style.strip_append h
  · cases colored
    · exact Style.strip_append h
    · exact Style.strip_wrap style h

theorem Chunk.chars_false (c : Chunk) : c.chars false = c.text.toList := by
  obtain ⟨_ | style, text⟩ := c <;> rfl

namespace StyledText

theorem render_append (colored : Bool) (t u : StyledText) :
    (t ++ u : StyledText).render colored = t.render colored ++ u.render colored := by
  rw [render, List.flatMap_append, String.ofList_append]
  rfl

theorem render_flatMap {α : Type} (colored : Bool) (f : α → StyledText) (as : List α) :
    render colored (as.flatMap f) =
      String.join (as.map fun a => (f a).render colored) := by
  rw [← String.toList_inj, String.toList_join, List.flatMap_map, render, String.toList_ofList,
    List.flatMap_assoc]
  simp only [render, String.toList_ofList]

/-- Without escape sequences a row of chunks is the text in them. -/
theorem withoutSequences_render {t : StyledText} (h : ∀ c ∈ t, NoEscape c.text)
    (colored : Bool) : withoutSequences (t.render colored) = t.render false := by
  have hstrip : Style.strip (t.flatMap (Chunk.chars colored)) = t.flatMap (Chunk.chars false) := by
    induction t with
    | nil => rw [List.flatMap_nil, List.flatMap_nil, Style.strip]
    | cons c t ih =>
      rw [List.forall_mem_cons] at h
      rw [List.flatMap_cons, List.flatMap_cons, c.strip_chars h.1, c.chars_false, ih h.2]
  rw [withoutSequences, render, String.toList_ofList, hstrip, render]

end StyledText

/-! ## Texts without escape characters -/

namespace NoEscape

variable {s t : String}

theorem append (hs : NoEscape s) (ht : NoEscape t) : NoEscape (s ++ t) := by
  rw [NoEscape, String.toList_append, List.mem_append, not_or]
  exact ⟨hs, ht⟩

theorem intercalate {ts : List String} (hs : NoEscape s) (hts : ∀ t ∈ ts, NoEscape t) :
    NoEscape (s.intercalate ts) := by
  have hall : ∀ c ∈ (s.intercalate ts).toList, c ≠ '\x1b' := by
    rw [String.toList_intercalate]
    refine Style.forall_mem_intercalate (fun c hc => ne_of_mem_of_not_mem hc hs) fun u hu c hc => ?_
    obtain ⟨t, ht, rfl⟩ := List.mem_map.1 hu
    exact ne_of_mem_of_not_mem hc (hts t ht)
  exact fun h => hall _ h rfl

theorem repr (n : Nat) : NoEscape (Nat.repr n) := by
  rw [NoEscape, Nat.toList_repr]
  intro h
  have hdigit := Nat.isDigit_of_mem_toDigits (by decide) (by decide) h
  contradiction

theorem display (p : Position) : NoEscape p.display :=
  ((repr p.line).append (by decide)).append (repr p.column)

theorem name (kind : DiagnosticKind) : NoEscape kind.name := by
  cases kind <;> decide

end NoEscape

/-! ## Reports -/

namespace Diagnostic

/-- None of the texts that the diagnostic is given for its report has escape characters in it. -/
structure EscapeFree (d : Diagnostic) : Prop where
  message : NoEscape d.message
  expected : ∀ text ∈ d.expected, NoEscape text
  found : ∀ text ∈ d.found, NoEscape text
  notes : ∀ note ∈ d.notes, NoEscape note

theorem render_remarkLine_false (text : String) :
    (remarkLine text).render false = "  = " ++ text ++ "\n" := by
  rw [← String.toList_inj, StyledText.render, String.toList_ofList]
  simp [remarkLine, Chunk.plain, Chunk.styled, Chunk.chars]

/-- Where styles do not show, the styled report is the plain one. -/
theorem render_compact_false (d : Diagnostic) : d.compact.render false = d.plainReport := by
  have hhead : StyledText.render false
      [Chunk.styled .errorKind ("error[" ++ d.kind.name ++ "]"), Chunk.plain ": ",
        Chunk.styled .message d.message, Chunk.plain "\n  ", Chunk.styled .sign "-->",
        Chunk.plain (" " ++ d.position.display ++ "\n")] =
      "error[" ++ d.kind.name ++ "]: " ++ d.message ++ "\n" ++
        ("  --> " ++ d.position.display ++ "\n") := by
    rw [← String.toList_inj, StyledText.render, String.toList_ofList]
    simp [Chunk.plain, Chunk.styled, Chunk.chars]
  have hnotes : (d.notes.map fun note => "  = " ++ ("note: " ++ note) ++ "\n") =
      d.notes.map fun note => "  = note: " ++ note ++ "\n" := by
    have hsign : "  = " ++ "note: " = "  = note: " := by decide
    simp only [← String.append_assoc, hsign]
  rw [compact, StyledText.render_append, StyledText.render_append, StyledText.render_flatMap,
    StyledText.render_flatMap, hhead]
  simp only [render_remarkLine_false, hnotes]
  rw [plainReport, expectation?]
  cases d.expectedSummary? with
  | none => rfl
  | some summary => simp [String.append_assoc]

variable {d : Diagnostic}

namespace EscapeFree

theorem expectedSummary? (h : d.EscapeFree) : ∀ text ∈ d.expectedSummary?, NoEscape text := by
  have hexpected := h.expected
  intro text htext
  unfold Diagnostic.expectedSummary? at htext
  split at htext
  case h_1 => cases htext
  case h_2 only heq =>
    cases htext
    exact .append (by decide) (hexpected only (by simp [heq]))
  case h_3 first second rest heq =>
    cases htext
    have hlast : NoEscape (rest.getLastD second) :=
      hexpected _ (heq ▸ List.mem_cons_of_mem first (List.getLastD_mem_cons ..))
    have hothers : ∀ t ∈ first :: (second :: rest).dropLast, NoEscape t := by
      intro t ht
      refine hexpected t (heq ▸ ?_)
      exact (List.mem_cons.1 ht).elim (· ▸ List.mem_cons_self) fun ht =>
        List.mem_cons_of_mem first (List.dropLast_subset _ ht)
    exact ((NoEscape.append (by decide) (.intercalate (by decide) hothers)).append
      (by decide)).append hlast

theorem expectation? (h : d.EscapeFree) : ∀ text ∈ d.expectation?, NoEscape text := by
  have hfound : NoEscape (d.found.getD "nothing") := by
    cases hf : d.found with
    | none => decide
    | some text => exact h.found text (by rw [hf]; rfl)
  intro text htext
  obtain ⟨summary, hsummary, rfl⟩ := Option.map_eq_some_iff.1 htext
  exact ((h.expectedSummary? summary hsummary).append (by decide)).append hfound

theorem remarkLine {text : String} (h : NoEscape text) :
    ∀ c ∈ Diagnostic.remarkLine text, NoEscape c.text := by
  simp only [Diagnostic.remarkLine, Chunk.plain, Chunk.styled, List.forall_mem_cons]
  exact ⟨by decide, by decide, by decide, h, by decide, by simp⟩

theorem compact (h : d.EscapeFree) : ∀ c ∈ d.compact, NoEscape c.text := by
  have hhead : NoEscape ("error[" ++ d.kind.name ++ "]") :=
    (NoEscape.append (by decide) (.name d.kind)).append (by decide)
  have hposition : NoEscape (" " ++ d.position.display ++ "\n") :=
    (NoEscape.append (by decide) (.display d.position)).append (by decide)
  rw [Diagnostic.compact, List.forall_mem_append, List.forall_mem_append]
  refine ⟨⟨?_, ?_⟩, ?_⟩
  · simp only [Chunk.plain, Chunk.styled, List.forall_mem_cons]
    exact ⟨hhead, by decide, h.message, by decide, by decide, hposition, by simp⟩
  · intro c hc
    obtain ⟨text, htext, hc⟩ := List.mem_flatMap.1 hc
    exact remarkLine (h.expectation? text (Option.mem_toList.1 htext)) c hc
  · intro c hc
    obtain ⟨note, hnote, hc⟩ := List.mem_flatMap.1 hc
    exact remarkLine (.append (by decide) (h.notes note hnote)) c hc

end EscapeFree

end Diagnostic

/--
What is written with styles is what is written without, apart from escape sequences, if the
diagnostic has no escape characters of its own. Where styles do not show on the terminal there is
no difference at all.
-/
theorem Emitter.emit_exact (d : Diagnostic) :
    (d.EscapeFree → ∀ terminal terminal' : Bool,
      withoutSequences (emit ⟨true⟩ terminal d) = emit ⟨false⟩ terminal' d) ∧
      ∀ terminal', emit ⟨true⟩ false d = emit ⟨false⟩ terminal' d := by
  refine ⟨fun h terminal _ => ?_, fun _ => d.render_compact_false⟩
  exact (StyledText.withoutSequences_render h.compact terminal).trans d.render_compact_false

/-- A report with all its lines, of which the second one says that nothing was found. -/
theorem Emitter.emit_exact_unfinished :
    let d : Diagnostic :=
      { kind := .syntactic, message := "unexpected token", expected := ["`;`", "`,`"]
        notes := ["statements end with `;`"] }
    d.EscapeFree ∧ withoutSequences (emit ⟨true⟩ true d) = emit ⟨false⟩ true d := by
  intro d
  have hd : d.EscapeFree := ⟨by decide, by decide, by decide, by decide⟩
  exact ⟨hd, (emit_exact d).1 hd true true⟩

end MiniJava
