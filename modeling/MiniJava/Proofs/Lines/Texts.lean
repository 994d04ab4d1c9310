import MiniJava.Proofs.Lines.Table

/-!
# The texts of lines

The texts of the lines and the line terminators between them make up the whole text, and the column
of a position counts the characters on its line.
-/

namespace MiniJava

/-- What stands on the lines of a text, in order. -/
def Source.texts (s : Source) : List String := s.lines.map fun l => String.ofList l.text

/-- Texts with the characters of a terminator after each but the last one. -/
def rejoin (texts : List String) (ts : List Terminator) : String :=
  String.ofList (List.zipWith (fun text ending => text.toList ++ ending) texts
    (ts.map Terminator.chars ++ [[]])).flatten

/-- A table cuts a text into its lines. -/
structure LineTable.Partitions (t : LineTable) (source : String) : Prop where
  /-- There is a text for each line, and for nothing else. -/
  isSome_iff : ∀ l, ∃ answer, t.lineText? l = .ok answer ∧
    (answer.isSome ↔ 1 ≤ l ∧ l ≤ t.lineCount)
  unbroken : ∀ l text, t.lineText? l = .ok (some text) →
    '\r' ∉ text.toList ∧ '\n' ∉ text.toList
  /-- The texts, with the terminators of the source in order between them, are the source. -/
  rejoins : ∃ texts ts, texts.length = t.lineCount ∧
    (∀ l, t.lineText? (l + 1) = .ok texts[l]?) ∧
    (∀ u : Terminator, u ∈ ts ↔ u.IsIn source.toList) ∧ ts.Pairwise (fun u v => u.stop < v.stop) ∧
    ts.length + 1 = texts.length ∧ rejoin texts ts = source
  /-- A character that ends no line is found on the line and in the column of its position. -/
  shows : ∀ pre c post, source.toList = pre ++ c :: post → c ≠ '\r' → c ≠ '\n' →
    ∃ p text, t.position (utf8Length pre) = .ok p ∧ t.lineText? p.line = .ok (some text) ∧
      1 ≤ p.column ∧ text.toList[p.column - 1]? = some c

section

variable {source : String} {a b a' b' pre post : List Char} {c : Char}

/-- Two cuts at the same byte offset are the same one. -/
theorem append_inj_of_utf8Length (h : a ++ b = a' ++ b') (hlength : utf8Length a = utf8Length a') :
    a = a' ∧ b = b' := by
  have hnil : ∀ d : List Char, utf8Length d = 0 → d = [] := fun d hd => by
    by_contra hne
    exact Nat.ne_of_gt (utf8Length_pos hne) hd
  rcases List.append_eq_append_iff.1 h with ⟨d, rfl, rfl⟩ | ⟨d, rfl, rfl⟩
  all_goals
    rw [utf8Length_append] at hlength
    rw [hnil d (by omega)]
    simp

namespace Source

theorem lineText?_succ (s : Source) (n : Nat) : s.lineText? (n + 1) = s.texts[n]? := by
  rw [lineText?, texts, List.getElem?_map]

theorem length_texts (s : Source) : s.texts.length = s.lineCount := List.length_map ..

theorem isSome_lineText? (source : String) (n : Nat) :
    ((ofString source).lineText? n).isSome ↔ 1 ≤ n ∧ n ≤ (ofString source).lineCount := by
  cases n with
  | zero => simp [lineText?]
  | succ n =>
    rw [lineText?_succ, isSome_getElem?, length_texts]
    omega

theorem not_isBreak_of_lineText? {n : Nat} {text : String}
    (h : (ofString source).lineText? n = some text) : ∀ c ∈ text.toList, ¬ isBreak c := by
  cases n with
  | zero => cases h
  | succ n =>
    obtain ⟨l, hl, rfl⟩ := Option.map_eq_some_iff.1 h
    rw [String.toList_ofList]
    exact (Line.forall_mem_split _ l (List.mem_of_getElem? hl)).1

/-- The texts of all lines and all terminators make up the text. -/
theorem rejoin_texts (source : String) :
    rejoin (ofString source).texts (terminators source) = source := by
  have hendings : (terminators source).map Terminator.chars ++ [[]] =
      (ofString source).lines.map Line.ending :=
    (Line.map_ending_split fun _ => by simp).symm
  rw [rejoin, hendings, texts, List.zipWith_map, List.zipWith_self]
  simp only [String.toList_ofList]
  rw [← List.flatMap_def, show (fun l : Line => l.text ++ l.ending) = Line.chars from rfl,
    LineTable.flatMap_chars_lines, String.ofList_toList]

/-- The line of a place starts after the last terminator before the place. -/
theorem exists_lines_eq (h : source.toList = pre ++ post) :
    ∃ ls l ms, (ofString source).lines = ls ++ l :: ms ∧
      ls.length = (terminatorsFrom [] post.head? pre).length ∧
      utf8Length (ls.flatMap Line.chars) = lastStop (terminatorsFrom [] post.head? pre) := by
  have hstart := LineTable.starts_getElem? h
  obtain ⟨hlt, -⟩ := Array.getElem?_eq_some_iff.1 hstart
  rw [← Array.length_toList, LineTable.toList_starts_eq_lines, Line.length_starts] at hlt
  obtain ⟨ls, ms, hlines, hlength⟩ :=
    LineTable.exists_of_lines_getElem? (List.getElem?_eq_getElem hlt)
  have hsame := LineTable.starts_getElem?_of_lines hlines
  rw [hlength] at hsame
  exact ⟨ls, _, ms, hlines, hlength, Option.some.inj (hsame.symm.trans hstart)⟩

/-- The next line starts after the place. -/
theorem lt_of_lines_eq (h : source.toList = pre ++ post) {ls ms : List Line} {l : Line}
    (hlines : (ofString source).lines = ls ++ l :: ms) (hms : ms ≠ [])
    (hlength : ls.length = (terminatorsFrom [] post.head? pre).length) :
    utf8Length pre < utf8Length (ls.flatMap Line.chars ++ l.chars) := by
  obtain ⟨m, ms, rfl⟩ := List.exists_cons_of_ne_nil hms
  have hnext := LineTable.starts_getElem?_of_lines
    (hlines.trans (List.append_assoc ls [l] (m :: ms)).symm)
  rw [List.length_append, List.length_singleton, List.flatMap_append,
    List.flatMap_singleton] at hnext
  exact LineTable.lt_of_starts_getElem? h (by rw [hlength]; exact Nat.lt_succ_self _) hnext

/-- The line of a place is the one that goes on with what comes after the place. -/
theorem exists_line (h : source.toList = a ++ b ++ c :: post)
    (ha : lastStop (terminatorsFrom [] (some c) (a ++ b)) = utf8Length a) :
    ∃ l rest, (ofString source).lines[(terminatorsFrom [] (some c) (a ++ b)).length]? = some l ∧
      l.chars = b ++ c :: rest := by
  obtain ⟨ls, l, ms, hlines, hlength, hstart⟩ := exists_lines_eq h
  have htext := LineTable.flatMap_chars_lines source
  rw [hlines, List.flatMap_append, List.flatMap_cons, h, List.append_assoc] at htext
  obtain ⟨rfl, hrest⟩ := append_inj_of_utf8Length htext (hstart.trans ha)
  have hlonger : ms ≠ [] → utf8Length b < utf8Length l.chars := by
    intro hms
    have hlt := lt_of_lines_eq h hlines hms hlength
    rw [utf8Length_append, utf8Length_append] at hlt
    omega
  have hindex : (terminatorsFrom [] (some c) (ls.flatMap Line.chars ++ b)).length = ls.length :=
    hlength.symm
  refine ⟨l, ?_⟩
  rw [hindex, hlines, List.getElem?_append_right (Nat.le_refl _), Nat.sub_self,
    List.getElem?_cons_zero]
  rcases List.append_eq_append_iff.1 hrest with ⟨d, rfl, hms⟩ | ⟨d, hl, hd⟩
  · have hless := hlonger fun hnil => by simp [hnil] at hms
    rw [utf8Length_append] at hless
    omega
  · cases d with
    | nil =>
      have hless := hlonger fun hnil => by simp [hnil] at hd
      rw [hl, List.append_nil] at hless
      exact absurd hless (Nat.lt_irrefl _)
    | cons e d =>
      obtain ⟨rfl, -⟩ := List.cons.inj hd
      exact ⟨d, rfl, hl⟩

/-- A character that ends no line is where its position says. -/
theorem lineText?_position (h : source.toList = pre ++ c :: post) (hc : ¬ isBreak c) :
    ∃ text, (ofString source).lineText? ((ofString source).position (utf8Length pre)).line =
        some text ∧
      1 ≤ ((ofString source).position (utf8Length pre)).column ∧
      text.toList[((ofString source).position (utf8Length pre)).column - 1]? = some c := by
  have hposition := position_eq_passAll pre (c :: post)
  rw [← h] at hposition
  obtain ⟨hline, a, b, rfl, hlast, hcolumn⟩ := Position.Tallies.of_append pre (c :: post)
  obtain ⟨l, rest, hl, hchars⟩ := exists_line h hlast
  obtain ⟨hbody, hending⟩ := Line.forall_mem_split _ l (List.mem_of_getElem? hl)
  refine ⟨String.ofList l.text, ?_, ?_, ?_⟩
  · rw [ofString, hposition, hline, lineText?]
    exact congrArg (Option.map _) hl
  · rw [ofString, hposition, hcolumn]
    exact Nat.le_add_left 1 _
  · rw [ofString, hposition, hcolumn, Nat.add_sub_cancel, String.toList_ofList]
    rcases List.append_eq_append_iff.1 hchars with ⟨d, rfl, hd⟩ | ⟨d, htext, hd⟩
    · exact absurd (hending c (by rw [hd]; simp)) hc
    · cases d with
      | nil => exact absurd (hending c (by rw [List.nil_append] at hd; rw [← hd]; simp)) hc
      | cons e d =>
        obtain ⟨rfl, -⟩ := List.cons.inj hd
        rw [htext]
        simp

end Source

namespace LineTable

/-- A table cuts its text into lines, loses nothing of it and finds each character again. -/
theorem partitions_ofString (source : String) : (ofString source).Partitions source where
  isSome_iff l := by
    refine ⟨_, lineText?_ofString source l, ?_⟩
    rw [lineCount_ofString]
    exact Source.isSome_lineText? source l
  unbroken l text h := by
    rw [lineText?_ofString] at h
    have hall := Source.not_isBreak_of_lineText? (Except.ok.inj h)
    exact ⟨fun hc => hall _ hc rfl, fun hc => hall _ hc rfl⟩
  rejoins := by
    refine ⟨(Source.ofString source).texts, terminators source, ?_, fun l => ?_,
      fun u => mem_terminators_iff, pairwise_terminatorsFrom _ _ _, ?_,
      Source.rejoin_texts source⟩
    · rw [lineCount_ofString, Source.length_texts]
    · rw [lineText?_ofString, Source.lineText?_succ]
    · rw [Source.length_texts, Source.lineCount_eq]
  shows pre c post h hr hn := by
    have hc : ¬ Source.isBreak c := mt (Element.isBreak_iff c).1 (not_or.2 ⟨hr, hn⟩)
    obtain ⟨text, htext, hcolumn, hshown⟩ := Source.lineText?_position h hc
    exact ⟨_, text, position_ofString _ _, by rw [lineText?_ofString, htext], hcolumn, hshown⟩

end LineTable

end

end MiniJava
