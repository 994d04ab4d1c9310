import MiniJava.Proofs.Lines.Search
import MiniJava.Proofs.Lines.Terminators

/-!
# Tables of line starts are right

A table holds the start of the text and the end of each terminator, found in the bytes of the text.
What it says of an offset or of a line is what going through the characters says, and no look at the
table or at the text fails on the way.
-/

namespace MiniJava

namespace LineTable

section

variable {t : LineTable} {offset line start : Nat}

/-- The line of an offset is the last one that starts up to there. -/
theorem lineOf_eq (hstarts : Increasing t.starts) (hline : t.starts[line]? = some start)
    (hle : start ≤ offset) (hnext : ∀ i y, line < i → t.starts[i]? = some y → offset < y) :
    t.lineOf offset = .ok line := by
  have htells := Slot.tells_search_all hstarts offset
  rw [lineOf]
  cases hslot : Slot.search t.starts offset 0 t.starts.size (Nat.le_refl _) with
  | found index =>
    rw [hslot, Slot.Tells] at htells
    rcases Nat.lt_trichotomy index line with hlt | rfl | hlt
    · have hless := hstarts hlt htells hline
      omega
    · rfl
    · exact absurd (hnext _ _ hlt htells) (Nat.lt_irrefl _)
  | gap index =>
    rw [hslot, Slot.Tells] at htells
    obtain ⟨hsize, hbelow, habove⟩ := htells
    have hlt : line < index := by
      by_contra hge
      have hmore := habove line start (Nat.le_of_not_lt hge) hline
      omega
    -- the line after `line` does not start before the offset
    have heq : index = line + 1 := by
      by_contra hne
      obtain ⟨y, hget⟩ : ∃ y, t.starts[line + 1]? = some y :=
        ⟨_, Array.getElem?_eq_getElem (by omega)⟩
      have hless := hbelow (line + 1) _ (by omega) hget
      have hmore := hnext (line + 1) _ (Nat.lt_succ_self line) hget
      omega
    rw [heq]

end

/-! ## Bytes -/

/-- The bytes of some characters. -/
def bytesOf (cs : List Char) : List UInt8 := cs.flatMap String.utf8EncodeChar

theorem toList_data_toUTF8 (source : String) :
    source.toUTF8.data.toList = bytesOf source.toList := by
  rw [String.toUTF8_eq_toByteArray, ← String.utf8Encode_toList, List.utf8Encode]
  simp [bytesOf]

/-- No byte of a character that ends no line is that of one that does. -/
theorem ne_of_mem_utf8EncodeChar {c : Char} (hc : ¬ Source.isBreak c) :
    ∀ byte ∈ String.utf8EncodeChar c, ¬ (byte = 10 ∨ byte = 13) := by
  have hne : c.val.toNat ≠ 10 ∧ c.val.toNat ≠ 13 := by
    obtain ⟨hr, hn⟩ := not_or.1 (mt (Element.isBreak_iff c).2 hc)
    exact ⟨fun h => hn (Char.ext (UInt32.toNat_inj.1 h)),
      fun h => hr (Char.ext (UInt32.toNat_inj.1 h))⟩
  have hbyte : ∀ n < 256, n ≠ 10 → n ≠ 13 → ¬ (UInt8.ofNat n = 10 ∨ UInt8.ofNat n = 13) := by
    intro n hlt h10 h13
    simp only [← UInt8.toNat_inj, UInt8.toNat_ofNat', UInt8.reduceToNat, Nat.mod_eq_of_lt hlt]
    exact not_or.2 ⟨h10, h13⟩
  simp only [String.utf8EncodeChar]
  split
  next hle => exact List.forall_mem_singleton.2 (hbyte _ (by omega) hne.1 hne.2)
  -- all bytes of longer characters are at least 128
  repeat' split
  all_goals
    simp only [List.forall_mem_cons, List.not_mem_nil, IsEmpty.forall_iff, implies_true, and_true]
    and_intros <;> exact hbyte _ (by omega) (by omega) (by omega)

theorem scan_other {offset : Nat} {starts : Array Nat} {byte : UInt8} {bytes : List UInt8}
    (h : ¬ (byte = 10 ∨ byte = 13)) :
    scan offset starts (byte :: bytes) = scan (offset + 1) starts bytes := by
  rw [scan, if_neg h]
  rintro _ rfl
  exact absurd (.inr rfl) h

theorem scan_append {w : List UInt8} (hw : ∀ byte ∈ w, ¬ (byte = 10 ∨ byte = 13)) (offset : Nat)
    (starts : Array Nat) (bytes : List UInt8) :
    scan offset starts (w ++ bytes) = scan (offset + w.length) starts bytes := by
  induction w generalizing offset with
  | nil => rfl
  | cons byte w ih =>
    obtain ⟨hbyte, hw⟩ := List.forall_mem_cons.1 hw
    rw [List.cons_append, scan_other hbyte, ih hw, List.length_cons, Nat.add_assoc,
      Nat.add_comm 1]

/-- Only a line feed starts with the byte of one. -/
theorem exists_lineFeed_of_bytesOf {cs : List Char} {bytes : List UInt8}
    (h : bytesOf cs = 10 :: bytes) : ∃ cs', cs = '\n' :: cs' := by
  cases cs with
  | nil => cases h
  | cons c cs =>
    have hfirst : 10 ∈ String.utf8EncodeChar c := by
      obtain ⟨byte, rest, hbytes⟩ := List.exists_cons_of_ne_nil (@String.utf8EncodeChar_ne_nil c)
      rw [bytesOf, List.flatMap_cons, hbytes, List.cons_append] at h
      rw [hbytes, (List.cons.inj h).1]
      exact List.mem_cons_self
    by_cases hc : Source.isBreak c
    · rcases (Element.isBreak_iff c).1 hc with rfl | rfl
      · exact absurd hfirst (by decide)
      · exact ⟨cs, rfl⟩
    · exact absurd (.inl rfl) (ne_of_mem_utf8EncodeChar hc 10 hfirst)

/-- Going through the bytes of a text finds the ends of its terminators. -/
theorem toList_scan (before : List Char) (starts : Array Nat) (cs : List Char) :
    (scan (utf8Length before) starts (bytesOf cs)).toList =
      starts.toList ++ (terminatorsFrom before none cs).map Terminator.stop := by
  induction cs using Line.split.induct Source.isBreak generalizing before starts with
  | case1 => simp [bytesOf, scan, terminatorsFrom]
  | case2 cs ih =>
    have hbytes : bytesOf ('\r' :: '\n' :: cs) = 13 :: 10 :: bytesOf cs := rfl
    have hrest := ih (before ++ ['\r', '\n']) (starts.push (utf8Length before + 2))
    have hlength : utf8Length (before ++ ['\r', '\n']) = utf8Length before + 2 := by
      simp only [utf8Length_append]
      rfl
    have hstop : (Terminator.endingWith (before ++ ['\r']) '\n').stop = utf8Length before + 2 := by
      rw [← hlength, Terminator.endingWith, List.append_assoc]
      rfl
    rw [hlength] at hrest
    rw [hbytes, scan, hrest, terminatorsFrom_pair, List.map_cons, hstop, Array.toList_push,
      List.append_assoc, List.singleton_append]
  | case3 c cs hpair hbreak ih =>
    obtain ⟨hbyte, hbytes, hsize⟩ : (c.val.toUInt8 = 10 ∨ c.val.toUInt8 = 13) ∧
        bytesOf (c :: cs) = c.val.toUInt8 :: bytesOf cs ∧ c.utf8Size = 1 := by
      rcases (Element.isBreak_iff c).1 hbreak with rfl | rfl <;> exact ⟨by decide, rfl, rfl⟩
    have hlength : utf8Length (before ++ [c]) = utf8Length before + 1 := by
      rw [utf8Length_append, utf8Length_cons, hsize, utf8Length_nil]
    have hnext : ∀ bytes, c.val.toUInt8 = 13 → bytesOf cs = 10 :: bytes → False := by
      intro bytes h13 h10
      obtain ⟨cs', rfl⟩ := exists_lineFeed_of_bytesOf h10
      refine hpair cs' ?_ rfl
      rcases (Element.isBreak_iff c).1 hbreak with rfl | rfl
      · rfl
      · exact absurd h13 (by decide)
    have hrest := ih (before ++ [c]) (starts.push (utf8Length before + 1))
    rw [hlength] at hrest
    rw [hbytes, scan.eq_3 _ _ _ _ hnext, if_pos hbyte, hrest, terminatorsFrom_break hbreak hpair,
      List.map_cons, Terminator.endingWith, hlength, Array.toList_push, List.append_assoc,
      List.singleton_append]
  | case4 c cs hpair hbreak ih =>
    have hrest := ih (before ++ [c]) starts
    have hlength : utf8Length before + (String.utf8EncodeChar c).length =
        utf8Length (before ++ [c]) := by
      rw [String.length_utf8EncodeChar, utf8Length_append]
      rfl
    have hbytes : bytesOf (c :: cs) = String.utf8EncodeChar c ++ bytesOf cs := rfl
    rw [hbytes, scan_append (ne_of_mem_utf8EncodeChar hbreak), hlength, hrest,
      terminatorsFrom_other hbreak]

/-! ## The starts of lines -/

theorem toList_starts (source : String) :
    (ofString source).starts.toList = 0 :: (terminators source).map Terminator.stop := by
  rw [ofString, toList_data_toUTF8]
  exact toList_scan [] #[0] source.toList

theorem increasing_starts (source : String) : Increasing (ofString source).starts := by
  have hpairs : (ofString source).starts.toList.Pairwise (· < ·) := by
    rw [toList_starts, List.pairwise_cons, List.pairwise_map]
    refine ⟨fun stop hstop => ?_, pairwise_terminatorsFrom _ _ _⟩
    obtain ⟨t, ht, rfl⟩ := List.mem_map.1 hstop
    exact (stop_of_mem_terminatorsFrom ht).1
  exact .of_pairwise hpairs

section

variable {source : String} {pre post a b : List Char} {offset : Nat} {p : Position}

theorem terminators_eq (h : source.toList = pre ++ post) : terminators source =
    terminatorsFrom [] post.head? pre ++ terminatorsFrom pre none post := by
  rw [terminators, h, terminatorsFrom_append, Option.or_none, List.nil_append]

/-- The line of a place starts after the last terminator before the place. -/
theorem starts_getElem? (h : source.toList = pre ++ post) :
    (ofString source).starts[(terminatorsFrom [] post.head? pre).length]? =
      some (lastStop (terminatorsFrom [] post.head? pre)) := by
  rw [← Array.getElem?_toList, toList_starts, terminators_eq h]
  rcases List.eq_nil_or_concat (terminatorsFrom [] post.head? pre) with hnil | ⟨ts, t, hlast⟩
  · rw [hnil]
    rfl
  · rw [hlast]
    simp [lastStop]

/-- The lines after the line of a place start after the place. -/
theorem lt_of_starts_getElem? (h : source.toList = pre ++ post) {i y : Nat}
    (hi : (terminatorsFrom [] post.head? pre).length < i)
    (hy : (ofString source).starts[i]? = some y) : utf8Length pre < y := by
  obtain ⟨k, rfl⟩ := Nat.exists_eq_add_of_lt hi
  rw [← Array.getElem?_toList, toList_starts, terminators_eq h, List.getElem?_cons_succ,
    List.map_append, List.getElem?_append_right (by simp), List.length_map,
    Nat.add_sub_cancel_left] at hy
  obtain ⟨t, ht, rfl⟩ := List.mem_map.1 (List.mem_of_getElem? hy)
  exact (stop_of_mem_terminatorsFrom ht).1

/-! ## Looking into the text -/

/-- Between a boundary of characters and the next one there is no other. -/
theorem eq_of_isValid (h : source.toList = pre ++ post)
    (hvalid : String.Pos.Raw.IsValid source ⟨offset⟩) (hle : utf8Length pre ≤ offset)
    (hlt : ∀ c ∈ post.head?, offset < utf8Length pre + c.utf8Size) :
    offset = utf8Length pre := by
  obtain ⟨a, b, hsplit, rfl⟩ := exists_of_isValid hvalid
  rw [h] at hsplit
  rcases List.append_eq_append_iff.1 hsplit with ⟨d, rfl, rfl⟩ | ⟨d, rfl, rfl⟩
  · cases d with
    | nil => rw [List.append_nil]
    | cons c d =>
      have hless := hlt c rfl
      rw [utf8Length_append, utf8Length_cons] at hless
      omega
  · rw [utf8Length_append] at hle ⊢
    omega

theorem characterStart_eq (h : source.toList = pre ++ post) (hle : utf8Length pre ≤ offset)
    (hlt : ∀ c ∈ post.head?, offset < utf8Length pre + c.utf8Size) :
    characterStart source offset = .ok (utf8Length pre) := by
  have hstart := String.Pos.Raw.isValid_eq_true_iff.2 (isValid_of_toList_eq h)
  fun_induction characterStart source offset with
  | case1 offset hvalid =>
    rw [eq_of_isValid h (String.Pos.Raw.isValid_eq_true_iff.1 hvalid) hle hlt]
  | case2 hvalid =>
    rw [Nat.le_zero.1 hle] at hstart
    exact absurd hstart hvalid
  | case3 before hvalid ih =>
    refine ih ?_ fun c hc => Nat.lt_of_succ_lt (hlt c hc)
    rcases Nat.lt_or_eq_of_le hle with hless | heq
    · exact Nat.le_of_lt_succ hless
    · rw [heq] at hstart
      exact absurd hstart hvalid

theorem cut_eq (h : source.toList = a ++ (b ++ post)) :
    cut source (utf8Length a) (utf8Length (a ++ b)) = .ok (String.ofList b) := by
  have hslice := Span.slice_of_toList_eq h
  rw [Span.slice] at hslice
  have hend := isValid_of_toList_eq (h.trans (List.append_assoc a b post).symm)
  rw [cut, if_pos, utf8Length_append, hslice]
  refine ⟨?_, ?_, ?_⟩
  · rw [utf8Length_append]
    exact Nat.le_add_right _ _
  · exact String.Pos.Raw.isValid_eq_true_iff.2 (isValid_of_toList_eq h)
  · exact String.Pos.Raw.isValid_eq_true_iff.2 hend

/-! ## Positions -/

/-- Looking for an offset stops before the character that the offset is in. -/
theorem exists_locate (cs : List Char) (h : p.offset ≤ offset) : ∃ pre post, cs = pre ++ post ∧
    Position.locate offset p cs = p.passAll post.head? pre ∧
    p.offset + utf8Length pre ≤ offset ∧
    ∀ c ∈ post.head?, offset < p.offset + utf8Length pre + c.utf8Size := by
  induction cs generalizing p with
  | nil => exact ⟨[], [], rfl, rfl, h, by simp⟩
  | cons c cs ih =>
    by_cases hle : p.offset + c.utf8Size ≤ offset
    · obtain ⟨pre, post, rfl, hlocate, hfrom, hto⟩ := ih (p := p.pass c cs.head?) (by simpa)
      rw [Position.offset_pass] at hfrom hto
      refine ⟨c :: pre, post, rfl, ?_, ?_, fun d hd => ?_⟩
      · rw [Position.locate, if_pos hle, hlocate, Position.passAll_cons, List.head?_append]
      · rw [utf8Length_cons]
        omega
      · have hless := hto d hd
        rw [utf8Length_cons]
        omega
    · refine ⟨[], c :: cs, rfl, ?_, h, fun d hd => ?_⟩
      · rw [Position.locate, if_neg hle]
        rfl
      · obtain rfl : c = d := Option.some.inj hd
        rw [utf8Length_nil]
        omega

/-- A position stands before the character that its offset is in. -/
theorem exists_position (source : String) (offset : Nat) : ∃ pre post, source.toList = pre ++ post ∧
    (Source.ofString source).position offset = Position.origin.passAll post.head? pre ∧
    utf8Length pre ≤ offset ∧ ∀ c ∈ post.head?, offset < utf8Length pre + c.utf8Size := by
  obtain ⟨pre, post, htext, hlocate, hfrom, hto⟩ :=
    exists_locate (p := .origin) source.toList (Nat.zero_le offset)
  simp only [Position.origin, Nat.zero_add] at hfrom hto
  exact ⟨pre, post, htext, hlocate, hfrom, hto⟩

/-- A table says of an offset what going through the characters says. -/
theorem position_ofString (source : String) (offset : Nat) :
    (ofString source).position offset = .ok ((Source.ofString source).position offset) := by
  obtain ⟨pre, post, htext, hposition, hfrom, hto⟩ := exists_position source offset
  have hsize := utf8Length_toList source
  rw [htext, utf8Length_append] at hsize
  have hstart : characterStart source (min offset source.utf8ByteSize) = .ok (utf8Length pre) := by
    refine characterStart_eq htext (by omega) fun c hc => ?_
    exact Nat.lt_of_le_of_lt (Nat.min_le_left _ _) (hto c hc)
  obtain ⟨hline, a, b, rfl, hlast, hcolumn⟩ := Position.Tallies.of_append pre post
  have hlineOf : (ofString source).lineOf (utf8Length (a ++ b)) =
      .ok (terminatorsFrom [] post.head? (a ++ b)).length := by
    refine lineOf_eq (increasing_starts source) (starts_getElem? htext) ?_
      fun i y hi hy => lt_of_starts_getElem? htext hi hy
    rw [hlast, utf8Length_append]
    exact Nat.le_add_right _ _
  have hstartOf : (ofString source).startOf (terminatorsFrom [] post.head? (a ++ b)).length =
      .ok (utf8Length a) := by
    rw [startOf, starts_getElem? htext, hlast]
    rfl
  have hcut := cut_eq (htext.trans (List.append_assoc a b post))
  have hoffset : (Position.origin.passAll post.head? (a ++ b)).offset = utf8Length (a ++ b) := by
    rw [Position.offset_passAll, Position.origin, Nat.zero_add]
  simp only [position, show (ofString source).source = source from rfl, hstart, hlineOf, hstartOf,
    hcut, bind, Except.bind, pure, Except.pure, String.length_ofList]
  rw [← hline, ← hcolumn, ← hoffset, hposition]

/-- An offset between `\r` and `\n` is still on the line that they end. -/
example : (ofString "\u00e9\r\n\rx").position 3 = .ok ⟨1, 3, 3⟩ := by decide +kernel

/-! ## Lines -/

theorem toList_starts_eq_lines (source : String) :
    (ofString source).starts.toList = Line.starts 0 (Source.ofString source).lines := by
  rw [toList_starts]
  exact (Line.starts_split [] source.toList).symm

/-- A table counts the lines of its text. -/
theorem lineCount_ofString (source : String) :
    (ofString source).lineCount = (Source.ofString source).lineCount := by
  rw [lineCount, ← Array.length_toList, toList_starts, Source.lineCount_eq, List.length_cons,
    List.length_map]

theorem flatMap_chars_lines (source : String) :
    (Source.ofString source).lines.flatMap Line.chars = source.toList :=
  Line.flatMap_chars_split _ _

/-- A line stands between the lines before it and those after it. -/
theorem exists_of_lines_getElem? {n : Nat} {l : Line}
    (h : (Source.ofString source).lines[n]? = some l) :
    ∃ ls ms, (Source.ofString source).lines = ls ++ l :: ms ∧ ls.length = n := by
  obtain ⟨hn, rfl⟩ := List.getElem?_eq_some_iff.1 h
  refine ⟨(Source.ofString source).lines.take n, (Source.ofString source).lines.drop (n + 1), ?_,
    List.length_take_of_le (Nat.le_of_lt hn)⟩
  rw [← List.drop_eq_getElem_cons hn, List.take_append_drop]

/-- A line starts where the lines before it end. -/
theorem starts_getElem?_of_lines {ls ms : List Line} {l : Line}
    (h : (Source.ofString source).lines = ls ++ l :: ms) :
    (ofString source).starts[ls.length]? = some (utf8Length (ls.flatMap Line.chars)) := by
  have hlength := Line.length_starts 0 ls
  rw [← Array.getElem?_toList, toList_starts_eq_lines, h, Line.starts_append,
    List.getElem?_append_right (Nat.le_of_eq hlength), hlength, Nat.sub_self, Nat.zero_add]
  rfl

/-- A line stops where the next one starts, or with the text. -/
theorem getD_starts_getElem?_of_lines {ls ms : List Line} {l : Line}
    (h : (Source.ofString source).lines = ls ++ l :: ms) :
    ((ofString source).starts[ls.length + 1]?).getD source.utf8ByteSize =
      utf8Length (ls.flatMap Line.chars ++ l.chars) := by
  cases ms with
  | nil =>
    have hsize : (ofString source).starts.size ≤ ls.length + 1 := by
      rw [← Array.length_toList, toList_starts_eq_lines, h, Line.length_starts, List.length_append,
        List.length_singleton]
    have htext := flatMap_chars_lines source
    rw [h, List.flatMap_append, List.flatMap_singleton] at htext
    rw [Array.getElem?_eq_none hsize, Option.getD_none, htext, utf8Length_toList]
  | cons m ms =>
    have hnext := starts_getElem?_of_lines (h.trans (List.append_assoc ls [l] (m :: ms)).symm)
    rw [List.length_append, List.length_singleton, List.flatMap_append,
      List.flatMap_singleton] at hnext
    rw [hnext, Option.getD_some]

theorem trimBreaks_chars {l : Line} (htext : ∀ c ∈ l.text, ¬ Source.isBreak c)
    (hending : ∀ c ∈ l.ending, Source.isBreak c) :
    trimBreaks (String.ofList l.chars) = String.ofList l.text := by
  have hfirst : (l.ending.reverse ++ l.text.reverse).dropWhile Source.isBreak = l.text.reverse := by
    rw [List.dropWhile_append_of_pos fun c hc => hending c (List.mem_reverse.1 hc)]
    cases hreverse : l.text.reverse with
    | nil => rfl
    | cons c cs =>
      rw [List.dropWhile_cons_of_neg (htext c (List.mem_reverse.1 (by simp [hreverse])))]
  rw [trimBreaks, String.toList_ofList, Line.chars, List.reverse_append, hfirst,
    List.reverse_reverse]

/-- A table finds what stands on each line. -/
theorem lineText?_ofString (source : String) (n : Nat) :
    (ofString source).lineText? n = .ok ((Source.ofString source).lineText? n) := by
  cases n with
  | zero => rfl
  | succ n =>
    rw [lineText?, Source.lineText?]
    cases hline : (Source.ofString source).lines[n]? with
    | none =>
      have hsize : (ofString source).starts.size ≤ n := by
        rw [← Array.length_toList, toList_starts_eq_lines, Line.length_starts]
        exact List.getElem?_eq_none_iff.1 hline
      rw [Array.getElem?_eq_none hsize]
      rfl
    | some l =>
      obtain ⟨ls, ms, hlines, rfl⟩ := exists_of_lines_getElem? hline
      have htext : source.toList = ls.flatMap Line.chars ++ (l.chars ++ ms.flatMap Line.chars) := by
        rw [← flatMap_chars_lines, hlines, List.flatMap_append, List.flatMap_cons]
      obtain ⟨hbody, hending⟩ := Line.forall_mem_split _ l (List.mem_of_getElem? hline)
      simp only [starts_getElem?_of_lines hlines, show (ofString source).source = source from rfl,
        getD_starts_getElem?_of_lines hlines, cut_eq htext, bind, Except.bind, pure, Except.pure,
        trimBreaks_chars hbody hending, Option.map_some]

/-- In a mixture of terminators, each one ends a line. -/
example : (ofString "a\r\r\nb\n\r").lineText? 3 = .ok (some "b") := by decide +kernel

end

end LineTable

end MiniJava
