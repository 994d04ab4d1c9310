import MiniJava.Proofs.Lexing.Scans
import MiniJava.Proofs.Lexing.Tiling

/-!
# Cutting a text

An element is known from its own characters and the one after them, the print keyword from its tail.
So a part of a text that starts and ends between elements is read as the elements that it holds.
-/

namespace MiniJava

namespace Element

variable {c : Char} {cs rest rest' inside : List Char} {e : Element} {p : Char → Bool}

/-! ## Elements before another rest -/

/-- Nothing that an element could go on with comes up if the text ends earlier. -/
theorem any_head?_eq_false (hhead : ∀ x ∈ rest'.head?, x ∈ rest.head?)
    (h : rest.head?.any p = false) : rest'.head?.any p = false := by
  cases hfirst : rest'.head? with
  | none => rfl
  | some x =>
    rw [Option.mem_def.1 (hhead x hfirst)] at h
    exact h

theorem any_head?_dropWhile (p : Char → Bool) (cs : List Char) :
    (cs.dropWhile p).head?.any p = false := by
  have hnot := List.head?_dropWhile_not p cs
  cases hfirst : (cs.dropWhile p).head? with
  | none => rfl
  | some x =>
    rw [hfirst] at hnot
    exact hnot

theorem forall_mem_takeWhile (p : Char → Bool) (cs : List Char) : ∀ x ∈ cs.takeWhile p, p x :=
  fun x hx => List.all_eq_true.1 List.all_takeWhile x hx

theorem closeComment?_local (h : closeComment? cs = some (inside, rest)) (rest' : List Char) :
    closeComment? (inside ++ rest') = some (inside, rest') := by
  fun_induction closeComment? cs generalizing inside rest with
  | case1 cs =>
    cases h
    rfl
  | case2 c cs hopen ih =>
    obtain ⟨⟨inside', rest⟩, hclose, heq⟩ := Option.map_eq_some_iff.1 h
    cases heq
    have hnext : c = '*' → (inside' ++ rest').head? ≠ some '/' := by
      rintro rfl hslash
      have htext := eq_append_of_closeComment? hclose
      obtain ⟨body, rfl, -⟩ := first_of_closeComment? hclose
      cases body with
      | nil => cases hslash
      | cons d body =>
        obtain rfl : d = '/' := Option.some.inj hslash
        exact hopen _ rfl htext
    rw [List.cons_append, closeComment?_cons hnext, ih hclose]
    rfl
  | case3 => cases h

theorem readMark_local (h : readMark c cs = (e, rest)) (hhead : ∀ x ∈ rest'.head?, x ∈ rest.head?) :
    ∃ w, e.text = c :: w ∧ readMark c (w ++ rest') = (e, rest') := by
  have htext := text_readMark c cs
  rw [h] at htext
  unfold readMark at h
  split at h
  next cs =>
    cases h
    have hall := forall_mem_takeWhile (!Source.isBreak ·) cs
    have hstop := any_head?_eq_false hhead (any_head?_dropWhile (!Source.isBreak ·) cs)
    refine ⟨_, rfl, ?_⟩
    rw [List.cons_append, readMark, takeWhile_append_eq hall hstop, dropWhile_append_eq hall hstop]
  next cs =>
    split at h
    next inside rest hclose =>
      cases h
      refine ⟨_, rfl, ?_⟩
      rw [List.cons_append, readMark, closeComment?_local hclose rest']
    next hclose =>
      cases h
      obtain rfl : rest' = [] := List.head?_eq_none_iff.1 (Option.eq_none_iff_forall_not_mem.2
        fun x hx => by cases hhead x hx)
      refine ⟨_, rfl, ?_⟩
      rw [List.append_nil, readMark, hclose]
  next cs =>
    cases h
    exact ⟨_, rfl, rfl⟩
  next hline hblock hand =>
    have hsingle : ofSingle c = e ∧ cs = rest := by
      refine Prod.mk.inj ((Eq.trans ?_ h : (ofSingle c, cs) = (e, rest)))
      rw [ofSingle]
      cases TokenKind.ofMark? c <;> rfl
    obtain ⟨rfl, rfl⟩ := hsingle
    have hnext : ∀ d, (∀ tail, cs ≠ d :: tail) → rest'.head? ≠ some d := by
      intro d hne hd
      obtain ⟨tail, htail⟩ := List.head?_eq_some_iff.1 (Option.mem_def.1 (hhead d hd))
      exact hne tail htail
    refine ⟨[], List.append_cancel_right htext, ?_⟩
    refine readMark_eq_ofSingle (fun hc => ⟨hnext _ fun tail => hline tail hc, ?_⟩) fun hc => ?_
    · exact hnext _ fun tail => hblock tail hc
    · exact hnext _ fun tail => hand tail hc

/-- The tail of the print keyword does not go on as a word. -/
theorem any_head?_of_afterPrintln? (h : afterPrintln? cs = some rest) :
    rest.head?.any isWordChar = false := by
  unfold afterPrintln? at h
  split at h
  · split at h
    · cases h
    next hend =>
      cases h
      simpa using hend
  · cases h

theorem readWord_local {word : List Char} (hend : cs.head?.any isWordChar = false)
    (h : readWord word cs = (e, rest)) (hhead : ∀ x ∈ rest'.head?, x ∈ rest.head?)
    (hprintln : afterPrintln? rest = none → afterPrintln? rest' = none) :
    ∃ tail, e.text = word ++ tail ∧ readWord word (tail ++ rest') = (e, rest') ∧
      (tail ++ rest').head?.any isWordChar = false := by
  unfold readWord at h
  split at h
  next hsystem =>
    split at h
    next rest hafter =>
      cases h
      have hend' := any_head?_eq_false hhead (any_head?_of_afterPrintln? hafter)
      refine ⟨printlnTail, by rw [hsystem], ?_, rfl⟩
      rw [readWord, if_pos hsystem, Scans.afterPrintln?_printlnTail hend']
    next hafter =>
      cases h
      refine ⟨[], (List.append_nil _).symm, ?_, any_head?_eq_false hhead hend⟩
      rw [List.nil_append, readWord, if_pos hsystem, hprintln hafter]
  next hsystem =>
    cases h
    refine ⟨[], (List.append_nil _).symm, ?_, any_head?_eq_false hhead hend⟩
    rw [List.nil_append, readWord, if_neg hsystem]

/-- An element is read before any rest that starts as the one after it does, and before none. -/
theorem read_local (h : read c cs = (e, rest)) (hhead : ∀ x ∈ rest'.head?, x ∈ rest.head?)
    (hprintln : afterPrintln? rest = none → afterPrintln? rest' = none) :
    ∃ w, e.text = c :: w ∧ read c (w ++ rest') = (e, rest') := by
  unfold read at h
  split at h
  next hblank =>
    cases h
    have hall := forall_mem_takeWhile isBlank cs
    have hstop := any_head?_eq_false hhead (any_head?_dropWhile isBlank cs)
    refine ⟨_, rfl, ?_⟩
    rw [read, if_pos hblank, takeWhile_append_eq hall hstop, dropWhile_append_eq hall hstop]
  next hblank =>
    split at h
    next hstart =>
      have hword : IsWord (c :: cs.takeWhile isWordChar) :=
        ⟨hstart, forall_mem_takeWhile isWordChar cs⟩
      obtain ⟨tail, htext, hlocal, hstop⟩ :=
        readWord_local (any_head?_dropWhile isWordChar cs) h hhead hprintln
      refine ⟨cs.takeWhile isWordChar ++ tail, htext, ?_⟩
      rw [List.append_assoc, read_word hword _ hstop, hlocal]
    next hstart =>
      split at h
      next hdigit =>
        cases h
        have hall := forall_mem_takeWhile Char.isDigit cs
        have hstop := any_head?_eq_false hhead (any_head?_dropWhile Char.isDigit cs)
        refine ⟨_, text_ofDigits _, ?_⟩
        rw [read, if_neg hblank, if_neg hstart, if_pos hdigit, takeWhile_append_eq hall hstop,
          dropWhile_append_eq hall hstop]
      next hdigit =>
        obtain ⟨w, hw, hmark⟩ := readMark_local h hhead
        refine ⟨w, hw, ?_⟩
        rw [read, if_neg hblank, if_neg hstart, if_neg hdigit, hmark]

end Element

/-! ## Elements of a part -/

theorem elements_dot (cs : List Char) :
    elements ('.' :: cs) = ⟨.token .dot, ['.']⟩ :: elements cs := by
  rw [elements]
  rfl

theorem elements_out (cs : List Char) :
    elements ('o' :: 'u' :: 't' :: '.' :: cs) =
      ⟨.token .identifier, ['o', 'u', 't']⟩ :: elements ('.' :: cs) := by
  rw [elements]
  rfl

/-- A word that starts with `println` and goes on is read as a whole. -/
theorem text_read_println {x : Char} (hx : Element.isWordChar x) (cs : List Char) :
    (Element.read 'p' (['r', 'i', 'n', 't', 'l', 'n'] ++ x :: cs)).1.text =
      'p' :: (['r', 'i', 'n', 't', 'l', 'n'] ++ x :: cs.takeWhile Element.isWordChar) := by
  have htake : (['r', 'i', 'n', 't', 'l', 'n'] ++ x :: cs).takeWhile Element.isWordChar =
      ['r', 'i', 'n', 't', 'l', 'n'] ++ x :: cs.takeWhile Element.isWordChar := by
    rw [List.takeWhile_append_of_pos (List.all_eq_true.1 rfl), List.takeWhile_cons_of_pos hx]
  rw [Element.read, if_neg (by decide), if_pos (by decide), htake, Element.readWord,
    if_neg (by simp)]

/-- A word that goes on after the tail of the print keyword is one element with the tail's end. -/
theorem elements_printlnTail {x : Char} (hx : Element.isWordChar x) (cs : List Char) :
    ∃ e es, 8 ≤ e.text.length ∧ elements (Element.printlnTail ++ x :: cs) =
      [⟨.token .dot, ['.']⟩, ⟨.token .identifier, ['o', 'u', 't']⟩, ⟨.token .dot, ['.']⟩] ++
        e :: es := by
  let read := Element.read 'p' (['r', 'i', 'n', 't', 'l', 'n'] ++ x :: cs)
  refine ⟨read.1, elements read.2, ?_, ?_⟩
  · rw [text_read_println hx]
    simp
  · rw [Element.printlnTail]
    simp only [List.cons_append, List.nil_append]
    rw [elements_dot, elements_out, elements_dot, elements]
    rfl

/-- If a word goes on after the tail of the print keyword, then no element ends with the tail. -/
theorem printlnTail_ne_flatMap_text {x : Char} {cs : List Char} {es es' : List Element}
    (hx : Element.isWordChar x) (hes : elements (Element.printlnTail ++ x :: cs) = es ++ es') :
    es.flatMap Element.text ≠ Element.printlnTail := by
  intro htext
  have hlength := congrArg List.length htext
  obtain ⟨e, tail, he, hword⟩ := elements_printlnTail hx cs
  rw [hword] at hes
  rcases List.append_eq_append_iff.1 hes with ⟨es₂, rfl, hes₂⟩ | ⟨es₂, hes₂, -⟩
  · -- the part holds the word
    cases es₂ with
    | nil => cases htext
    | cons e₂ es₂ =>
      obtain ⟨rfl, -⟩ := List.cons.inj hes₂
      simp [Element.printlnTail] at hlength
      omega
  · -- the part ends before the word
    have hshort := congrArg (fun es => (es.flatMap Element.text).length) hes₂
    simp [Element.printlnTail] at hshort hlength
    omega

/-- If a text does not go on with the tail of the print keyword, then no part of it does. -/
theorem afterPrintln?_of_elements {cs : List Char} {es es' : List Element}
    (hes : elements cs = es ++ es') (h : Element.afterPrintln? cs = none) :
    Element.afterPrintln? (es.flatMap Element.text) = none := by
  have hcs : cs = es.flatMap Element.text ++ es'.flatMap Element.text := by
    rw [← List.flatMap_append, ← hes, flatMap_text_elements]
  cases hpart : Element.afterPrintln? (es.flatMap Element.text) with
  | none => rfl
  | some rest =>
    exfalso
    have htail := Element.eq_append_of_afterPrintln? hpart
    rw [htail, List.append_assoc] at hcs
    have hgoes : (rest ++ es'.flatMap Element.text).head?.any Element.isWordChar = true := by
      by_contra hend
      rw [hcs, Scans.afterPrintln?_printlnTail (by simpa using hend)] at h
      cases h
    cases rest with
    | cons x rest =>
      have hend := Element.any_head?_of_afterPrintln? hpart
      exact Bool.false_ne_true (hend.symm.trans hgoes)
    | nil =>
      rw [List.append_nil] at htail
      rw [List.nil_append] at hcs hgoes
      cases hnext : es'.flatMap Element.text with
      | nil => simp [hnext] at hgoes
      | cons x more =>
        rw [hnext] at hcs hgoes
        exact printlnTail_ne_flatMap_text hgoes (by rw [← hcs, hes]) htail

/-- What stands before the end of an element is read without what comes after. -/
theorem elements_of_append_left {cs : List Char} {es es' : List Element}
    (h : elements cs = es ++ es') : elements (es.flatMap Element.text) = es := by
  induction es generalizing cs with
  | nil => rw [List.flatMap_nil, elements]
  | cons e es ih =>
    obtain ⟨c, cs, rfl, hread, hes⟩ := Placed.exists_read_of_elements h
    rw [hread] at hes
    have hhead : ∀ x ∈ (es.flatMap Element.text).head?,
        x ∈ ((es ++ es').flatMap Element.text).head? := by
      intro x hx
      rw [List.flatMap_append, List.head?_append, Option.mem_def.1 hx]
      rfl
    obtain ⟨w, hw, hlocal⟩ := Element.read_local hread hhead (afterPrintln?_of_elements hes)
    rw [List.flatMap_cons, hw, List.cons_append, elements, hlocal, ih hes]

/-! ## Slices between tokens -/

namespace Placed

variable {source : String} {ps : List Placed} {ts : List Token} {first last : Token}

/-- Elements may be cut down to those from the first token up to the last one. -/
theorem exists_between_tokens (hts : ps.filterMap token? = ts) (hfirst : ts.head? = some first)
    (hlast : ts.getLast? = some last) :
    ∃ before p q inside after, ps = before ++ (inside ++ after) ∧ inside.filterMap token? = ts ∧
      inside.head? = some p ∧ p.token? = some first ∧
        inside.getLast? = some q ∧ q.token? = some last := by
  obtain ⟨front, rfl⟩ := List.getLast?_eq_some_iff.1 hlast
  obtain ⟨tail, htail⟩ := List.head?_eq_some_iff.1 hfirst
  obtain ⟨ps₁, ps₂, rfl, hfront, hsingle⟩ := List.filterMap_eq_append_iff.1 hts
  obtain ⟨ps₃, q, after, rfl, hnone, hq, -⟩ := List.filterMap_eq_cons_iff.1 hsingle
  have hbody : (ps₁ ++ (ps₃ ++ [q])).filterMap token? = first :: tail := by
    rw [List.filterMap_append, List.filterMap_append, hfront, List.filterMap_eq_nil_iff.2 hnone,
      List.filterMap_cons_some hq, List.filterMap_nil, List.nil_append, htail]
  obtain ⟨before, p, inside, hsplit, -, hp, hinside⟩ := List.filterMap_eq_cons_iff.1 hbody
  refine ⟨before, p, q, p :: inside, after, ?_, ?_, rfl, hp, ?_, hq⟩
  · rw [← List.append_assoc before, ← hsplit]
    simp
  · rw [List.filterMap_cons_some hp, hinside, htail]
  · have hends := congrArg List.getLast? hsplit
    simpa using hends.symm

/-- The text from the first of some tokens up to the last one is that of the elements between. -/
theorem exists_elements_slice {before after : List Token}
    (htokens : (tokenize source).tokens = before ++ (ts ++ after))
    (hfirst : ts.head? = some first) (hlast : ts.getLast? = some last) :
    ∃ inside : List Placed, (∀ p ∈ inside, p ∈ placedElements source) ∧
      inside.filterMap token? = ts ∧
      elements ((⟨first.span.start, last.span.stop⟩ : Span).slice source).toList =
        inside.map Placed.element := by
  obtain ⟨qs, rest, hps, -, hrest⟩ := List.filterMap_eq_append_iff.1 htokens
  obtain ⟨us, vs, rfl, hus, -⟩ := List.filterMap_eq_append_iff.1 hrest
  obtain ⟨before, p, q, inside, after, rfl, hts, hp, hptoken, hq, hqtoken⟩ :=
    exists_between_tokens hus hfirst hlast
  have hall : placedElements source = (qs ++ before) ++ (inside ++ (after ++ vs)) := by
    rw [hps]
    simp
  have hstart : first.span.start = utf8Length (texts (qs ++ before)) := by
    obtain ⟨inside, rfl⟩ := List.head?_eq_some_iff.1 hp
    rw [span_of_token? hptoken]
    exact offset_of_placedElements_eq hall
  have hstop : last.span.stop = utf8Length (texts (qs ++ before)) + utf8Length (texts inside) := by
    obtain ⟨inside, rfl⟩ := List.getLast?_eq_some_iff.1 hq
    have hlast' : placedElements source = (qs ++ before ++ inside) ++ q :: (after ++ vs) := by
      rw [hall]
      simp
    rw [span_of_token? hqtoken, stop, offset_of_placedElements_eq hlast']
    simp [texts, utf8Length_append, Nat.add_assoc]
  refine ⟨inside, fun p hp => ?_, hts, ?_⟩
  · rw [hall]
    simp [hp]
  · have htext : source.toList =
        texts (qs ++ before) ++ (texts inside ++ texts (after ++ vs)) := by
      rw [toList_eq_of_placedElements_eq hall]
      simp [texts]
    have helements := congrArg (List.map Placed.element) hall
    rw [map_element_placedElements, List.map_append] at helements
    have hright := elements_of_append_right helements
    rw [List.map_append] at hright
    rw [hstart, hstop, Span.slice_of_toList_eq htext, String.toList_ofList, texts_eq]
    exact elements_of_append_left hright

end Placed

/-- Cut between tokens, a text has the tokens that it had there, and no new error. -/
theorem tokenize_slice {source : String} {before ts after : List Token} {first last : Token}
    (htokens : (tokenize source).tokens = before ++ (ts ++ after))
    (hfirst : ts.head? = some first) (hlast : ts.getLast? = some last) {text : String}
    (htext : text = (⟨first.span.start, last.span.stop⟩ : Span).slice source) :
    (tokenize text).tokens.map Token.terminal = ts.map Token.terminal ∧
      ((tokenize source).errors = [] → (tokenize text).errors = []) := by
  obtain ⟨inside, hmem, hts, helements⟩ :=
    Placed.exists_elements_slice htokens hfirst hlast
  rw [← htext] at helements
  constructor
  · rw [terminals_tokenize, helements, List.filterMap_map, ← hts, List.map_filterMap]
    simp only [Placed.terminal_token?]
    rfl
  · rw [errors_tokenize, errors_tokenize, helements, ← map_element_placedElements]
    exact fun h e he => h e (List.map_subset _ hmem he)

end MiniJava
