import MiniJava.Proofs.Lexing.Places

/-!
# A mark replaced by a blank

If a semicolon of a text is replaced by a blank, all other tokens stay what they are and where they
are: no element that ends before the semicolon depends on it, and a blank may join those after it.
-/

namespace MiniJava

/-- The characters with a blank in place of the one at a byte offset. -/
def blankOut : Nat → List Char → List Char
  | _, [] => []
  | 0, _ :: cs => ' ' :: cs
  | n + 1, c :: cs => c :: blankOut (n + 1 - c.utf8Size) cs

/-- The text with a blank in place of the character at a byte offset. -/
def blankAt (source : String) (offset : Nat) : String :=
  String.ofList (blankOut offset source.toList)

theorem blankOut_append (w : List Char) (c : Char) (cs : List Char) :
    blankOut (utf8Length w) (w ++ c :: cs) = w ++ ' ' :: cs := by
  induction w with
  | nil => rfl
  | cons d w ih =>
    have hpos := d.utf8Size_pos
    obtain ⟨n, hn⟩ : ∃ n, utf8Length (d :: w) = n + 1 :=
      Nat.exists_eq_succ_of_ne_zero (by rw [utf8Length_cons]; omega)
    have hrest : n + 1 - d.utf8Size = utf8Length w := by
      rw [← hn, utf8Length_cons]
      omega
    rw [hn, List.cons_append, blankOut, hrest, ih, List.cons_append]

/-! ## Elements before a separator -/

/-- A semicolon or a blank. -/
def IsSeparator (x : Char) : Prop := x = ';' ∨ x = ' '

/-- No word goes on with the character, and the print keyword does not either. -/
def EndsWord (x : Char) : Prop := Element.isWordChar x = false ∧ x ≠ '.'

theorem IsSeparator.endsWord {x : Char} (hx : IsSeparator x) : EndsWord x := by
  rcases hx with rfl | rfl <;> exact ⟨rfl, by decide⟩

namespace Element

variable {p : Char → Bool} {x y c : Char} {w w' cs : List Char}

theorem takeWhile_append_stop (hx : p x = false) :
    (w ++ x :: cs).takeWhile p = w.takeWhile p := by
  induction w with
  | nil => simp [hx]
  | cons d w ih => by_cases hd : p d <;> simp [hd, ih]

theorem dropWhile_append_stop (hx : p x = false) :
    (w ++ x :: cs).dropWhile p = w.dropWhile p ++ x :: cs := by
  induction w with
  | nil => simp [hx]
  | cons d w ih => by_cases hd : p d <;> simp [hd, ih]

theorem isPrefixOf?_cons_cons (d a : Char) (word w : List Char) :
    (d :: word).isPrefixOf? (a :: w) = if d == a then word.isPrefixOf? w else none := rfl

theorem isPrefixOf?_append_stop {word : List Char} (hx : x ∉ word) :
    word.isPrefixOf? (w ++ x :: cs) = (word.isPrefixOf? w).map (· ++ x :: cs) := by
  induction word generalizing w with
  | nil => rfl
  | cons d word ih =>
    rw [List.mem_cons, not_or] at hx
    obtain ⟨hd, hx⟩ := hx
    cases w with
    | nil =>
      rw [List.nil_append, isPrefixOf?_cons_cons, if_neg (by simpa using Ne.symm hd)]
      rfl
    | cons a w =>
      rw [List.cons_append, isPrefixOf?_cons_cons, isPrefixOf?_cons_cons]
      by_cases ha : d = a <;> simp [ha, ih hx]

theorem afterPrintln?_append_stop (hx : EndsWord x) :
    afterPrintln? (w ++ x :: cs) = (afterPrintln? w).map (· ++ x :: cs) := by
  have htail : (printlnTail.all fun c => isWordChar c || c == '.') = true := by decide
  have hnot : x ∉ printlnTail := fun h => by
    have hword := List.all_eq_true.1 htail x h
    rw [hx.1, Bool.false_or, beq_iff_eq] at hword
    exact hx.2 hword
  rw [afterPrintln?, afterPrintln?, isPrefixOf?_append_stop hnot]
  cases printlnTail.isPrefixOf? w with
  | none => rfl
  | some rest =>
    cases rest with
    | nil => simp [hx.1]
    | cons d rest => by_cases hd : isWordChar d <;> simp [hd]

theorem readWord_append_stop (hx : EndsWord x) (word : List Char) :
    readWord word (w ++ x :: cs) = ((readWord word w).1, (readWord word w).2 ++ x :: cs) := by
  unfold readWord
  rw [afterPrintln?_append_stop hx]
  split
  · cases afterPrintln? w <;> rfl
  · rfl

/-- What ends before a character that it could have gone on with, ends there for another reason. -/
theorem dropWhile_append_pass (hx : p x) (h : (w ++ x :: cs).dropWhile p = w' ++ x :: cs) :
    (w ++ y :: cs).dropWhile p = w' ++ y :: cs ∧
      (w ++ y :: cs).takeWhile p = (w ++ x :: cs).takeWhile p := by
  induction w with
  | nil =>
    have hlength := congrArg List.length h
    have hle := (List.dropWhile_suffix p (l := cs)).length_le
    simp [hx] at hlength
    omega
  | cons d w ih =>
    by_cases hd : p d
    · simp only [List.cons_append, List.dropWhile_cons_of_pos hd,
        List.takeWhile_cons_of_pos hd] at h ⊢
      exact ⟨(ih h).1, by rw [(ih h).2]⟩
    · simp only [List.cons_append, List.dropWhile_cons_of_neg hd,
        List.takeWhile_cons_of_neg hd] at h ⊢
      have hall : d :: w ++ x :: cs = w' ++ x :: cs := h
      obtain rfl := List.append_cancel_right hall
      exact ⟨rfl, trivial⟩

theorem closeComment?_cons (h : c = '*' → cs.head? ≠ some '/') :
    closeComment? (c :: cs) = (closeComment? cs).map fun (inside, rest) => (c :: inside, rest) := by
  rw [closeComment?.eq_def]
  split
  next heq =>
    cases heq
    exact absurd rfl (h rfl)
  next heq =>
    cases heq
    rfl
  next heq => cases heq

theorem closeComment?_append_pass (hx : IsSeparator x) (hy : IsSeparator y) {inside : List Char}
    (h : closeComment? (w ++ x :: cs) = some (inside, w' ++ x :: cs)) :
    closeComment? (w ++ y :: cs) = some (inside, w' ++ y :: cs) := by
  induction w generalizing inside with
  | nil =>
    have hstar : x ≠ '*' := by rcases hx with rfl | rfl <;> decide
    have hlength := congrArg List.length (eq_append_of_closeComment? h)
    rw [List.nil_append, closeComment?_cons fun hc => absurd hc hstar] at h
    obtain ⟨⟨inside', rest⟩, -, heq⟩ := Option.map_eq_some_iff.1 h
    cases heq
    simp at hlength
    omega
  | cons d w ih =>
    by_cases hclose : d = '*' ∧ ∃ w₁, w = '/' :: w₁
    · obtain ⟨rfl, w₁, rfl⟩ := hclose
      injection h with h
      injection h with hinside hrest
      rw [← hinside, ← List.append_cancel_right hrest]
      rfl
    · have hopen : ∀ z, IsSeparator z → d = '*' → (w ++ z :: cs).head? ≠ some '/' := by
        rintro z hz hd hslash
        cases w with
        | nil =>
          injection hslash with hslash
          rcases hz with rfl | rfl <;> cases hslash
        | cons a w₁ =>
          injection hslash with hslash
          exact hclose ⟨hd, w₁, by rw [hslash]⟩
      rw [List.cons_append, closeComment?_cons (hopen x hx)] at h
      rw [List.cons_append, closeComment?_cons (hopen y hy)]
      obtain ⟨⟨inside', rest⟩, hrest, heq⟩ := Option.map_eq_some_iff.1 h
      cases heq
      rw [ih hrest]
      rfl

/-- The element that a single character makes. -/
def ofSingle (c : Char) : Element :=
  match TokenKind.ofMark? c with
  | some kind => ⟨.token kind, [c]⟩
  | none => ⟨.unrecognized, [c]⟩

/-- The next character makes a difference only to a slash and an ampersand. -/
theorem readMark_eq_ofSingle (hslash : c = '/' → cs.head? ≠ some '/' ∧ cs.head? ≠ some '*')
    (hand : c = '&' → cs.head? ≠ some '&') : readMark c cs = (ofSingle c, cs) := by
  rw [readMark.eq_def, ofSingle]
  split
  next => exact absurd rfl (hslash rfl).1
  next => exact absurd rfl (hslash rfl).2
  next => exact absurd rfl (hand rfl)
  next => cases TokenKind.ofMark? c <;> rfl

theorem readMark_append_pass (hx : IsSeparator x) (hy : IsSeparator y) {e : Element}
    (h : readMark c (w ++ x :: cs) = (e, w' ++ x :: cs)) :
    readMark c (w ++ y :: cs) = (e, w' ++ y :: cs) := by
  have hother : ∀ z, IsSeparator z → z ≠ '/' ∧ z ≠ '*' ∧ z ≠ '&' := by
    rintro z (rfl | rfl) <;> decide
  cases w with
  | nil =>
    have hsingle : ∀ z, IsSeparator z → readMark c (z :: cs) = (ofSingle c, z :: cs) := by
      intro z hz
      obtain ⟨hslash, hstar, hand⟩ := hother z hz
      exact readMark_eq_ofSingle (by simp [hslash, hstar]) (by simp [hand])
    obtain ⟨he, hrest⟩ := Prod.mk.inj ((hsingle x hx).symm.trans h)
    have hall : [] ++ x :: cs = w' ++ x :: cs := hrest
    rw [List.nil_append, hsingle y hy, he, ← List.append_cancel_right hall, List.nil_append]
  | cons d w =>
    rw [List.cons_append] at h ⊢
    by_cases hline : c = '/' ∧ d = '/'
    · obtain ⟨rfl, rfl⟩ := hline
      have hbreak : (!Source.isBreak x) = true := by rcases hx with rfl | rfl <;> decide
      injection h with he hrest
      obtain ⟨hdrop, htake⟩ := dropWhile_append_pass (y := y) hbreak hrest
      rw [readMark, hdrop, htake, he]
    by_cases hblock : c = '/' ∧ d = '*'
    · obtain ⟨rfl, rfl⟩ := hblock
      rw [readMark] at h ⊢
      split at h
      next inside rest hclose =>
        injection h with he hrest
        rw [hrest] at hclose
        rw [closeComment?_append_pass hx hy hclose, ← he]
      next =>
        injection h with he hrest
        simp at hrest
    by_cases hand : c = '&' ∧ d = '&'
    · obtain ⟨rfl, rfl⟩ := hand
      injection h with he hrest
      rw [readMark, he, List.append_cancel_right hrest]
    · have hsingle : ∀ cs, readMark c (d :: cs) = (ofSingle c, d :: cs) := fun cs =>
        readMark_eq_ofSingle (by simp_all) (by simp_all)
      obtain ⟨he, hrest⟩ := Prod.mk.inj ((hsingle _).symm.trans h)
      have hall : d :: w ++ x :: cs = w' ++ x :: cs := hrest
      rw [hsingle, he, ← List.append_cancel_right hall, List.cons_append]

/-- An element that ends before a separator is the same before any other. -/
theorem read_append_pass (hx : IsSeparator x) (hy : IsSeparator y) (hc : isBlank c = false)
    {e : Element} (h : read c (w ++ x :: cs) = (e, w' ++ x :: cs)) :
    read c (w ++ y :: cs) = (e, w' ++ y :: cs) := by
  have hword : ∀ z, IsSeparator z → isWordChar z = false := by
    rintro z (rfl | rfl) <;> decide
  have hdigit : ∀ z, IsSeparator z → z.isDigit = false := by
    rintro z (rfl | rfl) <;> decide
  unfold read at h ⊢
  rw [hc, if_neg (by simp)] at h ⊢
  split at h
  next hstart =>
    rw [takeWhile_append_stop (hword x hx), dropWhile_append_stop (hword x hx),
      readWord_append_stop hx.endsWord] at h
    rw [if_pos hstart, takeWhile_append_stop (hword y hy), dropWhile_append_stop (hword y hy),
      readWord_append_stop hy.endsWord]
    injection h with he hrest
    rw [he, List.append_cancel_right hrest]
  next hstart =>
    rw [if_neg hstart]
    split at h
    next hnumber =>
      rw [takeWhile_append_stop (hdigit x hx), dropWhile_append_stop (hdigit x hx)] at h
      rw [if_pos hnumber, takeWhile_append_stop (hdigit y hy), dropWhile_append_stop (hdigit y hy)]
      injection h with he hrest
      rw [he, List.append_cancel_right hrest]
    next hnumber =>
      rw [if_neg hnumber]
      exact readMark_append_pass hx hy h

/-- A blank is read together with the blanks after it. -/
theorem blank_of_read {e : Element} {rest : List Char} (hc : isBlank c)
    (h : read c cs = (e, rest)) : e.shape = .blank ∧ ∀ d ∈ e.text, isBlank d := by
  rw [read, if_pos hc, Prod.mk.injEq] at h
  obtain ⟨rfl, -⟩ := h
  exact ⟨rfl, List.forall_mem_cons.2 ⟨hc, fun d hd => List.all_eq_true.1 List.all_takeWhile d hd⟩⟩

end Element

/-! ## Positions -/

namespace Position

theorem pass_congr (p : Position) (c : Char) {next next' : Option Char}
    (h : next = some '\n' ↔ next' = some '\n') : p.pass c next = p.pass c next' := by
  by_cases hn : next = some '\n'
  · rw [hn, h.1 hn]
  · have hn' : next' ≠ some '\n' := mt h.2 hn
    simp [pass, endsLine, hn, hn']

/-- A following character matters only if it is a line feed. -/
theorem passAll_congr (p : Position) {next next' : Option Char}
    (h : next = some '\n' ↔ next' = some '\n') (cs : List Char) :
    p.passAll next cs = p.passAll next' cs := by
  induction cs generalizing p with
  | nil => rfl
  | cons c cs ih =>
    rw [passAll_cons, passAll_cons, ih]
    cases cs with
    | nil => rw [List.head?_nil, Option.none_or, Option.none_or, pass_congr p c h]
    | cons d cs => rfl

end Position

/-! ## Rows of elements -/

/-- The element of a semicolon. -/
def Element.semicolon : Element := ⟨.token .semicolon, [';']⟩

/-- The element of a single blank. -/
def Element.space : Element := ⟨.blank, [' ']⟩

namespace Placed

section

variable {β : Type} {g : Placed → Option β} {cs w : List Char} {es₁ es₂ : List Element}

theorem firstChar?_elements (cs : List Char) : firstChar? (elements cs) = cs.head? := by
  rw [firstChar?_eq, flatMap_text_elements]

/-- The first element of a text is read first, and the others from the rest. -/
theorem exists_read_of_elements {e : Element} {es : List Element} (h : elements cs = e :: es) :
    ∃ c cs', cs = c :: cs' ∧ Element.read c cs' = (e, es.flatMap Element.text) ∧
      elements (Element.read c cs').2 = es := by
  cases cs with
  | nil =>
    rw [elements] at h
    cases h
  | cons c cs =>
    rw [elements] at h
    obtain ⟨he, hes⟩ := List.cons.inj h
    have hrest := flatMap_text_elements (Element.read c cs).2
    rw [hes] at hrest
    exact ⟨c, cs, rfl, Prod.ext he hrest.symm, hes⟩

/-- What is read before a semicolon, if it is no blank, is read before a blank as well. -/
theorem elements_of_read_semicolon {c : Char} {e : Element} {w' : List Char}
    (hc : Element.isBlank c = false) (h : Element.read c cs = (e, w ++ ';' :: w')) :
    elements (e.text ++ (w ++ ' ' :: w')) = e :: elements (w ++ ' ' :: w') := by
  have htext := Element.text_read c cs
  have hne := Element.read_text_ne_nil c cs
  rw [h] at htext hne
  obtain ⟨d, v, hv⟩ := List.exists_cons_of_ne_nil hne
  dsimp only at hv
  rw [hv, List.cons_append, List.cons.injEq] at htext
  obtain ⟨rfl, rfl⟩ := htext
  rw [← List.append_assoc] at h
  have hlocal := Element.read_append_pass (.inl rfl) (.inr rfl) hc h
  rw [List.append_assoc] at hlocal
  rw [hv, List.cons_append, elements, hlocal]

variable (hg : ∀ p : Placed, p.element.shape = .blank → g p = none)

include hg

/-- Blanks are found nowhere, so that a blank at the start of a text may be passed by itself. -/
theorem filterMap_layOut_blank (pos : Position) {c : Char} (hc : Element.isBlank c) :
    (layOut pos (elements (c :: cs))).filterMap g =
      (layOut (pos.pass c cs.head?) (elements cs)).filterMap g := by
  have hblank : ∀ (pos : Position) (text : List Char), g ⟨pos, ⟨.blank, text⟩⟩ = none :=
    fun _ _ => hg _ rfl
  rw [elements, Element.read, if_pos hc, layOut, List.filterMap_cons_none (hblank _ _),
    firstChar?_elements, Position.passAll_cons, ← List.head?_append, List.takeWhile_append_dropWhile]
  cases cs with
  | nil => rfl
  | cons d cs =>
    by_cases hd : Element.isBlank d
    · rw [List.takeWhile_cons_of_pos hd, List.dropWhile_cons_of_pos hd, elements, Element.read,
        if_pos hd, layOut, List.filterMap_cons_none (hblank _ _), firstChar?_elements]
    · rw [List.takeWhile_cons_of_neg hd, List.dropWhile_cons_of_neg hd]
      rfl

theorem filterMap_layOut_blanks (pos : Position) (hw : ∀ c ∈ w, Element.isBlank c) :
    (layOut pos (elements (w ++ cs))).filterMap g =
      (layOut (pos.passAll cs.head? w) (elements cs)).filterMap g := by
  induction w generalizing pos with
  | nil => rfl
  | cons c w ih =>
    obtain ⟨hc, hw⟩ := List.forall_mem_cons.1 hw
    rw [List.cons_append, filterMap_layOut_blank hg pos hc, ih _ hw, Position.passAll_cons,
      List.head?_append]

/-- In a text with a blank for a semicolon, everything else is found where it was. -/
theorem filterMap_layOut_space (pos : Position)
    (h : elements cs = es₁ ++ .semicolon :: es₂) :
    (layOut pos (elements (es₁.flatMap Element.text ++ ' ' :: es₂.flatMap Element.text))).filterMap
        g = (layOut pos (es₁ ++ .space :: es₂)).filterMap g := by
  induction es₁ generalizing cs pos with
  | nil =>
    obtain ⟨c, cs, rfl, hread, hes⟩ := exists_read_of_elements h
    have hspace : g ⟨pos, .space⟩ = none := hg _ rfl
    rw [List.flatMap_nil, List.nil_append, List.nil_append,
      filterMap_layOut_blank hg pos (by decide), layOut, List.filterMap_cons_none hspace, ← hes,
      firstChar?_elements, flatMap_text_elements]
    rfl
  | cons e es₁ ih =>
    rw [List.cons_append] at h
    obtain ⟨c, cs, rfl, hread, hes⟩ := exists_read_of_elements h
    have hfirst := firstChar?_eq (es₁ ++ Element.space :: es₂)
    rw [List.flatMap_append, List.flatMap_cons] at hread hfirst
    have hread' : Element.read c cs =
      (e, es₁.flatMap Element.text ++ ';' :: es₂.flatMap Element.text) := hread
    rw [List.flatMap_cons, List.append_assoc, List.cons_append, layOut, hfirst]
    by_cases hc : Element.isBlank c
    · -- the blank may join what comes before the semicolon
      obtain ⟨hshape, hblank⟩ := Element.blank_of_read hc hread
      rw [List.filterMap_cons_none (hg ⟨pos, e⟩ hshape), filterMap_layOut_blanks hg pos hblank,
        ih _ hes]
      rfl
    · rw [elements_of_read_semicolon (by simpa using hc) hread', layOut, firstChar?_elements,
        List.filterMap_cons, List.filterMap_cons, ih _ hes]
      rfl

end

/-- In a row of elements, a semicolon and a blank take the same place. -/
theorem exists_layOut_semicolon_space (pos : Position) (es₁ es₂ : List Element) :
    ∃ before place after,
      layOut pos (es₁ ++ .semicolon :: es₂) = before ++ ⟨place, .semicolon⟩ :: after ∧
      layOut pos (es₁ ++ .space :: es₂) = before ++ ⟨place, .space⟩ :: after ∧
      before.length = es₁.length ∧
      place.offset = pos.offset + utf8Length (es₁.flatMap Element.text) := by
  induction es₁ generalizing pos with
  | nil =>
    have hpass : pos.passAll (firstChar? es₂) Element.semicolon.text =
        pos.passAll (firstChar? es₂) Element.space.text := by
      simp [Element.semicolon, Element.space, Position.passAll, Position.pass, Position.endsLine]
      rfl
    refine ⟨[], pos, _, rfl, ?_, rfl, rfl⟩
    rw [hpass]
    rfl
  | cons e es₁ ih =>
    have hpass : pos.passAll (firstChar? (es₁ ++ .semicolon :: es₂)) e.text =
        pos.passAll (firstChar? (es₁ ++ .space :: es₂)) e.text := by
      apply Position.passAll_congr
      rw [firstChar?_eq, firstChar?_eq, List.flatMap_append, List.flatMap_append]
      cases es₁.flatMap Element.text with
      | nil => simp [Element.semicolon, Element.space]
      | cons => rfl
    obtain ⟨before, place, after, hsemicolon, hspace, hlength, hoffset⟩ :=
      ih (pos.passAll (firstChar? (es₁ ++ .semicolon :: es₂)) e.text)
    refine ⟨⟨pos, e⟩ :: before, place, after, ?_, ?_, ?_, ?_⟩
    · rw [List.cons_append, layOut, hsemicolon, List.cons_append]
    · rw [List.cons_append, layOut, ← hpass, hspace, List.cons_append]
    · rw [List.length_cons, List.length_cons, hlength]
    · rw [hoffset, Position.offset_passAll, List.flatMap_cons, utf8Length_append, Nat.add_assoc]

end Placed

theorem element_of_semicolon {p : Placed} {t : Token} (hp : p.element.Spelled)
    (ht : p.token? = some t) (hkind : t.kind = .semicolon) : p.element = .semicolon := by
  obtain ⟨position, e⟩ := p
  obtain ⟨kind, hkind', rfl⟩ := Option.map_eq_some_iff.1 ht
  obtain rfl : kind = .semicolon := hkind
  have htext : ∀ text : String, TokenKind.semicolon.spelling? = some text →
      text.toList = [';'] := by
    intro text h
    cases h
    rfl
  cases hp with
  | ignored h =>
    obtain ⟨shape, text⟩ := e
    cases shape with
    | token kind => exact absurd rfl (h kind)
    | _ => cases hkind'
  | @word w h =>
    have hw : TokenKind.ofWord (String.ofList w) = .semicolon := Option.some.inj hkind'
    rcases ofWord_eq_identifier_or (String.ofList w) with hk | hk
    · rw [hw] at hk
      cases hk
    · rw [hw] at hk
      have hlist := htext _ hk
      rw [String.toList_ofList] at hlist
      rw [hlist] at hw
      dsimp only
      rw [hlist, hw]
      rfl
  | number h => cases hkind'
  | @mark kind text h =>
    obtain rfl : kind = .semicolon := Option.some.inj hkind'
    dsimp only
    rw [htext text h]
    rfl

theorem map_element_placedElements (source : String) :
    (placedElements source).map Placed.element = elements source.toList :=
  Placed.map_element_layOut _ _

/-- Where a semicolon is replaced by a blank, everything else is found where it was. -/
theorem filterMap_placedElements_blankAt {β : Type} {g : Placed → Option β} {source : String}
    {before after : List Placed} {p : Placed}
    (hplaced : placedElements source = before ++ p :: after) (hp : p.element = .semicolon)
    (hg : ∀ p : Placed, p.element.shape = .blank → g p = none) :
    (placedElements (blankAt source p.position.offset)).filterMap g =
      (before ++ after).filterMap g := by
  have helements : elements source.toList =
      before.map Placed.element ++ .semicolon :: after.map Placed.element := by
    rw [← map_element_placedElements, hplaced, List.map_append, List.map_cons, hp]
  generalize hes₁ : before.map Placed.element = es₁ at helements
  generalize after.map Placed.element = es₂ at helements
  obtain ⟨before', place, after', hsemicolon, hspace, hlength, hoffset⟩ :=
    Placed.exists_layOut_semicolon_space .origin es₁ es₂
  rw [placedElements, helements, hsemicolon] at hplaced
  rw [← hes₁, List.length_map] at hlength
  obtain ⟨rfl, hcons⟩ := List.append_inj hplaced hlength
  obtain ⟨rfl, rfl⟩ := List.cons.inj hcons
  have htext : (blankAt source place.offset).toList =
      es₁.flatMap Element.text ++ ' ' :: es₂.flatMap Element.text := by
    have hall := flatMap_text_elements source.toList
    rw [helements, List.flatMap_append, List.flatMap_cons] at hall
    have hoffset' : place.offset = utf8Length (es₁.flatMap Element.text) :=
      hoffset.trans (Nat.zero_add _)
    rw [blankAt, String.toList_ofList, hoffset', ← hall]
    exact blankOut_append _ _ _
  have hnone : g ⟨place, .space⟩ = none := hg _ rfl
  rw [placedElements, htext, Placed.filterMap_layOut_space hg _ helements, hspace,
    List.filterMap_append, List.filterMap_cons_none hnone, ← List.filterMap_append]

/-- A semicolon is replaced by a blank: every other token and every lexical error stays as it is. -/
theorem tokenize_blankAt {source : String} {before after : List Token} {semicolon : Token}
    (htokens : (tokenize source).tokens = before ++ semicolon :: after)
    (hkind : semicolon.kind = .semicolon) :
    (tokenize (blankAt source semicolon.span.start)).tokens = before ++ after ∧
      (tokenize (blankAt source semicolon.span.start)).errors = (tokenize source).errors := by
  obtain ⟨placed, placed', hplaced, hbefore, hrest⟩ := List.filterMap_eq_append_iff.1 htokens
  obtain ⟨ignored, p, later, rfl, hignored, ht, hafter⟩ := List.filterMap_eq_cons_iff.1 hrest
  rw [← List.append_assoc] at hplaced
  have hp : p.element = .semicolon := by
    have hmem : p.element ∈ elements source.toList := by
      rw [← map_element_placedElements, hplaced]
      simp
    exact element_of_semicolon (spelled_of_mem_elements hmem) ht hkind
  rw [Placed.span_of_token? ht, tokenize, tokenize]
  constructor
  · dsimp only
    rw [filterMap_placedElements_blankAt hplaced hp fun p hp => by
        simp [Placed.token?, Placed.kind?, hp],
      List.filterMap_append, List.filterMap_append, hbefore, List.filterMap_eq_nil_iff.2 hignored,
      hafter, List.append_nil]
  · have hnone : Placed.error? p = none := by simp [Placed.error?, Placed.fault?, hp, Element.semicolon]
    dsimp only
    rw [filterMap_placedElements_blankAt hplaced hp fun p hp => by
      simp [Placed.error?, Placed.fault?, hp], hplaced]
    simp only [List.filterMap_append, List.filterMap_cons_none hnone]

end MiniJava
