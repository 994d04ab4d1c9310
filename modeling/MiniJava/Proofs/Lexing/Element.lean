import MiniJava.Proofs.Reading.Reaches

/-!
# Terminals of a text

What the grammar sees of a text depends on its elements only, not on their places.
-/

namespace MiniJava

namespace Element

/-- The terminal that an element yields. -/
def terminal? (e : Element) : Option Terminal :=
  match e.shape with
  | .token (.integer value) => some (.number value)
  | .token kind => some ⟨kind, some (String.ofList e.text)⟩
  | .oversized => some (.number 0)
  | .blank | .comment | .unrecognized | .unterminated => none

theorem of_terminal?_ident {e : Element} {n : String} (h : e.terminal? = some (.ident n)) :
    e.shape = .token .identifier ∧ String.ofList e.text = n := by
  obtain ⟨shape, text⟩ := e
  cases shape with
  | token kind => cases kind <;> simp_all [terminal?, Terminal.ident, Terminal.number]
  | _ => simp_all [terminal?, Terminal.ident, Terminal.number]

/-- Something is wrong with the element. -/
def Faulty (e : Element) : Prop :=
  match e.shape with
  | .oversized | .unrecognized | .unterminated => True
  | .token _ | .blank | .comment => False

end Element

theorem Placed.terminal_token? (p : Placed) :
    p.token?.map Token.terminal = p.element.terminal? := by
  obtain ⟨position, shape, text⟩ := p
  cases shape with
  | token kind => cases kind <;> rfl
  | _ => rfl

theorem Placed.error?_eq_none_iff (p : Placed) : p.error? = none ↔ ¬ p.element.Faulty := by
  obtain ⟨position, shape, text⟩ := p
  cases shape <;> simp [Placed.error?, Placed.fault?, Element.Faulty]

/-- The terminals of a text are those of its elements. -/
theorem terminals_tokenize (source : String) :
    (tokenize source).tokens.map Token.terminal =
      (elements source.toList).filterMap Element.terminal? := by
  rw [tokenize, List.map_filterMap, ← Placed.map_element_layOut .origin (elements source.toList),
    List.filterMap_map]
  simp only [Placed.terminal_token?]
  rfl

theorem errors_tokenize (source : String) :
    (tokenize source).errors = [] ↔ ∀ e ∈ elements source.toList, ¬ e.Faulty := by
  rw [tokenize, List.filterMap_eq_nil_iff]
  simp only [Placed.error?_eq_none_iff]
  rw [← List.forall_mem_map (f := Placed.element) (P := fun e => ¬ e.Faulty), placedElements,
    Placed.map_element_layOut]

/-! ## Words -/

/-- A character of a class that no blank is in is not blank. -/
theorem Element.not_isBlank {p : Char → Bool} {c : Char} (h : p c)
    (hp : p ' ' = false ∧ p '\t' = false ∧ p '\r' = false ∧ p '\n' = false ∧ p '\x0c' = false) :
    Element.isBlank c = false := by
  obtain ⟨hspace, htab, hreturn, hline, hfeed⟩ := hp
  cases hb : Element.isBlank c with
  | false => rfl
  | true =>
    simp only [Element.isBlank, Bool.or_eq_true, beq_iff_eq] at hb
    rcases hb with (((rfl | rfl) | rfl) | rfl) | rfl <;> simp_all

theorem takeWhile_append_eq {p : Char → Bool} {cs rest : List Char} (h : ∀ c ∈ cs, p c)
    (hrest : rest.head?.any p = false) : (cs ++ rest).takeWhile p = cs := by
  rw [List.takeWhile_append_of_pos h]
  cases rest with
  | nil => exact List.append_nil cs
  | cons c rest =>
    have hc : p c = false := hrest
    rw [List.takeWhile_cons_of_neg (by simp [hc]), List.append_nil]

theorem dropWhile_append_eq {p : Char → Bool} {cs rest : List Char} (h : ∀ c ∈ cs, p c)
    (hrest : rest.head?.any p = false) : (cs ++ rest).dropWhile p = rest := by
  rw [List.dropWhile_append_of_pos h]
  cases rest with
  | nil => rfl
  | cons c rest =>
    have hc : p c = false := hrest
    rw [List.dropWhile_cons_of_neg (by simp [hc])]

/-- The characters make up a word, which may be a keyword or a name. -/
def IsWord : List Char → Prop
  | [] => False
  | c :: cs => Element.isWordStart c ∧ ∀ x ∈ cs, Element.isWordChar x

instance : DecidablePred IsWord
  | [] => isFalse id
  | c :: cs => decidable_of_iff (Element.isWordStart c ∧ cs.all Element.isWordChar)
    (and_congr_right fun _ => List.all_eq_true)

namespace Element

theorem read_word {c : Char} {cs : List Char} (h : IsWord (c :: cs)) (rest : List Char)
    (hrest : rest.head?.any isWordChar = false) :
    read c (cs ++ rest) = readWord (c :: cs) rest := by
  rw [read, not_isBlank h.1 (by decide), if_neg (by simp), if_pos h.1,
    takeWhile_append_eq h.2 hrest, dropWhile_append_eq h.2 hrest]

/-- A word is the print keyword with its tail, or else what its own characters make it. -/
theorem readWord_eq (word cs : List Char) :
    (readWord word cs).1 = ⟨.token .printlnKw, "System.out.println".toList⟩ ∨
      readWord word cs = (⟨.token (TokenKind.ofWord (String.ofList word)), word⟩, cs) := by
  unfold readWord
  split
  next h =>
    subst h
    split
    · exact .inl rfl
    · exact .inr rfl
  next => exact .inr rfl

/-- Only the word `System` has to be looked at with what comes after it. -/
theorem readWord_of_not_println {word cs : List Char}
    (h : word = ['S', 'y', 's', 't', 'e', 'm'] → afterPrintln? cs = none) :
    readWord word cs = (⟨.token (TokenKind.ofWord (String.ofList word)), word⟩, cs) := by
  unfold readWord
  split
  next hw =>
    rw [h hw]
    subst hw
    rfl
  next => rfl

theorem spelling?_of_ofMark? {c : Char} {kind : TokenKind} (h : TokenKind.ofMark? c = some kind) :
    kind.spelling? = some (String.singleton c) := by
  simpa using List.find?_some h

/-- What an element can be: no token, or one that is written as its kind asks. -/
inductive Spelled : Element → Prop
  | ignored {e : Element} (h : ∀ kind, e.shape ≠ .token kind) : Spelled e
  | word {w : List Char} (h : IsWord w) : Spelled ⟨.token (TokenKind.ofWord (String.ofList w)), w⟩
  | number {digits : List Char} (h : decimal digits ≤ maxInteger) :
      Spelled ⟨.token (.integer (Int32.ofNat (decimal digits))), digits⟩
  | mark {kind : TokenKind} {text : String} (h : kind.spelling? = some text) :
      Spelled ⟨.token kind, text.toList⟩

theorem spelled_ofDigits (digits : List Char) : Spelled (ofDigits digits) := by
  unfold ofDigits
  split
  next h => exact .number h
  next => exact .ignored nofun

theorem spelled_readMark (c : Char) (cs : List Char) : Spelled (readMark c cs).1 := by
  unfold readMark
  split
  · exact .ignored nofun
  · split <;> exact .ignored nofun
  · exact @Spelled.mark .andAnd "&&" rfl
  · split
    next kind h =>
      rw [← String.toList_singleton]
      exact .mark (spelling?_of_ofMark? h)
    next => exact .ignored nofun

theorem spelled_read (c : Char) (cs : List Char) : Spelled (read c cs).1 := by
  unfold read
  split
  · exact .ignored nofun
  · split
    next hw =>
      rcases readWord_eq (c :: cs.takeWhile isWordChar) (cs.dropWhile isWordChar) with h | h <;>
        rw [h]
      · exact .mark rfl
      · exact .word ⟨hw, fun x hx => List.all_eq_true.1 List.all_takeWhile x hx⟩
    next =>
      split
      · exact spelled_ofDigits _
      · exact spelled_readMark c cs

theorem Spelled.isWord {e : Element} (h : e.Spelled) (hs : e.shape = .token .identifier) :
    IsWord e.text ∧ TokenKind.ofWord (String.ofList e.text) = .identifier := by
  cases h with
  | ignored h => exact absurd hs (h _)
  | word h =>
    injection hs with hs
    exact ⟨h, hs⟩
  | number h => cases hs
  | mark h =>
    injection hs with hs
    rw [hs] at h
    cases h

end Element

theorem spelled_of_mem_elements {e : Element} {cs : List Char} (h : e ∈ elements cs) :
    e.Spelled := by
  obtain ⟨c, cs', rfl⟩ := exists_read_of_mem_elements h
  exact Element.spelled_read c cs'

/-! ## Names -/

/-- An element that is as long as the text is all of it. -/
theorem eq_read_of_mem_elements {e : Element} {c : Char} {cs : List Char}
    (h : e ∈ elements (c :: cs)) (ht : e.text = c :: cs) : e = (Element.read c cs).1 := by
  rw [elements, List.mem_cons] at h
  rcases h with rfl | h
  · rfl
  · have hlen := Element.length_read_le c cs
    have htext := congrArg List.length (flatMap_text_elements (Element.read c cs).2)
    obtain ⟨before, after, hes⟩ := List.append_of_mem h
    rw [hes, List.flatMap_append, List.flatMap_cons, ht] at htext
    simp only [List.length_append, List.length_cons] at htext
    omega

theorem elements_of_isWord {cs : List Char} (h : IsWord cs) :
    elements cs = [⟨.token (TokenKind.ofWord (String.ofList cs)), cs⟩] := by
  cases cs with
  | nil => exact h.elim
  | cons c cs =>
    have hread := Element.read_word h [] rfl
    rw [List.append_nil, Element.readWord_of_not_println fun _ => rfl] at hread
    rw [elements, hread, elements]

/-- A name is a word that is no keyword. -/
theorem isName_iff (text : String) :
    IsName text ↔ IsWord text.toList ∧ TokenKind.ofWord text = .identifier := by
  rw [IsName, terminals_tokenize]
  constructor
  · intro h
    obtain ⟨e, he, hterm⟩ : ∃ e ∈ elements text.toList, e.terminal? = some (.ident text) := by
      rw [← List.mem_filterMap, h]
      exact List.mem_singleton_self _
    obtain ⟨hshape, htext⟩ := Element.of_terminal?_ident hterm
    have hall : e.text = text.toList := by rw [← htext, String.toList_ofList]
    cases hcs : text.toList with
    | nil =>
      rw [hcs, elements] at he
      cases he
    | cons c cs =>
      rw [hcs] at he hall
      obtain rfl := eq_read_of_mem_elements he hall
      rw [← htext, ← hall]
      exact (Element.spelled_read c cs).isWord hshape
  · rintro ⟨hw, hk⟩
    rw [elements_of_isWord hw, String.ofList_toList, hk]
    simp [Element.terminal?, Terminal.ident]

/-! ## Tokens -/

theorem toInt_ofNat_decimal {digits : List Char}
    (h : Element.decimal digits ≤ Element.maxInteger) :
    (Int32.ofNat (Element.decimal digits)).toInt = Element.decimal digits := by
  rw [Int32.toInt_ofNat_of_lt]
  exact Nat.lt_of_le_of_lt h (by decide)

theorem TokenKind.notEnd_of_spelling? {kind : TokenKind} {text : String}
    (h : kind.spelling? = some text) : kind ≠ .endOfInput := by
  rintro rfl
  cases h

theorem Token.Regular.of_spelling? {t : Token} (h : t.kind.spelling? = some t.lexeme) :
    t.Regular := by
  refine ⟨fun text ht => ?_, fun hk => ?_, fun value hk => ?_, ?_⟩
  · rw [h] at ht
    exact Option.some.inj ht
  · rw [hk] at h
    cases h
  · rw [hk] at h
    cases h
  · exact TokenKind.notEnd_of_spelling? h

theorem ofWord_eq_identifier_or (text : String) :
    TokenKind.ofWord text = .identifier ∨ (TokenKind.ofWord text).spelling? = some text := by
  unfold TokenKind.ofWord
  cases hf : TokenKind.words.find? fun k => k.spelling? = some text with
  | none => exact .inl rfl
  | some k => exact .inr (by simpa using List.find?_some hf)

/-- A token that a well-spelled element yields is regular. -/
theorem Placed.regular_of_token? {p : Placed} {t : Token} (ht : p.token? = some t)
    (he : p.element.Spelled) : t.Regular := by
  obtain ⟨position, e⟩ := p
  obtain ⟨kind, hkind, rfl⟩ := Option.map_eq_some_iff.1 ht
  cases he with
  | ignored h =>
    obtain ⟨shape, text⟩ := e
    cases shape with
    | oversized =>
      cases hkind
      exact ⟨nofun, nofun, fun value hv => by cases hv; decide, nofun⟩
    | token kind => exact absurd rfl (h kind)
    | _ => cases hkind
  | word h =>
    cases hkind
    rename_i w
    rcases ofWord_eq_identifier_or (String.ofList w) with hk | hk
    · refine ⟨fun text hs => ?_, fun _ => ?_, fun value hv => ?_, ?_⟩ <;> dsimp only at *
      · rw [hk] at hs
        cases hs
      · rw [isName_iff, String.toList_ofList]
        exact ⟨h, hk⟩
      · rw [hk] at hv
        cases hv
      · rw [hk]
        nofun
    · exact .of_spelling? hk
  | number h =>
    cases hkind
    refine ⟨nofun, nofun, fun value hv => ?_, nofun⟩
    cases hv
    rw [toInt_ofNat_decimal h]
    exact Int.natCast_nonneg _
  | mark h =>
    cases hkind
    refine .of_spelling? ?_
    rw [String.ofList_toList]
    exact h

theorem regular_of_mem_tokens {source : String} {t : Token} (ht : t ∈ (tokenize source).tokens) :
    t.Regular := by
  obtain ⟨p, hp, ht⟩ := List.mem_filterMap.1 ht
  exact Placed.regular_of_token? ht (spelled_of_mem_elements (Placed.element_mem_of_mem_layOut hp))

end MiniJava
