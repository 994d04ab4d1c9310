import MiniJava.Proofs.Lexing.Element

/-!
# Texts made of words and marks

`Scans cs ts` says that a text has the terminals `ts` and no lexical error. There is one rule for
each thing that a text may start with.
-/

namespace MiniJava

/-- The text has these terminals and no lexical error. -/
structure Scans (cs : List Char) (ts : List Terminal) : Prop where
  terminals : (elements cs).filterMap Element.terminal? = ts
  noFault : ∀ e ∈ elements cs, ¬ e.Faulty

namespace Scans

open Element

variable {c : Char} {cs rest : List Char} {ts : List Terminal}

theorem nil : Scans [] [] := by
  constructor <;> simp [elements]

/-- The first element of the text yields a terminal. -/
theorem of_read {e : Element} {t : Terminal} (hread : read c cs = (e, rest))
    (ht : e.terminal? = some t) (hf : ¬ e.Faulty) (h : Scans rest ts) :
    Scans (c :: cs) (t :: ts) := by
  constructor
  · rw [elements, hread, List.filterMap_cons_some ht, h.terminals]
  · rw [elements, hread]
    exact List.forall_mem_cons.2 ⟨hf, h.noFault⟩

/-- The first element of the text is blank. -/
theorem of_read_blank {w : List Char} (hread : read c cs = (⟨.blank, w⟩, rest))
    (h : Scans rest ts) : Scans (c :: cs) ts := by
  constructor
  · rw [elements, hread, List.filterMap_cons_none rfl, h.terminals]
  · rw [elements, hread]
    exact List.forall_mem_cons.2 ⟨id, h.noFault⟩

theorem read_blank (hc : isBlank c) (cs : List Char) :
    read c cs = (⟨.blank, c :: cs.takeWhile isBlank⟩, cs.dropWhile isBlank) := by
  rw [Element.read, if_pos hc]

/-- Blanks at the start of a text count for nothing. -/
theorem dropWhile_isBlank (h : Scans cs ts) : Scans (cs.dropWhile isBlank) ts := by
  cases cs with
  | nil => exact h
  | cons c cs =>
    by_cases hc : isBlank c
    · rw [List.dropWhile_cons_of_pos hc]
      obtain ⟨hterm, hfault⟩ := h
      rw [elements, read_blank hc] at hterm hfault
      rw [List.filterMap_cons_none rfl] at hterm
      exact ⟨hterm, (List.forall_mem_cons.1 hfault).2⟩
    · rwa [List.dropWhile_cons_of_neg hc]

theorem blank (hc : isBlank c) (h : Scans cs ts) : Scans (c :: cs) ts :=
  of_read_blank (read_blank hc cs) h.dropWhile_isBlank

theorem blanks (hcs : ∀ c ∈ cs, isBlank c) (h : Scans rest ts) : Scans (cs ++ rest) ts := by
  induction cs with
  | nil => exact h
  | cons c cs ih =>
    obtain ⟨hc, hcs⟩ := List.forall_mem_cons.1 hcs
    exact blank hc (ih hcs)

/-! ## Words -/

theorem word {w : List Char} (hw : IsWord w) (hrest : rest.head?.any isWordChar = false)
    (hnot : w = ['S', 'y', 's', 't', 'e', 'm'] → afterPrintln? rest = none) {t : Terminal}
    (ht : terminal? ⟨.token (TokenKind.ofWord (String.ofList w)), w⟩ = some t)
    (h : Scans rest ts) : Scans (w ++ rest) (t :: ts) := by
  cases w with
  | nil => exact hw.elim
  | cons c w =>
    have hread := (read_word hw rest hrest).trans (readWord_of_not_println hnot)
    exact of_read hread ht id h

/-- A name that is not the first part of the print keyword. -/
theorem ident {n : String} (hn : IsName n) (hrest : rest.head?.any isWordChar = false)
    (hnot : afterPrintln? rest = none) (h : Scans rest ts) :
    Scans (n.toList ++ rest) (.ident n :: ts) := by
  obtain ⟨hw, hk⟩ := (isName_iff n).1 hn
  refine word hw hrest (fun _ => hnot) ?_ h
  rw [String.ofList_toList, hk]
  simp [terminal?, Terminal.ident]

theorem afterPrintln?_printlnTail (hrest : rest.head?.any isWordChar = false) :
    afterPrintln? (printlnTail ++ rest) = some rest := by
  have hprefix : printlnTail.isPrefixOf? (printlnTail ++ rest) = some rest := rfl
  rw [afterPrintln?, hprefix]
  simp [hrest]

theorem println (hrest : rest.head?.any isWordChar = false) (h : Scans rest ts) :
    Scans ("System.out.println".toList ++ rest) (.word .printlnKw :: ts) := by
  have hw : IsWord ['S', 'y', 's', 't', 'e', 'm'] := by decide
  have hread := read_word hw (printlnTail ++ rest) rfl
  rw [readWord, if_pos rfl, afterPrintln?_printlnTail hrest] at hread
  exact of_read hread rfl id h

/-! ## Numbers and marks -/

theorem not_isWordStart_of_isDigit {d : Char} (h : d.isDigit) : isWordStart d = false := by
  cases hw : isWordStart d with
  | false => rfl
  | true =>
    have hw : (decide (d.val ≥ 'A'.val ∧ d.val ≤ 'Z'.val) ||
        (d.val ≥ 'a'.val && d.val ≤ 'z'.val) || d == '_') = true := hw
    simp only [Bool.or_eq_true, Bool.and_eq_true, decide_eq_true_eq, beq_iff_eq,
      UInt32.le_iff_toNat_le] at hw
    simp only [Char.isDigit, Bool.and_eq_true, decide_eq_true_eq, UInt32.le_iff_toNat_le] at h
    have hupper : '9'.val.toNat < 'A'.val.toNat := by decide
    have hlower : '9'.val.toNat < 'a'.val.toNat := by decide
    rcases hw with (hw | hw) | rfl
    · omega
    · omega
    · exact absurd h (by decide)

theorem read_digits {d : Char} {ds : List Char} (hd : ∀ x ∈ d :: ds, x.isDigit)
    (hrest : rest.head?.any Char.isDigit = false) :
    read d (ds ++ rest) = (ofDigits (d :: ds), rest) := by
  obtain ⟨hd, hds⟩ := List.forall_mem_cons.1 hd
  rw [Element.read, not_isBlank hd (by decide), not_isWordStart_of_isDigit hd, if_neg (by simp),
    if_neg (by simp), if_pos hd, takeWhile_append_eq hds hrest, dropWhile_append_eq hds hrest]

/-- Where no word can go on, no number can. -/
theorem any_isDigit_of_any_isWordChar (h : rest.head?.any isWordChar = false) :
    rest.head?.any Char.isDigit = false := by
  cases rest with
  | nil => rfl
  | cons c rest =>
    have hc : isWordChar c = false := h
    simp only [isWordChar, Char.isAlphanum, Bool.or_eq_false_iff] at hc
    exact hc.1.2

theorem decimal_toDigits (n : Nat) : decimal (Nat.toDigits 10 n) = n :=
  Nat.ofDigitChars_ten_toDigits

theorem number {value : Int32} (hv : 0 ≤ value.toInt)
    (hrest : rest.head?.any isWordChar = false) (h : Scans rest ts) :
    Scans ((Nat.repr value.toInt.natAbs).toList ++ rest) (.number value :: ts) := by
  have hdigits : ∀ x ∈ Nat.toDigits 10 value.toInt.natAbs, x.isDigit := fun x hx =>
    Nat.isDigit_of_mem_toDigits (by decide) (by decide) hx
  have hdecimal := decimal_toDigits value.toInt.natAbs
  have hmax : value.toInt.natAbs ≤ maxInteger := by
    have := value.toInt_lt
    simp only [maxInteger]
    omega
  rw [Nat.toList_repr]
  cases hds : Nat.toDigits 10 value.toInt.natAbs with
  | nil => exact absurd hds Nat.toDigits_ne_nil
  | cons d ds =>
    rw [hds] at hdigits hdecimal
    refine of_read (read_digits hdigits (any_isDigit_of_any_isWordChar hrest)) ?_ ?_ h
    · have hvalue : Int32.ofNat value.toInt.natAbs = value := by
        rw [← Int32.toInt_inj, Int32.toInt_ofNat_of_lt (Nat.lt_of_le_of_lt hmax (by decide))]
        omega
      rw [ofDigits, hdecimal, if_pos hmax, hvalue]
      rfl
    · rw [ofDigits, hdecimal, if_pos hmax]
      exact id

theorem andAnd (h : Scans rest ts) : Scans ('&' :: '&' :: rest) (.word .andAnd :: ts) :=
  of_read (e := ⟨.token .andAnd, ['&', '&']⟩) rfl rfl id h

theorem mark {kind : TokenKind} (hc : TokenKind.ofMark? c = some kind) (h : Scans rest ts) :
    Scans (c :: rest) (.word kind :: ts) := by
  have hs := spelling?_of_ofMark? hc
  have hmem : kind ∈ TokenKind.marks := List.mem_of_find?_eq_some hc
  simp only [TokenKind.marks, List.mem_cons, List.not_mem_nil, or_false] at hmem
  rcases hmem with rfl | rfl | rfl | rfl | rfl | rfl | rfl | rfl | rfl | rfl | rfl | rfl | rfl |
    rfl | rfl | rfl | rfl <;>
  · simp only [TokenKind.spelling?, Option.some.injEq] at hs
    obtain rfl : c = _ := (by simpa using congrArg String.toList hs.symm)
    exact of_read rfl rfl id h

end Scans

end MiniJava
