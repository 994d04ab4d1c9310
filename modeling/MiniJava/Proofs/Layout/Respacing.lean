import MiniJava.Proofs.Layout.Independence
import MiniJava.Proofs.Lexing.Munch
import MiniJava.Proofs.Lexing.Seam

/-!
# Words with single spaces between them

The texts of the tokens, with single spaces between them, are read as the same tokens again,
whatever stood between them before. All that can be wrong with them is that a number is out of
range.
-/

namespace MiniJava

/-- The texts of the tokens of a text, with single spaces between them. -/
def respaced (source : String) : String :=
  " ".intercalate ((tokenize source).tokens.map Token.lexeme)

/-- The lexical error of a number that is out of range. -/
def Token.rangeError? (k : Token) : Option LexicalError :=
  match k.kind with
  | .integer _ =>
    if Element.decimal k.lexeme.toList ≤ Element.maxInteger then none
    else some ⟨.integerOutOfRange k.lexeme, k.span, k.position⟩
  | _ => none

/-! ## Words of elements -/

/-- The kind and the text of the token that an element yields. -/
def Element.word? (e : Element) : Option (TokenKind × String) :=
  (Placed.kind? ⟨.origin, e⟩).map fun kind => (kind, String.ofList e.text)

section

variable {cs : List Char} {es : List Element} {e : Element} {source : String}

theorem Element.word?_of_isSkipped (h : e.isSkipped) : e.word? = none := by
  obtain ⟨shape, text⟩ := e
  rcases of_decide_eq_true h with rfl | rfl <;> rfl

/-- An element that yields a token is nothing else. -/
theorem Element.shape_of_word? (h : e.word?.isSome) :
    (∃ kind, e.shape = .token kind) ∨ e.shape = .oversized := by
  obtain ⟨shape, text⟩ := e
  cases shape with
  | token kind => exact .inl ⟨kind, rfl⟩
  | oversized => exact .inr rfl
  | _ => cases h

theorem Placed.map_word_token? (p : Placed) :
    p.token?.map (fun k => (k.kind, k.lexeme)) = p.element.word? := by
  rw [token?, Option.map_map]
  rfl

theorem wordsOf_eq (source : String) :
    wordsOf source = (elements source.toList).filterMap Element.word? := by
  rw [← map_element_placedElements, List.filterMap_map, wordsOf, tokenize, List.map_filterMap]
  exact congrArg (fun g => (placedElements source).filterMap g)
    (funext Placed.map_word_token?)

/-- The texts of words are those of the elements that yield them. -/
theorem map_filterMap_word? (es : List Element) :
    (es.filterMap Element.word?).map (fun w => w.2.toList) =
      (es.filter fun e => e.word?.isSome).map Element.text := by
  induction es with
  | nil => rfl
  | cons e es ih =>
    cases hword : e.word? with
    | none => rw [List.filterMap_cons_none hword, ih, List.filter_cons_of_neg (by simp [hword])]
    | some w =>
      obtain ⟨kind, -, rfl⟩ := Option.map_eq_some_iff.1 hword
      rw [List.filterMap_cons_some hword, List.map_cons, ih,
        List.filter_cons_of_pos (by simp [hword]), List.map_cons, String.toList_ofList]

/-! ## Elements by themselves -/

/-- An element of a text is the only element of its own text. -/
theorem elements_text_of_mem (h : e ∈ elements cs) : elements e.text = [e] := by
  obtain ⟨es₁, es₂, hsplit⟩ := List.append_of_mem h
  have hright := elements_of_append_right hsplit
  have hleft := elements_of_append_left (hright.trans (List.singleton_append (l := es₂)).symm)
  rwa [List.flatMap_singleton] at hleft

/-- With spaces between them, words stay what they are. -/
theorem significant_intercalate (h : ∀ e ∈ es, elements e.text = [e] ∧ e.word?.isSome) :
    significant ([' '].intercalate (es.map Element.text)) = es := by
  have hkept : ∀ e ∈ es, significant e.text = [e] := by
    intro e he
    obtain ⟨hself, hword⟩ := h e he
    have hskip : ¬ e.isSkipped := fun hskip => by
      rw [Element.word?_of_isSkipped hskip] at hword
      cases hword
    rw [significant, hself, List.filter_cons_of_pos (by simpa using hskip), List.filter_nil]
  induction es with
  | nil => exact significant_nil
  | cons e es ih =>
    obtain ⟨he, hes⟩ := List.forall_mem_cons.1 hkept
    cases es with
    | nil => rw [List.map_singleton, List.intercalate_singleton, he]
    | cons f es =>
      obtain ⟨⟨hself, hword⟩, hrest⟩ := List.forall_mem_cons.1 h
      have hshape : e.shape ≠ .unterminated ∧ e.shape ≠ .comment := by
        rcases Element.shape_of_word? hword with ⟨kind, hkind⟩ | hkind <;> simp [hkind]
      rw [List.map_cons, List.map_cons, List.intercalate_cons_cons, List.append_assoc,
        List.singleton_append, significant_append rfl, he, ← List.map_cons, ih hrest hes,
        List.singleton_append]
      · rw [hself]
        exact List.forall_mem_singleton.2 hshape.1
      · rw [hself]
        exact .inr (List.forall_mem_singleton.2 hshape.2)

/-! ## Words with spaces between them -/

/-- The elements of a text that yield tokens are what counts when only they are left. -/
theorem significant_respaced (source : String) : significant (respaced source).toList =
    (elements source.toList).filter fun e => e.word?.isSome := by
  have hlexemes : (tokenize source).tokens.map (fun k => k.lexeme.toList) =
      ((elements source.toList).filter fun e => e.word?.isSome).map Element.text := by
    rw [← map_filterMap_word?, ← wordsOf_eq, wordsOf, List.map_map]
    rfl
  have htext : (respaced source).toList =
      [' '].intercalate ((tokenize source).tokens.map fun k => k.lexeme.toList) := by
    rw [respaced, String.toList_intercalate, List.map_map]
    rfl
  rw [htext, hlexemes]
  refine significant_intercalate fun e he => ?_
  obtain ⟨hmem, hword⟩ := List.mem_filter.1 he
  exact ⟨elements_text_of_mem hmem, hword⟩

/-- An element that is read without a fault has an error only as a number out of range. -/
theorem error?_eq_rangeError? {p : Placed} (hp : p ∈ placedElements source)
    (hshape : p.element.word?.isSome ∨ p.element.isSkipped) :
    p.error? = p.token?.bind Token.rangeError? := by
  have hmunched := Placed.munched_of_mem hp
  cases hk : p.token? with
  | none =>
    have hskip : p.element.isSkipped := hshape.resolve_left fun hword => by
      rw [← Placed.map_word_token?, hk] at hword
      cases hword
    rcases of_decide_eq_true hskip with h | h <;> simp [Placed.error?, Placed.fault?, h]
  | some k =>
    rw [Option.bind_some, Token.rangeError?]
    split
    next value hvalue => exact Placed.error?_of_integer hk hmunched hvalue
    next hvalue =>
      obtain ⟨kind, hkind, rfl⟩ := Option.map_eq_some_iff.1 hk
      rw [Placed.error?, Placed.fault?]
      rw [Placed.kind?] at hkind
      cases hshape : p.element.shape with
      | token => rfl
      | oversized =>
        rw [hshape] at hkind
        exact absurd (Option.some.inj hkind).symm (hvalue 0)
      | _ =>
        rw [hshape] at hkind
        cases hkind

/--
Tokens are the same when only single spaces are left between them, and all that is wrong then is
that numbers are out of range.
-/
theorem tokenize_respaced (source : String) :
    wordsOf (respaced source) = wordsOf source ∧
      (tokenize (respaced source)).errors =
        (tokenize (respaced source)).tokens.filterMap Token.rangeError? := by
  constructor
  · rw [wordsOf_eq, ← filterMap_significant fun _ => Element.word?_of_isSkipped,
      significant_respaced, wordsOf_eq, List.filterMap_filter]
    refine congrArg (fun g => (elements source.toList).filterMap g) (funext fun e => ?_)
    cases e.word? <;> rfl
  · rw [tokenize]
    dsimp only
    rw [List.filterMap_filterMap]
    refine List.filterMap_congr fun p hp => error?_eq_rangeError? hp ?_
    by_cases hskip : p.element.isSkipped
    · exact .inr hskip
    · have hmem : p.element ∈ significant (respaced source).toList := by
        rw [significant, ← map_element_placedElements]
        exact List.mem_filter.2 ⟨List.mem_map_of_mem hp, by simpa using hskip⟩
      rw [significant_respaced] at hmem
      exact .inl (List.mem_filter.1 hmem).2

end

end MiniJava
