import Mathlib.Data.List.Pairwise
import Mathlib.Data.String.Basic
import MiniJava.Proofs.Lexing.Blanking

/-!
# Spans of a text

Spans count bytes, texts are made of characters. A span that is valid in a text starts and ends
between two characters, and then its slice is the part of the text that it covers.
-/

namespace MiniJava

/-! ## Spans -/

namespace Span

/-- The part of a text that a span covers. -/
def slice (s : Span) (source : String) : String :=
  String.Pos.Raw.extract source ⟨s.start⟩ ⟨s.stop⟩

/-- The span is not reversed, and it starts and ends at boundaries of characters of the text. -/
structure Valid (s : Span) (source : String) : Prop where
  ordered : s.start ≤ s.stop
  inside : s.stop ≤ source.utf8ByteSize
  start_boundary : String.Pos.Raw.IsValid source ⟨s.start⟩
  stop_boundary : String.Pos.Raw.IsValid source ⟨s.stop⟩

/-- The byte at an offset is one of the span. -/
def Covers (s : Span) (offset : Nat) : Prop := s.start ≤ offset ∧ offset < s.stop

/-- One span ends before the other starts. -/
def Disjoint (s t : Span) : Prop := s.stop ≤ t.start ∨ t.stop ≤ s.start

theorem Disjoint.symm {s t : Span} (h : s.Disjoint t) : t.Disjoint s := Or.symm h

end Span

section

variable {source : String} {before text after : List Char}

theorem utf8Length_eq_utf8Len (cs : List Char) : utf8Length cs = String.utf8Len cs := by
  rw [utf8Length_ofList, String.utf8ByteSize_ofList]

theorem isValid_of_toList_eq (h : source.toList = before ++ after) :
    String.Pos.Raw.IsValid source ⟨utf8Length before⟩ := by
  rw [String.Pos.Raw.isValid_iff_exists_append]
  refine ⟨String.ofList before, String.ofList after, ?_, ?_⟩
  · rw [← String.ofList_append, ← h, String.ofList_toList]
  · rw [utf8Length_ofList]
    rfl

theorem exists_of_isValid {offset : Nat} (h : String.Pos.Raw.IsValid source ⟨offset⟩) :
    ∃ before after, source.toList = before ++ after ∧ offset = utf8Length before := by
  obtain ⟨front, back, rfl, hoffset⟩ := String.Pos.Raw.isValid_iff_exists_append.1 h
  refine ⟨front.toList, back.toList, String.toList_append, ?_⟩
  rw [utf8Length_toList]
  exact congrArg String.Pos.Raw.byteIdx hoffset

namespace Span

theorem valid_of_toList_eq (h : source.toList = before ++ (text ++ after)) :
    (⟨utf8Length before, utf8Length before + utf8Length text⟩ : Span).Valid source := by
  have hsize := utf8Length_toList source
  rw [h, utf8Length_append, utf8Length_append] at hsize
  refine ⟨Nat.le_add_right _ _, by dsimp only; omega, isValid_of_toList_eq h, ?_⟩
  dsimp only
  rw [← utf8Length_append]
  exact isValid_of_toList_eq (by rw [h, List.append_assoc])

theorem slice_of_toList_eq (h : source.toList = before ++ (text ++ after)) :
    (⟨utf8Length before, utf8Length before + utf8Length text⟩ : Span).slice source =
      String.ofList text := by
  rw [slice, ← String.ofList_toList (s := source), h, ← List.append_assoc]
  simp only [utf8Length_eq_utf8Len]
  exact String.extract_of_valid before text after

end Span

end

/-! ## Elements in a row -/

/-- The characters of some elements in their places. -/
def Placed.texts (ps : List Placed) : List Char := ps.flatMap fun p => p.element.text

namespace Placed

variable {source : String} {pos : Position} {es : List Element} {ps qs : List Placed} {p : Placed}

theorem texts_eq (ps : List Placed) : texts ps = (ps.map Placed.element).flatMap Element.text := by
  rw [texts, List.flatMap_map]

theorem offset_of_layOut_eq (h : layOut pos es = ps ++ p :: qs) :
    p.position.offset = pos.offset + utf8Length (texts ps) := by
  induction ps generalizing pos es with
  | nil =>
    cases es with
    | nil => cases h
    | cons e es =>
      rw [layOut, List.nil_append, List.cons.injEq] at h
      rw [← h.1]
      rfl
  | cons q ps ih =>
    cases es with
    | nil => cases h
    | cons e es =>
      rw [layOut, List.cons_append, List.cons.injEq] at h
      obtain ⟨rfl, h⟩ := h
      rw [ih h, Position.offset_passAll, texts, texts, List.flatMap_cons, utf8Length_append,
        Nat.add_assoc]

theorem toList_eq_of_placedElements_eq (h : placedElements source = ps) :
    source.toList = texts ps := by
  rw [texts_eq, ← h, map_element_placedElements, flatMap_text_elements]

/-- An element starts after the characters of the elements before it. -/
theorem offset_of_placedElements_eq (h : placedElements source = ps ++ p :: qs) :
    p.position.offset = utf8Length (texts ps) := by
  rw [offset_of_layOut_eq h, show Position.origin.offset = 0 from rfl, Nat.zero_add]

/-- The bytes of an element are those of its characters. -/
theorem exists_toList_eq_of_mem (h : p ∈ placedElements source) :
    ∃ before after, source.toList = before ++ (p.element.text ++ after) ∧
      p.span = ⟨utf8Length before, utf8Length before + utf8Length p.element.text⟩ := by
  obtain ⟨ps, qs, hsplit⟩ := List.append_of_mem h
  refine ⟨texts ps, texts qs, ?_, ?_⟩
  · rw [toList_eq_of_placedElements_eq hsplit, texts, List.flatMap_append, List.flatMap_cons]
    rfl
  · rw [span, offset_of_placedElements_eq hsplit]

theorem valid_span (h : p ∈ placedElements source) : p.span.Valid source := by
  obtain ⟨before, after, htext, hspan⟩ := exists_toList_eq_of_mem h
  rw [hspan]
  exact Span.valid_of_toList_eq htext

theorem slice_span (h : p ∈ placedElements source) :
    p.span.slice source = String.ofList p.element.text := by
  obtain ⟨before, after, htext, hspan⟩ := exists_toList_eq_of_mem h
  rw [hspan]
  exact Span.slice_of_toList_eq htext

/-- Two elements are the same one, or one ends before the other starts. -/
theorem eq_or_disjoint {q : Placed} (hp : p ∈ placedElements source)
    (hq : q ∈ placedElements source) : p = q ∨ p.span.Disjoint q.span := by
  by_cases heq : p = q
  · exact .inl heq
  · have hpairs : (placedElements source).Pairwise fun p q => p.span.Disjoint q.span :=
      (pairwise_layOut _ _).imp .inl
    have hsymm : Std.Symm fun p q : Placed => p.span.Disjoint q.span := ⟨fun _ _ h => h.symm⟩
    exact .inr (hpairs.forall hp hq heq)

end Placed

/-! ## Tokens and errors -/

section

variable {source : String} {t : Token} {e : LexicalError}

theorem exists_placed_of_mem_tokens (h : t ∈ (tokenize source).tokens) :
    ∃ p ∈ placedElements source, p.token? = some t ∧ p.span = t.span := by
  obtain ⟨p, hp, ht⟩ := List.mem_filterMap.1 h
  exact ⟨p, hp, ht, (Placed.span_of_token? ht).symm⟩

theorem exists_placed_of_mem_errors (h : e ∈ (tokenize source).errors) :
    ∃ p ∈ placedElements source, p.error? = some e ∧ p.span = e.span := by
  obtain ⟨p, hp, he⟩ := List.mem_filterMap.1 h
  obtain ⟨fault, hfault, rfl⟩ := Option.map_eq_some_iff.1 he
  exact ⟨p, hp, he, rfl⟩

theorem valid_span_endToken (source : String) : (endToken source).span.Valid source := by
  have hall : source.toList = source.toList ++ ([] ++ []) := by simp
  have hvalid := Span.valid_of_toList_eq hall
  rwa [utf8Length_nil, Nat.add_zero, utf8Length_toList] at hvalid

theorem valid_span_of_mem_tokens (h : t ∈ (tokenize source).tokens) : t.span.Valid source := by
  obtain ⟨p, hp, -, hspan⟩ := exists_placed_of_mem_tokens h
  rw [← hspan]
  exact Placed.valid_span hp

theorem valid_span_of_mem_all (h : t ∈ (tokenize source).all) : t.span.Valid source := by
  rcases List.mem_append.1 h with h | h
  · exact valid_span_of_mem_tokens h
  · rw [List.mem_singleton.1 h]
    exact valid_span_endToken source

theorem valid_span_of_mem_errors (h : e ∈ (tokenize source).errors) : e.span.Valid source := by
  obtain ⟨p, hp, -, hspan⟩ := exists_placed_of_mem_errors h
  rw [← hspan]
  exact Placed.valid_span hp

end

end MiniJava
