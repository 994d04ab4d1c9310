import MiniJava.Proofs.Lexing.Element

/-!
# Places of tokens

Elements stand one after the other and none is empty. So the tokens of a text start at places that
increase, and the end of the text comes after them all.
-/

namespace MiniJava

theorem utf8Length_ofList (cs : List Char) :
    utf8Length cs = (String.ofList cs).utf8ByteSize := by
  induction cs with
  | nil => simp
  | cons c cs ih =>
    have hsplit : String.ofList (c :: cs) = String.singleton c ++ String.ofList cs := by
      rw [String.singleton_eq_ofList, ← String.ofList_append, List.singleton_append]
    rw [utf8Length_cons, ih, hsplit, String.utf8ByteSize_append, String.utf8ByteSize_singleton]

theorem utf8Length_toList (source : String) :
    utf8Length source.toList = source.utf8ByteSize := by
  rw [utf8Length_ofList, String.ofList_toList]

theorem utf8Length_pos {cs : List Char} (h : cs ≠ []) : 0 < utf8Length cs := by
  cases cs with
  | nil => exact absurd rfl h
  | cons c cs =>
    have hc := c.utf8Size_pos
    rw [utf8Length_cons]
    omega

theorem text_ne_nil_of_mem_elements {e : Element} {cs : List Char} (h : e ∈ elements cs) :
    e.text ≠ [] := by
  obtain ⟨c, cs', rfl⟩ := exists_read_of_mem_elements h
  exact Element.read_text_ne_nil c cs'

namespace Placed

/-- Where the element ends. -/
def stop (p : Placed) : Nat := p.position.offset + utf8Length p.element.text

theorem bounds_of_mem_layOut {pos : Position} {es : List Element} {p : Placed}
    (h : p ∈ layOut pos es) :
    pos.offset ≤ p.position.offset ∧
      p.stop ≤ pos.offset + utf8Length (es.flatMap Element.text) := by
  induction es generalizing pos with
  | nil => cases h
  | cons e es ih =>
    rw [layOut, List.mem_cons] at h
    rw [List.flatMap_cons, utf8Length_append]
    rcases h with rfl | h
    · simp only [stop]
      omega
    · have hp := ih h
      rw [Position.offset_passAll] at hp
      omega

theorem pairwise_layOut (pos : Position) (es : List Element) :
    (layOut pos es).Pairwise fun p q => p.stop ≤ q.position.offset := by
  induction es generalizing pos with
  | nil => exact .nil
  | cons e es ih =>
    refine .cons (fun p hp => ?_) (ih _)
    have hp := (bounds_of_mem_layOut hp).1
    rwa [Position.offset_passAll] at hp

theorem span_of_token? {p : Placed} {t : Token} (h : p.token? = some t) :
    t.span = ⟨p.position.offset, p.stop⟩ := by
  obtain ⟨kind, -, rfl⟩ := Option.map_eq_some_iff.1 h
  rfl

end Placed

theorem lt_stop_of_mem_placedElements {source : String} {p : Placed}
    (h : p ∈ placedElements source) : p.position.offset < p.stop := by
  have htext := text_ne_nil_of_mem_elements (Placed.element_mem_of_mem_layOut h)
  have hpos := utf8Length_pos htext
  rw [Placed.stop]
  omega

/-- Each token ends before the next one starts. -/
theorem pairwise_tokens (source : String) :
    (tokenize source).tokens.Pairwise fun t u => t.span.stop ≤ u.span.start := by
  rw [tokenize, List.pairwise_filterMap]
  apply (Placed.pairwise_layOut _ _).imp
  intro p q hpq t ht u hu
  rw [Placed.span_of_token? ht, Placed.span_of_token? hu]
  exact hpq

theorem span_of_mem_tokens {source : String} {t : Token} (h : t ∈ (tokenize source).tokens) :
    t.span.start < t.span.stop ∧ t.span.stop ≤ source.utf8ByteSize := by
  obtain ⟨p, hp, ht⟩ := List.mem_filterMap.1 h
  have hlt := lt_stop_of_mem_placedElements hp
  have hbounds := (Placed.bounds_of_mem_layOut hp).2
  rw [flatMap_text_elements, utf8Length_toList] at hbounds
  rw [Placed.span_of_token? ht]
  exact ⟨hlt, by simpa [Position.origin] using hbounds⟩

/-- The tokens of a text start one after the other, the mark of the end last. -/
theorem starts_increasing (source : String) :
    ((tokenize source).all.map (·.span.start)).Pairwise (· < ·) := by
  rw [List.pairwise_map, Tokenization.all, List.pairwise_append]
  refine ⟨?_, List.pairwise_singleton _ _, ?_⟩
  · apply (pairwise_tokens source).imp_of_mem
    intro t u ht _ htu
    have hlt := (span_of_mem_tokens ht).1
    omega
  · intro t ht u hu
    obtain ⟨hlt, hle⟩ := span_of_mem_tokens ht
    rw [List.mem_singleton.1 hu]
    exact Nat.lt_of_lt_of_le hlt hle

/-- The tokens of every text are regular, and so is the place before them all. -/
theorem startOf_regular (source : String) : (startOf source).Regular where
  ahead _ ht := regular_of_mem_tokens (Cursor.front_startOf source ▸ List.mem_of_mem_drop ht)
  starts := by
    apply Increasing.of_pairwise
    rw [Cursor.starts, Array.toList_map]
    exact starts_increasing source

end MiniJava
