import MiniJava.Proofs.Lexing.Slices

/-!
# Nothing of a text is lost

The tokens of a text and its lexical errors stand one after the other, and what stands between them
is white space and comments. Every byte belongs to one of these.
-/

namespace MiniJava

/-! ## What stands between tokens -/

/--
Text that is skipped before the text `after`: white space, a comment up to the end of its line, or a
block comment, which ends with the first `*` and `/` in a row.
-/
inductive Skipped : List Char → List Char → Prop
  | blanks {text after : List Char} (h : ∀ c ∈ text, c ∈ [' ', '\t', '\r', '\n', '\x0c']) :
      Skipped text after
  | lineComment {body after : List Char} (hbody : ∀ c ∈ body, c ≠ '\r' ∧ c ≠ '\n')
      (hafter : ∀ c ∈ after.head?, c = '\r' ∨ c = '\n') : Skipped ('/' :: '/' :: body) after
  | blockComment {body after : List Char} (hfirst : ¬ ['*', '/'] <:+: body ++ ['*']) :
      Skipped ('/' :: '*' :: (body ++ ['*', '/'])) after

namespace Element

variable {c : Char} {cs inside rest : List Char} {e : Element}

theorem isBlank_iff (c : Char) : isBlank c ↔ c ∈ [' ', '\t', '\r', '\n', '\x0c'] := by
  simp [isBlank, or_assoc]

theorem isBreak_iff (c : Char) : Source.isBreak c ↔ c = '\r' ∨ c = '\n' := by
  simp [Source.isBreak, or_comm]

/-- A block comment ends with its first end. -/
theorem first_of_closeComment? (h : closeComment? cs = some (inside, rest)) :
    ∃ body, inside = body ++ ['*', '/'] ∧ ¬ ['*', '/'] <:+: body ++ ['*'] := by
  fun_induction closeComment? cs generalizing inside rest with
  | case1 cs =>
    cases h
    exact ⟨[], rfl, by decide⟩
  | case2 c cs hopen ih =>
    obtain ⟨⟨inside', rest'⟩, hclose, heq⟩ := Option.map_eq_some_iff.1 h
    cases heq
    obtain ⟨body, rfl, hfirst⟩ := ih hclose
    refine ⟨c :: body, rfl, fun hinfix => ?_⟩
    rcases List.infix_cons_iff.1 hinfix with hstart | hinside
    · -- the comment would already have ended here
      obtain ⟨rfl, hslash⟩ := List.cons_prefix_cons.1 hstart
      have htext := eq_append_of_closeComment? hclose
      cases body with
      | nil => cases (List.cons_prefix_cons.1 hslash).1
      | cons d body =>
        obtain rfl := (List.cons_prefix_cons.1 hslash).1
        exact hopen _ rfl htext
    · exact hfirst hinside
  | case3 => cases h

theorem skipped_of_readMark (h : readMark c cs = (e, rest)) (hs : e.shape = .comment) :
    Skipped e.text rest := by
  unfold readMark at h
  split at h
  next cs =>
    cases h
    refine .lineComment (fun d hd => ?_) fun d hd => ?_
    · have hnot := List.all_eq_true.1 List.all_takeWhile d hd
      have hbreak := mt (isBreak_iff d).2 (by simpa using hnot)
      exact not_or.1 hbreak
    · have hnot := List.head?_dropWhile_not (fun x => !Source.isBreak x) cs
      rw [Option.mem_def.1 hd] at hnot
      exact (isBreak_iff d).1 (by simpa using hnot)
  next cs =>
    split at h
    next inside rest hclose =>
      cases h
      obtain ⟨body, rfl, hfirst⟩ := first_of_closeComment? hclose
      exact .blockComment hfirst
    next =>
      cases h
      cases hs
  next =>
    cases h
    cases hs
  next =>
    split at h
    all_goals
      cases h
      cases hs

theorem exists_shape_readWord (word cs : List Char) :
    ∃ kind, (readWord word cs).1.shape = .token kind := by
  rcases readWord_eq word cs with h | h <;> exact ⟨_, by rw [h]⟩

theorem shape_ofDigits (digits : List Char) :
    (∃ kind, (ofDigits digits).shape = .token kind) ∨ (ofDigits digits).shape = .oversized := by
  unfold ofDigits
  split
  · exact .inl ⟨_, rfl⟩
  · exact .inr rfl

theorem shape_ne_blank_of_readMark (h : readMark c cs = (e, rest)) : e.shape ≠ .blank := by
  obtain rfl : e = (readMark c cs).1 := by rw [h]
  unfold readMark
  split
  · nofun
  · split <;> nofun
  · nofun
  · split <;> nofun

/-- What is no blank, no token and no number was read as a mark. -/
theorem readMark_of_read (hc : ¬ isBlank c) (h : read c cs = (e, rest))
    (htoken : ∀ kind, e.shape ≠ .token kind) (hnumber : e.shape ≠ .oversized) :
    readMark c cs = (e, rest) := by
  unfold read at h
  rw [if_neg hc] at h
  split at h
  next =>
    obtain ⟨kind, hkind⟩ := exists_shape_readWord (c :: cs.takeWhile isWordChar)
      (cs.dropWhile isWordChar)
    rw [h] at hkind
    exact absurd hkind (htoken kind)
  split at h
  next =>
    cases h
    rcases shape_ofDigits (c :: cs.takeWhile Char.isDigit) with ⟨kind, hkind⟩ | hkind
    · exact absurd hkind (htoken kind)
    · exact absurd hkind hnumber
  next => exact h

/-- Blanks and comments are skipped, whatever comes after them. -/
theorem skipped_of_read (h : read c cs = (e, rest)) (hs : e.shape = .blank ∨ e.shape = .comment) :
    Skipped e.text rest := by
  by_cases hc : isBlank c
  · obtain ⟨-, hblank⟩ := blank_of_read hc h
    exact .blanks fun d hd => (isBlank_iff d).1 (hblank d hd)
  · have hmark : readMark c cs = (e, rest) := by
      apply readMark_of_read hc h <;> rcases hs with hs | hs <;> simp [hs]
    exact skipped_of_readMark hmark (hs.resolve_left (shape_ne_blank_of_readMark hmark))

end Element

/-- What is read of the rest of a text are its elements from there on. -/
theorem elements_of_append_right {cs : List Char} {es₁ es₂ : List Element}
    (h : elements cs = es₁ ++ es₂) : elements (es₂.flatMap Element.text) = es₂ := by
  induction es₁ generalizing cs with
  | nil =>
    rw [List.nil_append] at h
    rw [← h, flatMap_text_elements]
  | cons e es₁ ih =>
    obtain ⟨c, cs, -, -, hes⟩ := Placed.exists_read_of_elements h
    exact ih hes

/-- A span of text that is skipped. -/
def Span.Skips (s : Span) (source : String) : Prop :=
  ∃ before text after, source.toList = before ++ (text ++ after) ∧
    s = ⟨utf8Length before, utf8Length before + utf8Length text⟩ ∧ Skipped text after

namespace Placed

variable {source : String} {p : Placed}

/-- An element is what is read where it stands. -/
theorem exists_read_of_mem (h : p ∈ placedElements source) :
    ∃ before c cs after, source.toList = before ++ (p.element.text ++ after) ∧
      p.span = ⟨utf8Length before, utf8Length before + utf8Length p.element.text⟩ ∧
        Element.read c cs = (p.element, after) := by
  obtain ⟨ps, qs, hsplit⟩ := List.append_of_mem h
  have helements : elements source.toList =
      ps.map Placed.element ++ p.element :: qs.map Placed.element := by
    rw [← map_element_placedElements, hsplit, List.map_append, List.map_cons]
  obtain ⟨c, cs, -, hread, -⟩ := exists_read_of_elements (elements_of_append_right helements)
  refine ⟨texts ps, c, cs, texts qs, ?_, ?_, ?_⟩
  · rw [toList_eq_of_placedElements_eq hsplit, texts, List.flatMap_append, List.flatMap_cons]
    rfl
  · rw [span, offset_of_placedElements_eq hsplit]
  · rw [texts_eq]
    exact hread

/-- A blank or a comment is skipped. -/
theorem skips_span (h : p ∈ placedElements source)
    (hs : p.element.shape = .blank ∨ p.element.shape = .comment) : p.span.Skips source := by
  obtain ⟨before, c, cs, after, htext, hspan, hread⟩ := exists_read_of_mem h
  exact ⟨before, p.element.text, after, htext, hspan, Element.skipped_of_read hread hs⟩

theorem exists_covers_of_layOut {pos : Position} {es : List Element} {offset : Nat}
    (hle : pos.offset ≤ offset)
    (hlt : offset < pos.offset + utf8Length (es.flatMap Element.text)) :
    ∃ p ∈ layOut pos es, p.span.Covers offset := by
  induction es generalizing pos with
  | nil =>
    rw [List.flatMap_nil, utf8Length_nil] at hlt
    omega
  | cons e es ih =>
    rw [List.flatMap_cons, utf8Length_append] at hlt
    by_cases hfirst : offset < pos.offset + utf8Length e.text
    · exact ⟨⟨pos, e⟩, List.mem_cons_self, hle, hfirst⟩
    · have hnext := Position.offset_passAll pos (firstChar? es) e.text
      obtain ⟨p, hp, hcovers⟩ : ∃ p ∈ layOut (pos.passAll (firstChar? es) e.text) es,
          p.span.Covers offset := ih (by omega) (by omega)
      exact ⟨p, List.mem_cons_of_mem _ hp, hcovers⟩

/-- Every byte of a text is one of some element. -/
theorem exists_covers {offset : Nat} (h : offset < source.utf8ByteSize) :
    ∃ p ∈ placedElements source, p.span.Covers offset := by
  apply exists_covers_of_layOut (Nat.zero_le _)
  rw [flatMap_text_elements, utf8Length_toList]
  exact Nat.lt_of_lt_of_le h (Nat.le_add_left _ _)

end Placed

/-! ## Tokens and errors -/

section

variable {source : String} {t : Token} {e : LexicalError} {p : Placed}

/-- Only a number out of range is a token and an error. -/
theorem Placed.fault_of_token?_of_error? (ht : p.token? = some t) (he : p.error? = some e) :
    ∃ literal, e.fault = .integerOutOfRange literal := by
  obtain ⟨position, shape, text⟩ := p
  cases shape with
  | oversized =>
    cases he
    exact ⟨_, rfl⟩
  | token kind => cases he
  | blank | comment | unrecognized | unterminated => cases ht

/-- A number out of range is read as zero. -/
theorem Placed.exists_token?_of_integerOutOfRange {literal : String} (he : p.error? = some e)
    (hfault : e.fault = .integerOutOfRange literal) :
    ∃ k, p.token? = some k ∧ k.kind = .integer 0 := by
  obtain ⟨position, shape, text⟩ := p
  cases shape with
  | oversized => exact ⟨_, rfl, rfl⟩
  | unrecognized | unterminated =>
    cases he
    cases hfault
  | token kind | blank | comment => cases he

/-- What is no blank and no comment is a token or an error. -/
theorem Placed.exists_token?_or_error? (hblank : p.element.shape ≠ .blank)
    (hcomment : p.element.shape ≠ .comment) :
    (∃ t, p.token? = some t) ∨ ∃ e, p.error? = some e := by
  obtain ⟨position, shape, text⟩ := p
  cases shape with
  | token kind => exact .inl ⟨_, rfl⟩
  | oversized | unrecognized | unterminated => exact .inr ⟨_, rfl⟩
  | blank => exact absurd rfl hblank
  | comment => exact absurd rfl hcomment

/-- Nothing comes after the end of a text. -/
theorem disjoint_endToken {s : Span} (h : s.Valid source) : (endToken source).span.Disjoint s :=
  .inr h.inside

/-- What a token does not come from, the token does not touch. -/
theorem disjoint_of_mem_all (hp : p ∈ placedElements source) (ht : t ∈ (tokenize source).all)
    (hne : p.token? ≠ some t) : t.span.Disjoint p.span := by
  rcases List.mem_append.1 ht with ht | ht
  · obtain ⟨q, hq, hqt, hspan⟩ := exists_placed_of_mem_tokens ht
    rw [← hspan]
    rcases Placed.eq_or_disjoint hq hp with rfl | hdisjoint
    · exact absurd hqt hne
    · exact hdisjoint
  · rw [List.mem_singleton.1 ht]
    exact disjoint_endToken (Placed.valid_span hp)

theorem disjoint_of_mem_errors (hp : p ∈ placedElements source) (he : e ∈ (tokenize source).errors)
    (hne : p.error? ≠ some e) : e.span.Disjoint p.span := by
  obtain ⟨q, hq, hqe, hspan⟩ := exists_placed_of_mem_errors he
  rw [← hspan]
  rcases Placed.eq_or_disjoint hq hp with rfl | hdisjoint
  · exact absurd hqe hne
  · exact hdisjoint

theorem lexeme_eq_slice (h : t ∈ (tokenize source).all) : t.lexeme = t.span.slice source := by
  rcases List.mem_append.1 h with h | h
  · obtain ⟨p, hp, ht, hspan⟩ := exists_placed_of_mem_tokens h
    rw [← hspan, Placed.slice_span hp]
    obtain ⟨kind, -, rfl⟩ := Option.map_eq_some_iff.1 ht
    rfl
  · have hall : source.toList = source.toList ++ ([] ++ []) := by simp
    have hslice := Span.slice_of_toList_eq hall
    rw [utf8Length_nil, Nat.add_zero, utf8Length_toList] at hslice
    rw [List.mem_singleton.1 h]
    exact hslice.symm

theorem ordered_tokens (source : String) : (tokenize source).all.Pairwise fun k l =>
    k.span.start < l.span.start ∧ k.span.stop ≤ l.span.start := by
  have hstarts := starts_increasing source
  rw [List.pairwise_map] at hstarts
  refine hstarts.and (List.pairwise_append.2
    ⟨pairwise_tokens source, List.pairwise_singleton _ _, ?_⟩)
  intro k hk l hl
  rw [List.mem_singleton.1 hl]
  exact (span_of_mem_tokens hk).2

theorem ordered_errors (source : String) : (tokenize source).errors.Pairwise fun e f =>
    e.span.start < f.span.start ∧ e.span.stop ≤ f.span.start := by
  rw [tokenize, List.pairwise_filterMap]
  apply (Placed.pairwise_layOut _ _).imp_of_mem
  intro p q hp _ hpq e he f hf
  obtain ⟨_, -, rfl⟩ := Option.map_eq_some_iff.1 he
  obtain ⟨_, -, rfl⟩ := Option.map_eq_some_iff.1 hf
  exact ⟨Nat.lt_of_lt_of_le (lt_stop_of_mem_placedElements hp) hpq, hpq⟩

/-- A byte that no token and no error holds is skipped with what stands around it. -/
theorem covered_by_some {offset : Nat} (h : offset < source.utf8ByteSize) :
    (∃ k ∈ (tokenize source).tokens, k.span.Covers offset) ∨
      (∃ e ∈ (tokenize source).errors, e.span.Covers offset) ∨
      ∃ s : Span, s.Covers offset ∧ s.Skips source ∧
        (∀ k ∈ (tokenize source).all, k.span.Disjoint s) ∧
        ∀ e ∈ (tokenize source).errors, e.span.Disjoint s := by
  obtain ⟨p, hp, hcovers⟩ := Placed.exists_covers h
  by_cases hskip : p.element.shape = .blank ∨ p.element.shape = .comment
  · have hnone : p.token? = none ∧ p.error? = none := by
      rcases hskip with hs | hs <;>
        simp [Placed.token?, Placed.kind?, Placed.error?, Placed.fault?, hs]
    refine .inr (.inr ⟨p.span, hcovers, Placed.skips_span hp hskip, fun k hk => ?_, fun e he => ?_⟩)
    · exact disjoint_of_mem_all hp hk (by simp [hnone])
    · exact disjoint_of_mem_errors hp he (by simp [hnone])
  · obtain ⟨hblank, hcomment⟩ := not_or.1 hskip
    rcases Placed.exists_token?_or_error? hblank hcomment with ⟨t, ht⟩ | ⟨e, he⟩
    · refine .inl ⟨t, List.mem_filterMap.2 ⟨p, hp, ht⟩, ?_⟩
      rwa [Placed.span_of_token? ht]
    · refine .inr (.inl ⟨e, List.mem_filterMap.2 ⟨p, hp, he⟩, ?_⟩)
      obtain ⟨_, -, rfl⟩ := Option.map_eq_some_iff.1 he
      exact hcovers

end

/-! ## The tiling -/

/--
The tokens and the errors of a text stand one after the other, and all that they leave is skipped.
Only a number out of range is a token and an error at once.
-/
structure Tokenization.Tiles (t : Tokenization) (source : String) : Prop where
  final_kind : t.final.kind = .endOfInput
  final_span : t.final.span = .point source.utf8ByteSize
  final_only : ∀ k ∈ t.tokens, k.kind ≠ .endOfInput
  ordered : t.all.Pairwise fun k l => k.span.start < l.span.start ∧ k.span.stop ≤ l.span.start
  nonempty : ∀ k ∈ t.tokens, k.span.start < k.span.stop
  valid : ∀ k ∈ t.all, k.span.Valid source
  lexeme_eq : ∀ k ∈ t.all, k.lexeme = k.span.slice source
  errors_ordered : t.errors.Pairwise fun e f =>
    e.span.start < f.span.start ∧ e.span.stop ≤ f.span.start
  errors_apart : ∀ e ∈ t.errors, (∀ literal, e.fault ≠ .integerOutOfRange literal) →
    ∀ k ∈ t.all, k.span.Disjoint e.span
  out_of_range : ∀ e ∈ t.errors, ∀ literal, e.fault = .integerOutOfRange literal →
    ∃ k ∈ t.tokens, k.kind = .integer 0 ∧ k.span = e.span ∧
      ∀ l ∈ t.all, l = k ∨ l.span.Disjoint e.span
  covered : ∀ offset < source.utf8ByteSize, (∃ k ∈ t.tokens, k.span.Covers offset) ∨
    (∃ e ∈ t.errors, e.span.Covers offset) ∨
    ∃ s : Span, s.Covers offset ∧ s.Skips source ∧ (∀ k ∈ t.all, k.span.Disjoint s) ∧
      ∀ e ∈ t.errors, e.span.Disjoint s

/-- Reading a text into tokens loses nothing of it. -/
theorem tokenize_tiles (source : String) : (tokenize source).Tiles source where
  final_kind := rfl
  final_span := rfl
  final_only _ hk := (regular_of_mem_tokens hk).notEnd
  ordered := ordered_tokens source
  nonempty _ hk := (span_of_mem_tokens hk).1
  valid _ := valid_span_of_mem_all
  lexeme_eq _ := lexeme_eq_slice
  errors_ordered := ordered_errors source
  errors_apart e he hfault k hk := by
    obtain ⟨p, hp, hpe, hspan⟩ := exists_placed_of_mem_errors he
    rw [← hspan]
    refine disjoint_of_mem_all hp hk fun ht => ?_
    obtain ⟨literal, hliteral⟩ := Placed.fault_of_token?_of_error? ht hpe
    exact hfault literal hliteral
  out_of_range e he literal hfault := by
    obtain ⟨p, hp, hpe, hspan⟩ := exists_placed_of_mem_errors he
    obtain ⟨k, hk, hkind⟩ := Placed.exists_token?_of_integerOutOfRange hpe hfault
    refine ⟨k, List.mem_filterMap.2 ⟨p, hp, hk⟩, hkind, ?_, fun l hl => ?_⟩
    · rw [← hspan]
      exact Placed.span_of_token? hk
    · rw [← hspan]
      by_cases hlk : l = k
      · exact .inl hlk
      · exact .inr (disjoint_of_mem_all hp hl (by simpa [hk] using Ne.symm hlk))
  covered _ := covered_by_some

end MiniJava
