import Mathlib.Data.List.Nodup
import MiniJava.Proofs.Lexing.Cutting

/-!
# The longest elements

Each token of a text is what its characters make it, and it is as long as the text allows: a word
does not go on as a word, a number does not go on as a number, and the word `System` does not go on
as the print keyword. Only at the end of the text may a comment be open.
-/

namespace MiniJava

/-! ## Elements and what comes after them -/

/-- The characters are decimal digits, of which there is at least one. -/
def IsNumeral (cs : List Char) : Prop := cs ≠ [] ∧ ∀ d ∈ cs, d.isDigit

/-- After the word `System`, the text makes it the print keyword. -/
def CompletesPrintln (after : List Char) : Prop :=
  ∃ rest, after = ".out.println".toList ++ rest ∧ rest.head?.any Element.isWordChar = false

namespace Element

/-- What an element can be that stands before the text `after`. -/
inductive Munched : Element → List Char → Prop
  | word {w after : List Char} (hword : IsWord w) (hend : after.head?.any isWordChar = false)
      (hsystem : w = ['S', 'y', 's', 't', 'e', 'm'] → ¬ CompletesPrintln after) :
      Munched ⟨.token (TokenKind.ofWord (String.ofList w)), w⟩ after
  | println {after : List Char} (hend : after.head?.any isWordChar = false) :
      Munched ⟨.token .printlnKw, "System.out.println".toList⟩ after
  | numeral {digits after : List Char} (hdigits : IsNumeral digits)
      (hend : after.head?.any Char.isDigit = false) : Munched (ofDigits digits) after
  | mark {kind : TokenKind} {text : String} {after : List Char} (hkind : kind.spelling? = some text)
      (hcategory : kind.category = .operator ∨ kind.category = .punctuation) :
      Munched ⟨.token kind, text.toList⟩ after
  | unterminated {text : List Char} : Munched ⟨.unterminated, text⟩ []
  | ignored {e : Element} {after : List Char}
      (h : e.shape = .blank ∨ e.shape = .comment ∨ e.shape = .unrecognized) : Munched e after

theorem afterPrintln?_eq_none_iff (cs : List Char) :
    afterPrintln? cs = none ↔ ¬ CompletesPrintln cs := by
  constructor
  · rintro hnone ⟨rest, rfl, hend⟩
    rw [show ".out.println".toList = printlnTail from rfl,
      Scans.afterPrintln?_printlnTail hend] at hnone
    cases hnone
  · intro h
    by_contra hsome
    obtain ⟨rest, hrest⟩ := Option.ne_none_iff_exists'.1 hsome
    exact h ⟨rest, eq_append_of_afterPrintln? hrest, any_head?_of_afterPrintln? hrest⟩

theorem category_of_ofMark? {c : Char} {kind : TokenKind} (h : TokenKind.ofMark? c = some kind) :
    kind.category = .operator ∨ kind.category = .punctuation := by
  have hmark : kind ∈ TokenKind.marks := List.mem_of_find?_eq_some h
  have hall : ∀ k ∈ TokenKind.marks, k.category = .operator ∨ k.category = .punctuation := by
    decide
  exact hall kind hmark

theorem munched_readWord {word cs : List Char} (hword : IsWord word)
    (hend : cs.head?.any isWordChar = false) :
    (readWord word cs).1.Munched (readWord word cs).2 := by
  cases hafter : afterPrintln? cs with
  | none =>
    rw [readWord_of_not_println fun _ => hafter]
    exact .word hword hend fun _ => (afterPrintln?_eq_none_iff cs).1 hafter
  | some rest =>
    by_cases hsystem : word = ['S', 'y', 's', 't', 'e', 'm']
    · subst hsystem
      rw [readWord, if_pos rfl, hafter]
      exact .println (any_head?_of_afterPrintln? hafter)
    · rw [readWord_of_not_println fun h => absurd h hsystem]
      exact .word hword hend fun h => absurd h hsystem

theorem munched_readMark (c : Char) (cs : List Char) :
    (readMark c cs).1.Munched (readMark c cs).2 := by
  unfold readMark
  split
  · exact .ignored (.inr (.inl rfl))
  · split
    · exact .ignored (.inr (.inl rfl))
    · exact .unterminated
  · exact @Munched.mark .andAnd "&&" _ rfl (.inl rfl)
  · split
    next kind h =>
      rw [← String.toList_singleton]
      exact .mark (spelling?_of_ofMark? h) (category_of_ofMark? h)
    next => exact .ignored (.inr (.inr rfl))

/-- What is read is the longest element with which the text starts. -/
theorem munched_read (c : Char) (cs : List Char) : (read c cs).1.Munched (read c cs).2 := by
  unfold read
  split
  · exact .ignored (.inl rfl)
  split
  next hstart =>
    exact munched_readWord ⟨hstart, forall_mem_takeWhile isWordChar cs⟩
      (any_head?_dropWhile isWordChar cs)
  split
  next hdigit =>
    refine .numeral ⟨List.cons_ne_nil _ _, ?_⟩ (any_head?_dropWhile Char.isDigit cs)
    exact List.forall_mem_cons.2 ⟨hdigit, forall_mem_takeWhile Char.isDigit cs⟩
  · exact munched_readMark c cs

end Element

/-! ## Tokens and what comes after them -/

/-- The text after a span. -/
def Span.after (s : Span) (source : String) : List Char :=
  ((⟨s.stop, source.utf8ByteSize⟩ : Span).slice source).toList

theorem Span.after_of_toList_eq {source : String} {before text after : List Char}
    (h : source.toList = before ++ (text ++ after)) :
    (⟨utf8Length before, utf8Length before + utf8Length text⟩ : Span).after source = after := by
  have hsplit : source.toList = (before ++ text) ++ (after ++ []) := by
    rw [h, List.append_nil, List.append_assoc]
  have hsize : source.utf8ByteSize = utf8Length (before ++ text) + utf8Length after := by
    rw [← utf8Length_toList, ← utf8Length_append, List.append_assoc, h]
  rw [Span.after, hsize, ← utf8Length_append, Span.slice_of_toList_eq hsplit, String.toList_ofList]

/-- A word that is no keyword is not the spelling of any kind. -/
theorem spelling?_ne_of_ofWord {text : String} (hword : IsWord text.toList)
    (h : TokenKind.ofWord text = .identifier) (kind : TokenKind) : kind.spelling? ≠ some text := by
  intro hkind
  cases kind with
  | identifier | integer | comment | endOfInput => cases hkind
  | _ =>
    obtain rfl := Option.some.inj hkind
    revert hword h
    decide

namespace Token

/-- What a token is that stands before the text `after`. -/
structure Classified (k : Token) (after : List Char) : Prop where
  /-- A kind that has a spelling is spelled so. -/
  spelled : ∀ text, k.kind.spelling? = some text → k.lexeme = text
  name : k.kind = .identifier →
    IsWord k.lexeme.toList ∧ ∀ kind : TokenKind, kind.spelling? ≠ some k.lexeme
  /-- The value of a number is that of its digits, or zero if this is too large. -/
  numeral : ∀ value, k.kind = .integer value → IsNumeral k.lexeme.toList ∧
    value.toInt = if Element.decimal k.lexeme.toList ≤ Element.maxInteger
      then (Element.decimal k.lexeme.toList : Int) else 0
  word_end : k.kind.category = .keyword ∨ k.kind = .identifier →
    after.head?.any Element.isWordChar = false
  numeral_end : ∀ value, k.kind = .integer value → after.head?.any Char.isDigit = false
  system : k.kind = .identifier → k.lexeme = "System" → ¬ CompletesPrintln after
  not_comment : k.kind ≠ .comment

namespace Classified

variable {k : Token} {after : List Char}

theorem of_spelling? (h : k.kind.spelling? = some k.lexeme)
    (hend : k.kind.category = .keyword → after.head?.any Element.isWordChar = false) :
    k.Classified after := by
  have hne : ∀ kind : TokenKind, kind.spelling? = none → k.kind ≠ kind := by
    rintro kind hnone rfl
    rw [hnone] at h
    cases h
  refine ⟨fun text htext => ?_, fun hk => absurd hk (hne _ rfl), fun value hk => ?_, ?_,
    fun value hk => absurd hk (hne _ rfl), fun hk => absurd hk (hne _ rfl), hne _ rfl⟩
  · rw [h] at htext
    exact Option.some.inj htext
  · exact absurd hk (hne _ rfl)
  · rintro (hk | hk)
    · exact hend hk
    · exact absurd hk (hne _ rfl)

/-- A word is a name, or the keyword that is spelled so. -/
theorem of_word {w : List Char} (hkind : k.kind = TokenKind.ofWord (String.ofList w))
    (hlexeme : k.lexeme = String.ofList w) (hword : IsWord w)
    (hend : after.head?.any Element.isWordChar = false)
    (hsystem : w = ['S', 'y', 's', 't', 'e', 'm'] → ¬ CompletesPrintln after) :
    k.Classified after := by
  rcases ofWord_eq_identifier_or (String.ofList w) with hname | hspelling
  · have hk : k.kind = .identifier := hkind.trans hname
    have hchars : k.lexeme.toList = w := by rw [hlexeme, String.toList_ofList]
    refine ⟨by simp [hk, TokenKind.spelling?], fun _ => ?_, by simp [hk], fun _ => hend,
      by simp [hk], fun _ hw => hsystem ?_, by simp [hk]⟩
    · rw [← hchars] at hword
      exact ⟨hword, spelling?_ne_of_ofWord hword (hlexeme ▸ hname)⟩
    · rw [← hchars, hw]
      rfl
  · rw [← hkind, ← hlexeme] at hspelling
    exact of_spelling? hspelling fun _ => hend

theorem of_numeral {value : Int32} (hk : k.kind = .integer value)
    (hdigits : IsNumeral k.lexeme.toList) (hend : after.head?.any Char.isDigit = false)
    (hvalue : value.toInt = if Element.decimal k.lexeme.toList ≤ Element.maxInteger
      then (Element.decimal k.lexeme.toList : Int) else 0) : k.Classified after := by
  refine ⟨by simp [hk, TokenKind.spelling?], by simp [hk], fun v hv => ?_,
    by simp [hk, TokenKind.category], fun _ _ => hend, by simp [hk], by simp [hk]⟩
  rw [hk] at hv
  obtain rfl := TokenKind.integer.inj hv
  exact ⟨hdigits, hvalue⟩

end Classified

end Token

namespace Placed

variable {source : String} {p : Placed} {k : Token} {after : List Char}

theorem munched_of_mem (h : p ∈ placedElements source) :
    p.element.Munched (p.span.after source) := by
  obtain ⟨before, c, cs, after, htext, hspan, hread⟩ := exists_read_of_mem h
  have hmunched := Element.munched_read c cs
  rwa [hread, ← Span.after_of_toList_eq htext, ← hspan] at hmunched

theorem classified_of_token? (hk : p.token? = some k) (h : p.element.Munched after) :
    k.Classified after := by
  obtain ⟨position, e⟩ := p
  obtain ⟨kind, hkind, rfl⟩ := Option.map_eq_some_iff.1 hk
  dsimp only at h
  cases h with
  | word hword hend hsystem =>
    cases hkind
    exact .of_word rfl rfl hword hend hsystem
  | println hend =>
    cases hkind
    exact .of_spelling? rfl fun _ => hend
  | numeral hdigits hend =>
    rename_i digits
    have hchars : (String.ofList digits).toList = digits := String.toList_ofList
    by_cases hrange : Element.decimal digits ≤ Element.maxInteger
    · rw [Element.ofDigits, if_pos hrange] at hkind ⊢
      cases hkind
      refine .of_numeral rfl (hchars.symm ▸ hdigits) hend ?_
      rw [hchars, if_pos hrange, toInt_ofNat_decimal hrange]
    · rw [Element.ofDigits, if_neg hrange] at hkind ⊢
      cases hkind
      refine .of_numeral rfl (hchars.symm ▸ hdigits) hend ?_
      rw [hchars, if_neg hrange]
      rfl
  | mark hspelling hcategory =>
    cases hkind
    refine .of_spelling? ?_ fun hkeyword => ?_
    · rw [hspelling, String.ofList_toList]
    · rw [hkeyword] at hcategory
      simp at hcategory
  | unterminated => cases hkind
  | ignored h =>
    obtain ⟨shape, text⟩ := e
    rcases h with rfl | rfl | rfl <;> cases hkind

/-- A number is a run of digits, and it is an error if it is out of range. -/
theorem error?_of_integer {value : Int32} (hk : p.token? = some k) (h : p.element.Munched after)
    (hvalue : k.kind = .integer value) :
    p.error? = if Element.decimal k.lexeme.toList ≤ Element.maxInteger then none
      else some ⟨.integerOutOfRange k.lexeme, k.span, k.position⟩ := by
  obtain ⟨position, e⟩ := p
  obtain ⟨kind, hkind, rfl⟩ := Option.map_eq_some_iff.1 hk
  dsimp only at h hvalue
  subst hvalue
  cases h with
  | word hword hend hsystem =>
    rename_i w
    have hw : TokenKind.ofWord (String.ofList w) = .integer value := Option.some.inj hkind
    rcases ofWord_eq_identifier_or (String.ofList w) with hname | hspelling
    · rw [hw] at hname
      cases hname
    · rw [hw] at hspelling
      cases hspelling
  | println hend => cases hkind
  | numeral hdigits hend =>
    rename_i digits
    have hchars : (String.ofList digits).toList = digits := String.toList_ofList
    dsimp only
    rw [Element.text_ofDigits, hchars]
    by_cases hrange : Element.decimal digits ≤ Element.maxInteger
    · rw [Element.ofDigits, if_pos hrange, if_pos hrange]
      rfl
    · rw [Element.ofDigits, if_neg hrange, if_neg hrange]
      rfl
  | mark hspelling hcategory =>
    obtain rfl := Option.some.inj hkind
    cases hspelling
  | unterminated => cases hkind
  | ignored h =>
    obtain ⟨shape, text⟩ := e
    rcases h with rfl | rfl | rfl <;> cases hkind

/-- Only a comment that is open at the end of the text is unterminated. -/
theorem after_eq_nil_of_unterminated {e : LexicalError} (he : p.error? = some e)
    (h : p.element.Munched after) (hfault : e.fault = .unterminatedComment) : after = [] := by
  obtain ⟨position, element⟩ := p
  obtain ⟨fault, hf, rfl⟩ := Option.map_eq_some_iff.1 he
  dsimp only at h hfault
  subst hfault
  cases h with
  | word | println | mark => cases hf
  | numeral hdigits hend =>
    rename_i digits
    rcases Element.shape_ofDigits digits with ⟨kind, hshape⟩ | hshape <;>
      simp [fault?, hshape] at hf
  | unterminated => rfl
  | ignored h =>
    obtain ⟨shape, text⟩ := element
    rcases h with rfl | rfl | rfl <;> cases hf

end Placed

/-! ## Whole texts -/

section

variable {source : String} {p : Placed} {k : Token} {e f : LexicalError}

theorem nodup_errors (source : String) : (tokenize source).errors.Nodup :=
  (ordered_errors source).imp fun h heq => by
    subst heq
    exact Nat.lt_irrefl _ h.1

/-- There is one error where an element is one, and none where it is none. -/
theorem filter_span_errors (hp : p ∈ placedElements source) :
    (tokenize source).errors.filter (fun e => e.span = p.span) = p.error?.toList := by
  have hlt : p.span.start < p.span.stop := lt_stop_of_mem_placedElements hp
  have hself : ∀ e ∈ (tokenize source).errors, e.span = p.span → p.error? = some e := by
    intro e he hspan
    by_contra hne
    have hdisjoint := disjoint_of_mem_errors hp he hne
    rw [hspan] at hdisjoint
    rcases hdisjoint with h | h <;> omega
  cases herror : p.error? with
  | none =>
    refine List.filter_eq_nil_iff.2 fun e he hspan => ?_
    rw [hself e he (of_decide_eq_true hspan)] at herror
    cases herror
  | some e =>
    have hspan : e.span = p.span := by
      obtain ⟨fault, -, rfl⟩ := Option.map_eq_some_iff.1 herror
      rfl
    have hmem : e ∈ (tokenize source).errors := List.mem_filterMap.2 ⟨p, hp, herror⟩
    have honly : ∀ f ∈ (tokenize source).errors, decide (f.span = p.span) = decide (f = e) := by
      intro f hf
      refine decide_eq_decide.2 ⟨fun h => ?_, fun h => h ▸ hspan⟩
      rw [hself f hf h] at herror
      exact Option.some.inj herror
    rw [List.filter_congr honly, List.filter_eq,
      List.count_eq_one_of_mem (nodup_errors source) hmem]
    rfl

theorem classified_of_mem_all (h : k ∈ (tokenize source).all) :
    k.Classified (k.span.after source) := by
  rcases List.mem_append.1 h with h | h
  · obtain ⟨p, hp, hk, hspan⟩ := exists_placed_of_mem_tokens h
    rw [← hspan]
    exact Placed.classified_of_token? hk (Placed.munched_of_mem hp)
  · rw [List.mem_singleton.1 h]
    exact ⟨nofun, nofun, nofun, fun h => h.elim nofun nofun, nofun, nofun, nofun⟩

/-- A number has an error of its own if it is out of range, and none if it is not. -/
theorem errors_of_integer {value : Int32} (h : k ∈ (tokenize source).all)
    (hvalue : k.kind = .integer value) :
    (tokenize source).errors.filter (fun e => e.span = k.span) =
      if Element.decimal k.lexeme.toList ≤ Element.maxInteger then []
      else [⟨.integerOutOfRange k.lexeme, k.span, k.position⟩] := by
  rcases List.mem_append.1 h with h | h
  · obtain ⟨p, hp, hk, hspan⟩ := exists_placed_of_mem_tokens h
    rw [← hspan, filter_span_errors hp,
      Placed.error?_of_integer hk (Placed.munched_of_mem hp) hvalue, hspan]
    split <;> rfl
  · rw [List.mem_singleton.1 h] at hvalue
    cases hvalue

/-- An open comment reaches to the end of the text, and all else stands before it. -/
theorem before_of_unterminated (he : e ∈ (tokenize source).errors)
    (hfault : e.fault = .unterminatedComment) :
    e.span.stop = source.utf8ByteSize ∧
      (∀ k ∈ (tokenize source).tokens, k.span.stop ≤ e.span.start) ∧
        ∀ f ∈ (tokenize source).errors, f = e ∨ f.span.stop ≤ e.span.start := by
  obtain ⟨p, hp, hpe, hspan⟩ := exists_placed_of_mem_errors he
  have hstop : p.span.stop = source.utf8ByteSize := by
    have hafter := Placed.after_eq_nil_of_unterminated hpe (Placed.munched_of_mem hp) hfault
    obtain ⟨before, after, htext, hbounds⟩ := Placed.exists_toList_eq_of_mem hp
    rw [hbounds, Span.after_of_toList_eq htext] at hafter
    rw [hbounds, ← utf8Length_toList, htext, hafter, List.append_nil, utf8Length_append]
  have hbefore : ∀ s : Span, s.start < s.stop → s.stop ≤ source.utf8ByteSize →
      s.Disjoint p.span → s.stop ≤ p.span.start := by
    rintro s hlt hsize (h | h)
    · exact h
    · omega
  rw [← hspan]
  refine ⟨hstop, fun k hk => ?_, fun f hf => ?_⟩
  · have hbounds := span_of_mem_tokens hk
    refine hbefore k.span hbounds.1 hbounds.2 (disjoint_of_mem_all hp ?_ fun hpk => ?_)
    · exact List.mem_append_left _ hk
    · obtain ⟨literal, hliteral⟩ := Placed.fault_of_token?_of_error? hpk hpe
      rw [hfault] at hliteral
      cases hliteral
  · by_cases hfe : f = e
    · exact .inl hfe
    obtain ⟨q, hq, -, hqspan⟩ := exists_placed_of_mem_errors hf
    refine .inr (hbefore f.span ?_ ?_ (disjoint_of_mem_errors hp hf fun hpf => ?_))
    · rw [← hqspan]
      exact lt_stop_of_mem_placedElements hq
    · exact (valid_span_of_mem_errors hf).inside
    · rw [hpe] at hpf
      exact hfe (Option.some.inj hpf).symm

/-- At most one comment is open. -/
theorem length_filter_unterminated_le (source : String) :
    ((tokenize source).errors.filter (·.fault = .unterminatedComment)).length ≤ 1 := by
  have hnodup := (nodup_errors source).filter (·.fault = .unterminatedComment)
  have hsame : ∀ e ∈ (tokenize source).errors.filter (·.fault = .unterminatedComment),
      ∀ f ∈ (tokenize source).errors.filter (·.fault = .unterminatedComment), f = e := by
    intro e he f hf
    obtain ⟨he, hfault⟩ := List.mem_filter.1 he
    obtain ⟨hf, hfault'⟩ := List.mem_filter.1 hf
    obtain ⟨hstop, -, hbefore⟩ := before_of_unterminated he (of_decide_eq_true hfault)
    obtain ⟨hstop', -, -⟩ := before_of_unterminated hf (of_decide_eq_true hfault')
    refine (hbefore f hf).resolve_right fun hle => ?_
    obtain ⟨q, hq, -, hqspan⟩ := exists_placed_of_mem_errors he
    have hlt : q.span.start < q.span.stop := lt_stop_of_mem_placedElements hq
    rw [hqspan] at hlt
    omega
  generalize (tokenize source).errors.filter (·.fault = .unterminatedComment) = es at hnodup hsame
  match es with
  | [] | [_] => simp
  | e :: f :: es =>
    have hne : f ≠ e := fun h => by simp [h] at hnodup
    exact absurd (hsame e (by simp) f (by simp)) hne

end

/--
The tokens of a text are what their characters make them, and as long as the text allows. A number
out of range is one error, and an open comment is the last thing in a text.
-/
structure Tokenization.Classified (t : Tokenization) (source : String) : Prop where
  classified : ∀ k ∈ t.all, k.Classified (k.span.after source)
  out_of_range : ∀ k ∈ t.all, ∀ value, k.kind = .integer value →
    t.errors.filter (fun e => e.span = k.span) =
      if Element.decimal k.lexeme.toList ≤ Element.maxInteger then []
      else [⟨.integerOutOfRange k.lexeme, k.span, k.position⟩]
  unterminated_once : (t.errors.filter (·.fault = .unterminatedComment)).length ≤ 1
  unterminated_last : ∀ e ∈ t.errors, e.fault = .unterminatedComment →
    e.span.stop = source.utf8ByteSize ∧ (∀ k ∈ t.tokens, k.span.stop ≤ e.span.start) ∧
      ∀ f ∈ t.errors, f = e ∨ f.span.stop ≤ e.span.start

/-- Reading a text into tokens classifies them correctly, and each is the longest there is. -/
theorem tokenize_classified (source : String) : (tokenize source).Classified source where
  classified _ := classified_of_mem_all
  out_of_range _ hk _ := errors_of_integer hk
  unterminated_once := length_filter_unterminated_le source
  unterminated_last _ := before_of_unterminated

end MiniJava
