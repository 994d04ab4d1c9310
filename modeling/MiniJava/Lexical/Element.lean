import MiniJava.Lexical.Token
import MiniJava.Lexical.Error
import MiniJava.Source.Lines

/-!
# Lexical elements

A text is a row of elements: tokens, blanks, comments and pieces that are none of these. Each
element holds its own characters, so `elements` loses nothing: see `flatMap_text_elements`.
-/

namespace MiniJava

/-- What an element of the text is. -/
inductive Shape where
  | token (kind : TokenKind)
  /-- A run of digits whose number is no integer of the language. -/
  | oversized
  | blank
  | comment
  | unrecognized
  | unterminated
deriving DecidableEq, Inhabited

/-- A piece of the text and what it is. -/
structure Element where
  shape : Shape
  text : List Char
deriving DecidableEq, Inhabited

namespace Element

/-- The characters between tokens: space, tab, line feed, carriage return and form feed. -/
def isBlank (c : Char) : Bool :=
  c == ' ' || c == '\t' || c == '\r' || c == '\n' || c == '\x0c'

/-- The characters that a word may start with: an ASCII letter or an underscore. -/
def isWordStart (c : Char) : Bool := c.isAlpha || c == '_'

/-- The characters that a word may go on with. -/
def isWordChar (c : Char) : Bool := c.isAlphanum || c == '_'

/-- The number that a run of decimal digits stands for. -/
def decimal (digits : List Char) : Nat :=
  digits.foldl (fun n d => 10 * n + (d.toNat - '0'.toNat)) 0

/-- The largest integer of the language. -/
def maxInteger : Nat := 2147483647

/-- A run of digits is an integer token when its number is in range. -/
def ofDigits (digits : List Char) : Element :=
  if decimal digits ≤ maxInteger then
    ⟨.token (.integer (Int32.ofNat (decimal digits))), digits⟩
  else
    ⟨.oversized, digits⟩

/-- What follows the word `System` in the keyword of the print statement. -/
def printlnTail : List Char := ['.', 'o', 'u', 't', '.', 'p', 'r', 'i', 'n', 't', 'l', 'n']

/-- The text after the tail of the print keyword, if it is there and ends as a word ends. -/
def afterPrintln? (cs : List Char) : Option (List Char) :=
  match printlnTail.isPrefixOf? cs with
  | some rest => if rest.head?.any isWordChar then none else some rest
  | none => none

/-- Read a word, which with the right tail is the print keyword. -/
def readWord (word cs : List Char) : Element × List Char :=
  if word = ['S', 'y', 's', 't', 'e', 'm'] then
    match afterPrintln? cs with
    | some rest => (⟨.token .printlnKw, word ++ printlnTail⟩, rest)
    | none => (⟨.token .identifier, word⟩, cs)
  else
    (⟨.token (TokenKind.ofWord (String.ofList word)), word⟩, cs)

/-- Cut a text after the first end of a block comment. -/
def closeComment? : List Char → Option (List Char × List Char)
  | '*' :: '/' :: cs => some (['*', '/'], cs)
  | c :: cs => (closeComment? cs).map fun (inside, rest) => (c :: inside, rest)
  | [] => none

/-- Read an element that is no blank, word or number. -/
def readMark : Char → List Char → Element × List Char
  | '/', '/' :: cs =>
    (⟨.comment, '/' :: '/' :: cs.takeWhile (!Source.isBreak ·)⟩,
      cs.dropWhile (!Source.isBreak ·))
  | '/', '*' :: cs =>
    match closeComment? cs with
    | some (inside, rest) => (⟨.comment, '/' :: '*' :: inside⟩, rest)
    | none => (⟨.unterminated, '/' :: '*' :: cs⟩, [])
  | '&', '&' :: cs => (⟨.token .andAnd, ['&', '&']⟩, cs)
  | c, cs =>
    match TokenKind.ofMark? c with
    | some kind => (⟨.token kind, [c]⟩, cs)
    | none => (⟨.unrecognized, [c]⟩, cs)

/-- Read the longest element at the start of the text `c :: cs`, and give the text after it. -/
def read (c : Char) (cs : List Char) : Element × List Char :=
  if isBlank c then (⟨.blank, c :: cs.takeWhile isBlank⟩, cs.dropWhile isBlank)
  else if isWordStart c then readWord (c :: cs.takeWhile isWordChar) (cs.dropWhile isWordChar)
  else if c.isDigit then (ofDigits (c :: cs.takeWhile Char.isDigit), cs.dropWhile Char.isDigit)
  else readMark c cs

theorem eq_append_of_isPrefixOf? {p cs rest : List Char} (h : p.isPrefixOf? cs = some rest) :
    cs = p ++ rest := by
  induction p generalizing cs with
  | nil =>
    cases h
    rfl
  | cons a p ih =>
    cases cs with
    | nil => cases h
    | cons c cs =>
      have h : (if a == c then p.isPrefixOf? cs else none) = some rest := h
      split at h
      · next hac => rw [eq_of_beq hac, ih h, List.cons_append]
      · cases h

theorem eq_append_of_afterPrintln? {cs rest : List Char} (h : afterPrintln? cs = some rest) :
    cs = printlnTail ++ rest := by
  unfold afterPrintln? at h
  split at h
  next r hr =>
    split at h
    · cases h
    · cases h
      exact eq_append_of_isPrefixOf? hr
  next => cases h

theorem eq_append_of_closeComment? {cs inside rest : List Char}
    (h : closeComment? cs = some (inside, rest)) : cs = inside ++ rest := by
  fun_induction closeComment? cs generalizing inside rest with
  | case1 cs =>
    cases h
    rfl
  | case2 c cs _ ih =>
    obtain ⟨⟨i, r⟩, hr, hp⟩ := Option.map_eq_some_iff.1 h
    cases hp
    rw [ih hr, List.cons_append]
  | case3 => cases h

theorem text_ofDigits (digits : List Char) : (ofDigits digits).text = digits := by
  unfold ofDigits
  split <;> rfl

theorem text_readWord (word cs : List Char) :
    (readWord word cs).1.text ++ (readWord word cs).2 = word ++ cs := by
  unfold readWord
  split
  · split
    next rest h => simp [eq_append_of_afterPrintln? h]
    next => rfl
  · rfl

theorem text_readMark (c : Char) (cs : List Char) :
    (readMark c cs).1.text ++ (readMark c cs).2 = c :: cs := by
  unfold readMark
  split
  · simp
  · split
    next h => simp [eq_append_of_closeComment? h]
    next => simp
  · rfl
  · split <;> rfl

/-- An element and the text after it make up the text that was read. -/
theorem text_read (c : Char) (cs : List Char) :
    (read c cs).1.text ++ (read c cs).2 = c :: cs := by
  unfold read
  split
  · simp
  · split
    · rw [text_readWord]
      simp
    · split
      · simp [text_ofDigits]
      · exact text_readMark c cs

theorem readWord_text_ne_nil {word : List Char} (h : word ≠ []) (cs : List Char) :
    (readWord word cs).1.text ≠ [] := by
  unfold readWord
  split
  · split <;> simp_all
  · exact h

theorem readMark_text_ne_nil (c : Char) (cs : List Char) : (readMark c cs).1.text ≠ [] := by
  unfold readMark
  split
  · simp
  · split <;> simp
  · simp
  · split <;> simp

/-- No element is empty. -/
theorem read_text_ne_nil (c : Char) (cs : List Char) : (read c cs).1.text ≠ [] := by
  unfold read
  split
  · simp
  · split
    · exact readWord_text_ne_nil (by simp) _
    · split
      · simp [text_ofDigits]
      · exact readMark_text_ne_nil c cs

theorem length_read_le (c : Char) (cs : List Char) : (read c cs).2.length ≤ cs.length := by
  have h := congrArg List.length (text_read c cs)
  have hpos := List.length_pos_iff.2 (read_text_ne_nil c cs)
  simp only [List.length_append, List.length_cons] at h
  omega

theorem shape_readWord_ne (word cs : List Char) :
    (readWord word cs).1.shape ≠ .token .endOfInput := by
  unfold readWord
  split
  · split <;> nofun
  · exact fun h => TokenKind.ofWord_ne_endOfInput _ (Shape.token.inj h)

theorem shape_readMark_ne (c : Char) (cs : List Char) :
    (readMark c cs).1.shape ≠ .token .endOfInput := by
  unfold readMark
  split
  · nofun
  · split <;> nofun
  · nofun
  · split
    next h => exact fun heq => TokenKind.ne_endOfInput_of_ofMark? h (Shape.token.inj heq)
    next => nofun

/-- No element marks the end of the text. -/
theorem shape_read_ne (c : Char) (cs : List Char) :
    (read c cs).1.shape ≠ .token .endOfInput := by
  unfold read
  split
  · nofun
  · split
    · exact shape_readWord_ne _ _
    · split
      · unfold ofDigits
        split <;> nofun
      · exact shape_readMark_ne c cs

end Element

/-- All elements of a text, in order. -/
def elements : List Char → List Element
  | [] => []
  | c :: cs => (Element.read c cs).1 :: elements (Element.read c cs).2
termination_by cs => cs.length
decreasing_by exact Nat.lt_succ_of_le (Element.length_read_le c cs)

/-- The elements make up the text. -/
theorem flatMap_text_elements (cs : List Char) : (elements cs).flatMap Element.text = cs := by
  fun_induction elements cs with
  | case1 => rfl
  | case2 c cs ih => rw [List.flatMap_cons, ih, Element.text_read]

theorem exists_read_of_mem_elements {e : Element} {cs : List Char} (h : e ∈ elements cs) :
    ∃ c cs', e = (Element.read c cs').1 := by
  fun_induction elements cs with
  | case1 => cases h
  | case2 c cs ih =>
    rcases List.mem_cons.1 h with rfl | h
    · exact ⟨c, cs, rfl⟩
    · exact ih h

/-- An element and the position at which it starts. -/
structure Placed where
  position : Position
  element : Element
deriving DecidableEq, Inhabited

namespace Placed

/-- The first character of some elements. -/
def firstChar? : List Element → Option Char
  | [] => none
  | e :: es =>
    match e.text with
    | c :: _ => some c
    | [] => firstChar? es

/-- Put elements one after the other, the first one at `p`. -/
def layOut (p : Position) : List Element → List Placed
  | [] => []
  | e :: es => ⟨p, e⟩ :: layOut (p.passAll (firstChar? es) e.text) es

/-- The bytes of the element. -/
def span (p : Placed) : Span :=
  ⟨p.position.offset, p.position.offset + utf8Length p.element.text⟩

/-- The kind of token that the element yields; a number out of range is read as zero. -/
def kind? (p : Placed) : Option TokenKind :=
  match p.element.shape with
  | .token kind => some kind
  | .oversized => some (.integer 0)
  | .blank | .comment | .unrecognized | .unterminated => none

/-- The fault of the element. -/
def fault? (p : Placed) : Option LexicalFault :=
  match p.element.shape with
  | .unrecognized => some (.unrecognizedCharacter (p.element.text.headD ' '))
  | .oversized => some (.integerOutOfRange (String.ofList p.element.text))
  | .unterminated => some .unterminatedComment
  | .token _ | .blank | .comment => none

/-- The token that the element yields. -/
def token? (p : Placed) : Option Token :=
  p.kind?.map fun kind =>
    { kind, lexeme := String.ofList p.element.text, span := p.span, position := p.position }

/-- The lexical error that the element yields. -/
def error? (p : Placed) : Option LexicalError :=
  p.fault?.map fun fault => { fault, span := p.span, position := p.position }

theorem map_element_layOut (pos : Position) (es : List Element) :
    (layOut pos es).map Placed.element = es := by
  induction es generalizing pos with
  | nil => rfl
  | cons e es ih => rw [layOut, List.map_cons, ih]

theorem element_mem_of_mem_layOut {pos : Position} {es : List Element} {p : Placed}
    (h : p ∈ layOut pos es) : p.element ∈ es := by
  rw [← map_element_layOut pos es]
  exact List.mem_map_of_mem h

/-- Only an element that marks the end would yield a token that does. -/
theorem kind_ne_of_token? {p : Placed} {t : Token} (ht : p.token? = some t)
    (hp : p.element.shape ≠ .token .endOfInput) : t.kind ≠ .endOfInput := by
  obtain ⟨position, shape, text⟩ := p
  obtain ⟨kind, hkind, rfl⟩ := Option.map_eq_some_iff.1 ht
  cases shape with
  | token k =>
    obtain rfl := Option.some.inj hkind
    exact fun h => hp (congrArg Shape.token h)
  | oversized =>
    obtain rfl := Option.some.inj hkind
    nofun
  | blank | comment | unrecognized | unterminated => cases hkind

theorem firstChar?_eq (es : List Element) :
    firstChar? es = (es.flatMap Element.text).head? := by
  induction es with
  | nil => rfl
  | cons e es ih =>
    obtain ⟨shape, text⟩ := e
    cases text <;> simp [firstChar?, ih]

/-- Elements that are laid out after the text `before` stand at the positions of their offsets. -/
theorem position_of_mem_layOut (before : List Char) (es : List Element) {p : Placed}
    (h : p ∈ layOut (Position.origin.passAll (firstChar? es) before) es) :
    p.position =
      Source.position ⟨before ++ es.flatMap Element.text⟩ p.position.offset := by
  induction es generalizing before with
  | nil => simp [layOut] at h
  | cons e es ih =>
    rw [layOut, List.mem_cons] at h
    rcases h with rfl | h
    · simp only [Position.offset_passAll, firstChar?_eq]
      rw [show Position.origin.offset = 0 from rfl, Nat.zero_add, Source.position_eq_passAll]
    · rw [List.flatMap_cons, ← List.append_assoc]
      apply ih
      rw [firstChar?_eq, List.flatMap_cons, List.head?_append, ← firstChar?_eq] at h
      rwa [Position.passAll_append]

end Placed

end MiniJava
