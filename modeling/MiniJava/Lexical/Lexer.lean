import MiniJava.Lexical.Element

/-!
# Reading tokens

`tokenize` reads a whole text at once; a `Lexer` gives the same tokens one by one and knows the
errors met so far. `Lexer.collect` is what repeated `Lexer.next` gives: see `Lexer.collect_eq`.
-/

namespace MiniJava

/-- All tokens of a text, the mark of its end, and the errors met. -/
structure Tokenization where
  tokens : List Token
  final : Token
  errors : List LexicalError
deriving DecidableEq, Inhabited

/-- The elements of a text with their places. -/
def placedElements (source : String) : List Placed :=
  Placed.layOut .origin (elements source.toList)

/-- Every element stands at the position of its offset in the text. -/
theorem position_of_mem_placedElements {source : String} {p : Placed}
    (h : p ∈ placedElements source) :
    p.position = (Source.ofString source).position p.position.offset := by
  have hp := Placed.position_of_mem_layOut [] (elements source.toList) h
  rwa [List.nil_append, flatMap_text_elements] at hp

/-- The token that stands for the end of a text. -/
def endToken (source : String) : Token :=
  { kind := .endOfInput
    lexeme := ""
    span := Span.point source.utf8ByteSize
    position := (Source.ofString source).position source.utf8ByteSize }

/-- Read all tokens of a text. -/
def tokenize (source : String) : Tokenization :=
  let placed := placedElements source
  { tokens := placed.filterMap Placed.token?
    final := endToken source
    errors := placed.filterMap Placed.error? }

/-- The mark of the end comes after the tokens, and none of them is one. -/
theorem kind_ne_of_mem_tokens {source : String} {t : Token} (ht : t ∈ (tokenize source).tokens) :
    t.kind ≠ .endOfInput := by
  obtain ⟨p, hp, ht⟩ := List.mem_filterMap.1 ht
  obtain ⟨c, cs, hread⟩ := exists_read_of_mem_elements (Placed.element_mem_of_mem_layOut hp)
  exact Placed.kind_ne_of_token? ht (hread ▸ Element.shape_read_ne c cs)

/-- The tokens with the mark of the end after them. -/
def Tokenization.all (t : Tokenization) : List Token := t.tokens ++ [t.final]

/-- A reading of a text that has come to some point. -/
structure Lexer where
  source : String
  /-- What was not read yet. -/
  pending : List Placed
  /-- The errors met since the start. -/
  errors : List LexicalError
  /-- Whether the end of the text was given out. -/
  finished : Bool
deriving DecidableEq, Inhabited

namespace Lexer

/-- Start to read a text. -/
def start (source : String) : Lexer :=
  { source
    pending := placedElements source
    errors := []
    finished := false }

/-- Start again. -/
def restart (l : Lexer) : Lexer := start l.source

/-- What reading up to the next token gives: the token, the errors met, and what comes after. -/
structure Step where
  token : Option Token
  errors : List LexicalError
  rest : List Placed

/-- Read elements up to the first that yields a token. -/
def scan : List Placed → Step
  | [] => ⟨none, [], []⟩
  | p :: ps =>
    let errors := p.error?.toList
    match p.token? with
    | some t => ⟨some t, errors, ps⟩
    | none =>
      let later := scan ps
      { later with errors := errors ++ later.errors }

/-- The next token. The mark of the end comes once, and after it nothing. -/
def next (l : Lexer) : Option Token × Lexer :=
  if l.finished then (none, l)
  else
    let step := scan l.pending
    let after := { l with pending := step.rest, errors := l.errors ++ step.errors }
    match step.token with
    | some t => (some t, after)
    | none => (some (endToken l.source), { after with finished := true })

/-- All tokens that are left, with the mark of the end. -/
def collect (l : Lexer) : List Token × Lexer :=
  if l.finished then ([], l)
  else
    (l.pending.filterMap Placed.token? ++ [endToken l.source],
      { l with
        pending := []
        errors := l.errors ++ l.pending.filterMap Placed.error?
        finished := true })

/-- The position of a byte offset of the text. -/
def position (l : Lexer) (offset : Nat) : Position := (Source.ofString l.source).position offset

theorem tokens_scan (ps : List Placed) :
    ps.filterMap Placed.token? =
      (scan ps).token.toList ++ (scan ps).rest.filterMap Placed.token? := by
  induction ps with
  | nil => rfl
  | cons p ps ih =>
    cases h : p.token? <;> simp [scan, h, ih]

theorem errors_scan (ps : List Placed) :
    ps.filterMap Placed.error? =
      (scan ps).errors ++ (scan ps).rest.filterMap Placed.error? := by
  induction ps with
  | nil => rfl
  | cons p ps ih =>
    cases h : p.token? <;> cases h' : p.error? <;> simp [scan, h, h', ih]

theorem rest_scan_of_token_eq_none {ps : List Placed}
    (h : (scan ps).token = none) : (scan ps).rest = [] := by
  induction ps with
  | nil => rfl
  | cons p ps ih =>
    cases hp : p.token? <;> simp_all [scan]

/-- Collecting takes tokens one by one until there are none. -/
theorem collect_eq (l : Lexer) :
    l.collect =
      match l.next with
      | (none, after) => ([], after)
      | (some t, after) => (t :: after.collect.1, after.collect.2) := by
  cases hf : l.finished with
  | true => simp [collect, next, hf]
  | false =>
    cases ht : (scan l.pending).token with
    | some t =>
      simp [collect, next, hf, ht, tokens_scan l.pending, errors_scan l.pending]
    | none =>
      simp [collect, next, hf, ht, tokens_scan l.pending, errors_scan l.pending,
        rest_scan_of_token_eq_none ht]

end Lexer

end MiniJava
