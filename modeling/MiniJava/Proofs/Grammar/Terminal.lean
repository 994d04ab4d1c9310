import MiniJava.Lexical.Lexer

/-!
# Terminals

What the grammar sees of a token: its kind and the text it was read from. Integer literals are
known by their value, since one value has many spellings.
-/

namespace MiniJava

/-- A token as the grammar sees it. -/
structure Terminal where
  kind : TokenKind
  /-- The text of the token, which an integer literal does not show. -/
  lexeme : Option String
deriving DecidableEq, Inhabited

namespace Terminal

/-- A keyword, an operator or a punctuation mark. -/
def word (kind : TokenKind) : Terminal := ⟨kind, kind.spelling?⟩

/-- An identifier. -/
def ident (n : String) : Terminal := ⟨.identifier, some n⟩

/-- An integer literal. -/
def number (value : Int32) : Terminal := ⟨.integer value, none⟩

variable {α : Type}

/-- What items with commas between them yield. -/
def commaSeparated (yield : α → List Terminal) : List α → List Terminal
  | [] => []
  | a :: as => yield a ++ as.flatMap fun b => word .comma :: yield b

theorem commaSeparated_cons {yield : α → List Terminal} (a : α) {as : List α}
    (h : as ≠ []) :
    commaSeparated yield (a :: as) = yield a ++ word .comma :: commaSeparated yield as := by
  cases as with
  | nil => exact absurd rfl h
  | cons b as => simp [commaSeparated]

@[simp] theorem kind_word (kind : TokenKind) : (word kind).kind = kind := rfl

@[simp] theorem kind_ident (n : String) : (ident n).kind = .identifier := rfl

@[simp] theorem kind_number (value : Int32) : (number value).kind = .integer value := rfl

end Terminal

/-- What the grammar sees of a token. -/
def Token.terminal (t : Token) : Terminal where
  kind := t.kind
  lexeme :=
    match t.kind with
    | .integer _ => none
    | _ => some t.lexeme

@[simp] theorem Token.kind_terminal (t : Token) : t.terminal.kind = t.kind := rfl

/-- A text that is a name: read by itself, it is one identifier. -/
def IsName (text : String) : Prop := (tokenize text).tokens.map Token.terminal = [.ident text]

instance (text : String) : Decidable (IsName text) :=
  inferInstanceAs (Decidable (_ = _))

/-- A token that some text yields: its text is one that its kind is written with. -/
structure Token.Regular (t : Token) : Prop where
  spelled : ∀ text, t.kind.spelling? = some text → t.lexeme = text
  named : t.kind = .identifier → IsName t.lexeme
  inRange : ∀ value, t.kind = .integer value → 0 ≤ value.toInt
  notEnd : t.kind ≠ .endOfInput

namespace Token.Regular

variable {t : Token} {kind : TokenKind}

theorem terminal_word (h : t.Regular) (hk : t.kind = kind) (hs : kind.spelling?.isSome) :
    t.terminal = .word kind := by
  subst hk
  obtain ⟨text, ht⟩ := Option.isSome_iff_exists.1 hs
  have hl := h.spelled text ht
  cases hk : t.kind <;> simp_all [Token.terminal, Terminal.word, TokenKind.spelling?]

end Token.Regular

theorem Token.terminal_ident {t : Token} (hk : t.kind = .identifier) :
    t.terminal = .ident t.lexeme := by
  simp [Token.terminal, Terminal.ident, hk]

theorem Token.terminal_number {t : Token} {value : Int32} (hk : t.kind = .integer value) :
    t.terminal = .number value := by
  simp [Token.terminal, Terminal.number, hk]

end MiniJava
