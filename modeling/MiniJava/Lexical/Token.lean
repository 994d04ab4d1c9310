import MiniJava.Source.Span

/-!
# Tokens

The kinds of token of the language, how each is spelled and described, and the token itself: a
kind, the text it was read from and its place.
-/

namespace MiniJava

/-- The kinds of token. `comment` is a kind of its own that no text ever yields. -/
inductive TokenKind where
  | classKw | extendsKw | publicKw | staticKw | voidKw | stringKw | intKw | booleanKw | lengthKw
  | ifKw | elseKw | whileKw | trueKw | falseKw | thisKw | newKw | returnKw | recurKw | printlnKw
  | andAnd | lessThan | plus | minus | star | bang | assign
  | leftBrace | rightBrace | leftParen | rightParen | leftBracket | rightBracket
  | comma | semicolon | dot | question | colon
  | identifier
  | integer (value : Int32)
  | comment
  | endOfInput
deriving DecidableEq, Inhabited

/-- The coarse classes of tokens. -/
inductive TokenCategory where
  | keyword | identifier | integerLiteral | operator | punctuation | endOfInput
deriving DecidableEq, Inhabited

/-- The name of a class of tokens in a token listing. -/
def TokenCategory.name : TokenCategory → String
  | .keyword => "Keyword"
  | .identifier => "Identifier"
  | .integerLiteral => "IntegerLiteral"
  | .operator => "Operator"
  | .punctuation => "Punctuation"
  | .endOfInput => "EndOfInput"

namespace TokenKind

/-- The class of a kind; a comment counts as the end of the input. -/
def category : TokenKind → TokenCategory
  | classKw | extendsKw | publicKw | staticKw | voidKw | stringKw | intKw | booleanKw | lengthKw
  | ifKw | elseKw | whileKw | trueKw | falseKw | thisKw | newKw | returnKw | recurKw
  | printlnKw => .keyword
  | andAnd | lessThan | plus | minus | star | bang | assign => .operator
  | leftBrace | rightBrace | leftParen | rightParen | leftBracket | rightBracket
  | comma | semicolon | dot | question | colon => .punctuation
  | identifier => .identifier
  | integer _ => .integerLiteral
  | comment | endOfInput => .endOfInput

/-- The one spelling of a keyword, an operator or a punctuation mark. -/
def spelling? : TokenKind → Option String
  | classKw => some "class"
  | extendsKw => some "extends"
  | publicKw => some "public"
  | staticKw => some "static"
  | voidKw => some "void"
  | stringKw => some "String"
  | intKw => some "int"
  | booleanKw => some "boolean"
  | lengthKw => some "length"
  | ifKw => some "if"
  | elseKw => some "else"
  | whileKw => some "while"
  | trueKw => some "true"
  | falseKw => some "false"
  | thisKw => some "this"
  | newKw => some "new"
  | returnKw => some "return"
  | recurKw => some "recur"
  | printlnKw => some "System.out.println"
  | andAnd => some "&&"
  | lessThan => some "<"
  | plus => some "+"
  | minus => some "-"
  | star => some "*"
  | bang => some "!"
  | assign => some "="
  | leftBrace => some "\x7b"
  | rightBrace => some "\x7d"
  | leftParen => some "("
  | rightParen => some ")"
  | leftBracket => some "["
  | rightBracket => some "]"
  | comma => some ","
  | semicolon => some ";"
  | dot => some "."
  | question => some "?"
  | colon => some ":"
  | identifier | integer _ | comment | endOfInput => none

/-- How messages name a kind: its spelling in backticks, or in words. -/
def display (kind : TokenKind) : String :=
  match kind.spelling? with
  | some text => "`" ++ text ++ "`"
  | none =>
    match kind with
    | identifier => "identifier"
    | integer _ => "integer literal"
    | _ => "end of input"

/-- The keywords that are words of their own. -/
def words : List TokenKind :=
  [classKw, extendsKw, publicKw, staticKw, voidKw, stringKw, intKw, booleanKw, lengthKw,
    ifKw, elseKw, whileKw, trueKw, falseKw, thisKw, newKw, returnKw, recurKw]

/-- The operators and punctuation marks of one character. -/
def marks : List TokenKind :=
  [lessThan, plus, minus, star, bang, assign, leftBrace, rightBrace, leftParen, rightParen,
    leftBracket, rightBracket, comma, semicolon, dot, question, colon]

/-- The kind of a word: the keyword so spelled, or an identifier. -/
def ofWord (text : String) : TokenKind :=
  (words.find? fun k => k.spelling? = some text).getD identifier

/-- The kind of a character that is a token by itself. -/
def ofMark? (c : Char) : Option TokenKind :=
  marks.find? fun k => k.spelling? = some (String.singleton c)

/-- No word marks the end. -/
theorem ofWord_ne_endOfInput (text : String) : ofWord text ≠ endOfInput := by
  unfold ofWord
  cases h : words.find? fun k => k.spelling? = some text with
  | none => decide
  | some kind => exact (by decide : ∀ k ∈ words, k ≠ endOfInput) kind (List.mem_of_find?_eq_some h)

/-- No character marks the end. -/
theorem ne_endOfInput_of_ofMark? {c : Char} {kind : TokenKind} (h : ofMark? c = some kind) :
    kind ≠ endOfInput :=
  (by decide : ∀ k ∈ marks, k ≠ endOfInput) kind (List.mem_of_find?_eq_some h)

end TokenKind

/-- A token: its kind, the text it was read from, and where that text stands. -/
structure Token where
  kind : TokenKind
  lexeme : String
  span : Span
  position : Position
deriving DecidableEq, Inhabited

namespace Token

/-- How messages name a token: names and numbers are quoted, all else is named by its kind. -/
def describe (t : Token) : String :=
  match t.kind with
  | .identifier => "identifier `" ++ t.lexeme ++ "`"
  | .integer _ => "integer literal `" ++ t.lexeme ++ "`"
  | kind => kind.display

/-- The class of a token. -/
def category (t : Token) : TokenCategory := t.kind.category

end Token

end MiniJava
