/-!
# Styled text

A text for a terminal is a row of chunks, some of which have a style. The same chunks are written
plainly or with the escape sequences that switch styles on and off.
-/

namespace MiniJava

/-- A style: the numbers between `ESC[` and `m` of the sequence that switches it on. -/
structure Style where
  codes : List Nat
deriving DecidableEq, Inhabited

namespace Style

/-- The escape sequence that switches the style on. -/
def opening (s : Style) : List Char :=
  '\x1b' :: '[' :: (";".intercalate (s.codes.map Nat.repr)).toList ++ ['m']

/-- The escape sequence that switches all styles off. -/
def closing : List Char := ['\x1b', '[', '0', 'm']

/-- Switch a style on again wherever the text itself switches styles off. -/
def reopen (opening : List Char) : List Char → List Char
  | '\x1b' :: '[' :: '0' :: 'm' :: cs => closing ++ opening ++ reopen opening cs
  | c :: cs => c :: reopen opening cs
  | [] => []

/-- A text between the sequences that switch the style on and off. -/
def wrap (s : Style) (cs : List Char) : List Char := s.opening ++ reopen s.opening cs ++ closing

end Style

/-- Some text, in a style or in none. -/
structure Chunk where
  style : Option Style
  text : String
deriving DecidableEq, Inhabited

namespace Chunk

/-- Text in no style. -/
def plain (text : String) : Chunk := ⟨none, text⟩

/-- Text in a style. -/
def styled (style : Style) (text : String) : Chunk := ⟨some style, text⟩

/-- The characters of a chunk, with its style if `colored`. -/
def chars (colored : Bool) (c : Chunk) : List Char :=
  match c.style with
  | some style => if colored then style.wrap c.text.toList else c.text.toList
  | none => c.text.toList

end Chunk

/-- A row of chunks. -/
abbrev StyledText := List Chunk

/-- The text of the chunks, with their styles if `colored`. -/
def StyledText.render (colored : Bool) (t : StyledText) : String :=
  String.ofList (t.flatMap (Chunk.chars colored))

end MiniJava
