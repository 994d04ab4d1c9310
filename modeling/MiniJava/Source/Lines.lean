import MiniJava.Source.Span

/-!
# Lines of a text

A text is cut into lines without losing a character: each line keeps the characters that end it.
`Source.position` finds the line and column of a byte offset, and `Position.passAll` goes from one
position to the next: see `Source.position_eq_passAll`.
-/

namespace MiniJava

/-- The number of bytes of the UTF-8 form of some characters. -/
def utf8Length (cs : List Char) : Nat := cs.foldr (fun c n => c.utf8Size + n) 0

@[simp] theorem utf8Length_nil : utf8Length [] = 0 := rfl

@[simp] theorem utf8Length_cons (c : Char) (cs : List Char) :
    utf8Length (c :: cs) = c.utf8Size + utf8Length cs := rfl

@[simp] theorem utf8Length_append (cs ds : List Char) :
    utf8Length (cs ++ ds) = utf8Length cs + utf8Length ds := by
  induction cs with
  | nil => simp
  | cons c cs ih => simp [ih, Nat.add_assoc]

/-- A line: what stands on it and the characters that end it, which the last line lacks. -/
structure Line where
  text : List Char
  ending : List Char
deriving DecidableEq, Inhabited

namespace Line

/-- All characters of the line, its ending included. -/
def chars (l : Line) : List Char := l.text ++ l.ending

/-- Put one more character before the first line. -/
def consFirst (c : Char) : List Line → List Line
  | [] => [⟨[c], []⟩]
  | l :: ls => { l with text := c :: l.text } :: ls

/--
Cut a text into lines. A character for which `breaks` holds ends its line, and the pair `\r\n` is
one ending. There is always a last line, empty when the text ends with a line ending.
-/
def split (breaks : Char → Bool) : List Char → List Line
  | [] => [⟨[], []⟩]
  | '\r' :: '\n' :: cs => ⟨[], ['\r', '\n']⟩ :: split breaks cs
  | c :: cs =>
    if breaks c then ⟨[], [c]⟩ :: split breaks cs else consFirst c (split breaks cs)

theorem flatMap_chars_consFirst (c : Char) (ls : List Line) :
    (consFirst c ls).flatMap chars = c :: ls.flatMap chars := by
  cases ls <;> simp [consFirst, chars]

/-- Cutting a text into lines loses nothing. -/
theorem flatMap_chars_split (breaks : Char → Bool) (cs : List Char) :
    (split breaks cs).flatMap chars = cs := by
  fun_induction split breaks cs with
  | case1 => simp [chars]
  | case2 cs ih => simp [chars, ih]
  | case3 c cs _ _ ih => simp [chars, ih]
  | case4 c cs _ _ ih => rw [flatMap_chars_consFirst, ih]

end Line

/-! ## Positions -/

namespace Position

/-- The start of a text. -/
def origin : Position := ⟨1, 1, 0⟩

/-- Whether a line ends with the character `c` before `next`. The pair `\r\n` ends a line once. -/
def endsLine (c : Char) (next : Option Char) : Bool :=
  c == '\n' || (c == '\r' && next != some '\n')

/-- The position after the character `c`, which stands before `next`. -/
def pass (p : Position) (c : Char) (next : Option Char) : Position :=
  if endsLine c next then ⟨p.line + 1, 1, p.offset + c.utf8Size⟩
  else ⟨p.line, p.column + 1, p.offset + c.utf8Size⟩

/-- The position after some characters, which stand before `next`. -/
def passAll (p : Position) (next : Option Char) : List Char → Position
  | [] => p
  | [c] => p.pass c next
  | c :: d :: cs => (p.pass c (some d)).passAll next (d :: cs)

/--
The position of a byte offset in a text that starts at `p`. An offset inside a character stands for
the start of the character, and one past the end of the text for its end.
-/
def locate (offset : Nat) (p : Position) : List Char → Position
  | [] => p
  | c :: cs =>
    if p.offset + c.utf8Size ≤ offset then locate offset (p.pass c cs.head?) cs else p

@[simp] theorem offset_pass (p : Position) (c : Char) (next : Option Char) :
    (p.pass c next).offset = p.offset + c.utf8Size := by
  unfold pass
  split <;> rfl

theorem passAll_cons (p : Position) (next : Option Char) (c : Char) (cs : List Char) :
    p.passAll next (c :: cs) = (p.pass c (cs.head?.or next)).passAll next cs := by
  cases cs <;> simp [passAll]

@[simp] theorem offset_passAll (p : Position) (next : Option Char) (cs : List Char) :
    (p.passAll next cs).offset = p.offset + utf8Length cs := by
  induction cs generalizing p with
  | nil => rfl
  | cons c cs ih => simp [passAll_cons, ih, Nat.add_assoc]

theorem passAll_append (p : Position) (next : Option Char) (cs ds : List Char) :
    p.passAll next (cs ++ ds) = (p.passAll (ds.head?.or next) cs).passAll next ds := by
  induction cs generalizing p with
  | nil => rfl
  | cons c cs ih =>
    rw [List.cons_append, passAll_cons, ih, passAll_cons, List.head?_append, Option.or_assoc]

theorem locate_of_offset_eq {offset : Nat} {p : Position} (h : p.offset = offset)
    (cs : List Char) : locate offset p cs = p := by
  cases cs with
  | nil => rfl
  | cons c cs =>
    have := c.utf8Size_pos
    rw [locate, if_neg (by omega)]

/-- Looking for an offset passes all characters that end before it. -/
theorem locate_append {offset : Nat} {p : Position} (cs ds : List Char)
    (h : p.offset + utf8Length cs ≤ offset) :
    locate offset p (cs ++ ds) = locate offset (p.passAll ds.head? cs) ds := by
  induction cs generalizing p with
  | nil => rfl
  | cons c cs ih =>
    rw [utf8Length_cons] at h
    rw [List.cons_append, locate, if_pos (by omega), passAll_cons, List.head?_append]
    exact ih (by rw [offset_pass]; omega)

end Position

/-- A source text, in which `\n`, `\r\n` and a lone `\r` end a line. -/
structure Source where
  chars : List Char
deriving DecidableEq, Inhabited

namespace Source

/-- The source text with the characters of a string. -/
def ofString (source : String) : Source := ⟨source.toList⟩

/-- Whether a character ends a line of source text. -/
def isBreak (c : Char) : Bool := c == '\n' || c == '\r'

/-- The line and column of a byte offset. -/
def position (s : Source) (offset : Nat) : Position := .locate offset .origin s.chars

/-- The lines of the text. -/
def lines (s : Source) : List Line := Line.split isBreak s.chars

/-- How many lines there are. -/
def lineCount (s : Source) : Nat := s.lines.length

/-- What stands on a line, counted from 1, without its ending. -/
def lineText? (s : Source) : Nat → Option String
  | 0 => none
  | n + 1 => (s.lines[n]?).map fun l => String.ofList l.text

/-- The position between two parts of a text is where the first part leads. -/
theorem position_eq_passAll (cs ds : List Char) :
    position ⟨cs ++ ds⟩ (utf8Length cs) = Position.origin.passAll ds.head? cs := by
  rw [position, Position.locate_append cs ds (by simp [Position.origin]),
    Position.locate_of_offset_eq (by simp [Position.origin])]

end Source

end MiniJava
