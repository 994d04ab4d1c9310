import MiniJava.Report.Diagnostic
import MiniJava.Report.Styled
import MiniJava.Source.Lines
import MiniJava.Source.WhiteSpace

/-!
# Reports with source

A report with source shows the lines that a diagnostic is about, and draws a mark along its span.
The ends of the span are taken as numbers of characters, and so are all columns.
-/

namespace MiniJava

open Chunk

namespace Style

/-- The span of a diagnostic and what is drawn for it. -/
def marked : Style := ⟨[31]⟩

/-- The frame of a report. -/
def frame : Style := ⟨[38, 5, 246]⟩

/-- The frame beside lines that are not lines of the source. -/
def faintFrame : Style := ⟨[38, 5, 240]⟩

/-- The source outside the span. -/
def unmarked : Style := ⟨[38, 5, 249]⟩

/-- The word before a remark. -/
def noteWord : Style := ⟨[38, 5, 115]⟩

end Style

namespace Annotated

/-- Whether a character ends a line of shown source. -/
def isBreak (c : Char) : Bool :=
  c == '\r' || c == '\n' || c == '\x0b' || c == '\x0c' || c.toNat == 0x85 || c.toNat == 0x2028 ||
    c.toNat == 0x2029

/-- A line of shown source: its number from 0, the offset of its first character, and its text. -/
structure Row where
  number : Nat
  start : Nat
  line : Line
deriving DecidableEq, Inhabited

namespace Row

/-- The number of characters of the row, those that end it included. -/
def size (r : Row) : Nat := r.line.chars.length

/-- What is shown of the row. -/
def shown (r : Row) : List Char := trimEnd r.line.chars

/-- Number the rows from `number` on, the first one starting at `start`. -/
def layOut (number start : Nat) : List Line → List Row
  | [] => []
  | l :: ls => ⟨number, start, l⟩ :: layOut (number + 1) (start + l.chars.length) ls

end Row

/-- A source text as it is shown. -/
structure Page where
  /-- The number of characters of the text. -/
  size : Nat
  rows : List Row
deriving DecidableEq, Inhabited

namespace Page

/-- The page of a text. A text that ends with a line ending has no empty row after it. -/
def ofText (source : String) : Page where
  size := source.length
  rows := Row.layOut 0 0 ((Line.split isBreak source.toList).filter fun l => !l.chars.isEmpty)

/-- The row that holds the character offset, which may be the offset of the end. -/
def rowAt? (p : Page) (offset : Nat) : Option Row :=
  if p.size < offset then none else p.rows.reverse.find? fun r => r.start ≤ offset

end Page

/-- How many columns a tab in a column takes up. -/
def tabWidth (column : Nat) : Nat := 4 - column % 4

/--
A number of columns, from `column` on, in which some characters stand, each with its width on the
terminal. There may be columns after the last character.
-/
def columns (column : Nat) : Nat → List Char → List (Nat × Nat)
  | 0, _ => []
  | count + 1, [] => (column, 1) :: columns (column + 1) count []
  | count + 1, c :: cs =>
    (column, if c = '\t' then tabWidth column else 1) :: columns (column + 1) count cs

/-- Marks of a style, one chunk for each. -/
def repeated (count : Nat) (style : Style) (text : String) : StyledText :=
  List.replicate count (styled style text)

/-- Blanks. -/
def blanks (count : Nat) : String := String.ofList (List.replicate count ' ')

/-- The text of a row, the characters from `lo` up to `hi` marked. -/
def Row.text (r : Row) (lo hi : Nat) : StyledText :=
  r.shown.zipIdx.flatMap fun (c, column) =>
    let offset := r.start + column
    let style : Style := if lo ≤ offset ∧ offset < hi then .marked else .unmarked
    if c = '\t' then repeated (tabWidth column) style " "
    else [styled style (if isWhiteSpace c then " " else String.singleton c)]

/-- The frame beside a row, with the number of the row. -/
def numbered (digits : Nat) (r : Row) : StyledText :=
  let number := Nat.repr (r.number + 1)
  [plain " ", styled .frame (blanks (digits - number.length) ++ number ++ " │"), plain " "]

/-- The frame beside a line that is no row. -/
def bar (digits : Nat) : StyledText :=
  [plain " ", styled .faintFrame (blanks (digits + 1) ++ "│"), plain " "]

/-- What is drawn for a span: the ends of the span and the message at it. -/
structure Label where
  lo : Nat
  hi : Nat
  message : String
deriving DecidableEq, Inhabited

/-- The offset of the last character of the span; that of the place itself for an empty span. -/
def Label.last (l : Label) : Nat := max (l.hi - 1) l.lo

/-- Draw one chunk in the first of some columns and another one in each of the others. -/
def drawColumn (width : Nat) (head tail : Chunk) : StyledText :=
  head :: List.replicate (width - 1) tail

/-- The line under a row that marks the span and points down from its middle. -/
def underline (l : Label) (r : Row) (middle column width : Nat) : StyledText :=
  let inside : Bool := l.lo ≤ r.start + column && r.start + column < l.hi
  if column = middle then
    if inside then
      drawColumn width (styled .marked "┬") (styled .marked "─")
    else
      drawColumn width (styled .marked "│") (styled .marked " ")
  else if inside then
    drawColumn width (styled .marked "─") (styled .marked "─")
  else drawColumn width (plain " ") (plain " ")

/-- The line that leads from the middle of the span to the message. -/
def leader (middle column width : Nat) : StyledText :=
  if column = middle then
    drawColumn width (styled .marked "╰") (styled .marked "─")
  else if middle < column then
    drawColumn width (styled .marked "─") (styled .marked "─")
  else drawColumn width (plain " ") (plain " ")

/-- Draw a span within one row. -/
def singleRow (digits : Nat) (l : Label) (r : Row) : StyledText :=
  if r.start + r.size < l.hi then bar digits ++ [plain "\n"]
  else
    let middle := max ((l.lo + l.hi) / 2) l.lo - r.start
    let columns := columns 0 (l.hi - r.start + 2) r.shown
    numbered digits r ++ r.text l.lo l.hi ++ [plain "\n"] ++
      bar digits ++ columns.flatMap (fun c => underline l r middle c.1 c.2) ++
      [plain "\n"] ++
      bar digits ++ columns.flatMap (fun c => leader middle c.1 c.2) ++
      [plain (" " ++ l.message ++ "\n")]

/-- Draw the start of a span that goes on in later rows. -/
def firstRow (digits : Nat) (l : Label) (r : Row) : StyledText :=
  numbered digits r ++
    [styled .marked "╭", styled .marked "─", styled .marked "▶", styled .marked " "] ++
    r.text l.lo l.hi ++ [plain "\n"]

/-- Draw that rows are left out. -/
def gap (digits : Nat) : StyledText :=
  [plain " ", styled .faintFrame (blanks (digits + 1) ++ "┆"), plain " ", styled .marked "┆",
    plain "   \n"]

/-- Draw the end of a span that began in an earlier row. -/
def lastRow (digits : Nat) (l : Label) (r : Row) : StyledText :=
  let total := (columns 0 (r.size + 2) r.shown).foldl (fun n column => n + column.2) 3
  numbered digits r ++
    [styled .marked "├", styled .marked "─", styled .marked "▶", styled .marked " "] ++
    r.text l.lo l.hi ++ [plain "\n"] ++
    bar digits ++ [styled .marked "│", plain (blanks total ++ "\n")] ++
    bar digits ++ [styled .marked "╰"] ++ repeated total .marked "─" ++
    [plain (" " ++ l.message ++ "\n")]

/-- Draw a span that starts in row `a` and ends in a later row `b`, or just after it. -/
def manyRows (digits : Nat) (l : Label) (a b : Row) : StyledText :=
  let ends : Bool := l.last < b.start + b.size
  firstRow digits l a ++
    (if b.number - a.number > 1 || !ends then gap digits else []) ++
    (if ends then lastRow digits l b else [])

/-- What stands before a remark, to the right of the frame. -/
def notePadding (l : Label) (a b : Row) : StyledText :=
  if a.number = b.number then []
  else if a.number = 1 ∧ a.start = l.lo then [styled .marked "│", plain "   "]
  else [plain "    "]

/-- The remark under the drawing. -/
def noteLines (digits : Nat) (padding : StyledText) (note : String) : StyledText :=
  bar digits ++ padding ++ [plain "\n"] ++
    bar digits ++ padding ++ [styled .noteWord "Note", plain (": " ++ note ++ "\n")]

/-- The report under its headline, for a span from row `a` to row `b`. -/
def frame (file : String) (l : Label) (note : Option String) (a b : Row) : StyledText :=
  let digits := (Nat.repr (b.number + 1)).length
  let place := file ++ ":" ++ Nat.repr (a.number + 1) ++ ":" ++ Nat.repr (l.lo - a.start + 1)
  [plain (blanks (digits + 2)), styled .frame "╭", styled .frame "─", styled .frame "[",
    plain place, styled .frame "]", plain "\n",
    plain (blanks (digits + 2)), styled .frame "│", plain "\n"] ++
    (if a.number = b.number then singleRow digits l a else manyRows digits l a b) ++
    note.toList.flatMap (noteLines digits (notePadding l a b)) ++
    [styled .frame (String.ofList (List.replicate (digits + 2) '─') ++ "╯"), plain "\n"]

end Annotated

namespace Diagnostic

/-- What is said at the span: what was expected, or else what is wrong. -/
def labelMessage (d : Diagnostic) : String :=
  match d.expectedSummary?, d.found with
  | some summary, some found => summary ++ ", found " ++ found
  | some summary, none => summary
  | none, _ => d.message

/--
The report of a diagnostic with the source that it is about. There is none for a span that ends
before it starts. Of several remarks the last one is shown.
-/
def annotated? (d : Diagnostic) (file : String) (page : Annotated.Page) : Option StyledText :=
  if d.span.stop < d.span.start then none
  else
    let label : Annotated.Label := ⟨d.span.start, d.span.stop, d.labelMessage⟩
    let headline : StyledText :=
      [styled .marked ("[" ++ d.kind.name ++ "] Error:"), plain (" " ++ d.message ++ "\n")]
    match page.rowAt? label.lo, page.rowAt? label.last with
    | some a, some b => some (headline ++ Annotated.frame file label d.notes.getLast? a b)
    | _, _ => some headline

end Diagnostic

end MiniJava
