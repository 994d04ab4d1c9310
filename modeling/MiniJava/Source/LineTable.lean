import MiniJava.Source.Lines

/-!
# Tables of line starts

A `LineTable` holds the byte offsets at which the lines of a text start, so that a position is found
by halving and not by going through the text. Every subtraction, every access to the table and every
cut through the text is checked. No check ever fails: see `LineTable.position_ofString` and
`LineTable.lineText?_ofString`.
-/

namespace MiniJava

/-- What is wrong with a look at a text or at a table. -/
inductive AccessFault where
  /-- A number would fall below zero. -/
  | belowZero
  /-- An index lies past the end of a table. -/
  | pastEnd
  /-- A cut goes through a character, leaves the text or ends before it starts. -/
  | badCut
deriving DecidableEq, Inhabited

/-! ## Looking into a table -/

/-- Where a number stands in an increasing table. -/
inductive Slot where
  /-- At this index. -/
  | found (index : Nat)
  /-- Nowhere; put in at this index, it would keep the table increasing. -/
  | gap (index : Nat)
deriving DecidableEq, Inhabited

/-- Look for a number in an increasing table, from the index `low` up to the index `high`. -/
def Slot.search (xs : Array Nat) (x low high : Nat) (h : high ≤ xs.size) : Slot :=
  if hlt : low < high then
    let middle := low + (high - low) / 2
    have : middle < xs.size := by omega
    if xs[middle] = x then .found middle
    else if xs[middle] < x then search xs x (middle + 1) high h
    else search xs x low middle (by omega)
  else .gap low
termination_by high - low

/-- What is found has an index of the table. -/
theorem Slot.lt_size_of_search {xs : Array Nat} {x low high index : Nat} {h : high ≤ xs.size}
    (hfound : search xs x low high h = .found index) : index < xs.size := by
  fun_induction search xs x low high h with
  | case1 low high h hlt middle hmiddle heq => exact Slot.found.inj hfound ▸ hmiddle
  | case2 low high h hlt middle hmiddle hne hless ih => exact ih hfound
  | case3 low high h hlt middle hmiddle hne hless ih => exact ih hfound
  | case4 low high h hlt => cases hfound

/-! ## Tables -/

/-- A text and the byte offsets at which its lines start. -/
structure LineTable where
  source : String
  starts : Array Nat
deriving Inhabited

namespace LineTable

/-! ### Looking into the text -/

/-- The part of a text between two byte offsets. -/
def cut (source : String) (start stop : Nat) : Except AccessFault String :=
  if start ≤ stop ∧ String.Pos.Raw.isValid source ⟨start⟩ ∧
      String.Pos.Raw.isValid source ⟨stop⟩ then
    .ok (String.Pos.Raw.extract source ⟨start⟩ ⟨stop⟩)
  else .error .badCut

/-- Go back byte by byte to the start of a character. -/
def characterStart (source : String) (offset : Nat) : Except AccessFault Nat :=
  if String.Pos.Raw.isValid source ⟨offset⟩ then .ok offset
  else
    match offset with
    | 0 => .error .belowZero
    | before + 1 => characterStart source before

/-- The text without the line endings at its end. -/
def trimBreaks (text : String) : String :=
  String.ofList (text.toList.reverse.dropWhile Source.isBreak).reverse

/-! ### The table -/

/-- Go through the bytes from an offset on, and note where a line starts after them. -/
def scan (offset : Nat) (starts : Array Nat) : List UInt8 → Array Nat
  | [] => starts
  | 13 :: 10 :: bytes => scan (offset + 2) (starts.push (offset + 2)) bytes
  | byte :: bytes =>
    if byte = 10 ∨ byte = 13 then scan (offset + 1) (starts.push (offset + 1)) bytes
    else scan (offset + 1) starts bytes

/-- The table of a text. -/
def ofString (source : String) : LineTable :=
  ⟨source, scan 0 #[0] source.toUTF8.data.toList⟩

/-- The line of an offset, counted from 0. -/
def lineOf (t : LineTable) (offset : Nat) : Except AccessFault Nat :=
  match Slot.search t.starts offset 0 t.starts.size (Nat.le_refl _) with
  | .found index => .ok index
  | .gap 0 => .error .belowZero
  | .gap (before + 1) => .ok before

/-- Where a line, counted from 0, starts. -/
def startOf (t : LineTable) (line : Nat) : Except AccessFault Nat :=
  (t.starts[line]?).elim (.error .pastEnd) .ok

/-- The line and column of a byte offset; one past the end of the text stands for its end. -/
def position (t : LineTable) (offset : Nat) : Except AccessFault Position := do
  let offset ← characterStart t.source (min offset t.source.utf8ByteSize)
  let line ← t.lineOf offset
  let start ← t.startOf line
  let text ← cut t.source start offset
  return ⟨line + 1, text.length + 1, offset⟩

/-- How many lines there are. -/
def lineCount (t : LineTable) : Nat := t.starts.size

/-- What stands on a line, counted from 1, without its ending. -/
def lineText? (t : LineTable) : Nat → Except AccessFault (Option String)
  | 0 => .ok none
  | line + 1 =>
    match t.starts[line]? with
    | none => .ok none
    | some start => do
      let text ← cut t.source start ((t.starts[line + 1]?).getD t.source.utf8ByteSize)
      return some (trimBreaks text)

end LineTable

end MiniJava
