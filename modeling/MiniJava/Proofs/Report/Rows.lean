import Mathlib.Data.List.Find
import MiniJava.Report.Annotated

/-!
# Lines and columns of shown text

A report with source cuts the text into rows at more characters than those that end a line of
source, and it has no empty row after the last line ending. Lines and columns are counted here for
both by going through the text, so that they can be compared.
-/

namespace MiniJava

/-! ## Counting lines and columns -/

/-- A line and a column, both counted from 1. -/
@[ext]
structure LineColumn where
  line : Nat
  column : Nat
deriving DecidableEq

/-- The line and the column of a position. -/
def Position.lineColumn (p : Position) : LineColumn := ⟨p.line, p.column⟩

namespace LineColumn

/-- Where a text starts. -/
def origin : LineColumn := ⟨1, 1⟩

variable {ends ends' : Char → Option Char → Bool} {p q : LineColumn} {next : Option Char}
  {cs ds : List Char}

/-- The place after a character before `next`, if `ends` tells whether that ends a line. -/
def pass (ends : Char → Option Char → Bool) (p : LineColumn) (c : Char) (next : Option Char) :
    LineColumn :=
  if ends c next then ⟨p.line + 1, 1⟩ else ⟨p.line, p.column + 1⟩

/-- The place after some characters before `next`. -/
def passAll (ends : Char → Option Char → Bool) (p : LineColumn) (next : Option Char) :
    List Char → LineColumn
  | [] => p
  | c :: cs => passAll ends (p.pass ends c (cs.head?.or next)) next cs

theorem passAll_append : passAll ends p next (cs ++ ds) =
    passAll ends (passAll ends p (ds.head?.or next) cs) next ds := by
  induction cs generalizing p with
  | nil => rfl
  | cons c cs ih => rw [List.cons_append, passAll, ih, passAll, List.head?_append, Option.or_assoc]

/-- One place comes before another one. -/
def Before (p q : LineColumn) : Prop := p.line < q.line ∨ p.line = q.line ∧ p.column < q.column

/-- The place is the same one, or on an earlier line. -/
def Above (p q : LineColumn) : Prop := p = q ∨ p.line < q.line

theorem Above.not_before (h : p.Above q) : ¬ q.Before p := by
  unfold Before
  rcases h with rfl | hlt <;> omega

section

variable (hends : ∀ c next, ends c next = true → ends' c next = true)
include hends

theorem line_pass_lt (h : p.line < q.line) (c : Char) (next : Option Char) :
    (p.pass ends c next).line < (q.pass ends' c next).line := by
  unfold pass
  split
  next hc =>
    rw [if_pos (hends c next hc)]
    exact Nat.succ_lt_succ h
  next =>
    split
    · exact Nat.lt_succ_of_lt h
    · exact h

theorem Above.pass (h : p.Above q) (c : Char) (next : Option Char) :
    (p.pass ends c next).Above (q.pass ends' c next) := by
  rcases h with rfl | hlt
  · unfold LineColumn.pass
    split
    next hc =>
      rw [if_pos (hends c next hc)]
      exact .inl rfl
    next =>
      split
      · exact .inr (Nat.lt_succ_self _)
      · exact .inl rfl
  · exact .inr (line_pass_lt hends hlt c next)

/-- Where more characters end lines, counting is ahead by whole lines. -/
theorem Above.passAll (h : p.Above q) (next : Option Char) (cs : List Char) :
    (passAll ends p next cs).Above (passAll ends' q next cs) := by
  induction cs generalizing p q with
  | nil => exact h
  | cons c cs ih => exact ih (h.pass hends c _)

theorem line_passAll_lt (h : p.line < q.line) (next : Option Char) (cs : List Char) :
    (passAll ends p next cs).line < (passAll ends' q next cs).line := by
  induction cs generalizing p q with
  | nil => exact h
  | cons c cs ih => exact ih (line_pass_lt hends h c _)

/-- It is ahead after a character that ends only lines of the second kind. -/
theorem line_passAll_lt_of_mem {c : Char} (hc : c ∈ cs)
    (honly : ∀ next, ends c next = false ∧ ends' c next = true) (h : p.Above q)
    (next : Option Char) : (passAll ends p next cs).line < (passAll ends' q next cs).line := by
  induction cs generalizing p q with
  | nil => cases hc
  | cons d cs ih =>
    rcases List.mem_cons.1 hc with rfl | hc
    · refine line_passAll_lt hends ?_ next cs
      obtain ⟨hno, hyes⟩ := honly (cs.head?.or next)
      rw [LineColumn.pass, LineColumn.pass, hno, hyes]
      rcases h with rfl | hlt
      · exact Nat.lt_succ_self _
      · exact Nat.lt_succ_of_lt hlt
    · exact ih hc (h.pass hends d _)

end

theorem passAll_congr (h : ∀ c ∈ cs, ∀ next, ends c next = ends' c next) (next : Option Char) :
    passAll ends p next cs = passAll ends' p next cs := by
  induction cs generalizing p with
  | nil => rfl
  | cons c cs ih =>
    obtain ⟨hc, hcs⟩ := List.forall_mem_cons.1 h
    rw [passAll, passAll, pass, pass, hc, ih hcs]

end LineColumn

/-- A position counts lines of source. -/
theorem Position.lineColumn_passAll (p : Position) (next : Option Char) (cs : List Char) :
    (p.passAll next cs).lineColumn = LineColumn.passAll endsLine p.lineColumn next cs := by
  induction cs generalizing p with
  | nil => rfl
  | cons c cs ih =>
    rw [passAll_cons, ih, LineColumn.passAll]
    congr 1
    unfold pass LineColumn.pass lineColumn
    split <;> rfl

namespace Annotated

/-! ## Rows -/

/-- Whether a row ends with the character `c` before `next`. -/
def endsRow (c : Char) (next : Option Char) : Bool := isBreak c && !(c == '\r' && next == some '\n')

/-- Where a line of source ends, there ends a row. -/
theorem endsRow_of_endsLine {c : Char} {next : Option Char}
    (h : Position.endsLine c next = true) : endsRow c next = true := by
  simp only [Position.endsLine, endsRow, isBreak] at h ⊢
  by_cases hc : c = '\r'
  · subst hc
    simpa using h
  · simp_all

/-- Where the text after a character does not make it half of a pair, that character ends a row. -/
theorem endsRow_of_isBreak {c : Char} {cs : List Char} (h : isBreak c = true)
    (hpair : ∀ cs', c = '\r' → cs = '\n' :: cs' → False) : endsRow c cs.head? = true := by
  rw [endsRow, h, Bool.true_and, Bool.not_eq_true', Bool.and_eq_false_imp]
  intro hc
  cases cs with
  | nil => rfl
  | cons d cs =>
    have hd : d ≠ '\n' := fun hd => hpair cs (eq_of_beq hc) (by rw [hd])
    simpa using hd

/-- The place of an offset in a row. -/
def Row.place (r : Row) (offset : Nat) : LineColumn := ⟨r.number + 1, offset - r.start + 1⟩

/-- The rows of some lines. -/
def rowsOf (number start : Nat) (ls : List Line) : List Row :=
  Row.layOut number start (ls.filter fun l => !l.chars.isEmpty)

/-- The last of some rows that starts up to an offset. -/
def lastUpTo (offset : Nat) (rows : List Row) : Option Row :=
  rows.reverse.find? fun r => r.start ≤ offset

variable {number start offset : Nat} {l : Line} {ls : List Line} {r : Row} {c : Char}
  {cs pre post : List Char}

theorem rowsOf_cons (h : l.chars ≠ []) : rowsOf number start (l :: ls) =
    ⟨number, start, l⟩ :: rowsOf (number + 1) (start + l.chars.length) ls := by
  have hl : (!l.chars.isEmpty) = true := by simpa using h
  rw [rowsOf, List.filter_cons_of_pos (p := fun l : Line => !l.chars.isEmpty) hl]
  rfl

theorem start_le_of_mem_layOut (h : r ∈ Row.layOut number start ls) : start ≤ r.start := by
  induction ls generalizing number start with
  | nil => cases h
  | cons l ls ih =>
    rcases List.mem_cons.1 h with rfl | h
    · exact Nat.le_refl _
    · exact Nat.le_trans (Nat.le_add_right _ _) (ih h)

theorem lastUpTo_cons (rows : List Row) : lastUpTo offset (r :: rows) =
    (lastUpTo offset rows).or (if r.start ≤ offset then some r else none) := by
  rw [lastUpTo, List.reverse_cons, List.find?_append, List.find?_singleton]
  simp [lastUpTo]

theorem lastUpTo_of_lt (h : offset < start) : lastUpTo offset (rowsOf number start ls) = none := by
  rw [lastUpTo, List.find?_eq_none]
  intro r hr
  have hle := start_le_of_mem_layOut (List.mem_reverse.1 hr)
  simp only [decide_eq_true_eq]
  omega

theorem start_le_of_lastUpTo {rows : List Row} (h : lastUpTo offset rows = some r) :
    r.start ≤ offset := by
  have hr := List.find?_some h
  exact of_decide_eq_true hr

theorem number_le_of_mem_layOut (h : r ∈ Row.layOut number start ls) : number ≤ r.number := by
  induction ls generalizing number start with
  | nil => cases h
  | cons l ls ih =>
    rcases List.mem_cons.1 h with rfl | h
    · exact Nat.le_refl _
    · exact Nat.le_of_succ_le (ih h)

theorem mem_of_lastUpTo {rows : List Row} (h : lastUpTo offset rows = some r) : r ∈ rows :=
  List.mem_reverse.1 (List.mem_of_find?_eq_some h)

/-- A later offset is in the same row or in a later one. -/
theorem lastUpTo_mono {offset' : Nat} {r' : Row} (hle : offset ≤ offset')
    (hr : lastUpTo offset (Row.layOut number start ls) = some r)
    (hr' : lastUpTo offset' (Row.layOut number start ls) = some r') :
    r = r' ∨ r.number < r'.number := by
  induction ls generalizing number start with
  | nil => cases hr
  | cons l ls ih =>
    rw [Row.layOut, lastUpTo_cons] at hr hr'
    cases htail : lastUpTo offset (Row.layOut (number + 1) (start + l.chars.length) ls) with
    | some q =>
      obtain rfl : q = r := by simpa [htail] using hr
      cases htail' : lastUpTo offset' (Row.layOut (number + 1) (start + l.chars.length) ls) with
      | some q' =>
        obtain rfl : q' = r' := by simpa [htail'] using hr'
        exact ih htail htail'
      | none =>
        -- what starts up to the first offset starts up to the second one
        have hnone := List.find?_eq_none.1 htail' q (List.mem_reverse.2 (mem_of_lastUpTo htail))
        exact absurd (decide_eq_true (Nat.le_trans (start_le_of_lastUpTo htail) hle)) hnone
    | none =>
      rw [htail, Option.none_or, Option.ite_none_right_eq_some] at hr
      obtain ⟨-, heq⟩ := hr
      obtain rfl := Option.some_inj.1 heq
      cases htail' : lastUpTo offset' (Row.layOut (number + 1) (start + l.chars.length) ls) with
      | some q' =>
        obtain rfl : q' = r' := by simpa [htail'] using hr'
        exact .inr (number_le_of_mem_layOut (mem_of_lastUpTo htail'))
      | none =>
        rw [htail', Option.none_or, Option.ite_none_right_eq_some] at hr'
        exact .inl (Option.some_inj.1 hr'.2)

/-- An offset in the first row. -/
theorem lastUpTo_first (hle : start ≤ offset) (hlt : offset < start + l.chars.length) :
    lastUpTo offset (rowsOf number start (l :: ls)) = some ⟨number, start, l⟩ := by
  have hl : l.chars ≠ [] := by
    rintro hnil
    rw [hnil, List.length_nil] at hlt
    omega
  rw [rowsOf_cons hl, lastUpTo_cons, lastUpTo_of_lt hlt, if_pos hle, Option.none_or]

/-- An offset in a later row. -/
theorem lastUpTo_later (hl : l.chars ≠ [])
    (h : lastUpTo offset (rowsOf (number + 1) (start + l.chars.length) ls) = some r) :
    lastUpTo offset (rowsOf number start (l :: ls)) = some r := by
  rw [rowsOf_cons hl, lastUpTo_cons, h, Option.some_or]

end Annotated

/-- Put some text before the first line. -/
def Line.prepend (t : List Char) : List Line → List Line
  | [] => [⟨t, []⟩]
  | l :: ls => { l with text := t ++ l.text } :: ls

theorem Line.prepend_consFirst (t : List Char) (c : Char) (ls : List Line) :
    prepend t (consFirst c ls) = prepend (t ++ [c]) ls := by
  cases ls <;> simp [prepend, consFirst]

/-- The text stands before what was there. -/
theorem Line.exists_prepend_eq (t : List Char) (ls : List Line) :
    ∃ l ls', prepend t ls = l :: ls' ∧ t.length ≤ l.chars.length := by
  cases ls with
  | nil => exact ⟨_, _, rfl, by simp [chars]⟩
  | cons l ls => exact ⟨_, _, rfl, by simp [chars]⟩

namespace Annotated

/-- The place of an offset in the row that starts before the text `t`. -/
theorem place_first (number start : Nat) (t : List Char) (count : Nat) (l : Line) :
    (⟨number, start, l⟩ : Row).place (start + t.length + count) =
      ⟨number + 1, t.length + count + 1⟩ := by
  rw [Row.place, Nat.add_assoc, Nat.add_sub_cancel_left]

/-- A row found after the line `l` is the one that is found among all rows. -/
theorem exists_row_later {t e : List Char} {p : LineColumn} (he : e ≠ [])
    (h : ∃ r, lastUpTo (start + (t ++ e).length + ([] : List Char).length + pre.length)
      (rowsOf (number + 1) (start + (t ++ e).length) (Line.prepend [] ls)) = some r ∧
        r.place (start + (t ++ e).length + ([] : List Char).length + pre.length) = p) :
    ∃ r, lastUpTo (start + t.length + (e ++ pre).length)
      (rowsOf number start (⟨t, e⟩ :: ls)) = some r ∧
        r.place (start + t.length + (e ++ pre).length) = p := by
  obtain ⟨r, hr, hplace⟩ := h
  have hoffset : start + (t ++ e).length + ([] : List Char).length + pre.length =
      start + t.length + (e ++ pre).length := by
    simp only [List.length_append, List.length_nil]
    omega
  rw [hoffset] at hr hplace
  have hne : (⟨t, e⟩ : Line).chars ≠ [] := by simp [Line.chars, he]
  refine ⟨r, lastUpTo_later hne ?_, hplace⟩
  cases ls with
  | nil => exact hr
  | cons l ls => exact hr

/--
The row of a character, and its place in the row. The induction is on the rest of the text after the
part `t` of a row.
-/
theorem exists_row (t : List Char) (number start : Nat) (h : cs = pre ++ c :: post) :
    ∃ r, lastUpTo (start + t.length + pre.length)
        (rowsOf number start (Line.prepend t (Line.split isBreak cs))) = some r ∧
      r.place (start + t.length + pre.length) =
        LineColumn.passAll endsRow ⟨number + 1, t.length + 1⟩ (some c) pre := by
  fun_induction Line.split isBreak cs generalizing t number start pre with
  | case1 => simp at h
  | case2 cs ih =>
    rw [Line.prepend, List.append_nil]
    have hsize : (⟨t, ['\r', '\n']⟩ : Line).chars.length = t.length + 2 := by simp [Line.chars]
    rcases pre with _ | ⟨_, _ | ⟨_, pre⟩⟩
    case nil =>
      refine ⟨_, lastUpTo_first (by omega) (by rw [hsize, List.length_nil]; omega), ?_⟩
      exact place_first number start t 0 _
    case cons.nil =>
      -- the first character of the pair does not end the row yet
      obtain ⟨rfl, rfl, -⟩ : '\r' = _ ∧ '\n' = c ∧ _ := by simpa using h
      refine ⟨_, lastUpTo_first (by omega) (by rw [hsize, List.length_singleton]; omega), ?_⟩
      exact place_first number start t 1 _
    case cons.cons =>
      obtain ⟨rfl, rfl, hrest⟩ : '\r' = _ ∧ '\n' = _ ∧ cs = pre ++ c :: post := by simpa using h
      exact exists_row_later (e := ['\r', '\n']) (List.cons_ne_nil _ _)
        (ih [] (number + 1) (start + (t ++ ['\r', '\n']).length) hrest)
  | case3 d cs hpair hbreak ih =>
    rw [Line.prepend, List.append_nil]
    have hsize : (⟨t, [d]⟩ : Line).chars.length = t.length + 1 := by simp [Line.chars]
    cases pre with
    | nil =>
      refine ⟨_, lastUpTo_first (by omega) (by rw [hsize, List.length_nil]; omega), ?_⟩
      exact place_first number start t 0 _
    | cons _ pre =>
      obtain ⟨rfl, hrest⟩ : d = _ ∧ cs = pre ++ c :: post := by simpa using h
      have hends := endsRow_of_isBreak hbreak hpair
      rw [hrest, List.head?_append, List.head?_cons] at hends
      rw [LineColumn.passAll, LineColumn.pass, if_pos hends]
      exact exists_row_later (e := [d]) (List.cons_ne_nil _ _)
        (ih [] (number + 1) (start + (t ++ [d]).length) hrest)
  | case4 d cs hpair hbreak ih =>
    rw [Line.prepend_consFirst]
    cases pre with
    | nil =>
      obtain ⟨l, ls, heq, hlength⟩ := Line.exists_prepend_eq (t ++ [d]) (Line.split isBreak cs)
      rw [List.length_append, List.length_singleton] at hlength
      rw [heq]
      refine ⟨_, lastUpTo_first (by omega) (by rw [List.length_nil]; omega), ?_⟩
      exact place_first number start t 0 _
    | cons d' pre =>
      obtain ⟨rfl, hrest⟩ : d = d' ∧ cs = pre ++ c :: post := by simpa using h
      obtain ⟨r, hr, hplace⟩ := ih (t ++ [d]) number start hrest
      have hoffset : start + (t ++ [d]).length + pre.length =
          start + t.length + (d :: pre).length := by
        simp only [List.length_append, List.length_cons, List.length_nil]
        omega
      rw [hoffset] at hr hplace
      refine ⟨r, hr, ?_⟩
      rw [hplace, LineColumn.passAll, LineColumn.pass, if_neg (by simp [endsRow, hbreak]),
        List.length_append]
      rfl

/-! ## Places on a page -/

/-- The line and the column that a page shows for an offset. -/
def Page.place? (p : Page) (offset : Nat) : Option LineColumn :=
  (p.rowAt? offset).map fun r => r.place offset

variable {source : String}

theorem rowAt?_ofText (h : offset ≤ source.length) : (Page.ofText source).rowAt? offset =
    lastUpTo offset (rowsOf 0 0 (Line.split isBreak source.toList)) :=
  if_neg (Nat.not_lt.2 h)

theorem rowsOf_prepend_nil (number start : Nat) (ls : List Line) :
    rowsOf number start (Line.prepend [] ls) = rowsOf number start ls := by
  cases ls <;> rfl

theorem length_eq_of_toList (h : source.toList = cs) : source.length = cs.length := by
  rw [← h, String.length_toList]

/-- Before a character of the text, the place is counted by rows. -/
theorem place?_of_toList_eq (h : source.toList = pre ++ c :: post) :
    (Page.ofText source).place? pre.length =
      some (LineColumn.passAll endsRow .origin (some c) pre) := by
  have hlength := length_eq_of_toList h
  rw [List.length_append] at hlength
  obtain ⟨r, hr, hplace⟩ := exists_row [] 0 0 h
  rw [rowsOf_prepend_nil, List.length_nil, Nat.add_zero, Nat.zero_add] at hr
  rw [List.length_nil, Nat.add_zero, Nat.zero_add] at hplace
  rw [Page.place?, rowAt?_ofText (by omega), hr]
  exact congrArg some hplace

theorem start_lt_of_mem_layOut (hls : ∀ l ∈ ls, l.chars ≠ [])
    (h : r ∈ Row.layOut number start ls) : r.start < start + (ls.flatMap Line.chars).length := by
  induction ls generalizing number start with
  | nil => cases h
  | cons l ls ih =>
    obtain ⟨hl, hls⟩ := List.forall_mem_cons.1 hls
    have hpos := List.length_pos_iff.2 hl
    rw [List.flatMap_cons, List.length_append]
    rcases List.mem_cons.1 h with rfl | h
    · dsimp only
      omega
    · have hlt := ih hls h
      omega

/-- The lines that are left out have no characters. -/
theorem flatMap_chars_filter (ls : List Line) :
    (ls.filter fun l => !l.chars.isEmpty).flatMap Line.chars = ls.flatMap Line.chars := by
  induction ls with
  | nil => rfl
  | cons l ls ih =>
    rw [List.filter_cons, List.flatMap_cons]
    cases hl : l.chars with
    | nil => simpa [hl] using ih
    | cons c cs => simpa [hl] using ih

theorem start_lt_of_mem_rowsOf (h : r ∈ rowsOf 0 0 (Line.split isBreak source.toList)) :
    r.start < source.length := by
  have hlt := start_lt_of_mem_layOut (fun l hl => by simpa using (List.mem_filter.1 hl).2) h
  rwa [flatMap_chars_filter, Line.flatMap_chars_split, String.length_toList, Nat.zero_add] at hlt

/-- The end of the text is on the row of the last character, whatever that is. -/
theorem place?_length (h : source.toList = pre ++ [c]) :
    (Page.ofText source).place? source.length =
      some ⟨(LineColumn.passAll endsRow .origin (some c) pre).line,
        (LineColumn.passAll endsRow .origin (some c) pre).column + 1⟩ := by
  have hlength : source.length = pre.length + 1 := by
    rw [length_eq_of_toList h, List.length_append, List.length_singleton]
  have hbefore := place?_of_toList_eq h
  have hle := Nat.le_of_eq hlength.symm
  rw [Page.place?, rowAt?_ofText (Nat.le_of_succ_le hle)] at hbefore
  rw [Page.place?, rowAt?_ofText (Nat.le_refl _)]
  have hsame : lastUpTo source.length (rowsOf 0 0 (Line.split isBreak source.toList)) =
      lastUpTo pre.length (rowsOf 0 0 (Line.split isBreak source.toList)) := by
    refine List.find?_congr fun r hr => ?_
    have hlt := start_lt_of_mem_rowsOf (List.mem_reverse.1 hr)
    exact decide_eq_decide.2 (by omega)
  obtain ⟨r, hr, hplace⟩ := Option.map_eq_some_iff.1 hbefore
  have hstart := start_le_of_lastUpTo hr
  rw [hsame, hr, ← hplace, hlength, Option.map_some, Row.place, Row.place,
    Nat.sub_add_comm hstart]

theorem place?_of_lt (h : source.length < offset) :
    (Page.ofText source).place? offset = none := by
  have hnone : (Page.ofText source).rowAt? offset = none := if_pos h
  rw [Page.place?, hnone]
  rfl

/-- An empty text shows no row. -/
theorem place?_of_nil (h : source.toList = []) (offset : Nat) :
    (Page.ofText source).place? offset = none := by
  rw [Page.place?, Page.rowAt?, Page.ofText, h]
  split <;> rfl

/-- Later offsets have later places. -/
theorem before_of_place? {offset' : Nat} {p q : LineColumn} (hlt : offset < offset')
    (hp : (Page.ofText source).place? offset = some p)
    (hq : (Page.ofText source).place? offset' = some q) : p.Before q := by
  have hinside : ∀ {o lc}, (Page.ofText source).place? o = some lc → o ≤ source.length := by
    intro o lc h
    by_contra hlt
    rw [place?_of_lt (Nat.lt_of_not_le hlt)] at h
    cases h
  obtain ⟨r, hr, rfl⟩ := Option.map_eq_some_iff.1 hp
  obtain ⟨r', hr', rfl⟩ := Option.map_eq_some_iff.1 hq
  rw [rowAt?_ofText (hinside hp)] at hr
  rw [rowAt?_ofText (hinside hq)] at hr'
  rcases lastUpTo_mono (Nat.le_of_lt hlt) hr hr' with rfl | hnumber
  · have hstart := start_le_of_lastUpTo hr
    exact .inr ⟨rfl, by simp only [Row.place]; omega⟩
  · exact .inl (Nat.succ_lt_succ hnumber)

end Annotated

end MiniJava
