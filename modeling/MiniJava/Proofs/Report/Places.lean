import MiniJava.Proofs.Extents.Program
import MiniJava.Proofs.Report.Coherence
import MiniJava.Proofs.Report.Rows
import MiniJava.Report.Compact

/-!
# Where reports say that a diagnostic is

A compact report counts the characters before a diagnostic, and a report with source takes the
number of the bytes before it for a number of characters. So both name the same place only where
the text up to there has no character of several bytes, and where rows end like lines of source.
-/

namespace MiniJava

open Chunk Annotated

variable {source : String} {d : Diagnostic} {before after cs : List Char} {c : Char}
  {next : Option Char} {p : LineColumn}

/-! ## Bytes and characters -/

theorem length_le_utf8Length (cs : List Char) : cs.length ≤ utf8Length cs := by
  induction cs with
  | nil => exact Nat.le_refl _
  | cons c cs ih =>
    have hc := c.utf8Size_pos
    rw [List.length_cons, utf8Length_cons]
    omega

/-- There are as many bytes as characters if no character takes several bytes. -/
theorem utf8Length_eq_length_iff : utf8Length cs = cs.length ↔ ∀ c ∈ cs, c.utf8Size = 1 := by
  induction cs with
  | nil => simp
  | cons c cs ih =>
    have hc := c.utf8Size_pos
    have hcs := length_le_utf8Length cs
    rw [List.forall_mem_cons, ← ih, List.length_cons, utf8Length_cons]
    omega

/-- Whether a character ends rows but no lines of source, if it takes one byte. -/
def EndsRowOnly (c : Char) : Prop := c = '\x0b' ∨ c = '\x0c'

instance (c : Char) : Decidable (EndsRowOnly c) := inferInstanceAs (Decidable (_ ∨ _))

theorem EndsRowOnly.ends (h : EndsRowOnly c) (next : Option Char) :
    Position.endsLine c next = false ∧ endsRow c next = true := by
  rcases h with rfl | rfl <;> exact ⟨rfl, rfl⟩

theorem endsRow_eq_endsLine (h : c.utf8Size = 1) (hno : ¬ EndsRowOnly c) (next : Option Char) :
    endsRow c next = Position.endsLine c next := by
  have hsmall : c.toNat ≤ 127 := Char.utf8Size_eq_one_iff.1 h
  have hbreak : Annotated.isBreak c = (c == '\r' || c == '\n') := by
    have hwide : ∀ n, 127 < n → (c.toNat == n) = false := fun n hn => by
      rw [beq_eq_false_iff_ne]
      omega
    have hvt : (c == '\x0b') = false := beq_eq_false_iff_ne.2 fun h => hno (.inl h)
    have hff : (c == '\x0c') = false := beq_eq_false_iff_ne.2 fun h => hno (.inr h)
    simp [Annotated.isBreak, hvt, hff, hwide]
  rw [endsRow, hbreak, Position.endsLine]
  by_cases hr : c = '\r'
  · subst hr
    rfl
  · rw [beq_eq_false_iff_ne.2 hr, Bool.false_or, Bool.false_and, Bool.false_and, Bool.not_false,
      Bool.and_true, Bool.or_false]

theorem column_pos (ends : Char → Option Char → Bool) (hp : 0 < p.column) (next : Option Char)
    (cs : List Char) : 0 < (LineColumn.passAll ends p next cs).column := by
  induction cs generalizing p with
  | nil => exact hp
  | cons c cs ih =>
    refine ih ?_
    unfold LineColumn.pass
    split <;> exact Nat.succ_pos _

/-- Counting by rows and by lines of source agrees if nothing ends a row only. -/
theorem passAll_eq_iff (h : ∀ c ∈ cs, c.utf8Size = 1) :
    LineColumn.passAll endsRow p next cs = LineColumn.passAll Position.endsLine p next cs ↔
      ∀ c ∈ cs, ¬ EndsRowOnly c := by
  constructor
  · intro heq c hc honly
    have hends : ∀ c next, Position.endsLine c next = true → endsRow c next = true :=
      fun _ _ => endsRow_of_endsLine
    have hlt := LineColumn.line_passAll_lt_of_mem hends hc honly.ends (.inl (Eq.refl p)) next
    rw [heq] at hlt
    exact absurd hlt (Nat.lt_irrefl _)
  · intro hno
    exact LineColumn.passAll_congr
      (fun c hc next => endsRow_eq_endsLine (h c hc) (hno c hc) next) next

/-! ## Places that agree -/

/-- Up to an offset, bytes are counted like characters, and rows like lines of source. -/
structure CountsAlike (source : String) (offset : Nat) : Prop where
  bytes : ∀ c ∈ source.toList.take offset, c.utf8Size = 1
  /-- Only the last character of the text may end a row and no line of source. -/
  rows : ∀ c ∈ source.toList.dropLast.take offset, ¬ EndsRowOnly c
  /-- The end of the text is not on a line of its own. -/
  ended : offset = source.length → ∃ c ∈ source.toList.getLast?, c ≠ '\n' ∧ c ≠ '\r'

-- the instances are given by name, as there is one that tries all characters that exist
instance (source : String) (offset : Nat) : Decidable (CountsAlike source offset) :=
  have : Decidable (∀ c ∈ source.toList.take offset, c.utf8Size = 1) := List.decidableBAll _ _
  have : Decidable (∀ c ∈ source.toList.dropLast.take offset, ¬ EndsRowOnly c) :=
    List.decidableBAll _ _
  have : Decidable (∃ c ∈ source.toList.getLast?, c ≠ '\n' ∧ c ≠ '\r') :=
    Option.decidableExistsMem _
  decidable_of_iff ((∀ c ∈ source.toList.take offset, c.utf8Size = 1) ∧
    (∀ c ∈ source.toList.dropLast.take offset, ¬ EndsRowOnly c) ∧
      (offset = source.length → ∃ c ∈ source.toList.getLast?, c ≠ '\n' ∧ c ≠ '\r'))
    ⟨fun ⟨hbytes, hrows, hended⟩ => ⟨hbytes, hrows, hended⟩,
      fun h => ⟨h.bytes, h.rows, h.ended⟩⟩

/-- The line and the column of the place after the first characters of a text. -/
theorem lineColumn_position (h : source.toList = before ++ after) :
    ((Source.ofString source).position (utf8Length before)).lineColumn =
      LineColumn.passAll Position.endsLine .origin after.head? before := by
  rw [Source.ofString, h, Source.position_eq_passAll, Position.lineColumn_passAll]
  rfl

/-- A character of several bytes puts off the place that is shown for what comes after it. -/
theorem utf8Size_of_place? (h : source.toList = before ++ after)
    (hplace : (Page.ofText source).place? (utf8Length before) =
      some (LineColumn.passAll Position.endsLine .origin after.head? before)) :
    ∀ c ∈ before, c.utf8Size = 1 := by
  rw [← utf8Length_eq_length_iff]
  refine Nat.le_antisymm (Nat.le_of_not_lt fun hlt => ?_) (length_le_utf8Length before)
  cases after with
  | nil =>
    rw [List.append_nil] at h
    rw [place?_of_lt (by rw [length_eq_of_toList h]; exact hlt)] at hplace
    cases hplace
  | cons c post =>
    have hends : ∀ c next, Position.endsLine c next = true → endsRow c next = true :=
      fun _ _ => endsRow_of_endsLine
    have habove := LineColumn.Above.passAll hends (.inl (Eq.refl .origin)) (some c) before
    exact habove.not_before (before_of_place? hlt (place?_of_toList_eq h) hplace)

theorem endsLine_none_iff : Position.endsLine c none = true ↔ c = '\n' ∨ c = '\r' := by
  simp [Position.endsLine]

/-- The end of a text is shown after its last character, also where that ends a line. -/
theorem place_end_eq_iff (hbytes : ∀ x ∈ before, x.utf8Size = 1) :
    (⟨(LineColumn.passAll endsRow .origin (some c) before).line,
        (LineColumn.passAll endsRow .origin (some c) before).column + 1⟩ : LineColumn) =
      LineColumn.passAll Position.endsLine .origin none (before ++ [c]) ↔
        (∀ x ∈ before, ¬ EndsRowOnly x) ∧ c ≠ '\n' ∧ c ≠ '\r' := by
  have hpass : LineColumn.passAll Position.endsLine .origin none (before ++ [c]) =
      (LineColumn.passAll Position.endsLine .origin (some c) before).pass Position.endsLine c
        none := LineColumn.passAll_append
  have hrows : LineColumn.passAll endsRow .origin (some c) before =
      LineColumn.passAll Position.endsLine .origin (some c) before ↔
        ∀ x ∈ before, ¬ EndsRowOnly x := passAll_eq_iff hbytes
  rw [hpass, ← hrows, ← not_or, ← endsLine_none_iff, LineColumn.pass]
  by_cases hc : Position.endsLine c none = true
  · rw [if_pos hc]
    have hpos := column_pos endsRow (p := .origin) Nat.one_pos (some c) before
    refine iff_of_false (fun heq => ?_) fun h => h.2 hc
    have hcolumn := congrArg LineColumn.column heq
    dsimp only at hcolumn
    omega
  · rw [if_neg hc]
    refine ⟨fun heq => ⟨?_, hc⟩, fun h => by rw [h.1]⟩
    obtain ⟨hline, hcolumn⟩ := LineColumn.mk.inj heq
    exact LineColumn.ext hline (Nat.succ_inj.1 hcolumn)

theorem place?_eq_iff_of_bytes (h : source.toList = before ++ after)
    (hbytes : ∀ c ∈ before, c.utf8Size = 1) :
    (Page.ofText source).place? before.length =
      some (LineColumn.passAll Position.endsLine .origin after.head? before) ↔
        (∀ c ∈ source.toList.dropLast.take before.length, ¬ EndsRowOnly c) ∧
          (before.length = source.length →
            ∃ c ∈ source.toList.getLast?, c ≠ '\n' ∧ c ≠ '\r') := by
  have hlength := length_eq_of_toList h
  cases after with
  | cons c post =>
    have hinside : before.length ≠ source.length := by
      rw [hlength, List.length_append, List.length_cons]
      omega
    have htake : source.toList.dropLast.take before.length = before := by
      rw [h, List.dropLast_append_cons, List.take_left]
    rw [place?_of_toList_eq h, Option.some_inj, List.head?_cons, passAll_eq_iff hbytes, htake]
    simp [hinside]
  | nil =>
    rw [List.append_nil] at h hlength
    rcases List.eq_nil_or_concat before with rfl | ⟨pre, c, rfl⟩
    · rw [place?_of_nil h, h]
      simp [hlength]
    · rw [List.concat_eq_append] at h hbytes hlength ⊢
      have htake : source.toList.dropLast.take (pre ++ [c]).length = pre := by
        rw [h, List.dropLast_concat]
        exact List.take_of_length_le (by simp)
      rw [← hlength, place?_length h, Option.some_inj, hlength, htake, List.head?_nil,
        place_end_eq_iff fun x hx => hbytes x (List.mem_append_left _ hx), h, List.getLast?_concat]
      simp

/-- The place that is shown for the start of a span is its position if counting agrees so far. -/
theorem place?_eq_iff (h : source.toList = before ++ after) :
    (Page.ofText source).place? (utf8Length before) =
      some ((Source.ofString source).position (utf8Length before)).lineColumn ↔
        CountsAlike source (utf8Length before) := by
  rw [lineColumn_position h]
  constructor
  · intro hplace
    have hbytes := utf8Size_of_place? h hplace
    have hlength := utf8Length_eq_length_iff.2 hbytes
    rw [hlength] at hplace ⊢
    obtain ⟨hrows, hended⟩ := (place?_eq_iff_of_bytes h hbytes).1 hplace
    refine ⟨?_, hrows, hended⟩
    rwa [h, List.take_left]
  · intro halike
    have hbytes : ∀ c ∈ before, c.utf8Size = 1 := by
      intro c hc
      refine halike.bytes c ?_
      rw [h, List.take_append, List.take_of_length_le (length_le_utf8Length before)]
      exact List.mem_append_left _ hc
    have hlength := utf8Length_eq_length_iff.2 hbytes
    rw [hlength] at halike ⊢
    exact (place?_eq_iff_of_bytes h hbytes).2 ⟨halike.rows, halike.ended⟩

/-- All offsets up to the end of a text that is not empty are on some row. -/
theorem isSome_rowAt?_iff (h : source.toList ≠ []) (offset : Nat) :
    ((Page.ofText source).rowAt? offset).isSome ↔ offset ≤ source.length := by
  have hplace : ((Page.ofText source).rowAt? offset).isSome =
      ((Page.ofText source).place? offset).isSome := Option.isSome_map.symm
  rw [hplace]
  constructor
  · intro hsome
    by_contra hlt
    rw [place?_of_lt (Nat.lt_of_not_le hlt)] at hsome
    cases hsome
  · intro hle
    rcases Nat.lt_or_eq_of_le hle with hlt | rfl
    · rw [← String.length_toList] at hlt
      have hsplit := (List.take_append_drop offset source.toList).symm
      rw [List.drop_eq_getElem_cons hlt] at hsplit
      have hat := place?_of_toList_eq hsplit
      rw [List.length_take_of_le (Nat.le_of_lt hlt)] at hat
      rw [hat]
      rfl
    · rw [place?_length (List.dropLast_append_getLast h).symm]
      rfl

/-! ## Places in reports -/

/-- A line and a column as they are written. -/
def LineColumn.display (p : LineColumn) : String := Nat.repr p.line ++ ":" ++ Nat.repr p.column

theorem Position.display_eq (p : Position) : p.display = p.lineColumn.display := rfl

theorem LineColumn.display_inj {q : LineColumn} : p.display = q.display ↔ p = q := by
  refine ⟨fun h => ?_, congrArg display⟩
  have hdigits : ∀ n, ∀ c ∈ Nat.toDigits 10 n, c.isDigit = true := fun n c hc =>
    Nat.isDigit_of_mem_toDigits (by decide) (by decide) hc
  have hlist : ∀ p : LineColumn, p.display.toList =
      Nat.toDigits 10 p.line ++ ':' :: Nat.toDigits 10 p.column := by
    intro p
    simp [display, Nat.toList_repr]
  have hfirst : ∀ p : LineColumn,
      p.display.toList.takeWhile Char.isDigit = Nat.toDigits 10 p.line := by
    intro p
    rw [hlist]
    exact takeWhile_append_eq (hdigits p.line) rfl
  have hline := congrArg (fun s : String => s.toList.takeWhile Char.isDigit) h
  rw [hfirst, hfirst] at hline
  have hcolumn := congrArg String.toList h
  rw [hlist, hlist, hline, List.append_cancel_left_eq, List.cons.injEq] at hcolumn
  have hinj : ∀ {m n}, Nat.toDigits 10 m = Nat.toDigits 10 n → m = n := fun {m n} h => by
    rw [← Nat.ofDigitChars_ten_toDigits (n := m), h, Nat.ofDigitChars_ten_toDigits]
  exact LineColumn.ext (hinj hline) (hinj hcolumn.2)

/-- The name of a file and a place in it, above the drawing of a report. -/
def Annotated.heading (width : Nat) (place : String) : StyledText :=
  [plain (blanks width), styled .frame "╭", styled .frame "─", styled .frame "[", plain place,
    styled .frame "]"]

/-- A report with source names a place in a file, under a headline of two chunks. -/
def Annotated.Names (report : StyledText) (file place : String) : Prop :=
  ∃ kind message width rest,
    report = [kind, message] ++ heading width (file ++ ":" ++ place) ++ rest

/-- A compact report names a place on its second line. -/
def Diagnostic.CompactNames (report : StyledText) (place : String) : Prop :=
  ∃ kind colon message rest, report = [kind, colon, message, plain "\n  ", styled .sign "-->",
    plain (" " ++ place ++ "\n")] ++ rest

theorem Annotated.Names.inj {report : StyledText} {file place place' : String}
    (h : Names report file place) (h' : Names report file place') : place = place' := by
  obtain ⟨kind, message, width, rest, rfl⟩ := h
  obtain ⟨kind', message', width', rest', heq⟩ := h'
  have hplaces : kind = kind' ∧ message = message' ∧ blanks width = blanks width' ∧
      place = place' ∧ rest = rest' := by simpa [heading, plain, styled] using heq
  exact hplaces.2.2.2.1

theorem Diagnostic.CompactNames.inj {report : StyledText} {place place' : String}
    (h : CompactNames report place) (h' : CompactNames report place') : place = place' := by
  obtain ⟨kind, colon, message, rest, rfl⟩ := h
  obtain ⟨kind', colon', message', rest', heq⟩ := h'
  have hplaces : kind = kind' ∧ colon = colon' ∧ message = message' ∧ place = place' ∧
      rest = rest' := by simpa [plain, styled] using heq
  exact hplaces.2.2.2.1

theorem compactNames_compact (d : Diagnostic) :
    Diagnostic.CompactNames d.compact d.position.display :=
  ⟨_, _, _, _, by rw [Diagnostic.compact, List.append_assoc]⟩

theorem not_names_headline (kind message : Chunk) {file place : String} :
    ¬ Names [kind, message] file place := by
  rintro ⟨kind', message', width, rest, heq⟩
  simp [heading] at heq

/-- A drawing has a heading with the place of its first row. -/
theorem names_frame (kind message : Chunk) (file : String) (l : Label) (note : Option String)
    (a b : Row) :
    Names ([kind, message] ++ Annotated.frame file l note a b) file (a.place l.lo).display := by
  have hplace : file ++ ":" ++ (a.place l.lo).display =
      file ++ ":" ++ Nat.repr (a.number + 1) ++ ":" ++ Nat.repr (l.lo - a.start + 1) := by
    simp [LineColumn.display, Row.place, String.append_assoc]
  refine ⟨kind, message, (Nat.repr (b.number + 1)).length + 2,
    (Annotated.frame file l note a b).drop 6, ?_⟩
  rw [hplace]
  rfl

/-- A report with source names a place if both ends of the span are on some row. -/
theorem exists_names_annotated?_iff {file place : String} (h : d.span.start ≤ d.span.stop) :
    (∃ report, d.annotated? file (.ofText source) = some report ∧ Names report file place) ↔
      (∃ p, (Page.ofText source).place? d.span.start = some p ∧ p.display = place) ∧
        ((Page.ofText source).rowAt? (max (d.span.stop - 1) d.span.start)).isSome := by
  rw [Diagnostic.annotated?, if_neg (Nat.not_lt.2 h)]
  dsimp only [Label.last]
  rw [Page.place?]
  cases ha : (Page.ofText source).rowAt? d.span.start with
  | none =>
    refine iff_of_false ?_ ?_
    · rintro ⟨report, hreport, hnames⟩
      exact not_names_headline _ _ (Option.some_inj.1 hreport ▸ hnames)
    · rintro ⟨⟨p, hp, -⟩, -⟩
      cases hp
  | some a =>
    cases hb : (Page.ofText source).rowAt? (max (d.span.stop - 1) d.span.start) with
    | none =>
      refine iff_of_false ?_ ?_
      · rintro ⟨report, hreport, hnames⟩
        exact not_names_headline _ _ (Option.some_inj.1 hreport ▸ hnames)
      · rintro ⟨-, hsome⟩
        cases hsome
    | some b =>
      have hframe := names_frame (styled .marked ("[" ++ d.kind.name ++ "] Error:"))
        (plain (" " ++ d.message ++ "\n")) file ⟨d.span.start, d.span.stop, d.labelMessage⟩
        d.notes.getLast? a b
      constructor
      · rintro ⟨report, hreport, hnames⟩
        rw [← Option.some_inj.1 hreport] at hnames
        exact ⟨⟨_, rfl, hframe.inj hnames⟩, rfl⟩
      · rintro ⟨⟨p, hp, rfl⟩, -⟩
        obtain rfl := Option.some_inj.1 hp
        exact ⟨_, rfl, hframe⟩

/-! ## Reports of the diagnostics of a program -/

theorem exists_toList_eq_of_valid {s : Span} (h : s.Valid source) :
    ∃ before after, source.toList = before ++ after ∧ s.start = utf8Length before :=
  exists_of_isValid h.start_boundary

theorem toDiagnostic_mem_diagnostics {fault : Fault}
    (h : fault ∈ ((Parse.program : Reader Empty Program) (startOf source)).faults) :
    fault.toDiagnostic source ∈ (parse source).diagnostics :=
  (diagnostics_analyze_perm Parse.program source).mem_iff.2
    (List.mem_append_right _ (List.mem_map_of_mem h))

/-- Diagnostics are about spans of the text, and show the positions of these. -/
theorem valid_span_and_position (hd : d ∈ (parse source).diagnostics) :
    d.span.Valid source ∧ d.position = (Source.ofString source).position d.span.start := by
  have hadvances := Parse.advances_program (E := fun _ : Empty => True) source (startOf source)
  have hcoherent := coherent_of_holds (holds_of_advances hadvances)
  exact ⟨valid_span_of_mem_diagnostics hadvances hd, hcoherent.position d hd⟩

/--
The two reports of a diagnostic name the same place exactly if bytes count like characters and rows
like lines of source up to the diagnostic, and if its last byte, taken for a number of characters,
is not beyond the end of the text.
-/
theorem reports_name_same_place_iff {file : String} (hd : d ∈ (parse source).diagnostics) :
    (∃ place, Diagnostic.CompactNames d.compact place ∧
      ∃ report, d.annotated? file (.ofText source) = some report ∧ Names report file place) ↔
      CountsAlike source d.span.start ∧ max (d.span.stop - 1) d.span.start ≤ source.length := by
  obtain ⟨hvalid, hposition⟩ := valid_span_and_position hd
  obtain ⟨before, after, htext, hstart⟩ := exists_toList_eq_of_valid hvalid
  have hsame : (∃ place, Diagnostic.CompactNames d.compact place ∧
      ∃ report, d.annotated? file (.ofText source) = some report ∧ Names report file place) ↔
      ∃ report, d.annotated? file (.ofText source) = some report ∧
        Names report file d.position.display := by
    refine ⟨fun ⟨place, hplace, hreport⟩ => ?_, fun h => ⟨_, compactNames_compact d, h⟩⟩
    rwa [hplace.inj (compactNames_compact d)] at hreport
  have hplace : (∃ p, (Page.ofText source).place? d.span.start = some p ∧
      p.display = d.position.display) ↔ CountsAlike source d.span.start := by
    rw [hstart, ← place?_eq_iff htext, ← hstart, ← hposition, Position.display_eq]
    constructor
    · rintro ⟨p, hp, hdisplay⟩
      rwa [← LineColumn.display_inj.1 hdisplay]
    · exact fun hp => ⟨_, hp, rfl⟩
  rw [hsame, exists_names_annotated?_iff hvalid.ordered, hplace]
  refine and_congr_right fun halike => ?_
  refine isSome_rowAt?_iff (fun hnil => ?_) _
  -- an empty text has an end with nothing before it
  obtain ⟨hbefore, -⟩ := List.append_eq_nil_iff.1 (htext.symm.trans hnil)
  have hlength := length_eq_of_toList hnil
  rw [hbefore, utf8Length_nil] at hstart
  obtain ⟨c, hc, -⟩ := halike.ended (hstart.trans hlength.symm)
  rw [hnil] at hc
  cases hc

/-- A number stands where the name of the main class should. -/
theorem reports_name_same_place_literal :
    let source := "class\n\t1"
    ∃ d ∈ (parse source).diagnostics, ∃ place, Diagnostic.CompactNames d.compact place ∧
      ∃ report, d.annotated? "f" (.ofText source) = some report ∧ Names report "f" place := by
  intro source
  obtain ⟨fault, hfault, hspan⟩ : ∃ fault ∈ ((Parse.program : Reader Empty Program)
      (startOf source)).faults, (fault.toDiagnostic source).span = ⟨7, 8⟩ := by decide +kernel
  have hd := toDiagnostic_mem_diagnostics hfault
  have halike : CountsAlike source 7 := by decide +kernel
  refine ⟨_, hd, (reports_name_same_place_iff hd).2 ?_⟩
  rw [hspan]
  exact ⟨halike, by decide +kernel⟩

/-- After a comment with a character of two bytes, the column is one too large. -/
theorem places_differ_after_comment :
    let source := "/* é */ 1"
    ∃ d ∈ (parse source).diagnostics, Diagnostic.CompactNames d.compact "1:9" ∧
      ∃ report, d.annotated? "f" (.ofText source) = some report ∧ Names report "f" "1:10" ∧
        ¬ Names report "f" "1:9" := by
  intro source
  obtain ⟨fault, hfault, hspan, hposition⟩ : ∃ fault ∈ ((Parse.program : Reader Empty Program)
      (startOf source)).faults, (fault.toDiagnostic source).span = ⟨9, 10⟩ ∧
        (fault.toDiagnostic source).position.display = "1:9" := by decide +kernel
  have hreport : ∃ report, (fault.toDiagnostic source).annotated? "f" (.ofText source) =
      some report ∧ Names report "f" "1:10" := by
    rw [exists_names_annotated?_iff (by rw [hspan]; decide), hspan]
    exact ⟨⟨⟨1, 10⟩, by decide +kernel, rfl⟩, by decide +kernel⟩
  obtain ⟨report, hreport, hnames⟩ := hreport
  refine ⟨_, toDiagnostic_mem_diagnostics hfault, hposition ▸ compactNames_compact _, report,
    hreport, hnames, fun hno => absurd (hnames.inj hno) (by decide)⟩

end MiniJava
