import MiniJava.Proofs.Lexing.Places
import MiniJava.Proofs.Parallel.Program
import MiniJava.Proofs.Reading.Analysis
import MiniJava.Proofs.Report.Sorting

/-!
# Independence of layout

Blanks, comments and characters that are no tokens move the tokens of a text to other places. They
change neither the tree, up to spans, nor what is said of its grammar, nor the order in which it is
said.
-/

namespace MiniJava

variable {Starts : Nat → Nat → Prop}

/-! ## Pairs of places in two texts -/

namespace Region

theorem skipStatement_congr {ts us : List Token} (h : List.Forall₂ (Token.Twin Starts) ts us)
    (moved : Bool) : skipStatement moved ts = skipStatement moved us := by
  induction h generalizing moved with
  | nil => rfl
  | cons ht _ ih => simp only [skipStatement, ht.kind, ih]

theorem skipMember_congr {ts us : List Token} (h : List.Forall₂ (Token.Twin Starts) ts us)
    (moved : Bool) (depth : Nat) : skipMember moved depth ts = skipMember moved depth us := by
  induction h generalizing moved depth with
  | nil => rfl
  | cons ht _ ih => simp only [skipMember, ht.kind, ih]

theorem skipToClass_congr {ts us : List Token} (h : List.Forall₂ (Token.Twin Starts) ts us)
    (moved : Bool) : skipToClass moved ts = skipToClass moved us := by
  induction h generalizing moved with
  | nil => rfl
  | cons ht _ ih => simp only [skipToClass, ht.kind, ih]

/-- How many tokens are skipped is decided by their kinds. -/
theorem skip_congr {ts us : List Token} (h : List.Forall₂ (Token.Twin Starts) ts us)
    (region : Region) (moved : Bool) : region.skip moved ts = region.skip moved us := by
  cases region with
  | statements => exact skipStatement_congr h moved
  | members => exact skipMember_congr h moved 0
  | toplevel => exact skipToClass_congr h moved

end Region

/-- Two places with the same tokens ahead but for where they stand. -/
structure Cursor.Twin (Starts : Nat → Nat → Prop) (c d : Cursor) : Prop where
  regular : c.Regular
  pos : c.pos = d.pos
  kindAt : ∀ p q, Starts p q → c.kindAt p = d.kindAt q
  ahead : List.Forall₂ (Token.Twin Starts) c.ahead d.ahead
  final : c.final.Twin Starts d.final

namespace Cursor.Twin

variable {c d : Cursor}

theorem drop (h : c.Twin Starts d) (n : Nat) : (c.drop n).Twin Starts (d.drop n) where
  regular := (c.reaches_drop n).regular h.regular
  pos := by rw [c.pos_drop, d.pos_drop, h.pos, h.ahead.length_eq]
  kindAt p q hpq := by
    rw [kindAt_congr (c.tokens_drop n), kindAt_congr (d.tokens_drop n)]
    exact h.kindAt p q hpq
  ahead := by
    rw [ahead_drop, ahead_drop]
    exact List.forall₂_drop n h.ahead
  final := by
    rw [final_drop, final_drop]
    exact h.final

theorem current (h : c.Twin Starts d) : c.current.Twin Starts d.current := by
  have hahead := h.ahead
  rw [current_eq, current_eq]
  generalize c.ahead = ts, d.ahead = us at hahead ⊢
  cases hahead with
  | nil => exact h.final
  | cons ht => exact ht

theorem secondKind_eq (h : c.Twin Starts d) : c.secondKind = d.secondKind := by
  have hahead := h.ahead
  rw [secondKind_eq_match, secondKind_eq_match]
  generalize c.ahead = ts, d.ahead = us at hahead ⊢
  cases hahead with
  | nil => rfl
  | cons _ hrest =>
    cases hrest with
    | nil => rfl
    | cons hu _ => exact hu.kind

end Cursor.Twin

/-- Places with the same tokens ahead are paired, and none is a border. -/
def Pairing.twins (Starts : Nat → Nat → Prop) : Pairing where
  Starts := Starts
  Pairs := Cursor.Twin Starts
  Free _ := True
  regular h := h.regular
  pos_eq h := h.pos
  room_eq h := by rw [Cursor.room_eq, Cursor.room_eq, h.ahead.length_eq]
  current h := h.current
  secondKind_eq h := h.secondKind_eq
  kindAt_eq h hpq := h.kindAt _ _ hpq
  free _ _ := trivial
  drop_one h _ := h.drop 1
  skip region moved h _ := ⟨Region.skip_congr h.ahead region moved, h.drop _⟩

/-- Every place is paired with itself. -/
theorem Cursor.Regular.twin {c : Cursor} (h : c.Regular) :
    (Pairing.twins Eq).Pairs c c :=
  ⟨h, rfl, fun _ _ heq => heq ▸ rfl, List.forall₂_same.2 fun _ _ => ⟨rfl, rfl, rfl⟩, rfl, rfl, rfl⟩

/-! ## Ranks of tokens -/

/-- The kinds and the texts of the tokens of a text. -/
def wordsOf (source : String) : List (TokenKind × String) :=
  (tokenize source).tokens.map fun t => (t.kind, t.lexeme)

/-- Where the tokens of a text start, and where it ends. -/
def startsOf (source : String) : List Nat := (tokenize source).all.map (·.span.start)

/-- Tokens of the same rank in two texts start at these places. -/
def SameRank (s t : String) (p q : Nat) : Prop := (p, q) ∈ (startsOf s).zip (startsOf t)

/-- Of two lists that increase, members of the same rank compare alike. -/
theorem le_iff_of_mem_zip {ps qs : List Nat} (hps : ps.Pairwise (· < ·))
    (hqs : qs.Pairwise (· < ·)) {p p' q q' : Nat} (h : (p, q) ∈ ps.zip qs)
    (h' : (p', q') ∈ ps.zip qs) : p ≤ p' ↔ q ≤ q' := by
  induction hps generalizing qs with
  | nil => cases h
  | @cons x ps hx _ ih =>
    cases hqs with
    | nil => cases h
    | @cons y qs hy hqs =>
      rw [List.zip_cons_cons, List.mem_cons, Prod.mk.injEq] at h h'
      rcases h with ⟨rfl, rfl⟩ | h <;> rcases h' with ⟨rfl, rfl⟩ | h'
      · simp
      · have hp := hx _ (List.of_mem_zip h').1
        have hq := hy _ (List.of_mem_zip h').2
        omega
      · have hp := hx _ (List.of_mem_zip h).1
        have hq := hy _ (List.of_mem_zip h).2
        omega
      · exact ih hqs h h'

theorem SameRank.le_iff {s t : String} {p p' q q' : Nat} (h : SameRank s t p q)
    (h' : SameRank s t p' q') : p ≤ p' ↔ q ≤ q' :=
  le_iff_of_mem_zip (starts_increasing s) (starts_increasing t) h h'

variable {s t : String}

/-- The starts of two texts with the same words are paired. -/
theorem startOf_twin (h : wordsOf s = wordsOf t) :
    (startOf s).Twin (SameRank s t) (startOf t) := by
  have hall : (tokenize s).all.map (fun t => (t.kind, t.lexeme)) =
      (tokenize t).all.map fun t => (t.kind, t.lexeme) := by
    rw [Tokenization.all, Tokenization.all, List.map_append, List.map_append]
    exact congrArg₂ (· ++ ·) h rfl
  have hlength : (tokenize s).all.length = (tokenize t).all.length := by
    simpa using congrArg List.length hall
  rw [← List.forall₂_eq_eq_eq, List.forall₂_map_left_iff, List.forall₂_map_right_iff] at hall
  have htwins : List.Forall₂ (Token.Twin (SameRank s t)) (tokenize s).all (tokenize t).all := by
    rw [List.forall₂_iff_zip]
    refine ⟨hlength, fun {a b} hab => ?_⟩
    have hwords := (List.forall₂_iff_zip.1 hall).2 hab
    rw [Prod.mk.injEq] at hwords
    refine ⟨hwords.1, hwords.2, ?_⟩
    rw [SameRank, startsOf, startsOf, List.zip_map]
    exact List.mem_map_of_mem (f := Prod.map _ _) hab
  have hlen : (tokenize s).tokens.length = (tokenize t).tokens.length := by
    simpa [wordsOf] using congrArg List.length h
  have hfront := List.forall₂_take (tokenize s).tokens.length htwins
  have hback := List.forall₂_drop (tokenize s).tokens.length htwins
  rw [Tokenization.all, Tokenization.all, List.take_left, hlen, List.take_left] at hfront
  rw [Tokenization.all, Tokenization.all, List.drop_left, hlen, List.drop_left] at hback
  refine ⟨startOf_regular s, rfl, fun p q hpq => ?_, ?_, ?_⟩
  · -- tokens of the same rank are found where they start
    rw [SameRank, startsOf, startsOf, List.zip_map, List.mem_map] at hpq
    obtain ⟨⟨a, b⟩, hab, heq⟩ := hpq
    obtain ⟨rfl, rfl⟩ := Prod.mk.inj heq
    obtain ⟨ha, hb⟩ := List.of_mem_zip hab
    rw [(startOf_regular s).kindAt_of_mem ha, (startOf_regular t).kindAt_of_mem hb,
      ((List.forall₂_iff_zip.1 htwins).2 hab).kind]
  · rwa [Cursor.ahead_startOf, Cursor.ahead_startOf]
  · rw [Cursor.final_startOf, Cursor.final_startOf]
    cases hback with
    | cons hfinal _ => exact hfinal

/-! ## What is said of the grammar -/

/-- What a diagnostic says, apart from where. -/
structure Wording where
  message : String
  expected : List String
  found : Option String
  notes : List String
deriving DecidableEq

/-- What a diagnostic says, apart from where. -/
def Diagnostic.wording (d : Diagnostic) : Wording := ⟨d.message, d.expected, d.found, d.notes⟩

/-- Diagnostics that say the same at places which correspond. -/
structure Diagnostic.Twin (Starts : Nat → Nat → Prop) (d e : Diagnostic) : Prop where
  wording : d.wording = e.wording
  start : Starts d.span.start e.span.start

theorem Token.Twin.describe {a b : Token} (h : a.Twin Starts b) : a.describe = b.describe := by
  rw [Token.describe, Token.describe, h.kind, h.lexeme]

theorem Fault.Twin.toDiagnostic {f g : Fault} (h : f.Twin Starts g) (s t : String) :
    (f.toDiagnostic s).Twin Starts (g.toDiagnostic t) := by
  cases h with
  | unexpected htoken expected hint =>
    refine ⟨?_, htoken.start⟩
    simp [Fault.toDiagnostic, Fault.toSyntaxError, SyntaxError.unexpected,
      SyntaxError.toDiagnostic, Diagnostic.wording, htoken.describe]
  | misplaced hspan rule => exact ⟨rfl, hspan⟩

theorem Reading.Parallel.value {α : Type} {P : Pairing} {E : Empty → Empty → Prop}
    {V : α → α → Prop} {r r' : Reading Empty α} (h : r.Parallel P E V r') :
    V r.value r'.value := by
  have hvalues := h.outcomes
  rw [Reading.outcome_eq_ok r, Reading.outcome_eq_ok r'] at hvalues
  cases hvalues with
  | ok hv => exact hv

/-- The syntactic diagnostics of a text. -/
def syntacticOf {α : Type} (a : Analysis α) : List Diagnostic :=
  a.diagnostics.filter (·.kind = .syntactic)

theorem syntacticOf_analyze {α : Type} (reader : Reader Empty α) (source : String) :
    syntacticOf (analyze reader source) = (Collector.sorted
      ⟨(reader (startOf source)).faults.map (Fault.toDiagnostic source)⟩).toList := by
  have hlexical : ((tokenize source).errors.map LexicalError.toDiagnostic).filter
      (·.kind = .syntactic) = [] := by
    rw [List.filter_eq_nil_iff, List.forall_mem_map]
    exact fun e _ => of_decide_eq_false rfl
  have hsyntactic : ∀ fs : List Fault, (fs.map (Fault.toDiagnostic source)).filter
      (·.kind = .syntactic) = fs.map (Fault.toDiagnostic source) := by
    intro fs
    rw [List.filter_eq_self, List.forall_mem_map]
    exact fun f _ => decide_eq_true rfl
  have hjoined : syntacticOf (analyze reader source) = (Collector.sorted
      ⟨((tokenize source).errors.map LexicalError.toDiagnostic ++
        (reader (startOf source)).faults.map (Fault.toDiagnostic source)).filter
          (·.kind = .syntactic)⟩).toList := filter_sorted _ _
  rw [hjoined, List.filter_append, hlexical, hsyntactic, List.nil_append]

/--
Texts with the same words, whatever stands between the words, give trees that differ in spans only.
What is said of their grammar is the same, in the same order.
-/
theorem parse_independent_of_layout (h : wordsOf s = wordsOf t) :
    (parse s).tree.structurallyEq (parse t).tree ∧
      (syntacticOf (parse s)).map Diagnostic.wording =
        (syntacticOf (parse t)).map Diagnostic.wording := by
  have hread := Parse.parallel_program (P := .twins (SameRank s t)) (E := fun _ _ : Empty => True)
    (fun _ => trivial) (startOf_twin h)
  constructor
  · rw [Program.structurallyEq, decide_eq_true_eq]
    exact hread.value
  · have hdiagnostics : List.Forall₂ (Diagnostic.Twin (SameRank s t))
        (syntacticOf (parse s)) (syntacticOf (parse t)) := by
      rw [parse, parse, syntacticOf_analyze, syntacticOf_analyze]
      apply forall₂_sorted
      · intro d d' e e' hd he
        exact hd.start.le_iff he.start
      · rw [List.forall₂_map_left_iff, List.forall₂_map_right_iff]
        exact hread.faults.imp fun f g hfg => hfg.toDiagnostic s t
    exact List.map_eq_of_forall₂ (fun _ _ hd => hd.wording) hdiagnostics

/-- Two faulty texts, of which the second has comments, a stray character and a second line. -/
theorem parse_independent_of_layout_commented :
    let source := "class 1 class A \x7b int x \x7d y"
    let commented := "class/**/1\nclass A#\x7b int x // last\n\x7d\r\n\ty"
    wordsOf source = wordsOf commented ∧
      (parse source).tree.structurallyEq (parse commented).tree ∧
      (syntacticOf (parse source)).map Diagnostic.wording =
        (syntacticOf (parse commented)).map Diagnostic.wording :=
  have h := by decide +kernel
  have ⟨htree, hdiagnostics⟩ := parse_independent_of_layout h
  ⟨h, htree, hdiagnostics⟩

end MiniJava
