import MiniJava.Proofs.Progress.Trail
import MiniJava.Proofs.Reading.Advances

/-!
# Where rules of order are said to be broken

`Reading.Settles` says what comes of reading, together with the places at which it notes that one
rule of order is broken. A failure must have noted none, since what failed shows in no tree. Each
way to build a reader has one rule.
-/

namespace MiniJava

variable {ε ε' α β σ : Type}

/-! ## Places -/

/-- The fault is a token that could not stand where it does. -/
def Fault.IsObjection : Fault → Prop
  | unexpected .. => True
  | misplaced .. => False

/-- Where the fault says that the rule is broken. -/
def Fault.brokenAt? (rule : OrderRule) : Fault → Option Span
  | unexpected .. => none
  | misplaced r span => if r = rule then some span else none

/-- Where some faults say that the rule is broken. -/
def breaches (rule : OrderRule) (fs : List Fault) : List Span := fs.filterMap (Fault.brokenAt? rule)

/-- The spans of the diagnostics that say that the rule is broken. -/
def reportsOf (rule : OrderRule) (ds : List Diagnostic) : List Span :=
  (ds.filter (·.message = rule.message)).map Diagnostic.span

theorem breaches_append (rule : OrderRule) (fs gs : List Fault) :
    breaches rule (fs ++ gs) = breaches rule fs ++ breaches rule gs :=
  List.filterMap_append

theorem breaches_of_objections {rule : OrderRule} {fs : List Fault}
    (h : ∀ fault ∈ fs, fault.IsObjection) : breaches rule fs = [] := by
  rw [breaches, List.filterMap_eq_nil_iff]
  intro fault hfault
  cases fault with
  | unexpected => rfl
  | misplaced => exact (h _ hfault).elim

theorem OrderRule.message_inj {r r' : OrderRule} : r.message = r'.message ↔ r = r' := by
  refine ⟨fun h => ?_, fun h => h ▸ rfl⟩
  cases r <;> cases r' <;> first | rfl | exact absurd h (by decide)

theorem head?_toList_append {text : String} {char : Char} (h : text.toList.head? = some char)
    (rest : String) : (text ++ rest).toList.head? = some char := by
  rw [String.toList_append, List.head?_append, h, Option.some_or]

/-- What no message of a rule starts with. -/
theorem OrderRule.head?_message (rule : OrderRule) :
    rule.message.toList.head? ≠ some 'u' ∧ rule.message.toList.head? ≠ some 'i' := by
  cases rule <;> decide

theorem LexicalFault.message_ne (fault : LexicalFault) (rule : OrderRule) :
    fault.message ≠ rule.message := by
  obtain ⟨hu, hi⟩ := rule.head?_message
  intro h
  rw [← h] at hu hi
  cases fault with
  | unrecognizedCharacter => exact hu (head?_toList_append (head?_toList_append (by decide) _) _)
  | integerOutOfRange => exact hi (head?_toList_append (head?_toList_append (by decide) _) _)
  | unterminatedComment => exact hu rfl

theorem SyntaxError.message_unexpected_ne (t : Token) (expected : List String)
    (rule : OrderRule) : (SyntaxError.unexpected t expected).message ≠ rule.message := by
  obtain ⟨hu, -⟩ := rule.head?_message
  intro h
  rw [← h] at hu
  exact hu (head?_toList_append (by decide) _)

theorem reportsOf_map_toDiagnostic (rule : OrderRule) (source : String) (fs : List Fault) :
    reportsOf rule (fs.map (Fault.toDiagnostic source)) = breaches rule fs := by
  induction fs with
  | nil => rfl
  | cons fault fs ih =>
    rw [reportsOf] at ih ⊢
    rw [breaches] at ih ⊢
    cases fault with
    | unexpected found expected hint =>
      have hne : ((Fault.unexpected found expected hint).toDiagnostic source).message ≠
          rule.message :=
        SyntaxError.message_unexpected_ne found (expected.map Expectation.display) rule
      rw [List.map_cons, List.filter_cons_of_neg (by simpa using hne), ih,
        List.filterMap_cons_none rfl]
    | misplaced r span =>
      have hmessage : ((Fault.misplaced r span).toDiagnostic source).message = r.message := rfl
      by_cases hr : r = rule
      · have hbroken : Fault.brokenAt? rule (.misplaced r span) = some span := if_pos hr
        rw [List.map_cons, List.filter_cons_of_pos (by simpa [hmessage] using congrArg _ hr),
          List.map_cons, ih, List.filterMap_cons_some hbroken]
        rfl
      · have hne : r.message ≠ rule.message := fun h => hr (OrderRule.message_inj.1 h)
        rw [List.map_cons, List.filter_cons_of_neg (by simpa [hmessage] using hne), ih,
          List.filterMap_cons_none (by simp [Fault.brokenAt?, hr])]

/-- Diagnostics say that a rule is broken where faults do, whatever else is wrong with the text. -/
theorem reportsOf_analyze_perm (rule : OrderRule) (reader : Reader Empty α) (source : String) :
    (reportsOf rule (analyze reader source).diagnostics).Perm
      (breaches rule (reader (startOf source)).faults) := by
  have hlexical : reportsOf rule ((tokenize source).errors.map LexicalError.toDiagnostic) = [] := by
    rw [reportsOf, List.map_eq_nil_iff, List.filter_eq_nil_iff]
    exact List.forall_mem_map.2 fun e _ h => e.fault.message_ne rule (of_decide_eq_true h)
  have hperm := ((diagnostics_analyze_perm reader source).filter
    (·.message = rule.message)).map Diagnostic.span
  rw [List.filter_append, List.map_append] at hperm
  rw [← reportsOf_map_toDiagnostic rule source]
  rw [reportsOf] at hlexical
  rwa [hlexical, List.nil_append] at hperm

/-! ## Readers that only object to tokens -/

/-- Failing with anything is excluded. -/
def Never {ε : Type} (_ : ε) : Prop := False

/--
All faults that are noted are objections, and reading fails only with what `E` allows, so that
nothing need be said twice of readers that never fail.
-/
class Reader.Objecting (E : ε → Prop) (p : Reader ε α) : Prop where
  faults : ∀ c, ∀ fault ∈ (p c).faults, fault.IsObjection
  failure : ∀ c e, (p c).outcome = .error e → E e

namespace Reader

theorem isObjection_of_built {E : ε → Cursor → Prop} {p : Reader ε α} (h : Built NoRule E p)
    (c : Cursor) : ∀ fault ∈ (p c).faults, fault.IsObjection := by
  intro fault hfault
  rcases (h.abides c).faults fault hfault with ⟨_, _, _, _, rfl⟩ | ⟨_, _, hno, _⟩
  · trivial
  · exact hno.elim

instance (p : Reader Fault α) [h : Built NoRule Fault.ObjectsAt p] :
    Objecting Fault.IsObjection p where
  faults := isObjection_of_built h
  failure c fault hfault := by
    obtain ⟨_, _, _, rfl⟩ := (h.abides c).failure fault hfault
    trivial

instance {E : ε → Prop} (p : Reader ε α) [h : Built NoRule Unfailing p] : Objecting E p where
  faults := isObjection_of_built h
  failure c e he := ((h.abides c).failure e he).elim

theorem objecting_recover {E : ε → Prop} (region : Region) (origin : Cursor) {fault : Fault}
    (h : fault.IsObjection) :
    Objecting E (Parse.recover region origin fault : Reader ε Unit) where
  faults _ := List.forall_mem_singleton.2 h
  failure _ _ he := by cases he

end Reader

/-! ## Reading -/

/--
If reading fails, it fails with what `E` allows and has not noted that the rule is broken. If it
succeeds, then `Q` holds, also of the places at which it noted that the rule is broken.
-/
structure Reading.Settles (r : Reading ε α) (rule : OrderRule) (E : ε → Prop)
    (Q : α → Cursor → List Span → Prop) : Prop where
  failure : ∀ e, r.outcome = .error e → E e ∧ breaches rule r.faults = []
  success : ∀ a, r.outcome = .ok a → Q a r.cursor (breaches rule r.faults)

namespace Reading.Settles

variable {r : Reading ε α} {rule : OrderRule} {E : ε → Prop} {Q R : α → Cursor → List Span → Prop}

theorem mono (h : r.Settles rule E R) (hQ : ∀ a d bs, R a d bs → Q a d bs) :
    r.Settles rule E Q :=
  ⟨h.failure, fun a ha => hQ a _ _ (h.success a ha)⟩

/-- What never fails fails only with what is allowed. -/
theorem of_never (h : r.Settles rule Never Q) : r.Settles rule E Q :=
  ⟨fun e he => (h.failure e he).1.elim, h.success⟩

/-- What is known of the place that reading comes to may be used. -/
theorem and_advances {source : String} {F : ε → Prop} {c : Cursor} {S : Reading.Post α}
    (h : r.Settles rule E Q) (h' : r.Advances source F c S) (hc : c.Of source) :
    r.Settles rule E fun a d bs =>
      Q a d bs ∧ ∃ ys fs, Passage source c ys d ∧ S ys a d fs := by
  obtain ⟨-, -, ys, hp, hS⟩ := h' hc
  exact ⟨h.failure, fun a ha => ⟨h.success a ha, ys, _, hp, hS a ha⟩⟩

end Reading.Settles

namespace Reader

open Reading

variable {rule : OrderRule} {E : ε → Prop} {E' : ε' → Prop} {p : Reader ε α} {f : α → Reader ε β}
  {source : String} {c : Cursor} {Q : β → Cursor → List Span → Prop}
  {R : α → Cursor → List Span → Prop}

/-- What comes after entries that do not say that the rule is broken. -/
theorem breaches_journal_append {r : Reading ε α} {journal : List Entry}
    (h : breaches rule (journal.filterMap Entry.fault?) = []) :
    breaches rule (⟨r.outcome, r.cursor, journal ++ r.journal⟩ : Reading ε α).faults =
      breaches rule r.faults := by
  rw [faults, List.filterMap_append, breaches_append, h, List.nil_append]
  rfl

/-- What is read at a place of a text ends at one, from which reading may go on. -/
theorem settles_place [Taking p] (hp : (p c).Settles rule E R) (hc : c.Of source) :
    (p c).Settles rule E fun a d bs => R a d bs ∧ d.Of source :=
  ⟨hp.failure, fun a ha => ⟨hp.success a ha, (Taking.of_cursor p hc).1⟩⟩

theorem settles_objecting [hp : Objecting E p] (c : Cursor) :
    (p c).Settles rule E fun _ _ bs => bs = [] where
  failure e he := ⟨hp.failure c e he, breaches_of_objections (hp.faults c)⟩
  success _ _ := breaches_of_objections (hp.faults c)

theorem settles_failUnexpected (expected : List Expectation) (c : Cursor) :
    ((failUnexpected expected : Reader Fault α) c).Settles rule Fault.IsObjection R where
  failure _ he := by cases he; exact ⟨trivial, rfl⟩
  success _ ha := by cases ha

theorem settles_pure {a : α} (h : R a c []) : ((pure a : Reader ε α) c).Settles rule E R where
  failure _ he := by cases he
  success _ ha := by cases ha; exact h

/-- After the rule was noted to be broken, reading must not fail any more. -/
theorem settles_bind (hp : (p c).Settles rule E R)
    (hf : ∀ a d bs, R a d bs → (f a d).Settles rule Never fun b e cs => Q b e (bs ++ cs)) :
    ((p >>= f) c).Settles rule E Q := by
  rcases h : p c with ⟨e | a, d, journal⟩
  · rw [bind_apply_of_error h]
    rw [h] at hp
    exact ⟨fun _ he => by cases he; exact hp.failure e rfl, fun _ ha => by cases ha⟩
  · rw [bind_apply_of_ok h]
    rw [h] at hp
    have hrest := hf a d _ (hp.success a rfl)
    refine ⟨fun e he => (hrest.failure e he).1.elim, fun b hb => ?_⟩
    rw [faults, List.filterMap_append, breaches_append]
    exact hrest.success b hb

/-- What only objects may fail, and so may what follows it. -/
theorem settles_objecting_bind [hp : Objecting E p] [Taking p] (hc : c.Of source)
    (hf : ∀ a d, d.Of source → (f a d).Settles rule E Q) : ((p >>= f) c).Settles rule E Q := by
  have hd := (Taking.of_cursor p hc).1
  have hnone : breaches rule (p c).faults = [] := breaches_of_objections (hp.faults c)
  have hfailure := hp.failure c
  rcases h : p c with ⟨e | a, d, journal⟩
  · rw [bind_apply_of_error h]
    rw [h] at hnone hfailure
    exact ⟨fun _ he => by cases he; exact ⟨hfailure e rfl, hnone⟩, fun _ ha => by cases ha⟩
  · rw [bind_apply_of_ok h]
    rw [h] at hnone hd
    have hrest := hf a d hd
    refine ⟨fun e he => ?_, fun b hb => ?_⟩
    · rw [breaches_journal_append hnone]
      exact hrest.failure e he
    · rw [breaches_journal_append hnone]
      exact hrest.success b hb

theorem settles_map {g : α → β} (hp : (p c).Settles rule E fun a d bs => Q (g a) d bs) :
    ((g <$> p) c).Settles rule E Q := by
  rw [map_eq_pure_bind]
  refine settles_bind hp fun a d bs ha => settles_pure ?_
  rwa [List.append_nil]

theorem settles_rescue {handle : ε → Reader ε' α} (hp : (p c).Settles rule E R)
    (hh : ∀ e d, E e → (handle e d).Settles rule E' R) :
    ((rescue p handle) c).Settles rule E' R := by
  rcases h : p c with ⟨e | a, d, journal⟩
  · rw [rescue_apply_of_error h]
    rw [h] at hp
    obtain ⟨he, hnone⟩ := hp.failure e rfl
    have hrest := hh e d he
    refine ⟨fun e' he' => ?_, fun a ha => ?_⟩
    · rw [breaches_journal_append hnone]
      exact hrest.failure e' he'
    · rw [breaches_journal_append hnone]
      exact hrest.success a ha
  · rw [rescue_apply_of_ok h]
    rw [h] at hp
    exact ⟨fun _ he => (by cases he), fun _ ha => by cases ha; exact hp.success a rfl⟩

/-- That a bound was reached breaks no rule. -/
theorem settles_exhaustIf_bind {reached : Bool} {f : Unit → Reader ε β}
    (h : (f () c).Settles rule E Q) : ((exhaustIf reached >>= f) c).Settles rule E Q := by
  cases reached <;> exact ⟨h.failure, h.success⟩

theorem settles_report {r : OrderRule} {span : Span} (c : Cursor) :
    ((report (.misplaced r span) : Reader ε Unit) c).Settles rule E fun _ _ bs =>
      bs = if r = rule then [span] else [] where
  failure _ he := by cases he
  success _ _ := by
    rw [report, noteAll, faults]
    by_cases hr : r = rule <;> simp [breaches, Fault.brokenAt?, Entry.fault?, hr]

theorem settles_reportIf (faulty : Bool) (r : OrderRule) (span : Span) (c : Cursor) :
    ((reportIf faulty (.misplaced r span) : Reader ε Unit) c).Settles rule E fun _ _ bs =>
      bs = if faulty ∧ r = rule then [span] else [] := by
  cases faulty with
  | true => simpa [reportIf, report] using settles_report (ε := ε) (E := E) c
  | false => exact settles_pure (by simp)

/-! ## Loops -/

/-- What is owed for some items, each of which is read in the state that those before it lead to. -/
def owedBy (next : σ → α → σ) (owed : σ → α → List Span) : σ → List α → List Span
  | _, [] => []
  | s, a :: as => owed s a ++ owedBy next owed (next s a) as

/-- If what is owed for each item is noted, then what is owed for them all is. -/
theorem settles_manyFrom {stop : Cursor → Bool} {item : σ → Reader ε (Option α)}
    {next : σ → α → σ} {owed : σ → α → List Span} {P : α → Prop} [∀ s, Taking (item s)]
    (hitem : ∀ s (d : Cursor), d.Of source → (item s d).Settles rule Never fun a _ bs =>
      bs = (a.map (owed s)).getD [] ∧ ∀ b ∈ a, P b)
    (rounds : Nat) (s : σ) (hc : c.Of source) :
    (manyFrom stop item next rounds s c).Settles rule Never fun as _ bs =>
      bs = owedBy next owed s as ∧ ∀ a ∈ as, P a := by
  induction rounds generalizing s c with
  | zero =>
    rw [manyFrom, here_bind]
    exact settles_exhaustIf_bind (settles_pure ⟨rfl, List.forall_mem_nil _⟩)
  | succ rounds ih =>
    rw [manyFrom, here_bind]
    cases stop c with
    | true => exact settles_pure ⟨rfl, List.forall_mem_nil _⟩
    | false =>
      apply settles_bind (settles_place (hitem s c hc) hc)
      rintro (_ | a) d _ ⟨⟨rfl, hP⟩, hd⟩
      · exact ih s hd
      · refine settles_map ((ih (next s a) hd).mono ?_)
        rintro as e _ ⟨rfl, hall⟩
        exact ⟨rfl, List.forall_mem_cons.2 ⟨hP a rfl, hall⟩⟩

end Reader

end MiniJava
