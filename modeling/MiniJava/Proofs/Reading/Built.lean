import MiniJava.Proofs.Reading.Ensures

/-!
# How readers are built

Every reader of the grammar is built from steps that take nothing, from taking the next token and
from skipping. It objects only to the next token, and each failure that it catches is noted at once.
`Reader.Built` says so, and also which rules of order may be found broken and with what a reader may
fail. It is found by instance search along the definition of a reader. What holds of each way to
build a reader holds of them all by one induction.
-/

namespace MiniJava

variable {ε ε' α β σ : Type}

/-- Each rule of order may be found broken. -/
def AnyRule (_ : OrderRule) : Prop := True

/-- No rule of order may be found broken. -/
def NoRule (_ : OrderRule) : Prop := False

/-- Failing with anything is excluded. -/
def Unfailing (_ : ε) (_ : Cursor) : Prop := False

/-- The fault is that the next token is none of those that could stand there, of which there are. -/
def Fault.ObjectsAt (fault : Fault) (c : Cursor) : Prop :=
  ∃ expected hint, expected ≠ [] ∧ fault = .unexpected c.current expected hint

/-- What is noted is that some rule is broken. -/
def Entry.IsBreach (R : OrderRule → Prop) (entry : Entry) : Prop :=
  ∃ rule span, R rule ∧ entry = .fault (.misplaced rule span)

namespace Reader

/--
Readers that take tokens only one by one or by skipping. They find the rules `R` broken at most,
object to the next token, and fail only with what `E` allows at the place where they stop.
-/
class inductive Built (R : OrderRule → Prop) :
    {ε α : Type} → (E : ε → Cursor → Prop) → Reader ε α → Prop
  | pure {ε α : Type} {E : ε → Cursor → Prop} (a : α) : Built R E (pure a : Reader ε α)
  | failUnexpected {α : Type} {expected : List Expectation} (hne : expected ≠ []) :
      Built R Fault.ObjectsAt (failUnexpected expected : Reader Fault α)
  | noteAll {ε : Type} {E : ε → Cursor → Prop} {entries : List Entry}
      (h : ∀ entry ∈ entries, entry.IsBreach R) : Built R E (noteAll entries : Reader ε Unit)
  | exhaustIf {ε : Type} {E : ε → Cursor → Prop} (reached : Bool) :
      Built R E (exhaustIf reached : Reader ε Unit)
  | object {ε α : Type} {E : ε → Cursor → Prop} {expected : List Expectation}
      (hne : expected ≠ []) (hint : Option Hint) {k : Token → Reader ε α}
      (hk : ∀ found, Built R E (k found)) :
      Built R E (look >>= fun found =>
        report (.unexpected found expected hint) >>= fun _ => k found)
  | here {ε : Type} {E : ε → Cursor → Prop} : Built R E (here : Reader ε Cursor)
  | look {ε : Type} {E : ε → Cursor → Prop} : Built R E (look : Reader ε Token)
  | isAt {ε : Type} {E : ε → Cursor → Prop} (kind : TokenKind) :
      Built R E (isAt kind : Reader ε Bool)
  | spanFrom {ε : Type} {E : ε → Cursor → Prop} (start : Nat) :
      Built R E (spanFrom start : Reader ε Span)
  | advance {ε : Type} {E : ε → Cursor → Prop} : Built R E (advance : Reader ε Token)
  | resync {ε : Type} {E : ε → Cursor → Prop} (region : Region) (origin : Cursor) :
      Built R E (resync region origin : Reader ε Unit)
  | withRoom {ε α : Type} {E : ε → Cursor → Prop} {p : Nat → Reader ε α}
      (h : ∀ room, Built R E (p room)) : Built R E (withRoom p)
  | map {ε α β : Type} {E : ε → Cursor → Prop} (g : α → β) {p : Reader ε α} (h : Built R E p) :
      Built R E (g <$> p)
  | bind {ε α β : Type} {E : ε → Cursor → Prop} {p : Reader ε α} {f : α → Reader ε β}
      (hp : Built R E p) (hf : ∀ a, Built R E (f a)) : Built R E (p >>= f)
  | rescue {ε α : Type} {E : ε → Cursor → Prop} {p : Reader Fault α} {k : Fault → Reader ε α}
      (hp : Built R Fault.ObjectsAt p) (hk : ∀ fault, Built R E (k fault)) :
      Built R E (rescue p fun fault => report fault >>= fun _ => k fault)

variable {R : OrderRule → Prop} {E : ε → Cursor → Prop} {p : Reader ε α} {f : α → Reader ε β}

instance (a : α) : Built R E (pure a : Reader ε α) := .pure a

instance (x : Expectation) (expected : List Expectation) :
    Built R Fault.ObjectsAt (failUnexpected (x :: expected) : Reader Fault α) :=
  .failUnexpected (List.cons_ne_nil x expected)

instance (x : Expectation) (expected : List Expectation) (hint : Option Hint)
    (k : Token → Reader ε α) [∀ found, Built R E (k found)] :
    Built R E (look >>= fun found =>
      report (.unexpected found (x :: expected) hint) >>= fun _ => k found) :=
  .object (List.cons_ne_nil x expected) hint fun _ => inferInstance

instance (reached : Bool) : Built R E (exhaustIf reached : Reader ε Unit) := .exhaustIf reached

instance : Built R E (here : Reader ε Cursor) := .here

instance : Built R E (look : Reader ε Token) := .look

instance (kind : TokenKind) : Built R E (isAt kind : Reader ε Bool) := .isAt kind

instance (start : Nat) : Built R E (spanFrom start : Reader ε Span) := .spanFrom start

instance : Built R E (advance : Reader ε Token) := .advance

instance (region : Region) (origin : Cursor) :
    Built R E (resync region origin : Reader ε Unit) :=
  .resync region origin

instance (q : Nat → Reader ε α) [∀ room, Built R E (q room)] : Built R E (withRoom q) :=
  .withRoom fun _ => inferInstance

instance (g : α → β) [Built R E p] : Built R E (g <$> p) := .map g inferInstance

instance [Built R E p] [∀ a, Built R E (f a)] : Built R E (p >>= f) :=
  .bind inferInstance fun _ => inferInstance

theorem built_bind [Built R E p] (h : ∀ a, Built R E (f a)) : Built R E (p >>= f) :=
  .bind inferInstance h

/-- Where a value is not used, the search need not go on under a binder. -/
instance (q : Reader ε β) [Built R E p] [Built R E q] : Built R E (p >>= fun _ => q) :=
  .bind inferInstance fun _ => inferInstance

theorem built_outOfRoom {expected : List Expectation} (hne : expected ≠ []) :
    Built R Fault.ObjectsAt (outOfRoom expected : Reader Fault α) :=
  .bind (.exhaustIf true) fun _ => .failUnexpected hne

theorem report_bind_pure (fault : Fault) :
    (report fault >>= fun _ => pure ()) = (report fault : Reader ε Unit) :=
  bind_pure _

instance (x : Expectation) (expected : List Expectation) (hint : Option Hint) :
    Built R E (look >>= fun found =>
      (report (.unexpected found (x :: expected) hint) : Reader ε Unit)) := by
  simpa only [report_bind_pure] using
    Built.object (List.cons_ne_nil x expected) hint fun _ => .pure ()

/-- A failure is noted before anything else. -/
instance (q : Reader Fault α) (k : Fault → Reader ε α) [Built R Fault.ObjectsAt q]
    [∀ fault, Built R E (k fault)] :
    Built R E (rescue q fun fault => report fault >>= fun _ => k fault) :=
  .rescue inferInstance fun _ => inferInstance

instance (P : Prop) [Decidable P] (q : Reader ε α) [Built R E p] [Built R E q] :
    Built R E (if P then p else q) := by
  split <;> infer_instance

instance (rule : OrderRule) (span : Span) :
    Built AnyRule E (report (.misplaced rule span) : Reader ε Unit) :=
  .noteAll <| List.forall_mem_singleton.2 ⟨rule, span, trivial, rfl⟩

instance (faulty : Bool) (rule : OrderRule) (span : Span) :
    Built AnyRule E (reportIf faulty (.misplaced rule span) : Reader ε Unit) := by
  cases faulty with
  | false => exact .noteAll (List.forall_mem_nil _)
  | true => exact inferInstanceAs (Built AnyRule E (report (.misplaced rule span)))

instance (kind : TokenKind) : Built R E (eat kind : Reader ε Bool) := by
  unfold eat
  infer_instance

instance (kind : TokenKind) : Built R Fault.ObjectsAt (expect kind) := by
  unfold expect
  infer_instance

instance : Built R Fault.ObjectsAt expectName := by
  unfold expectName
  infer_instance

instance (kind : TokenKind) : Built R E (expectOrReport kind : Reader ε Unit) := by
  unfold expectOrReport
  simpa only [report_bind_pure] using .rescue inferInstance fun _ => .pure ()

instance (stop : Cursor → Bool) [Built R E p] (rounds : Nat) :
    Built R E (manyUntil stop p rounds) := by
  induction rounds with
  | zero =>
    unfold manyUntil
    infer_instance
  | succ rounds ih =>
    unfold manyUntil
    infer_instance

instance (stop : Cursor → Bool) (item : σ → Reader ε (Option α)) (next : σ → α → σ)
    [∀ s, Built R E (item s)] (rounds : Nat) (s : σ) :
    Built R E (manyFrom stop item next rounds s) := by
  induction rounds generalizing s with
  | zero =>
    unfold manyFrom
    infer_instance
  | succ rounds ih =>
    unfold manyFrom
    have hrest : ∀ a : Option α, Built R E (match a with
        | some a => (a :: ·) <$> manyFrom stop item next rounds (next s a)
        | none => manyFrom stop item next rounds s) := by
      rintro (_ | a) <;> infer_instance
    infer_instance

instance [Built R E p] (rounds : Nat) : Built R E (sepByComma p rounds) := by
  induction rounds with
  | zero =>
    unfold sepByComma
    infer_instance
  | succ rounds ih =>
    unfold sepByComma
    infer_instance

end Reader

/-! ### What readers abide by -/

/-- A fault that is noted from `c` on: an objection to a token there, or a rule that is broken. -/
def Fault.NotedFrom (R : OrderRule → Prop) (c : Cursor) (fault : Fault) : Prop :=
  (∃ n, fault.ObjectsAt (c.drop n)) ∨ ∃ rule span, R rule ∧ fault = .misplaced rule span

/-- Reading from `c` on takes some of the tokens ahead, and notes and fails as it may. -/
structure Reading.Abides (R : OrderRule → Prop) (E : ε → Cursor → Prop) (c : Cursor)
    (r : Reading ε α) : Prop where
  cursor : ∃ n, r.cursor = c.drop n
  faults : ∀ fault ∈ r.faults, fault.NotedFrom R c
  failure : ∀ e, r.outcome = .error e → E e r.cursor

namespace Reading.Abides

variable {R : OrderRule → Prop} {E : ε → Cursor → Prop} {E' : ε' → Cursor → Prop} {c : Cursor}

/-- Reading that takes nothing, notes nothing and gives a value. -/
theorem still (a : α) : (⟨.ok a, c, []⟩ : Reading ε α).Abides R E c where
  cursor := ⟨0, rfl⟩
  faults := List.forall_mem_nil _
  failure e he := by cases he

theorem trans {o : Except ε α} {d : Cursor} {journal : List Entry} {s : Reading ε' β}
    (hr : (⟨o, d, journal⟩ : Reading ε α).Abides R E c) (hs : s.Abides R E' d) :
    (⟨s.outcome, s.cursor, journal ++ s.journal⟩ : Reading ε' β).Abides R E' c := by
  obtain ⟨m, rfl⟩ := hr.cursor
  obtain ⟨n, hn⟩ := hs.cursor
  refine ⟨⟨m + n, by rw [← c.drop_drop, ← hn]⟩, fun fault hfault => ?_, hs.failure⟩
  rw [Reading.faults, List.filterMap_append, List.mem_append] at hfault
  rcases hfault with hfault | hfault
  · exact hr.faults fault hfault
  · rcases hs.faults fault hfault with ⟨k, hk⟩ | hbroken
    · rw [c.drop_drop] at hk
      exact .inl ⟨m + k, hk⟩
    · exact .inr hbroken

end Reading.Abides

namespace Reader

variable {R : OrderRule → Prop} {E : ε → Cursor → Prop} {p : Reader ε α}

/-- An objection to the next token is noted first. -/
theorem abides_report_bind {fault : Fault} {c : Cursor} (h : fault.ObjectsAt c)
    (hp : (p c).Abides R E c) : ((report fault >>= fun _ => p) c).Abides R E c :=
  Reading.Abides.trans (E := E) (o := .ok ()) ⟨⟨0, rfl⟩,
    List.forall_mem_singleton.2 (.inl ⟨0, h⟩), fun e he => by cases he⟩ hp

theorem Built.abides (h : Built R E p) (c : Cursor) : (p c).Abides R E c := by
  induction h generalizing c with
  | pure a => exact .still a
  | here => exact .still c
  | look => exact .still c.current
  | isAt kind => exact .still (decide (c.current.kind = kind))
  | spanFrom start => exact .still (⟨start, max start c.lastStop⟩ : Span)
  | @failUnexpected _ expected hne =>
    refine ⟨⟨0, rfl⟩, List.forall_mem_nil _, fun e he => ?_⟩
    cases he
    exact ⟨expected, none, hne, rfl⟩
  | @noteAll _ _ entries hentries =>
    refine ⟨⟨0, rfl⟩, fun fault hfault => ?_, fun e he => by cases he⟩
    obtain ⟨entry, hentry, heq⟩ := List.mem_filterMap.1 hfault
    obtain ⟨rule, span, hrule, rfl⟩ := hentries entry hentry
    cases heq
    exact .inr ⟨rule, span, hrule, rfl⟩
  | exhaustIf reached =>
    refine ⟨⟨0, rfl⟩, ?_, fun e he => by cases he⟩
    cases reached <;> exact List.forall_mem_nil _
  | object hne hint _ ih =>
    exact abides_report_bind ⟨_, hint, hne, rfl⟩ (ih c.current c)
  | advance => exact ⟨⟨1, rfl⟩, List.forall_mem_nil _, fun e he => by cases he⟩
  | resync => exact ⟨⟨_, rfl⟩, List.forall_mem_nil _, fun e he => by cases he⟩
  | withRoom _ ih => exact ih c.room c
  | @map _ _ _ _ g p _ ih =>
    have hp := ih c
    rcases h : p c with ⟨e | a, d, journal⟩ <;> rw [h] at hp <;>
      simp only [Functor.map, Reader.map, h]
    · exact ⟨hp.cursor, hp.faults, fun e' he => hp.failure e' (by cases he; rfl)⟩
    · exact ⟨hp.cursor, hp.faults, fun e' he => by cases he⟩
  | @bind _ _ _ _ p f _ _ ih ih' =>
    have hp := ih c
    rcases h : p c with ⟨e | a, d, journal⟩ <;> rw [h] at hp
    · rw [bind_apply_of_error h]
      exact ⟨hp.cursor, hp.faults, fun e' he => hp.failure e' (by cases he; rfl)⟩
    · rw [bind_apply_of_ok h]
      exact hp.trans (ih' a d)
  | @rescue _ _ _ p k _ _ ih ih' =>
    have hp := ih c
    rcases h : p c with ⟨fault | a, d, journal⟩ <;> rw [h] at hp
    · rw [rescue_apply_of_error h]
      exact hp.trans (abides_report_bind (hp.failure fault rfl) (ih' fault d))
    · rw [rescue_apply_of_ok h]
      exact ⟨hp.cursor, hp.faults, fun e' he => by cases he⟩

/-- A reader that ends where some of the tokens ahead are taken, and no others. -/
class Taking (p : Reader ε α) : Prop where
  exists_drop : ∀ c, ∃ n, (p c).cursor = c.drop n

instance (p : Reader Fault α) [h : Built AnyRule Fault.ObjectsAt p] : Taking p :=
  ⟨fun c => (h.abides c).cursor⟩

instance (p : Reader ε α) [h : Built AnyRule Unfailing p] : Taking p :=
  ⟨fun c => (h.abides c).cursor⟩

instance {f : α → Reader ε β} [hp : Taking p] [hf : ∀ a, Taking (f a)] : Taking (p >>= f) where
  exists_drop c := by
    obtain ⟨m, hm⟩ := hp.exists_drop c
    rcases h : p c with ⟨e | a, d, journal⟩ <;> rw [h] at hm
    · rw [bind_apply_of_error h]
      exact ⟨m, hm⟩
    · obtain ⟨n, hn⟩ := (hf a).exists_drop d
      rw [bind_apply_of_ok h]
      exact ⟨m + n, by rw [← c.drop_drop, ← hm, ← hn]⟩

theorem Taking.tokens_eq (p : Reader ε α) [hp : Taking p] (c : Cursor) :
    (p c).cursor.tokens = c.tokens := by
  obtain ⟨n, hn⟩ := hp.exists_drop c
  rw [hn, Cursor.tokens_drop]

end Reader

/-! ## The readers of the language -/

namespace Parse

open Reader Reading

variable {R : OrderRule → Prop} {E : ε → Cursor → Prop}

/-! ### Expressions -/

section

variable (read : StageReader) [∀ stage, Built R Fault.ObjectsAt (read stage)]

instance (floor : Nat) : Built R Fault.ObjectsAt (above read floor) := by
  unfold above
  infer_instance

instance (build : Span → Expr) : Built R Fault.ObjectsAt (leaf build) := by
  unfold leaf
  infer_instance

instance : Built R Fault.ObjectsAt (negation read) := by
  unfold negation
  infer_instance

instance : Built R Fault.ObjectsAt (grouping read) := by
  unfold grouping
  infer_instance

instance (start : Nat) : Built R Fault.ObjectsAt (creationFrom read start) := by
  unfold creationFrom
  refine built_bind fun t => ?_
  split <;> infer_instance

instance : Built R Fault.ObjectsAt (creation read) := by
  unfold creation
  infer_instance

instance : Built R Fault.ObjectsAt (failUnexpected operandStart : Reader Fault α) :=
  .failUnexpected (List.cons_ne_nil _ _)

instance : Built R Fault.ObjectsAt (outOfRoom operandStart : Reader Fault α) :=
  built_outOfRoom (List.cons_ne_nil _ _)

instance : Built R Fault.ObjectsAt (operandFrom read) := by
  unfold operandFrom
  refine built_bind fun first => ?_
  cases first.kind <;> dsimp only <;> infer_instance

instance (item : Reader Fault Expr) [Built R Fault.ObjectsAt item] (room : Nat) :
    Built R Fault.ObjectsAt (argumentsOf item room) := by
  unfold argumentsOf
  infer_instance

instance (room : Nat) (left : Expr) (op : Operator) :
    Built R Fault.ObjectsAt (takeOperator read room left op) := by
  cases op <;> unfold takeOperator <;> infer_instance

instance (room floor : Nat) (left : Expr) :
    Built R Fault.ObjectsAt (operatorsFrom read room floor left) := by
  unfold operatorsFrom
  refine built_bind fun cursor => ?_
  split <;> infer_instance

end

instance (room : Nat) (stage : Stage) : Built R Fault.ObjectsAt (stageWithin room stage) := by
  induction room generalizing stage with
  | zero => cases stage <;> unfold stageWithin <;> infer_instance
  | succ room ih => cases stage <;> unfold stageWithin <;> infer_instance

instance : Built R Fault.ObjectsAt expression := by
  unfold expression
  infer_instance

instance : Built R Fault.ObjectsAt arguments := by
  unfold arguments
  infer_instance

instance : Built R Fault.ObjectsAt parenthesized := by
  unfold parenthesized
  infer_instance

/-! ### Statements -/

instance (start : Nat) (name : String) : Built R Fault.ObjectsAt (assignmentTo start name) := by
  unfold assignmentTo
  refine built_bind fun t => ?_
  split <;> infer_instance

instance : Built R Fault.ObjectsAt assignment := by
  unfold assignment
  infer_instance

instance : Built R Fault.ObjectsAt printStatement := by
  unfold printStatement
  infer_instance

instance : Built R Fault.ObjectsAt recur := by
  unfold recur
  infer_instance

instance : Built R Fault.ObjectsAt recurStatement := by
  unfold recurStatement
  infer_instance

instance (p : Reader Fault α) [Built R Fault.ObjectsAt p] (region : Region) (origin : Cursor)
    (k : Unit → Reader ε α) [∀ u, Built R E (k u)] :
    Built R E (rescue p fun fault => recover region origin fault >>= k) := by
  simp only [recover, bind_assoc]
  infer_instance

instance : Built R Fault.ObjectsAt (failUnexpected statementStart : Reader Fault α) :=
  .failUnexpected (List.cons_ne_nil _ _)

instance : Built R Fault.ObjectsAt (outOfRoom statementStart : Reader Fault α) :=
  built_outOfRoom (List.cons_ne_nil _ _)

section

variable (inner : Reader Fault Stmt) [Built R Fault.ObjectsAt inner]

instance : Built R E (recovering inner : Reader ε Stmt) := by
  unfold recovering
  infer_instance

instance (room : Nat) : Built R Fault.ObjectsAt (blockOf inner room) := by
  unfold blockOf
  infer_instance

instance : Built R Fault.ObjectsAt missingElse := by
  unfold missingElse
  infer_instance

instance : Built R Fault.ObjectsAt (elseBranchOf inner) := by
  unfold elseBranchOf
  infer_instance

instance : Built R Fault.ObjectsAt (ifElseOf inner) := by
  unfold ifElseOf
  infer_instance

instance : Built R Fault.ObjectsAt (whileLoopOf inner) := by
  unfold whileLoopOf
  infer_instance

instance (room : Nat) : Built R Fault.ObjectsAt (statementOf inner room) := by
  unfold statementOf
  refine built_bind fun t => ?_
  split <;> infer_instance

end

instance (room : Nat) : Built R Fault.ObjectsAt (statementWithin room) := by
  induction room with
  | zero => unfold statementWithin; infer_instance
  | succ room ih => unfold statementWithin; infer_instance

instance : Built R Fault.ObjectsAt statement := by
  unfold statement
  infer_instance

instance : Built R E (statements : Reader ε (List Stmt)) := by
  unfold statements
  infer_instance

instance (recurs : List Recur) : Built AnyRule E (reportRecurs recurs : Reader ε Unit) :=
  .noteAll <| List.forall_mem_map.2 fun r _ => ⟨.recurEndsMethod, r.span, trivial, rfl⟩

/-! ### Declarations -/

instance : Built R Fault.ObjectsAt typeName := by
  unfold typeName
  refine built_bind fun first => ?_
  split <;> infer_instance

instance : Built R Fault.ObjectsAt parameter := by
  unfold parameter
  infer_instance

instance : Built R Fault.ObjectsAt variableDecl := by
  unfold variableDecl
  infer_instance

instance : Built R Fault.ObjectsAt parameters := by
  unfold parameters
  infer_instance

instance (started : Bool) : Built AnyRule Fault.ObjectsAt (localDecl started) := by
  unfold localDecl
  infer_instance

instance (started : Bool) : Built AnyRule E (bodyItem started : Reader ε (Option BodyItem)) := by
  unfold bodyItem
  infer_instance

instance : Built AnyRule E (bodyItems : Reader ε (List BodyItem)) := by
  unfold bodyItems
  infer_instance

instance : Built R Fault.ObjectsAt returned := by
  unfold returned
  infer_instance

instance : Built R E (returnedRecovering : Reader ε MethodResult) := by
  unfold returnedRecovering
  infer_instance

instance : Built R E (missingResult : Reader ε MethodResult) := by
  unfold missingResult
  infer_instance

instance (body : List Stmt) :
    Built R E (methodResult body : Reader ε (List Stmt × MethodResult)) := by
  unfold methodResult
  refine built_bind fun b => ?_
  split
  · infer_instance
  · refine built_bind fun c => ?_
    split <;> infer_instance

instance : Built R E (afterResult : Reader ε Unit) := by
  unfold afterResult
  infer_instance

instance : Built AnyRule E (methodBody : Reader ε (List Variable × List Stmt × MethodResult)) := by
  unfold methodBody
  refine built_bind fun items => built_bind fun (body, result) => ?_
  infer_instance

instance : Built AnyRule Fault.ObjectsAt method := by
  unfold method
  infer_instance

instance (seenMethod : Bool) : Built AnyRule Fault.ObjectsAt (fieldDecl seenMethod) := by
  unfold fieldDecl
  infer_instance

instance : Built AnyRule Fault.ObjectsAt methodDecl := by
  unfold methodDecl
  infer_instance

instance (seenMethod : Bool) : Built AnyRule E (member seenMethod : Reader ε (Option Member)) := by
  unfold member
  infer_instance

instance : Built AnyRule E (members : Reader ε (List Member)) := by
  unfold members
  infer_instance

instance : Built R Fault.ObjectsAt superclass := by
  unfold superclass
  infer_instance

instance : Built AnyRule Fault.ObjectsAt classDecl := by
  unfold classDecl
  infer_instance

/-! ### Programs -/

instance : Built R Fault.ObjectsAt expectMain := by
  unfold expectMain
  infer_instance

instance : Built R Fault.ObjectsAt mainHead := by
  unfold mainHead
  infer_instance

instance (span : Span) (ss : List Stmt) :
    Built AnyRule E (oneStatement span ss : Reader ε Stmt) := by
  unfold oneStatement
  split <;> infer_instance

instance (start : Nat) : Built AnyRule E (mainBody start : Reader ε Stmt) := by
  unfold mainBody
  infer_instance

instance : Built AnyRule Fault.ObjectsAt mainClass := by
  unfold mainClass
  refine built_bind fun first => built_bind fun (name, argsName) => ?_
  infer_instance

instance : Built AnyRule E (mainClassRecovering : Reader ε MainClass) := by
  unfold mainClassRecovering
  refine built_bind fun first => ?_
  -- where the fault is met makes no difference to what is noted
  exact inferInstanceAs (Built AnyRule E (rescue mainClass fun fault =>
    report fault >>= fun _ => here >>= fun origin => resync .toplevel origin >>= fun _ =>
      spanFrom first.span.start >>= fun span =>
        pure { span, name := "", argsName := "", body := .error span }))

instance : Built AnyRule Fault.ObjectsAt otherClass := by
  unfold otherClass
  infer_instance

instance : Built AnyRule E (topLevelItem : Reader ε (Option ClassDecl)) := by
  unfold topLevelItem
  infer_instance

instance : Built AnyRule E (program : Reader ε Program) := by
  unfold program
  infer_instance

variable {E : Empty → Cursor → Prop}

instance : Built R E expectEnd := by
  unfold expectEnd
  infer_instance

instance : Built R E wholeExpression := by
  unfold wholeExpression
  infer_instance

instance : Built R E wholeStatement := by
  unfold wholeStatement
  infer_instance

end Parse

end MiniJava

