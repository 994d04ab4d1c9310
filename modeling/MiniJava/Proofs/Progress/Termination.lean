import MiniJava.Proofs.Lexing.Runs
import MiniJava.Proofs.Progress.Rounds

/-!
# Reading ends

Reading a text takes its tokens one by one and never passes the mark of the end, no bound on what is
read is ever reached, and each round of each loop leaves it or takes a token. All of this holds of
each text and from each of its places. A reader that called itself again without taking a token
would reach its bound, and note that.
-/

namespace MiniJava

open Reader Parse

variable {α ε : Type}

/-- Reading stays where it is, or it takes a token other than the mark of the end. -/
def Cursor.Moves (c d : Cursor) : Prop :=
  d = c ∨ c.current.kind ≠ .endOfInput ∧ d.tokens = c.tokens ∧ d.pos = c.pos + 1

/--
The place is one of the tokens of a text. The access to it gives the token there, and looking tokens
up by where they start does not leave the tokens either.
-/
structure Cursor.InBounds (c : Cursor) (source : String) : Prop where
  tokens : c.tokens.toList = (tokenize source).all
  lt : c.pos < c.tokens.size
  current : c.current? = .ok c.tokens[c.pos]
  kindAt : ∀ offset, c.kindAt? offset = .ok (c.kindAt offset)

/-- Some places through which a reader comes from the start of a text, one after the other. -/
structure Reader.Walk (p : Reader ε α) (source : String) (cs : List Cursor) : Prop where
  head : cs.head? = some (startOf source)
  last : cs.getLast? = some (p (startOf source)).cursor
  moves : cs.IsChain Cursor.Moves
  inBounds : ∀ c ∈ cs, c.InBounds source

/-- From the start of a text a reader goes through its tokens one by one, and never beyond them. -/
structure Reader.Steady (p : Reader ε α) (source : String) : Prop where
  exists_trail : ∃ cs, p.Trail (startOf source) cs
  walk : ∀ cs, p.Trail (startOf source) cs → p.Walk source cs

/-- The tokens that are read end with the mark of the end, and no other token marks it. -/
structure EndsOnce (source : String) : Prop where
  collected : (Lexer.start source).collect.1 = (tokenize source).all
  marked : ∃ ts t, (tokenize source).all = ts ++ [t] ∧ t.kind = .endOfInput ∧
    ∀ u ∈ ts, u.kind ≠ .endOfInput

/-- Bounds on what is read do not matter, as they are never below the number of tokens ahead. -/
structure Unbounded (source : String) : Prop where
  stage : ∀ (c : Cursor) (room : Nat) (stage : Stage), c.Of source → c.room ≤ room →
    stageWithin room stage c = stageWithin c.room stage c
  statement : ∀ (c : Cursor) (room : Nat), c.Of source → c.room ≤ room →
    statementWithin room c = statement c

/-- Bounds on what is read suffice: none that is not below the number of tokens ahead is reached. -/
structure BoundsSuffice (source : String) : Prop where
  program : .exhausted ∉ ((program : Reader Empty Program) (startOf source)).journal
  wholeStatement : .exhausted ∉ (wholeStatement (startOf source)).journal
  wholeExpression : .exhausted ∉ (wholeExpression (startOf source)).journal
  statement : ∀ (c : Cursor) (room : Nat), c.Of source → c.room ≤ room →
    .exhausted ∉ (statementWithin room c).journal
  expression : ∀ (c : Cursor) (room floor : Nat), c.Of source → c.room ≤ room →
    .exhausted ∉ (above (stageWithin room) floor c).journal

/-- Each round of each loop leaves the loop or takes a token. -/
structure RoundsTake (source : String) : Prop where
  classes : ∀ {ε : Type} (c : Cursor), c.Of source →
    Loops (whileRound atEnd (fun _ : Unit => (topLevelItem : Reader ε _)) fun s _ => s) ((), []) c
      (manyFrom atEnd (fun _ : Unit => topLevelItem) (fun s _ => s) c.room () c)
  members : ∀ {ε : Type} (c : Cursor), c.Of source →
    Loops (whileRound atMembersEnd (member (ε := ε)) fun seen item => seen || item.method?.isSome)
      (false, []) c (members c)
  bodyItems : ∀ {ε : Type} (c : Cursor), c.Of source →
    Loops (whileRound atBodyEnd (bodyItem (ε := ε))
      fun started item => started || item.statement?.isSome) (false, []) c (bodyItems c)
  statements : ∀ {ε : Type} (c : Cursor), c.Of source →
    Loops (whileRound atListEnd (fun _ : Unit => (some <$> recovering statement : Reader ε _))
      fun s _ => s) ((), []) c (statements c)
  block : ∀ {ε : Type} (c : Cursor) (room : Nat), c.Of source → c.room ≤ room →
    Loops (whileRound atListEnd (fun _ : Unit => (some <$> recovering statement : Reader ε _))
      fun s _ => s) ((), []) c (manyUntil atListEnd (recovering (statementWithin room)) room c)
  operators : ∀ (c : Cursor) (room floor : Nat) (left : Expr), c.Of source → c.room ≤ room →
    Loops (operatorRound floor) left c (stageWithin room (.after floor left) c)
  arguments : ∀ c : Cursor, c.Of source →
    Loops (commaRound expression) [] c (sepByComma expression c.room c)
  callArguments : ∀ (c : Cursor) (room : Nat), c.Of source → c.room ≤ room →
    Loops (commaRound expression) [] c (sepByComma (above (stageWithin room) 0) room c)
  parameters : ∀ c : Cursor, c.Of source →
    Loops (commaRound parameter) [] c (sepByComma parameter c.room c)
  skipping : ∀ {ε : Type} (region : Region) (origin c : Cursor), c.Of source →
    origin.pos ≤ c.pos → Loops (skipRound region origin) 0 c
      (⟨.ok (), ((resync region origin : Reader ε Unit) c).cursor, []⟩ : Reading ε Unit)

variable {source : String} {c : Cursor}

theorem endsOnce (source : String) : EndsOnce source := by
  refine ⟨?_, (tokenize source).tokens, endToken source, rfl, rfl, fun u hu => ?_⟩
  · have hall := (Lexer.collect_of_stands (Lexer.stands_start source)).1
    rw [hall, List.nil_append]
  · exact (regular_of_mem_tokens hu).notEnd

/-- Going on moves by one, or not at all at the mark of the end. -/
theorem Cursor.next_moves (c : Cursor) : c.Moves c.next := by
  rw [next]
  split
  next => exact .inl rfl
  next hk => exact .inr ⟨hk, rfl, rfl⟩

theorem Cursor.Of.inBounds (h : c.Of source) : c.InBounds source := by
  have hsize : c.tokens.size = (tokenize source).tokens.length + 1 := by
    rw [c.size_tokens, h.front_eq]
  have hlt : c.pos < c.tokens.size := by
    rw [hsize]
    exact Nat.lt_succ_of_le h.pos_le
  have hat : c.tokenAt c.pos = .ok c.tokens[c.pos] := by
    rw [tokenAt, Array.getElem?_eq_getElem hlt]
    rfl
  refine ⟨h.tokens, hlt, ?_, c.kindAt?_eq⟩
  rw [current?, hsize]
  dsimp only
  rw [Nat.min_eq_left h.pos_le, hat]

theorem steady_of_built {R : OrderRule → Prop} {E : ε → Cursor → Prop} {p : Reader ε α}
    (h : p.Built R E) (source : String) : p.Steady source := by
  refine ⟨h.exists_trail _, fun cs hcs => ?_⟩
  have hleads := hcs.leads
  refine ⟨hleads.head, hleads.last, hleads.chain.imp ?_, fun c hc => ?_⟩
  · rintro c d (rfl | rfl)
    · exact .inl rfl
    · exact c.next_moves
  · have hof : ∀ d ∈ cs, d.Of source := hleads.forall_mem (Cursor.of_startOf source) fun _ he =>
      he.next
    exact (hof c hc).inBounds

theorem unbounded (source : String) : Unbounded source := by
  refine ⟨fun c room stage hc hr => ?_, fun c room hc hr => ?_⟩
  · exact agree_stageWithin source (c.length_le_room.trans hr) c.length_le_room stage c hc
      (Nat.le_refl _)
  · exact agree_statementWithin source (c.length_le_room.trans hr) c.length_le_room c hc
      (Nat.le_refl _)

theorem boundsSuffice (source : String) : BoundsSuffice source := by
  have hstart := Cursor.of_startOf source
  refine ⟨?_, ?_, ?_, fun c room hc hr => ?_, fun c room floor hc hr => ?_⟩
  · have h := advances_program (ε := Empty) (E := fun _ => True) source (startOf source)
    exact h.exhausted_notMem hstart
  · have h := advances_wholeStatement (F := fun _ => True) source (startOf source)
    exact h.exhausted_notMem hstart
  · have h := advances_wholeExpression (F := fun _ => True) source (startOf source)
    exact h.exhausted_notMem hstart
  · exact (advances_statementWithin room (c.length_le_room.trans hr)).exhausted_notMem hc
  · have h := advances_above (placedStages source room) floor (c.length_le_room.trans hr)
    exact h.exhausted_notMem hc

/-- A bound that is below the number of tokens ahead may be reached, and then that is noted. -/
example : .exhausted ∈ (statementWithin 0 (startOf "\x7b \x7b \x7d \x7d")).journal := by
  decide +kernel

/-! ## The loops -/

theorem stops_of_endOfInput {stop : Cursor → Bool}
    (h : ∀ c : Cursor, c.current.kind = .endOfInput → stop c = true) :
    ∀ c : Cursor, c.Of source → c.ahead = [] → stop c = true :=
  fun c _ hnil => h c (Cursor.kind_current_of_ahead_eq_nil hnil)

theorem loops_items {σ : Type} {stop : Cursor → Bool} (item : σ → Reader ε (Option α))
    {next : σ → α → σ} [∀ s, (item s).Taking] {span : α → Span} {nodes : α → List Node}
    (hend : ∀ c : Cursor, c.current.kind = .endOfInput → stop c = true)
    (hitem : ∀ s (d : Cursor), stop d = false →
      (item s d).Advances source (fun _ => True) d (ItemAt source span nodes d))
    (s : σ) (hc : c.Of source) :
    Loops (whileRound stop item next) (s, []) c (manyFrom stop item next c.room s c) := by
  rw [← nil_append_map (manyFrom stop item next c.room s)]
  exact loops_manyFrom (stops_of_endOfInput hend)
    (fun s c hc hs a ha => length_lt_of_advances (hitem s c hs) (fun _ _ _ _ hat => hat.1) hc ha)
    s [] hc c.length_le_room

theorem loops_commaSeparated {item : Reader Fault α} [item.Taking] (hc : c.Of source) :
    Loops (commaRound item) [] c (sepByComma item c.room c) := by
  rw [← nil_append_map (sepByComma item c.room)]
  exact loops_sepByComma [] hc c.length_le_room

theorem outcome_of_map {α β : Type} {g : α → β} {p : Reader ε α} {b : β}
    (h : ((g <$> p) c).outcome = .ok b) : ∃ a, (p c).outcome = .ok a := by
  rcases hp : p c with ⟨e | a, d, journal⟩
  · simp only [Functor.map, Reader.map, hp] at h
    cases h
  · exact ⟨a, rfl⟩

theorem loops_statements (hc : c.Of source) :
    Loops (whileRound atListEnd (fun _ : Unit => (some <$> recovering statement : Reader ε _))
      fun s _ => s) ((), []) c (statements c) := by
  change Loops _ _ _ (manyUntil atListEnd (recovering statement) c.room c)
  rw [manyUntil_eq_manyFrom, ← nil_append_map (manyFrom atListEnd _ _ c.room ())]
  refine loops_manyFrom (stops_of_endOfInput fun c hk => by simp [atListEnd, hk])
    (fun _ d hd hend a ha => ?_) () [] hc c.length_le_room
  rw [cursor_map]
  obtain ⟨s, hs⟩ := outcome_of_map ha
  exact length_recovering_lt hd hend (advances_statement source d) hs

/-- The bound on the tokens of its statements does not matter to a block. -/
theorem manyStatements_eq {room : Nat} (hc : c.Of source) (hr : c.room ≤ room) :
    (manyUntil atListEnd (recovering (statementWithin room)) room c : Reading ε (List Stmt)) =
      statements c := by
  have hlen := c.length_le_room
  refine agree_manyUntil (recovering (statementWithin room)) (fun d _ => atListEnd_of_ahead_eq_nil)
    (fun d hd hle hend s hs => length_recovering_lt hd hend
      (advances_statementWithin room (hle.trans (hlen.trans hr))) hs)
    (agree_recovering fun d hd hle => ?_) (hlen.trans hr) hlen c hc (Nat.le_refl _)
  exact agree_statementWithin source (hle.trans (hlen.trans hr)) d.length_le_room d hd
    (Nat.le_refl _)

theorem agree_above_expression {n room : Nat} (hr : n ≤ room) :
    AgreeWithin source n (above (stageWithin room) 0) expression := by
  intro d hd hle
  exact agree_above (fun stage => agree_stageWithin source (hle.trans hr) d.length_le_room stage) 0
    d hd (Nat.le_refl _)

theorem roundsTake (source : String) : RoundsTake source where
  classes c hc := loops_items (fun _ => topLevelItem) (fun c hk => by simp [atEnd, hk])
    (fun _ d => advances_topLevelItem) () hc
  members c hc := loops_items member (fun c hk => by simp [atMembersEnd, hk])
    (fun seen d => advances_member seen) false hc
  bodyItems c hc := loops_items bodyItem (fun c hk => by simp [atBodyEnd, atListEnd, hk])
    (fun seen d => advances_bodyItem seen) false hc
  statements c hc := loops_statements hc
  block c room hc hr := by
    rw [manyStatements_eq hc hr]
    exact loops_statements hc
  operators c room floor left hc hr := loops_operators floor left hc (c.length_le_room.trans hr)
  arguments c hc := loops_commaSeparated hc
  callArguments c room hc hr := by
    have hlen := c.length_le_room
    rw [agree_sepByComma (agree_above_expression (hlen.trans hr)) (hlen.trans hr) hlen c hc
      (Nat.le_refl _)]
    exact loops_commaSeparated hc
  parameters c hc := loops_commaSeparated hc
  skipping region origin c hc hr := by
    change Loops _ _ _ ⟨.ok (), c.drop (region.skip (origin.pos < c.pos) c.ahead), []⟩
    rw [region.skip_eq_skipFrom]
    exact loops_skipFrom region 0 hc hr

/--
Reading a text ends: its tokens are read in their order up to the mark of the end, no bound is
reached, so that none cuts reading short, and no loop goes on without taking a token.
-/
structure ReadingEnds (source : String) : Prop where
  tokens : EndsOnce source
  program : (program : Reader Empty Program).Steady source
  statement : wholeStatement.Steady source
  expression : wholeExpression.Steady source
  bounds : BoundsSuffice source
  unbounded : Unbounded source
  rounds : RoundsTake source

theorem reading_ends (source : String) : ReadingEnds source :=
  have steady {α : Type} (p : Reader Empty α) [h : p.Built AnyRule Unfailing] : p.Steady source :=
    steady_of_built h source
  ⟨endsOnce source, steady program, steady wholeStatement, steady wholeExpression,
    boundsSuffice source, unbounded source, roundsTake source⟩

end MiniJava
