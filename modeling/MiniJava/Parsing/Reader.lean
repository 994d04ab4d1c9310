import MiniJava.Parsing.Cursor
import MiniJava.Parsing.Fault
import MiniJava.Parsing.Recovery

/-!
# Readers

A reader takes tokens from a cursor. It gives a value or fails, and either way it tells how far it
came and what it noted on the way. A reader of which the failures are of type `Empty` never fails.
-/

namespace MiniJava

/-- What a reader notes. -/
inductive Entry where
  /-- A fault from which reading recovered. -/
  | fault (fault : Fault)
  /-- Tokens that were skipped to recover. -/
  | skipped (region : Region) (count : Nat)
  /-- A bound on what is read was reached. -/
  | exhausted
deriving DecidableEq, Inhabited

/-- What reading gave, how far it came, and what it noted. -/
structure Reading (ε α : Type) where
  outcome : Except ε α
  cursor : Cursor
  journal : List Entry

/-- A reader of values of type `α`, which fails with a value of type `ε`. -/
def Reader (ε α : Type) : Type := Cursor → Reading ε α

namespace Reader

variable {ε ε' α β σ : Type}

/-- Read nothing. -/
protected def pure (a : α) : Reader ε α := fun c => ⟨.ok a, c, []⟩

/-- Read one thing after another, unless the first fails. -/
protected def bind (p : Reader ε α) (f : α → Reader ε β) : Reader ε β := fun c =>
  match p c with
  | ⟨.ok a, c', journal⟩ =>
    let r := f a c'
    ⟨r.outcome, r.cursor, journal ++ r.journal⟩
  | ⟨.error e, c', journal⟩ => ⟨.error e, c', journal⟩

/-- Read one thing, and make something of it. -/
protected def map (f : α → β) (p : Reader ε α) : Reader ε β := fun c =>
  match p c with
  | ⟨.ok a, c', journal⟩ => ⟨.ok (f a), c', journal⟩
  | ⟨.error e, c', journal⟩ => ⟨.error e, c', journal⟩

instance : Monad (Reader ε) where
  map := Reader.map
  pure := Reader.pure
  bind := Reader.bind

instance : LawfulMonad (Reader ε) :=
  LawfulMonad.mk' (Reader ε)
    (fun p => by
      funext c
      simp only [Functor.map, Reader.map]
      rcases p c with ⟨_ | _, _, _⟩ <;> rfl)
    (fun a f => rfl)
    (fun p f g => by
      funext c
      simp only [bind, Reader.bind]
      rcases p c with ⟨_ | a, c', _⟩
      · rfl
      · rcases h : f a c' with ⟨_ | _, _, _⟩ <;> simp [h])
    (fun _ _ => rfl)
    (fun _ _ => rfl)
    (fun _ _ => rfl)
    (fun f p => by
      funext c
      simp only [bind, Reader.bind, Functor.map, Reader.map]
      rcases p c with ⟨_ | _, _, _⟩ <;> simp [pure, Reader.pure])

theorem bind_apply_of_ok {p : Reader ε α} {f : α → Reader ε β} {c c' : Cursor} {a : α}
    {journal : List Entry} (h : p c = ⟨.ok a, c', journal⟩) :
    (p >>= f) c = ⟨(f a c').outcome, (f a c').cursor, journal ++ (f a c').journal⟩ := by
  simp only [bind, Reader.bind, h]

theorem bind_apply_of_error {p : Reader ε α} {f : α → Reader ε β} {c c' : Cursor} {e : ε}
    {journal : List Entry} (h : p c = ⟨.error e, c', journal⟩) :
    (p >>= f) c = ⟨.error e, c', journal⟩ := by
  simp only [bind, Reader.bind, h]

/-- Fail. -/
def fail (e : ε) : Reader ε α := fun c => ⟨.error e, c, []⟩

/-- Note some things. -/
def noteAll (entries : List Entry) : Reader ε Unit := fun c => ⟨.ok (), c, entries⟩

/-- Note a fault. -/
def report (fault : Fault) : Reader ε Unit := noteAll [.fault fault]

/-- Note a fault if there is one. -/
def reportIf (faulty : Bool) (fault : Fault) : Reader ε Unit :=
  noteAll (if faulty then [.fault fault] else [])

/-- Note that a bound on what is read was reached, if it was. -/
def exhaustIf (reached : Bool) : Reader ε Unit := noteAll (if reached then [.exhausted] else [])

/-- Where the reader is. -/
def here : Reader ε Cursor := fun c => ⟨.ok c, c, []⟩

/-- The next token, which stays where it is. -/
def look : Reader ε Token := fun c => ⟨.ok c.current, c, []⟩

/-- Whether the next token is of some kind. -/
def isAt (kind : TokenKind) : Reader ε Bool := fun c => ⟨.ok (c.current.kind = kind), c, []⟩

/-- Take the next token. The end of the text is never passed. -/
def advance : Reader ε Token := fun c => ⟨.ok c.current, c.next, []⟩

/-- Take the next token if it is of some kind, and say whether it was. -/
def eat (kind : TokenKind) : Reader ε Bool := do
  if ← isAt kind then
    let _ ← advance
    return true
  else return false

/-- Fail because the next token is none of those that could stand here. -/
def failUnexpected (expected : List Expectation) : Reader Fault α := do
  fail (.unexpected (← look) expected none)

/-- Stand in for a reader beyond a bound: note that it was reached, and fail. -/
def outOfRoom (expected : List Expectation) : Reader Fault α := do
  exhaustIf true
  failUnexpected expected

/-- Take the next token, which has to be of some kind. -/
def expect (kind : TokenKind) : Reader Fault Token := do
  if ← isAt kind then advance else failUnexpected [.token kind]

/-- Take a name. -/
def expectName : Reader Fault String := return (← expect .identifier).lexeme

/-- The span from an offset up to the end of the last token read. -/
def spanFrom (start : Nat) : Reader ε Span := fun c =>
  ⟨.ok ⟨start, max start c.lastStop⟩, c, []⟩

/-- Read on after a failure. -/
def rescue (p : Reader ε α) (handle : ε → Reader ε' α) : Reader ε' α := fun c =>
  match p c with
  | ⟨.ok a, c', journal⟩ => ⟨.ok a, c', journal⟩
  | ⟨.error e, c', journal⟩ =>
    let r := handle e c'
    ⟨r.outcome, r.cursor, journal ++ r.journal⟩

theorem rescue_apply_of_ok {p : Reader ε α} {handle : ε → Reader ε' α} {c c' : Cursor} {a : α}
    {journal : List Entry} (h : p c = ⟨.ok a, c', journal⟩) :
    rescue p handle c = ⟨.ok a, c', journal⟩ := by
  simp only [rescue, h]

theorem rescue_apply_of_error {p : Reader ε α} {handle : ε → Reader ε' α} {c c' : Cursor} {e : ε}
    {journal : List Entry} (h : p c = ⟨.error e, c', journal⟩) :
    rescue p handle c =
      ⟨(handle e c').outcome, (handle e c').cursor, journal ++ (handle e c').journal⟩ := by
  simp only [rescue, h]

/-- Take the next token, which should be of some kind; if it is not, note that and go on. -/
def expectOrReport (kind : TokenKind) : Reader ε Unit :=
  rescue (do let _ ← expect kind) report

/-- Skip tokens after a fault in a construct that began where `origin` is. -/
def resync (region : Region) (origin : Cursor) : Reader ε Unit := fun c =>
  let count := region.skip (origin.pos < c.pos) c.ahead
  ⟨.ok (), c.drop count, [.skipped region count]⟩

/-- Run a reader that is bounded by a number of tokens, of which none are beyond the text. -/
def withRoom (p : Nat → Reader ε α) : Reader ε α := fun c => p c.room c

/--
Read items until `stop` holds, at most as many as there are rounds. If there is more to read after
the last round, that is noted.
-/
def manyUntil (stop : Cursor → Bool) (item : Reader ε α) : Nat → Reader ε (List α)
  | 0 => do
    exhaustIf !stop (← here)
    return []
  | rounds + 1 => do
    if stop (← here) then return []
    else
      let a ← item
      (a :: ·) <$> manyUntil stop item rounds

/--
Read items until `stop` holds, at most as many as there are rounds. If there is more to read after
the last round, that is noted. What an item may be depends on a state, which an item may change; a
faulty item is left out.
-/
def manyFrom (stop : Cursor → Bool) (item : σ → Reader ε (Option α))
    (next : σ → α → σ) : Nat → σ → Reader ε (List α)
  | 0, _ => do
    exhaustIf !stop (← here)
    return []
  | rounds + 1, s => do
    if stop (← here) then return []
    else
      match ← item s with
      | some a => (a :: ·) <$> manyFrom stop item next rounds (next s a)
      | none => manyFrom stop item next rounds s

/--
Read one item, and one more after each comma, at most as many as there are rounds. If there is a
comma after the last one, that is noted.
-/
def sepByComma (item : Reader ε α) : Nat → Reader ε (List α)
  | 0 => do
    let a ← item
    exhaustIf (← isAt .comma)
    return [a]
  | rounds + 1 => do
    let a ← item
    if ← eat .comma then (a :: ·) <$> sepByComma item rounds
    else return [a]

section Loops

variable {stop : Cursor → Bool} {c : Cursor}

theorem manyUntil_of_stop {item : Reader ε α} (h : stop c = true) (rounds : Nat) :
    manyUntil stop item rounds c = ⟨.ok [], c, []⟩ := by
  cases rounds <;> simp only [manyUntil, bind, Reader.bind, here, h] <;> rfl

theorem manyFrom_of_stop {item : σ → Reader ε (Option α)} {next : σ → α → σ} (h : stop c = true)
    (rounds : Nat) (s : σ) : manyFrom stop item next rounds s c = ⟨.ok [], c, []⟩ := by
  cases rounds <;> simp only [manyFrom, bind, Reader.bind, here, h] <;> rfl

end Loops

end Reader

end MiniJava
