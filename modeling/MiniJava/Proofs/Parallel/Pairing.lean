import Mathlib.Data.List.Forall2
import MiniJava.Proofs.Reading.Ensures

/-!
# Two readings side by side

A reader decides by kinds and texts of tokens, and never by the places at which they stand. To say
so, one and the same reader is run from two places that are paired: `Reading.Parallel` says that
both runs come to paired places, note faults of the same causes, and give values that correspond.
What it means for two places to be paired is left open; a `Pairing` says what reading asks of it.
-/

namespace MiniJava

/-- Two tokens that are the same but for their places, which correspond. -/
structure Token.Twin (Starts : Nat → Nat → Prop) (t u : Token) : Prop where
  kind : t.kind = u.kind
  lexeme : t.lexeme = u.lexeme
  start : Starts t.span.start u.span.start

/-- Two faults that have the same cause, at places that correspond. -/
inductive Fault.Twin (Starts : Nat → Nat → Prop) : Fault → Fault → Prop
  | unexpected {t u : Token} (h : t.Twin Starts u) (expected : List Expectation)
      (hint : Option Hint) : Twin Starts (.unexpected t expected hint) (.unexpected u expected hint)
  | misplaced {s s' : Span} (h : Starts s.start s'.start) (rule : OrderRule) :
      Twin Starts (.misplaced rule s) (.misplaced rule s')

/--
Places that are paired, of the same or of two texts. The keyword of a class may be a border that
is not to be passed; where `Free` holds, the next token may be taken all the same.
-/
structure Pairing where
  Starts : Nat → Nat → Prop
  Pairs : Cursor → Cursor → Prop
  Free : List Token → Prop
  regular : ∀ {c d : Cursor}, Pairs c d → c.Regular
  pos_eq : ∀ {c d : Cursor}, Pairs c d → c.pos = d.pos
  room_eq : ∀ {c d : Cursor}, Pairs c d → c.room = d.room
  current : ∀ {c d : Cursor}, Pairs c d → c.current.Twin Starts d.current
  secondKind_eq : ∀ {c d : Cursor}, Pairs c d → c.secondKind = d.secondKind
  kindAt_eq : ∀ {c d : Cursor} {p q : Nat}, Pairs c d → Starts p q → c.kindAt p = d.kindAt q
  free : ∀ {c d : Cursor}, Pairs c d → c.current.kind ≠ .classKw → Free c.ahead
  drop_one : ∀ {c d : Cursor}, Pairs c d → Free c.ahead → Pairs (c.drop 1) (d.drop 1)
  /-- Both skip the same number of tokens, provided that a first one that has to go may go. -/
  skip : ∀ {c d : Cursor} (region : Region) (moved : Bool), Pairs c d →
    (moved = false → Free c.ahead) → region.skip moved c.ahead = region.skip moved d.ahead ∧
      Pairs (c.drop (region.skip moved c.ahead)) (d.drop (region.skip moved c.ahead))

/-- Two outcomes of the same form, which correspond. -/
inductive Reading.Outcomes {ε α : Type} (E : ε → ε → Prop) (V : α → α → Prop) :
    Except ε α → Except ε α → Prop
  | ok {a b : α} (h : V a b) : Outcomes E V (.ok a) (.ok b)
  | error {e f : ε} (h : E e f) : Outcomes E V (.error e) (.error f)

/-- Two readings that differ in places only. Failures are to be related by `E`, values by `V`. -/
structure Reading.Parallel {ε α : Type} (P : Pairing) (E : ε → ε → Prop) (V : α → α → Prop)
    (r s : Reading ε α) : Prop where
  outcomes : Reading.Outcomes E V r.outcome s.outcome
  pairs : P.Pairs r.cursor s.cursor
  faults : List.Forall₂ (Fault.Twin P.Starts) r.faults s.faults

theorem Reading.Parallel.mono {ε α : Type} {P : Pairing} {E : ε → ε → Prop} {V W : α → α → Prop}
    {r s : Reading ε α} (h : r.Parallel P E V s) (hV : ∀ a b, V a b → W a b) :
    r.Parallel P E W s := by
  obtain ⟨o, c, journal⟩ := r
  obtain ⟨o', d, journal'⟩ := s
  rcases h with ⟨ho, hpairs, hfaults⟩
  cases ho with
  | ok hv => exact ⟨.ok (hV _ _ hv), hpairs, hfaults⟩
  | error he => exact ⟨.error he, hpairs, hfaults⟩

/-- Where no two failures correspond, reading does not fail. -/
theorem Reading.Parallel.exists_outcome {ε α : Type} {P : Pairing} {V : α → α → Prop}
    {r s : Reading ε α} (h : r.Parallel P (fun _ _ => False) V s) : ∃ a, r.outcome = .ok a := by
  obtain ⟨o, c, journal⟩ := r
  obtain ⟨o', d, journal'⟩ := s
  rcases h with ⟨ho, -, -⟩
  cases ho with
  | ok => exact ⟨_, rfl⟩
  | error he => exact False.elim he

namespace Pairing

variable {P : Pairing} {c d : Cursor}

theorem kind_eq (h : P.Pairs c d) : c.current.kind = d.current.kind := (P.current h).kind

theorem lexeme_eq (h : P.Pairs c d) : c.current.lexeme = d.current.lexeme := (P.current h).lexeme

end Pairing

/-- A place that was come to without more tokens being read is the same place. -/
theorem Cursor.Reaches.ahead_eq {c d : Cursor} {ys : List Terminal} (h : c.Reaches ys d)
    (hpos : ¬ c.pos < d.pos) : d.ahead = c.ahead := by
  have hlength := h.length_eq
  obtain ⟨taken, hahead, htaken, htokens⟩ := h
  have hroom := mt (Cursor.pos_lt_pos htokens) hpos
  rw [c.room_eq, d.room_eq] at hroom
  have hnone : ys = [] := by
    apply List.length_eq_zero_iff.1
    omega
  rw [hnone, List.map_eq_nil_iff] at htaken
  rw [hahead, htaken, List.nil_append]

namespace Reader

open Reading

variable {ε ε' α β σ : Type} {P : Pairing} {E : ε → ε → Prop} {E' : ε' → ε' → Prop}
  {V : α → α → Prop} {W : β → β → Prop} {c d : Cursor} {p q : Reader ε α} {f g : α → Reader ε β}

/-! ## Rules -/

theorem parallel_pure {a b : α} (h : P.Pairs c d) (hv : V a b) :
    ((pure a : Reader ε α) c).Parallel P E V ((pure b : Reader ε α) d) :=
  ⟨.ok hv, h, .nil⟩

theorem parallel_failUnexpected (h : P.Pairs c d) (expected : List Expectation) :
    ((failUnexpected expected : Reader Fault α) c).Parallel P (Fault.Twin P.Starts) V
      ((failUnexpected expected : Reader Fault α) d) :=
  ⟨.error (.unexpected (P.current h) expected none), h, .nil⟩

theorem faults_append (o : Except ε α) (c : Cursor) (journal journal' : List Entry) :
    (⟨o, c, journal ++ journal'⟩ : Reading ε α).faults =
      journal.filterMap Entry.fault? ++ journal'.filterMap Entry.fault? :=
  List.filterMap_append

theorem parallel_bind (hp : (p c).Parallel P E V (q d))
    (hf : ∀ a b c' d', P.Pairs c' d' → V a b → (f a c').Parallel P E W (g b d')) :
    ((p >>= f) c).Parallel P E W ((q >>= g) d) := by
  rcases hr : p c with ⟨o, c', journal⟩
  rcases hs : q d with ⟨o', d', journal'⟩
  rw [hr, hs] at hp
  rcases hp with ⟨ho, hpairs, hfaults⟩
  cases ho with
  | ok hv =>
    have hrest := hf _ _ c' d' hpairs hv
    rw [bind_apply_of_ok hr, bind_apply_of_ok hs]
    refine ⟨hrest.outcomes, hrest.pairs, ?_⟩
    rw [faults_append, faults_append]
    exact List.rel_append hfaults hrest.faults
  | error he =>
    rw [bind_apply_of_error hr, bind_apply_of_error hs]
    exact ⟨.error he, hpairs, hfaults⟩

theorem parallel_map {f g : α → β} (hp : (p c).Parallel P E (fun a b => W (f a) (g b)) (q d)) :
    ((f <$> p) c).Parallel P E W ((g <$> q) d) := by
  rw [map_eq_pure_bind, map_eq_pure_bind]
  exact parallel_bind hp fun _ _ _ _ h hv => parallel_pure h hv

/-- After a failure, reading goes on from where it stopped. -/
theorem parallel_rescue {handle handle' : ε → Reader ε' α} (hp : (p c).Parallel P E V (q d))
    (hh : ∀ e e', E e e' → P.Pairs (p c).cursor (q d).cursor →
      (handle e (p c).cursor).Parallel P E' V (handle' e' (q d).cursor)) :
    ((rescue p handle) c).Parallel P E' V ((rescue q handle') d) := by
  rcases hr : p c with ⟨o, c', journal⟩
  rcases hs : q d with ⟨o', d', journal'⟩
  rw [hr, hs] at hp hh
  rcases hp with ⟨ho, hpairs, hfaults⟩
  cases ho with
  | ok hv =>
    rw [rescue_apply_of_ok hr, rescue_apply_of_ok hs]
    exact ⟨.ok hv, hpairs, hfaults⟩
  | error he =>
    have hrest := hh _ _ he hpairs
    rw [rescue_apply_of_error hr, rescue_apply_of_error hs]
    refine ⟨hrest.outcomes, hrest.pairs, ?_⟩
    rw [faults_append, faults_append]
    exact List.rel_append hfaults hrest.faults

theorem parallel_noteAll {entries entries' : List Entry} (h : P.Pairs c d)
    (hf : List.Forall₂ (Fault.Twin P.Starts) (entries.filterMap Entry.fault?)
      (entries'.filterMap Entry.fault?)) :
    ((noteAll entries : Reader ε Unit) c).Parallel P E (fun _ _ => True)
      ((noteAll entries' : Reader ε Unit) d) :=
  ⟨.ok trivial, h, hf⟩

/-- That a bound was reached is no fault. -/
theorem parallel_exhaustIf_bind {reached reached' : Bool} {f g : Unit → Reader ε α}
    (hf : (f () c).Parallel P E V (g () d)) :
    ((exhaustIf reached >>= f) c).Parallel P E V ((exhaustIf reached' >>= g) d) := by
  cases reached <;> cases reached' <;> exact ⟨hf.outcomes, hf.pairs, hf.faults⟩

theorem parallel_outOfRoom (h : P.Pairs c d) (expected : List Expectation) :
    ((outOfRoom expected : Reader Fault α) c).Parallel P (Fault.Twin P.Starts) V
      ((outOfRoom expected : Reader Fault α) d) :=
  parallel_exhaustIf_bind (parallel_failUnexpected h expected)

theorem parallel_report {fault fault' : Fault} (h : P.Pairs c d)
    (hf : fault.Twin P.Starts fault') :
    ((report fault : Reader ε Unit) c).Parallel P E (fun _ _ => True)
      ((report fault' : Reader ε Unit) d) :=
  parallel_noteAll h (.cons hf .nil)

theorem parallel_reportIf {fault fault' : Fault} (faulty : Bool) (h : P.Pairs c d)
    (hf : fault.Twin P.Starts fault') :
    ((reportIf faulty fault : Reader ε Unit) c).Parallel P E (fun _ _ => True)
      ((reportIf faulty fault' : Reader ε Unit) d) := by
  cases faulty with
  | true => exact parallel_noteAll h (.cons hf .nil)
  | false => exact parallel_noteAll h .nil

/-- Skipping starts after the first token of the faulty construct, or else that token may go. -/
theorem parallel_resync {o o' : Cursor} (region : Region) (h : P.Pairs c d) (ho : P.Pairs o o')
    (hfree : ¬ o.pos < c.pos → P.Free c.ahead) :
    ((resync region o : Reader ε Unit) c).Parallel P E (fun _ _ => True)
      ((resync region o' : Reader ε Unit) d) := by
  have hmoved : decide (o.pos < c.pos) = decide (o'.pos < d.pos) := by
    rw [P.pos_eq h, P.pos_eq ho]
  obtain ⟨hcount, hpairs⟩ := P.skip region (decide (o.pos < c.pos)) h
    fun hno => hfree (of_decide_eq_false hno)
  refine ⟨.ok trivial, ?_, .nil⟩
  simp only [resync]
  rwa [← hmoved, ← hcount]

theorem parallel_withRoom {p q : Nat → Reader ε α} (h : P.Pairs c d)
    (hp : (p c.room c).Parallel P E V (q c.room d)) :
    (withRoom p c).Parallel P E V (withRoom q d) := by
  rw [withRoom, withRoom, ← P.room_eq h]
  exact hp

/-- Two spans that start as given may end in different places. -/
theorem parallel_spanFrom_bind {f g : Span → Reader ε β} (start start' : Nat)
    (hf : ∀ s s' : Span, s.start = start → s'.start = start' → (f s c).Parallel P E W (g s' d)) :
    ((spanFrom start >>= f) c).Parallel P E W ((spanFrom start' >>= g) d) :=
  hf _ _ rfl rfl

/-! ## Tokens -/

section Tokens

variable {kind : TokenKind} {V : α → α → Prop}

theorem parallel_advance_bind {f g : Token → Reader ε β} (h : P.Pairs c d) (hfree : P.Free c.ahead)
    (hf : ∀ t u, t.Twin P.Starts u → P.Pairs (c.drop 1) (d.drop 1) →
      (f t (c.drop 1)).Parallel P E W (g u (d.drop 1))) :
    ((advance >>= f) c).Parallel P E W ((advance >>= g) d) :=
  hf _ _ (P.current h) (P.drop_one h hfree)

theorem parallel_isAt_bind {f g : Bool → Reader ε β} (h : P.Pairs c d)
    (hf : (f (c.current.kind = kind) c).Parallel P E W (g (c.current.kind = kind) d)) :
    ((isAt kind >>= f) c).Parallel P E W ((isAt kind >>= g) d) := by
  rw [isAt_bind, isAt_bind, ← P.kind_eq h]
  exact hf

/-- The token is taken by both readers or by none. -/
theorem parallel_expect (h : P.Pairs c d) (hfree : c.current.kind = kind → P.Free c.ahead) :
    (expect kind c).Parallel P (Fault.Twin P.Starts) (Token.Twin P.Starts) (expect kind d) := by
  by_cases hk : c.current.kind = kind
  · rw [expect_of_kind hk, expect_of_kind (P.kind_eq h ▸ hk)]
    exact ⟨.ok (P.current h), P.drop_one h (hfree hk), .nil⟩
  · rw [expect_of_ne hk, expect_of_ne (P.kind_eq h ▸ hk)]
    exact ⟨.error (.unexpected (P.current h) _ _), h, .nil⟩

theorem parallel_expect_bind {f g : Token → Reader Fault β} (h : P.Pairs c d)
    (hne : kind ≠ .classKw)
    (hf : ∀ t u c' d', P.Pairs c' d' → t.Twin P.Starts u →
      (f t c').Parallel P (Fault.Twin P.Starts) W (g u d')) :
    ((expect kind >>= f) c).Parallel P (Fault.Twin P.Starts) W ((expect kind >>= g) d) :=
  parallel_bind (parallel_expect h fun hk => P.free h (hk ▸ hne)) hf

theorem parallel_expectName_bind {f g : String → Reader Fault β} (h : P.Pairs c d)
    (hf : ∀ n c' d', P.Pairs c' d' → (f n c').Parallel P (Fault.Twin P.Starts) W (g n d')) :
    ((expectName >>= f) c).Parallel P (Fault.Twin P.Starts) W ((expectName >>= g) d) := by
  rw [expectName, bind_assoc, bind_assoc]
  apply parallel_expect_bind h (by decide)
  intro t u c' d' h' htwin
  rw [pure_bind, pure_bind, htwin.lexeme]
  exact hf u.lexeme c' d' h'

theorem parallel_eat_bind {f g : Bool → Reader ε β} (h : P.Pairs c d) (hne : kind ≠ .classKw)
    (hf : ∀ b c' d', P.Pairs c' d' → (f b c').Parallel P E W (g b d')) :
    ((eat kind >>= f) c).Parallel P E W ((eat kind >>= g) d) := by
  rw [eat, bind_assoc, bind_assoc]
  apply parallel_isAt_bind h
  by_cases hk : c.current.kind = kind
  · rw [if_pos (decide_eq_true hk), bind_assoc, bind_assoc]
    exact parallel_advance_bind h (P.free h (hk ▸ hne)) fun _ _ _ h' => hf true _ _ h'
  · rw [if_neg (by simpa using hk)]
    exact hf false c d h

theorem parallel_expectOrReport (h : P.Pairs c d) (hne : kind ≠ .classKw) :
    ((expectOrReport kind : Reader ε Unit) c).Parallel P E (fun _ _ => True)
      ((expectOrReport kind : Reader ε Unit) d) := by
  apply parallel_rescue (E := Fault.Twin P.Starts)
  · exact parallel_expect_bind h hne fun _ _ _ _ h' _ => parallel_pure h' trivial
  · exact fun _ _ hfault h' => parallel_report h' hfault

end Tokens

/-! ## Reading items again and again -/

section Loops

variable {stop : Cursor → Bool}

/-- Loops make the same number of rounds, since they see the same kinds of tokens. -/
theorem parallel_manyUntil {item : Reader ε α} (hstop : ∀ c d, P.Pairs c d → stop c = stop d)
    (hitem : ∀ c d, P.Pairs c d → stop c = false → (item c).Parallel P E V (item d))
    (rounds : Nat) {c d : Cursor} (h : P.Pairs c d) :
    (manyUntil stop item rounds c).Parallel P E (List.Forall₂ V)
      (manyUntil stop item rounds d) := by
  induction rounds generalizing c d with
  | zero =>
    rw [manyUntil, here_bind, here_bind]
    exact parallel_exhaustIf_bind (parallel_pure h .nil)
  | succ rounds ih =>
    rw [manyUntil, here_bind, here_bind, ← hstop c d h]
    cases hc : stop c with
    | true => exact parallel_pure h .nil
    | false =>
      apply parallel_bind (hitem c d h hc)
      intro a b c' d' h' hv
      exact parallel_map ((ih h').mono fun _ _ hvs => .cons hv hvs)

/-- Two states of a loop may be told apart by nothing that an item or the next state asks of them. -/
theorem parallel_manyFrom {item : σ → Reader ε (Option α)} {next : σ → α → σ}
    (hstop : ∀ c d, P.Pairs c d → stop c = stop d)
    (hnext : ∀ s a b, V a b → next s a = next s b)
    (hitem : ∀ s c d, P.Pairs c d → stop c = false →
      (item s c).Parallel P E (Option.Rel V) (item s d))
    (rounds : Nat) (s : σ) {c d : Cursor} (h : P.Pairs c d) :
    (manyFrom stop item next rounds s c).Parallel P E (List.Forall₂ V)
      (manyFrom stop item next rounds s d) := by
  induction rounds generalizing s c d with
  | zero =>
    rw [manyFrom, here_bind, here_bind]
    exact parallel_exhaustIf_bind (parallel_pure h .nil)
  | succ rounds ih =>
    rw [manyFrom, here_bind, here_bind, ← hstop c d h]
    cases hc : stop c with
    | true => exact parallel_pure h .nil
    | false =>
      apply parallel_bind (hitem s c d h hc)
      intro a b c' d' h' hv
      cases hv with
      | none => exact ih s h'
      | some hv =>
        simp only [← hnext s _ _ hv]
        exact parallel_map ((ih _ h').mono fun _ _ hvs => .cons hv hvs)

theorem parallel_sepByComma {item : Reader ε α}
    (hitem : ∀ c d, P.Pairs c d → (item c).Parallel P E V (item d)) (rounds : Nat)
    {c d : Cursor} (h : P.Pairs c d) :
    (sepByComma item rounds c).Parallel P E (List.Forall₂ V) (sepByComma item rounds d) := by
  induction rounds generalizing c d with
  | zero =>
    apply parallel_bind (hitem c d h)
    intro a b c' d' h' hv
    rw [isAt_bind, isAt_bind]
    exact parallel_exhaustIf_bind (parallel_pure h' (.cons hv .nil))
  | succ rounds ih =>
    apply parallel_bind (hitem c d h)
    intro a b c' d' h' hv
    apply parallel_eat_bind h' (by decide)
    intro more e e' he
    cases more with
    | true => exact parallel_map ((ih he).mono fun _ _ hvs => .cons hv hvs)
    | false => exact parallel_pure he (.cons hv .nil)

end Loops

end Reader

end MiniJava
