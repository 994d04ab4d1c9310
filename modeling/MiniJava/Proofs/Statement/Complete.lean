import MiniJava.Proofs.Expression.Complete
import MiniJava.Proofs.Statement.Sound

/-!
# Every statement is read back

Where the yield of a statement lies ahead, that statement is read and no fault is noted, whatever
comes after it: the grammar of statements needs to look no further than their last token.
-/

namespace MiniJava

/-- A statement whose nodes can be read back. -/
def Stmt.Readable (s : Stmt) : Prop := ∀ n ∈ s.nodes, n.Readable

theorem Stmt.not_readable_error (s : Span) : ¬ (Stmt.error s).Readable :=
  fun h => (h (.stmt (.error s)) List.mem_cons_self).noError trivial

theorem Stmt.Readable.yield_ne_nil {s : Stmt} (h : s.Readable) : s.yield ≠ [] := by
  cases s with
  | error s => exact absurd h (not_readable_error s)
  | _ => nofun

/-- A `recur` whose nodes can be read back. -/
def Recur.Readable (r : Recur) : Prop := ∀ n ∈ r.nodes, n.Readable

namespace Parse

open Reader Reading Terminal

variable {ε : Type} {c : Cursor} {rest ys : List Terminal} {s : Stmt} {room : Nat}

/-- The statement was read, up to where `rest` lies ahead. -/
def StatementReadAs (s : Stmt) (rest : List Terminal) : Result Stmt := fun s' d fs =>
  fs = [] ∧ s'.withoutSpans = s.withoutSpans ∧ d.Sees rest

/-- The statement is read where its yield lies ahead. -/
def ReadsStatement (s : Stmt) : Prop :=
  ∀ (room : Nat) (c : Cursor) (rest : List Terminal),
    c.Sees (s.yield ++ rest) → c.ahead.length ≤ room →
    (statementWithin room c).Succeeds (StatementReadAs s rest)

/-! ## Where a statement starts -/

theorem atListEnd_of_statement (hs : s.Readable) (hc : c.Sees (s.yield ++ rest)) :
    atListEnd c = false := by
  cases s with
  | error s => exact absurd hs (Stmt.not_readable_error s)
  | _ =>
    rw [atListEnd, hc.kind_current]
    rfl

theorem succeeds_statementWithin {y : Terminal} {Q : Result Stmt} (hc : c.Sees (y :: ys))
    (hroom : c.ahead.length ≤ room)
    (h : ∀ n, c.ahead.length ≤ n + 1 → (statementOf (statementWithin n) n c).Succeeds Q) :
    (statementWithin room c).Succeeds Q := by
  have hl := hc.length_eq
  rw [List.length_cons] at hl
  cases room with
  | zero => omega
  | succ n => exact h n hroom

/-! ## Statements without others inside -/

theorem readsStatement_println (s : Span) {e : Expr} (he : e.Readable) :
    ReadsStatement (.println s e) := by
  intro room c rest hc hroom
  simp only [Stmt.yield, List.cons_append, List.append_assoc, List.nil_append] at hc
  apply succeeds_statementWithin hc hroom
  intro n _
  rw [statementOf, look_bind, hc.kind_current]
  apply succeeds_expect_bind hc
  intro _ d hd
  apply succeeds_bind (succeeds_parenthesized he hd)
  rintro e' d' fs ⟨rfl, he', hd'⟩
  apply succeeds_expect_bind hd'
  intro _ d'' hd''
  rw [spanFrom_bind]
  exact succeeds_pure ⟨rfl, by simp [Stmt.withoutSpans, he'], hd''⟩

theorem readsStatement_assign (s : Span) (name : String) {e : Expr} (he : e.Readable) :
    ReadsStatement (.assign s name e) := by
  intro room c rest hc hroom
  simp only [Stmt.yield, List.cons_append, List.append_assoc, List.nil_append] at hc
  apply succeeds_statementWithin hc hroom
  intro n _
  rw [statementOf, look_bind, hc.kind_current]
  apply succeeds_expect_identifier_bind hc
  intro t d ht hd
  rw [assignmentTo, look_bind, hd.kind_current, ht]
  apply succeeds_advance_bind hd
  intro _ d _ hd
  apply succeeds_bind (succeeds_expression he rfl hd)
  rintro e' d' fs ⟨rfl, he', hd'⟩
  apply succeeds_expect_bind hd'
  intro _ d'' hd''
  rw [spanFrom_bind]
  exact succeeds_pure ⟨rfl, by simp [Stmt.withoutSpans, he'], hd''⟩

theorem readsStatement_assignElement (s : Span) (name : String) {i e : Expr} (hi : i.Readable)
    (he : e.Readable) : ReadsStatement (.assignElement s name i e) := by
  intro room c rest hc hroom
  simp only [Stmt.yield, List.cons_append, List.append_assoc, List.nil_append] at hc
  apply succeeds_statementWithin hc hroom
  intro n _
  rw [statementOf, look_bind, hc.kind_current]
  apply succeeds_expect_identifier_bind hc
  intro t d ht hd
  rw [assignmentTo, look_bind, hd.kind_current, ht]
  apply succeeds_advance_bind hd
  intro _ d _ hd
  apply succeeds_bind (succeeds_expression hi rfl hd)
  rintro i' d fs ⟨rfl, hi', hd⟩
  refine succeeds_expect_bind hd fun _ d hd => succeeds_expect_bind hd fun _ d hd => ?_
  apply succeeds_bind (succeeds_expression he rfl hd)
  rintro e' d fs ⟨rfl, he', hd⟩
  apply succeeds_expect_bind hd
  intro _ d hd
  rw [spanFrom_bind]
  exact succeeds_pure ⟨rfl, by simp [Stmt.withoutSpans, hi', he'], hd⟩

theorem succeeds_recur {r : Recur} (hr : r.Readable) (hc : c.Sees (r.yield ++ rest)) :
    (recur c).Succeeds fun r' d fs =>
      fs = [] ∧ r'.withoutSpans = r.withoutSpans ∧ d.Sees rest := by
  obtain ⟨-, hr⟩ := List.forall_mem_cons.1 hr
  obtain ⟨hcond, hr⟩ := List.forall_mem_append.1 hr
  obtain ⟨hargs, hfallback⟩ := List.forall_mem_append.1 hr
  simp only [Recur.yield, List.cons_append, List.append_assoc, List.nil_append] at hc
  apply succeeds_expect_bind hc
  intro _ d hd
  apply succeeds_bind (succeeds_parenthesized hcond hd)
  rintro cond d fs ⟨rfl, hcond', hd⟩
  refine succeeds_expect_bind hd fun _ d hd => succeeds_expect_bind hd fun _ d hd => ?_
  apply succeeds_bind (succeeds_arguments (List.forall_mem_flatMap.1 hargs) hd)
  rintro args d fs ⟨rfl, hargs', hd⟩
  refine succeeds_expect_bind hd fun _ d hd => succeeds_expect_bind hd fun _ d hd => ?_
  apply succeeds_bind (succeeds_expression hfallback rfl hd)
  rintro fallback d fs ⟨rfl, hfallback', hd⟩
  apply succeeds_expect_bind hd
  intro _ d hd
  rw [spanFrom_bind]
  exact succeeds_pure ⟨rfl, by simp [Recur.withoutSpans, hcond', hargs', hfallback'], hd⟩

theorem readsStatement_recur {r : Recur} (hr : r.Readable) : ReadsStatement (.recur r) := by
  intro room c rest hc hroom
  apply succeeds_statementWithin hc hroom
  intro n _
  rw [statementOf, look_bind, hc.kind_current]
  apply succeeds_bind (succeeds_recur hr hc)
  rintro r' d fs ⟨rfl, hr', hd⟩
  exact succeeds_pure ⟨rfl, by simp [Stmt.withoutSpans, hr'], hd⟩

/-! ## Statements with others inside -/

theorem succeeds_recovering {inner : Reader Fault Stmt} {Q : Result Stmt}
    (h : (inner c).Succeeds Q) : ((recovering inner : Reader ε Stmt) c).Succeeds Q := by
  rw [recovering, here_bind]
  exact succeeds_rescue h

/-- Statements are read up to where none can stand. -/
theorem succeeds_manyStatements {inner : Reader Fault Stmt} {ss : List Stmt} {rounds : Nat}
    (hss : ∀ s ∈ ss, s.Readable)
    (h : ∀ s ∈ ss, ∀ (d : Cursor) (zs : List Terminal), d.Sees (s.yield ++ zs) →
      d.ahead.length ≤ room → (inner d).Succeeds (StatementReadAs s zs))
    (hstop : ∀ d : Cursor, d.Sees rest → atListEnd d = true)
    (hc : c.Sees (ss.flatMap Stmt.yield ++ rest)) (hrounds : c.ahead.length ≤ rounds)
    (hroom : c.ahead.length ≤ room) :
    ((manyUntil atListEnd (recovering inner) rounds : Reader ε (List Stmt)) c).Succeeds
      fun ss' d fs => fs = [] ∧ ss'.map Stmt.withoutSpans = ss.map Stmt.withoutSpans ∧
        d.Sees rest := by
  have hlength : ss.length ≤ rounds := by
    have hl := hc.length_eq
    have hle := List.length_le_length_flatMap _ ss fun s hs => (hss s hs).yield_ne_nil
    rw [List.length_append] at hl
    omega
  refine succeeds_manyUntil (fun s hs d zs hd hlen => ?_) hstop hlength hroom hc
  exact ⟨atListEnd_of_statement (hss s hs) hd, succeeds_recovering (h s hs d zs hd hlen)⟩

theorem readsStatement_block (s : Span) {ss : List Stmt} (hss : ∀ t ∈ ss, t.Readable)
    (h : ∀ t ∈ ss, ReadsStatement t) : ReadsStatement (.block s ss) := by
  intro room c rest hc hroom
  simp only [Stmt.yield, Stmt.yieldList_eq, List.cons_append, List.append_assoc, List.nil_append]
    at hc
  apply succeeds_statementWithin hc hroom
  intro n hn
  rw [statementOf, look_bind, hc.kind_current]
  apply succeeds_advance_bind hc
  intro _ d _ hd
  have hroom' : d.ahead.length ≤ n := hc.length_ahead_lt hd (by simp) hn
  have hstop : ∀ e : Cursor, e.Sees (word .rightBrace :: rest) → atListEnd e = true := by
    intro e he
    rw [atListEnd, he.kind_current]
    rfl
  refine succeeds_bind (succeeds_manyStatements hss (fun t ht e zs he hlen =>
    h t ht n e zs he hlen) hstop hd hroom' hroom') ?_
  rintro ss' d' fs ⟨rfl, hss', hd'⟩
  apply succeeds_expect_bind hd'
  intro _ d'' hd''
  rw [spanFrom_bind]
  exact succeeds_pure ⟨rfl, by simp [Stmt.withoutSpans, Stmt.withoutSpansList_eq, hss'], hd''⟩

theorem readsStatement_whileLoop (s : Span) {e : Expr} {t : Stmt} (he : e.Readable)
    (ht : ReadsStatement t) : ReadsStatement (.whileLoop s e t) := by
  intro room c rest hc hroom
  simp only [Stmt.yield, List.cons_append, List.append_assoc] at hc
  apply succeeds_statementWithin hc hroom
  intro n hn
  rw [statementOf, look_bind, hc.kind_current]
  apply succeeds_advance_bind hc
  intro _ d _ hd
  apply succeeds_bind (succeeds_parenthesized he hd)
  rintro e' d fs ⟨rfl, he', hd⟩
  have hroom' : d.ahead.length ≤ n := hc.length_ahead_lt hd (by simp; omega) hn
  apply succeeds_bind (ht n d rest hd hroom')
  rintro t' d' fs ⟨rfl, ht', hd'⟩
  rw [spanFrom_bind]
  exact succeeds_pure ⟨rfl, by simp [Stmt.withoutSpans, he', ht'], hd'⟩

theorem readsStatement_ifElse (s : Span) {e : Expr} {t u : Stmt} (he : e.Readable)
    (ht : ReadsStatement t) (hu : ReadsStatement u) : ReadsStatement (.ifElse s e t u) := by
  intro room c rest hc hroom
  simp only [Stmt.yield, List.cons_append, List.append_assoc] at hc
  apply succeeds_statementWithin hc hroom
  intro n hn
  rw [statementOf, look_bind, hc.kind_current]
  apply succeeds_advance_bind hc
  intro _ d _ hd
  apply succeeds_bind (succeeds_parenthesized he hd)
  rintro e' d fs ⟨rfl, he', hd⟩
  have hroom' : d.ahead.length ≤ n := hc.length_ahead_lt hd (by simp; omega) hn
  apply succeeds_bind (ht n d _ hd hroom')
  rintro t' d' fs ⟨rfl, ht', hd'⟩
  have helse : (elseBranchOf (statementWithin n) d').Succeeds (StatementReadAs u rest) :=
    succeeds_eat_bind hd' fun d'' hd'' =>
      hu n d'' rest hd'' (hd'.length_ahead_le hd'' (by simp)
        (hd.length_ahead_le hd' (by simp) hroom'))
  apply succeeds_bind helse
  rintro u' d'' fs ⟨rfl, hu', hd''⟩
  rw [spanFrom_bind]
  exact succeeds_pure ⟨rfl, by simp [Stmt.withoutSpans, he', ht', hu'], hd''⟩

/-! ## All statements -/

mutual

/-- Every statement with readable nodes is read back, one case for each form. -/
theorem readsStatement : ∀ s : Stmt, s.Readable → ReadsStatement s
  | .println s e, h => by
    obtain ⟨-, he⟩ := List.forall_mem_cons.1 h
    exact readsStatement_println s he
  | .assign s n e, h => by
    obtain ⟨-, he⟩ := List.forall_mem_cons.1 h
    exact readsStatement_assign s n he
  | .assignElement s n i e, h => by
    obtain ⟨-, h⟩ := List.forall_mem_cons.1 h
    obtain ⟨hi, he⟩ := List.forall_mem_append.1 h
    exact readsStatement_assignElement s n hi he
  | .recur r, h => by
    obtain ⟨-, hr⟩ := List.forall_mem_cons.1 h
    exact readsStatement_recur hr
  | .block s ss, h => by
    obtain ⟨-, hss⟩ := List.forall_mem_cons.1 h
    have hall := readsStatementList ss hss
    exact readsStatement_block s (fun t ht => (hall t ht).1) fun t ht => (hall t ht).2
  | .whileLoop s e t, h => by
    obtain ⟨-, h⟩ := List.forall_mem_cons.1 h
    obtain ⟨he, ht⟩ := List.forall_mem_append.1 h
    exact readsStatement_whileLoop s he (readsStatement t ht)
  | .ifElse s e t u, h => by
    obtain ⟨-, h⟩ := List.forall_mem_cons.1 h
    obtain ⟨he, h⟩ := List.forall_mem_append.1 h
    obtain ⟨ht, hu⟩ := List.forall_mem_append.1 h
    exact readsStatement_ifElse s he (readsStatement t ht) (readsStatement u hu)
  | .error s, h => absurd h (Stmt.not_readable_error s)

theorem readsStatementList : ∀ ss : List Stmt, (∀ n ∈ Stmt.nodesList ss, n.Readable) →
    ∀ s ∈ ss, s.Readable ∧ ReadsStatement s
  | [], _ => nofun
  | s :: ss, h => by
    obtain ⟨hs, hss⟩ := List.forall_mem_append.1 h
    exact List.forall_mem_cons.2 ⟨⟨hs, readsStatement s hs⟩, readsStatementList ss hss⟩

end

theorem succeeds_statement (hs : s.Readable) (hc : c.Sees (s.yield ++ rest)) :
    (statement c).Succeeds (StatementReadAs s rest) :=
  readsStatement s hs c.room c rest hc c.length_le_room

theorem succeeds_statements {ss : List Stmt} (hss : ∀ s ∈ ss, s.Readable)
    (hstop : ∀ d : Cursor, d.Sees rest → atListEnd d = true)
    (hc : c.Sees (ss.flatMap Stmt.yield ++ rest)) :
    ((statements : Reader ε (List Stmt)) c).Succeeds fun ss' d fs =>
      fs = [] ∧ ss'.map Stmt.withoutSpans = ss.map Stmt.withoutSpans ∧ d.Sees rest :=
  succeeds_manyStatements hss (fun s hs _ _ hd _ => succeeds_statement (hss s hs) hd) hstop hc
    c.length_le_room (Nat.le_refl _)

end Parse

end MiniJava
