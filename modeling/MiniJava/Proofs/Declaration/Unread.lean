import MiniJava.Proofs.Reading.Built

/-!
# Statements that could not be read

Of a statement that could not be read only the place is kept. It starts where the first token of the
statement does, so that the kind of this token can be looked up later on.
-/

namespace MiniJava

/-- Where a statement stands that could not be read. -/
def Stmt.unread? : Stmt → Option Span
  | .error span => some span
  | _ => none

namespace Reader

variable {ε ε' α β : Type} {P : α → Prop}

/-- Whatever a reader gives, `P` holds of it. -/
def Gives (p : Reader ε α) (P : α → Prop) : Prop := ∀ c a, (p c).outcome = .ok a → P a

theorem gives_pure {a : α} (h : P a) : (pure a : Reader ε α).Gives P := by
  rintro c _ ⟨⟩
  exact h

/-- What is read last is what is given. -/
theorem gives_bind {p : Reader ε β} {f : β → Reader ε α} (hf : ∀ b, (f b).Gives P) :
    (p >>= f).Gives P := by
  intro c a ha
  rcases hr : p c with ⟨e | b, d, journal⟩
  · rw [bind_apply_of_error hr] at ha
    cases ha
  · rw [bind_apply_of_ok hr] at ha
    exact hf b d a ha

theorem gives_failUnexpected (expected : List Expectation) :
    (failUnexpected expected : Reader Fault α).Gives P :=
  gives_bind fun _ _ _ ha => by cases ha

theorem gives_rescue {p : Reader ε α} {handle : ε → Reader ε' α} (hp : p.Gives P)
    (hh : ∀ e, (handle e).Gives P) : (rescue p handle).Gives P := by
  intro c a ha
  rcases hr : p c with ⟨e | b, d, journal⟩
  · rw [rescue_apply_of_error hr] at ha
    exact hh e d a ha
  · rw [rescue_apply_of_ok hr] at ha
    cases ha
    exact hp c a (by rw [hr])

end Reader

namespace Parse

open Reader Reading

variable {ε : Type} {c : Cursor} {span : Span}

/-- A statement that was read is no error, whatever the statements inside are. -/
theorem gives_statementOf (inner : Reader Fault Stmt) (room : Nat) :
    (statementOf inner room).Gives fun s => s.unread? = none := by
  refine gives_bind fun first => ?_
  split
  · refine gives_bind fun _ => gives_bind fun _ => gives_bind fun _ => gives_bind fun _ => ?_
    exact gives_pure rfl
  · refine gives_bind fun _ => gives_bind fun _ => gives_bind fun _ => gives_bind fun _ => ?_
    exact gives_bind fun _ => gives_pure rfl
  · refine gives_bind fun _ => gives_bind fun _ => gives_bind fun _ => gives_bind fun _ => ?_
    exact gives_pure rfl
  · refine gives_bind fun _ => gives_bind fun _ => gives_bind fun _ => gives_bind fun _ => ?_
    exact gives_pure rfl
  · refine gives_bind fun _ => gives_bind fun second => ?_
    split
    · refine gives_bind fun _ => gives_bind fun _ => gives_bind fun _ => gives_bind fun _ => ?_
      exact gives_pure rfl
    · refine gives_bind fun _ => gives_bind fun _ => gives_bind fun _ => gives_bind fun _ => ?_
      refine gives_bind fun _ => gives_bind fun _ => gives_bind fun _ => ?_
      exact gives_pure rfl
    · exact gives_failUnexpected _
  · exact gives_bind fun _ => gives_pure rfl
  · exact gives_failUnexpected _

theorem gives_statementWithin (room : Nat) :
    (statementWithin room).Gives fun s => s.unread? = none := by
  cases room <;> exact gives_statementOf _ _

theorem gives_statement : statement.Gives fun s => s.unread? = none := fun c =>
  gives_statementWithin c.room c

/-- What stands in for a statement starts where the statement was to start. -/
theorem start_of_recovering {s : Stmt}
    (h : ((recovering statement : Reader ε Stmt) c).outcome = .ok s) (hs : s.unread? = some span) :
    span.start = c.current.span.start := by
  rw [recovering, here_bind] at h
  rcases hr : statement c with ⟨e | s', d, journal⟩
  · rw [rescue_apply_of_error hr] at h
    cases h
    cases hs
    rfl
  · rw [rescue_apply_of_ok hr] at h
    cases h
    rw [gives_statement c s (by rw [hr])] at hs
    cases hs

theorem start_of_bodyItem {seen : Bool} {s : Stmt}
    (h : ((bodyItem seen : Reader ε (Option BodyItem)) c).outcome = .ok (some (.statement s)))
    (hs : s.unread? = some span) : span.start = c.current.span.start := by
  rw [bodyItem, here_bind] at h
  split at h
  · -- what is read as a declaration leaves no statement
    have hlocal : ((rescue (localDecl seen) fun fault => do
        recover .statements c fault
        return none) : Reader ε (Option BodyItem)).Gives fun item => item ≠ some (.statement s) :=
      gives_rescue (gives_bind fun _ => gives_bind fun _ => gives_pure (by rintro ⟨⟩))
        fun _ => gives_bind fun _ => gives_pure (by rintro ⟨⟩)
    exact absurd rfl (hlocal c _ h)
  · rcases hr : (recovering statement : Reader ε Stmt) c with ⟨e | s', d, journal⟩
    · rw [bind_apply_of_error hr] at h
      cases h
    · rw [bind_apply_of_ok hr] at h
      cases h
      exact start_of_recovering (ε := ε) (by rw [hr]) hs

/-- The first token of a statement that could not be read is found again where the item ends. -/
theorem kindAt_of_bodyItem (hc : c.Regular) {seen : Bool} {s : Stmt}
    (h : ((bodyItem seen : Reader ε (Option BodyItem)) c).outcome = .ok (some (.statement s)))
    (hs : s.unread? = some span) :
    ((bodyItem seen : Reader ε (Option BodyItem)) c).cursor.kindAt span.start =
      some c.current.kind := by
  have htokens := Taking.tokens_eq (bodyItem seen : Reader ε (Option BodyItem)) c
  rw [start_of_bodyItem h hs, Cursor.kindAt_congr htokens, hc.kindAt_current]

end Parse

end MiniJava
