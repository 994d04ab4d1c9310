import MiniJava.Proofs.Reading.Ensures

/-!
# When reading succeeds

`Reading.Succeeds` says that reading gives a value, and what holds of it. Its rules go from the
tokens that lie ahead to what is read from them.
-/

namespace MiniJava

variable {ε ε' α β σ : Type}

/-- What can be said of the value, the place reached and the faults. -/
abbrev Reading.Result (α : Type) := α → Cursor → List Fault → Prop

/-- Reading gives a value for which `Q` holds. -/
def Reading.Succeeds (r : Reading ε α) (Q : Reading.Result α) : Prop :=
  ∃ a, r.outcome = .ok a ∧ Q a r.cursor r.faults

theorem Reading.Succeeds.mono {r : Reading ε α} {Q R : Reading.Result α} (h : r.Succeeds R)
    (hQ : ∀ a d fs, R a d fs → Q a d fs) : r.Succeeds Q := by
  obtain ⟨a, ha, hR⟩ := h
  exact ⟨a, ha, hQ _ _ _ hR⟩

theorem Reading.Succeeds.exists_outcome {r : Reading ε α} {R : Reading.Result α}
    (h : r.Succeeds R) : ∃ a, r.outcome = .ok a := by
  obtain ⟨a, ha, -⟩ := h
  exact ⟨a, ha⟩

namespace Reader

open Reading

variable {p : Reader ε α} {f : α → Reader ε β} {c : Cursor} {Q : Result β} {R : Result α}
  {ys : List Terminal}

theorem succeeds_pure {a : α} (h : R a c []) : ((pure a : Reader ε α) c).Succeeds R :=
  ⟨a, rfl, h⟩

theorem succeeds_bind (hp : (p c).Succeeds R)
    (hf : ∀ a d fs, R a d fs → (f a d).Succeeds fun b e gs => Q b e (fs ++ gs)) :
    ((p >>= f) c).Succeeds Q := by
  obtain ⟨a, ha, hR⟩ := hp
  obtain ⟨b, hb, hQ⟩ := hf _ _ _ hR
  rcases h : p c with ⟨e | a', d, journal⟩
  · rw [h] at ha
    cases ha
  · rw [h] at ha hb hQ
    cases ha
    rw [bind_apply_of_ok h]
    refine ⟨b, hb, ?_⟩
    rw [faults, List.filterMap_append]
    exact hQ

theorem succeeds_map {g : α → β} (hp : (p c).Succeeds fun a d fs => Q (g a) d fs) :
    ((g <$> p) c).Succeeds Q := by
  obtain ⟨a, ha, hQ⟩ := hp
  rcases h : p c with ⟨e | a', d, journal⟩ <;> rw [h] at ha hQ <;> cases ha
  refine ⟨g a, ?_⟩
  simp only [Functor.map, Reader.map, h, true_and]
  exact hQ

theorem succeeds_rescue {handle : ε → Reader ε' α} (hp : (p c).Succeeds R) :
    ((rescue p handle) c).Succeeds R := by
  obtain ⟨a, ha, hR⟩ := hp
  rcases h : p c with ⟨e | a', d, journal⟩ <;> rw [h] at ha hR <;> cases ha
  rw [rescue_apply_of_ok h]
  exact ⟨a, rfl, hR⟩

/-- That a bound was reached is no fault. -/
theorem succeeds_exhaustIf_bind {reached : Bool} {f : Unit → Reader ε β}
    (h : (f () c).Succeeds Q) : ((exhaustIf reached >>= f) c).Succeeds Q := by
  obtain ⟨b, hb, hQ⟩ := h
  cases reached <;> exact ⟨b, hb, hQ⟩

theorem succeeds_noteAll {entries : List Entry} {R : Result Unit}
    (h : R () c (entries.filterMap Entry.fault?)) :
    ((noteAll entries : Reader ε Unit) c).Succeeds R :=
  ⟨(), rfl, h⟩

/-! ## Tokens -/

section Tokens

variable {kind : TokenKind} {y : Terminal}

theorem succeeds_advance_bind {f : Token → Reader ε β} (hc : c.Sees (y :: ys))
    (h : ∀ t d, t.terminal = y → d.Sees ys → (f t d).Succeeds Q) :
    ((advance >>= f) c).Succeeds Q :=
  h _ _ hc.terminal_current hc.drop_one

theorem succeeds_expect_bind {f : Token → Reader Fault β} (hc : c.Sees (.word kind :: ys))
    (h : ∀ t d, d.Sees ys → (f t d).Succeeds Q) :
    ((expect kind >>= f) c).Succeeds Q := by
  have hk : c.current.kind = kind := hc.kind_current
  rw [bind_apply_of_ok (expect_of_kind hk)]
  exact h _ _ hc.drop_one

theorem succeeds_expect_identifier_bind {n : String} {f : Token → Reader Fault β}
    (hc : c.Sees (.ident n :: ys))
    (h : ∀ t d, t.lexeme = n → d.Sees ys → (f t d).Succeeds Q) :
    ((expect .identifier >>= f) c).Succeeds Q := by
  have hk : c.current.kind = .identifier := hc.kind_current
  rw [bind_apply_of_ok (expect_of_kind hk)]
  exact h _ _ hc.lexeme_current hc.drop_one

theorem succeeds_expectName_bind {n : String} {f : String → Reader Fault β}
    (hc : c.Sees (.ident n :: ys)) (h : ∀ d, d.Sees ys → (f n d).Succeeds Q) :
    ((expectName >>= f) c).Succeeds Q := by
  rw [expectName, bind_assoc]
  apply succeeds_expect_identifier_bind hc
  intro t d ht hd
  rw [pure_bind, ht]
  exact h d hd

theorem succeeds_eat_bind {f : Bool → Reader ε β} (hc : c.Sees (.word kind :: ys))
    (h : ∀ d, d.Sees ys → (f true d).Succeeds Q) : ((eat kind >>= f) c).Succeeds Q := by
  rw [eat, bind_assoc, isAt_bind, if_pos (by simpa using hc.kind_current), bind_assoc]
  exact succeeds_advance_bind hc fun _ d _ hd => h d hd

theorem succeeds_eat_bind_of_ne {f : Bool → Reader ε β} (hc : c.current.kind ≠ kind)
    (h : (f false c).Succeeds Q) : ((eat kind >>= f) c).Succeeds Q := by
  rw [eat, bind_assoc, isAt_bind, if_neg (by simpa using hc)]
  exact h

theorem succeeds_expectOrReport_bind {f : Unit → Reader ε β}
    (hc : c.Sees (.word kind :: ys)) (h : ∀ d, d.Sees ys → (f () d).Succeeds Q) :
    ((expectOrReport kind >>= f) c).Succeeds Q := by
  have he : (do let _ ← expect kind : Reader Fault Unit) c = ⟨.ok (), c.drop 1, []⟩ := by
    have hk : c.current.kind = kind := hc.kind_current
    rw [bind_apply_of_ok (expect_of_kind hk)]
    rfl
  rw [expectOrReport, bind_apply_of_ok (rescue_apply_of_ok he)]
  exact h _ hc.drop_one

end Tokens

end Reader

end MiniJava
