import MiniJava.Proofs.Reading.Reaches

/-!
# What reading ensures

`Reading.Ensures` says what holds however reading goes: tokens are only taken from the front, and a
value that is given satisfies a condition on what was taken, the place reached and the faults noted.
Each way to build a reader has one rule.
-/

namespace MiniJava

variable {ε ε' α β σ : Type}

/-- The faults that were noted. -/
def Reading.faults (r : Reading ε α) : List Fault := r.journal.filterMap Entry.fault?

/-- What can be said of what was taken, the value, the place reached and the faults. -/
abbrev Reading.Post (α : Type) := List Terminal → α → Cursor → List Fault → Prop

/-- From a regular place `c`, reading takes tokens from the front, and `Q` holds if it succeeds. -/
def Reading.Ensures (r : Reading ε α) (c : Cursor) (Q : Reading.Post α) : Prop :=
  c.Regular → ∃ ys, c.Reaches ys r.cursor ∧ ∀ a, r.outcome = .ok a → Q ys a r.cursor r.faults

theorem Reading.Ensures.mono {r : Reading ε α} {c : Cursor} {Q R : Reading.Post α}
    (h : r.Ensures c R) (hQ : ∀ ys a d fs, R ys a d fs → Q ys a d fs) : r.Ensures c Q := by
  intro hc
  obtain ⟨ys, hd, ha⟩ := h hc
  exact ⟨ys, hd, fun a hok => hQ _ _ _ _ (ha a hok)⟩

theorem Reading.Ensures.and {r : Reading ε α} {c : Cursor} {Q R : Reading.Post α}
    (h : r.Ensures c Q) (h' : r.Ensures c R) :
    r.Ensures c fun ys a d fs => Q ys a d fs ∧ R ys a d fs := by
  intro hc
  obtain ⟨ys, hd, ha⟩ := h hc
  obtain ⟨zs, hd', ha'⟩ := h' hc
  obtain rfl := hd.unique hd'
  exact ⟨ys, hd, fun a hok => ⟨ha a hok, ha' a hok⟩⟩

/-- What reading ensures further on holds from here, with the tokens between put in front. -/
theorem Reading.Ensures.after {r : Reading ε α} {c d : Cursor} {ys : List Terminal}
    {Q : Reading.Post α} (hd : c.Reaches ys d)
    (h : r.Ensures d fun zs a e fs => Q (ys ++ zs) a e fs) : r.Ensures c Q := by
  intro hc
  obtain ⟨zs, he, ha⟩ := h (hd.regular hc)
  exact ⟨ys ++ zs, hd.trans he, ha⟩

namespace Reader

open Reading

variable {p : Reader ε α} {f : α → Reader ε β} {c : Cursor} {Q : Post β} {R : Post α}

/-! ## Steps that take nothing -/

theorem look_bind (f : Token → Reader ε β) (c : Cursor) : (look >>= f) c = f c.current c := rfl

theorem here_bind (f : Cursor → Reader ε β) (c : Cursor) : (here >>= f) c = f c c := rfl

theorem isAt_bind (kind : TokenKind) (f : Bool → Reader ε β) (c : Cursor) :
    (isAt kind >>= f) c = f (c.current.kind = kind) c := rfl

theorem spanFrom_bind (start : Nat) (f : Span → Reader ε β) (c : Cursor) :
    (spanFrom start >>= f) c = f ⟨start, max start c.lastStop⟩ c := rfl

theorem advance_bind (f : Token → Reader ε β) (c : Cursor) :
    (advance >>= f) c = f c.current (c.drop 1) := rfl

theorem expect_of_kind {kind : TokenKind} {c : Cursor} (h : c.current.kind = kind) :
    expect kind c = ⟨.ok c.current, c.drop 1, []⟩ := by
  rw [expect, isAt_bind, if_pos (decide_eq_true h)]
  rfl

theorem expect_of_ne {kind : TokenKind} {c : Cursor} (h : c.current.kind ≠ kind) :
    expect kind c = ⟨.error (.unexpected c.current [.token kind] none), c, []⟩ := by
  rw [expect, isAt_bind, if_neg (by simpa using h)]
  rfl

/-! ## Rules -/

theorem ensures_pure {a : α} (h : R [] a c []) : ((pure a : Reader ε α) c).Ensures c R :=
  fun _ => ⟨[], .refl c, fun _ ha => by cases ha; exact h⟩

theorem ensures_fail (e : ε) (c : Cursor) (R : Post α) :
    ((fail e : Reader ε α) c).Ensures c R :=
  fun _ => ⟨[], .refl c, fun _ ha => by cases ha⟩

theorem ensures_failUnexpected (expected : List Expectation) (c : Cursor) (R : Post α) :
    ((failUnexpected expected : Reader Fault α) c).Ensures c R :=
  fun _ => ⟨[], .refl c, fun _ ha => by cases ha⟩

theorem ensures_bind (hp : (p c).Ensures c R)
    (hf : ∀ ys a d fs, c.Reaches ys d → R ys a d fs →
      (f a d).Ensures d fun zs b e gs => Q (ys ++ zs) b e (fs ++ gs)) :
    ((p >>= f) c).Ensures c Q := by
  intro hc
  obtain ⟨ys, hd, ha⟩ := hp hc
  rcases h : p c with ⟨e | a, d, journal⟩
  · rw [bind_apply_of_error h]
    exact ⟨ys, by simpa only [h] using hd, fun b hb => by cases hb⟩
  · rw [bind_apply_of_ok h]
    rw [h] at hd ha
    obtain ⟨zs, he, hb⟩ := hf ys a d _ hd (ha a rfl) (hd.regular hc)
    refine ⟨ys ++ zs, hd.trans he, fun b hok => ?_⟩
    rw [faults, List.filterMap_append]
    exact hb b hok

theorem ensures_map {g : α → β} (hp : (p c).Ensures c fun ys a d fs => Q ys (g a) d fs) :
    ((g <$> p) c).Ensures c Q := by
  intro hc
  obtain ⟨ys, hd, ha⟩ := hp hc
  rcases h : p c with ⟨e | a, d, journal⟩ <;>
    simp only [Functor.map, Reader.map, h] at hd ha ⊢
  · exact ⟨ys, hd, fun b hb => by cases hb⟩
  · exact ⟨ys, hd, fun b hb => by cases hb; exact ha a rfl⟩

theorem ensures_rescue {handle : ε → Reader ε' α} (hp : (p c).Ensures c R)
    (hh : ∀ e ys d fs, c.Reaches ys d →
      (handle e d).Ensures d fun zs a d' gs => R (ys ++ zs) a d' (fs ++ gs)) :
    ((rescue p handle) c).Ensures c R := by
  intro hc
  obtain ⟨ys, hd, ha⟩ := hp hc
  rcases h : p c with ⟨e | a, d, journal⟩
  · rw [rescue_apply_of_error h]
    rw [h] at hd
    obtain ⟨zs, he, hb⟩ := hh e ys d (journal.filterMap Entry.fault?) hd (hd.regular hc)
    refine ⟨ys ++ zs, hd.trans he, fun b hok => ?_⟩
    rw [faults, List.filterMap_append]
    exact hb b hok
  · rw [rescue_apply_of_ok h]
    rw [h] at hd ha
    exact ⟨ys, hd, fun b hb => by cases hb; exact ha a rfl⟩

/-- That a bound was reached is no fault. -/
theorem ensures_exhaustIf_bind {reached : Bool} {f : Unit → Reader ε β}
    (h : (f () c).Ensures c Q) : ((exhaustIf reached >>= f) c).Ensures c Q := by
  cases reached <;> exact fun hc => h hc

theorem ensures_outOfRoom (expected : List Expectation) (c : Cursor) (R : Post α) :
    ((outOfRoom expected : Reader Fault α) c).Ensures c R :=
  ensures_exhaustIf_bind (ensures_failUnexpected expected c R)

theorem ensures_noteAll {entries : List Entry} {R : Post Unit}
    (h : R [] () c (entries.filterMap Entry.fault?)) :
    ((noteAll entries : Reader ε Unit) c).Ensures c R :=
  fun _ => ⟨[], .refl c, fun _ _ => h⟩

theorem ensures_report {fault : Fault} {R : Post Unit} (h : R [] () c [fault]) :
    ((report fault : Reader ε Unit) c).Ensures c R :=
  ensures_noteAll h

theorem ensures_reportIf_bind {faulty : Bool} {fault : Fault} {f : Unit → Reader ε β}
    (h : (f () c).Ensures c fun zs b e gs => Q zs b e ((if faulty then [fault] else []) ++ gs)) :
    ((reportIf faulty fault >>= f) c).Ensures c Q := by
  refine ensures_bind (R := fun ys _ d fs => ys = [] ∧ d = c ∧ fs = if faulty then [fault] else [])
    (ensures_noteAll ⟨rfl, rfl, by cases faulty <;> rfl⟩) ?_
  rintro _ _ _ _ - ⟨rfl, rfl, rfl⟩
  exact h

theorem ensures_resync (region : Region) (origin c : Cursor) :
    ((resync region origin : Reader ε Unit) c).Ensures c fun _ _ _ fs => fs = [] :=
  fun _ => ⟨_, c.reaches_drop _, fun _ _ => rfl⟩

/-! ## Tokens -/

section Tokens

variable {kind : TokenKind}

theorem ensures_advance_bind {f : Token → Reader ε β} (hk : c.current.kind ≠ .endOfInput)
    (h : c.current.Regular → c.Reaches [c.current.terminal] (c.drop 1) →
      (f c.current (c.drop 1)).Ensures (c.drop 1) fun zs b e gs =>
        Q (c.current.terminal :: zs) b e gs) :
    ((advance >>= f) c).Ensures c Q := by
  intro hc
  rw [advance_bind]
  exact (h (hc.current hk) (Cursor.reaches_drop_one hk)).after (Cursor.reaches_drop_one hk) hc

theorem ensures_advance_word_bind {f : Token → Reader ε β} (hk : c.current.kind = kind)
    (hs : kind.spelling?.isSome)
    (h : c.Reaches [.word kind] (c.drop 1) →
      (f c.current (c.drop 1)).Ensures (c.drop 1) fun zs b e gs => Q (.word kind :: zs) b e gs) :
    ((advance >>= f) c).Ensures c Q := by
  intro hc
  rw [advance_bind]
  exact (h (hc.reaches_word hk hs)).after (hc.reaches_word hk hs) hc

theorem ensures_expect_bind {f : Token → Reader Fault β} (hs : kind.spelling?.isSome)
    (h : ∀ t d, c.Reaches [.word kind] d →
      (f t d).Ensures d fun zs b e gs => Q (.word kind :: zs) b e gs) :
    ((expect kind >>= f) c).Ensures c Q := by
  by_cases hk : c.current.kind = kind
  · rw [bind_apply_of_ok (expect_of_kind hk)]
    exact ensures_advance_word_bind hk hs (h _ _)
  · rw [bind_apply_of_error (expect_of_ne hk)]
    exact ensures_fail _ c Q

theorem ensures_expectName_bind {f : String → Reader Fault β}
    (h : ∀ n d, IsName n → c.Reaches [.ident n] d →
      (f n d).Ensures d fun zs b e gs => Q (.ident n :: zs) b e gs) :
    ((expectName >>= f) c).Ensures c Q := by
  rw [expectName, bind_assoc]
  by_cases hk : c.current.kind = .identifier
  · intro hc
    rw [bind_apply_of_ok (expect_of_kind hk), pure_bind]
    have hne : c.current.kind ≠ .endOfInput := by rw [hk]; nofun
    have hd := Cursor.reaches_drop_one hne
    rw [Token.terminal_ident hk] at hd
    exact (h _ _ ((hc.current hne).named hk) hd).after hd hc
  · rw [bind_apply_of_error (expect_of_ne hk)]
    exact ensures_fail _ c Q

theorem ensures_eat_bind {f : Bool → Reader ε β} (hs : kind.spelling?.isSome)
    (h : ∀ d, c.Reaches [.word kind] d →
      (f true d).Ensures d fun zs b e gs => Q (.word kind :: zs) b e gs)
    (h' : c.current.kind ≠ kind → (f false c).Ensures c Q) :
    ((eat kind >>= f) c).Ensures c Q := by
  rw [eat, bind_assoc, isAt_bind]
  by_cases hk : c.current.kind = kind
  · rw [if_pos (decide_eq_true hk), bind_assoc]
    exact ensures_advance_word_bind hk hs (h _)
  · rw [if_neg (by simpa using hk)]
    exact h' hk

theorem ensures_expectOrReport_bind {f : Unit → Reader ε β} (hs : kind.spelling?.isSome)
    (h : ∀ d, c.Reaches [.word kind] d →
      (f () d).Ensures d fun zs b e gs => Q (.word kind :: zs) b e gs)
    (h' : ∀ fault, (f () c).Ensures c fun zs b e gs => Q zs b e (fault :: gs)) :
    ((expectOrReport kind >>= f) c).Ensures c Q := by
  have hp : ((expectOrReport kind : Reader ε Unit) c).Ensures c fun ys _ d fs =>
      (ys = [.word kind] ∧ fs = []) ∨ (ys = [] ∧ d = c ∧ ∃ fault, fs = [fault]) := by
    by_cases hk : c.current.kind = kind
    · intro hc
      have he : (do let _ ← expect kind : Reader Fault Unit) c = ⟨.ok (), c.drop 1, []⟩ := by
        rw [bind_apply_of_ok (expect_of_kind hk)]
        rfl
      rw [expectOrReport, rescue_apply_of_ok he]
      exact ⟨_, hc.reaches_word hk hs, fun _ _ => .inl ⟨rfl, rfl⟩⟩
    · have he := bind_apply_of_error (f := fun _ => pure ()) (expect_of_ne hk)
      rw [expectOrReport, rescue_apply_of_error he]
      exact fun _ => ⟨[], .refl c, fun _ _ => .inr ⟨rfl, rfl, _, rfl⟩⟩
  apply ensures_bind hp
  intro ys _ d fs hd hR
  rcases hR with ⟨rfl, rfl⟩ | ⟨rfl, rfl, fault, rfl⟩
  · exact h d hd
  · exact h' fault

end Tokens

end Reader

end MiniJava
