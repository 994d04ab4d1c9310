import MiniJava.Proofs.Reading.Succeeds

/-!
# Reading items again and again

The rules of `Ensures` and `Succeeds` for the three loops: items with commas between them, items up
to a mark, and items up to a mark with a state.
-/

namespace MiniJava

variable {ε α γ σ : Type}

theorem List.length_le_length_flatMap (yield : α → List Terminal) (as : List α)
    (h : ∀ a ∈ as, yield a ≠ []) : as.length ≤ (as.flatMap yield).length := by
  induction as with
  | nil => simp
  | cons a as ih =>
    have ha := List.length_pos_iff.2 (h a List.mem_cons_self)
    have has := ih fun b hb => h b (List.mem_cons_of_mem a hb)
    simp only [List.length_cons, List.flatMap_cons, List.length_append]
    omega

namespace Reader

open Reading

/-! ## Items with commas between them -/

section SepByComma

variable {item : Reader Fault α} {yield : α → List Terminal} {room : Nat}

theorem ensures_sepByComma {P : α → Prop}
    (hitem : ∀ d : Cursor, d.ahead.length ≤ room →
      (item d).Ensures d fun ys a _ fs => fs = [] ∧ ys = yield a ∧ P a)
    (rounds : Nat) {c : Cursor} (hc : c.ahead.length ≤ room) :
    (sepByComma item rounds c).Ensures c fun ys as _ fs =>
      fs = [] ∧ as ≠ [] ∧ ys = Terminal.commaSeparated yield as ∧ ∀ a ∈ as, P a := by
  induction rounds generalizing c with
  | zero =>
    apply ensures_bind (hitem c hc)
    rintro ys a d fs - ⟨rfl, rfl, ha⟩
    rw [isAt_bind]
    exact ensures_exhaustIf_bind (ensures_pure (by simpa [Terminal.commaSeparated] using ha))
  | succ rounds ih =>
    apply ensures_bind (hitem c hc)
    rintro ys a d fs hd ⟨rfl, rfl, ha⟩
    refine ensures_eat_bind rfl (fun e he => ?_) fun _ => ?_
    · have hlen : e.ahead.length ≤ room := by
        have h := hd.length_eq
        have h' := he.length_eq
        omega
      refine ensures_map ((ih hlen).mono ?_)
      rintro zs as - fs ⟨rfl, hne, rfl, has⟩
      refine ⟨rfl, by simp, (Terminal.commaSeparated_cons a hne).symm, ?_⟩
      exact List.forall_mem_cons.2 ⟨ha, has⟩
    · exact ensures_pure (by simpa [Terminal.commaSeparated] using ha)

/-- What may follow an item: a comma, or the parenthesis that closes the list. -/
def EndsItem (ys : List Terminal) : Prop :=
  ∃ zs, ys = .word .comma :: zs ∨ ys = .word .rightParen :: zs

theorem succeeds_sepByComma {f : α → γ} {rest : List Terminal} {a : α} {as : List α}
    (hitem : ∀ b ∈ a :: as, ∀ (d : Cursor) (zs : List Terminal),
      d.Sees (yield b ++ zs) → EndsItem zs → d.ahead.length ≤ room →
      (item d).Succeeds fun b' e fs => fs = [] ∧ f b' = f b ∧ e.Sees zs)
    {rounds : Nat} (hrounds : as.length ≤ rounds) {c : Cursor} (hroom : c.ahead.length ≤ room)
    (hc : c.Sees (Terminal.commaSeparated yield (a :: as) ++ .word .rightParen :: rest)) :
    (sepByComma item rounds c).Succeeds fun bs d fs =>
      fs = [] ∧ bs.map f = (a :: as).map f ∧ d.Sees (.word .rightParen :: rest) := by
  induction rounds generalizing c a as with
  | zero =>
    obtain rfl : as = [] := List.length_eq_zero_iff.1 (by omega)
    simp only [Terminal.commaSeparated, List.flatMap_nil, List.append_nil] at hc
    apply succeeds_bind (hitem a List.mem_cons_self c _ hc ⟨rest, .inr rfl⟩ hroom)
    rintro b d fs ⟨rfl, hb, hd⟩
    rw [isAt_bind]
    exact succeeds_exhaustIf_bind (succeeds_pure ⟨rfl, by simp [hb], hd⟩)
  | succ rounds ih =>
    cases as with
    | nil =>
      simp only [Terminal.commaSeparated, List.flatMap_nil, List.append_nil] at hc
      apply succeeds_bind (hitem a List.mem_cons_self c _ hc ⟨rest, .inr rfl⟩ hroom)
      rintro b d fs ⟨rfl, hb, hd⟩
      have hk : d.current.kind ≠ .comma := by simp [hd.kind_current]
      exact succeeds_eat_bind_of_ne hk (succeeds_pure ⟨rfl, by simp [hb], hd⟩)
    | cons a₂ as =>
      rw [Terminal.commaSeparated_cons a (by simp), List.append_assoc, List.cons_append] at hc
      apply succeeds_bind (hitem a List.mem_cons_self c _ hc ⟨_, .inl rfl⟩ hroom)
      rintro b d fs ⟨rfl, hb, hd⟩
      apply succeeds_eat_bind hd
      intro e he
      have hlen : e.ahead.length ≤ room := by
        have h := hc.length_eq
        have h' := he.length_eq
        simp only [List.length_append, List.length_cons] at h h'
        omega
      refine succeeds_map ((ih (fun x hx => hitem x (List.mem_cons_of_mem a hx))
        (by simpa using hrounds) hlen he).mono ?_)
      rintro bs e' fs ⟨rfl, hbs, he'⟩
      exact ⟨rfl, by simpa [hb] using hbs, he'⟩

end SepByComma

/-! ## Items up to a mark -/

section ManyUntil

variable {stop : Cursor → Bool} {item : Reader ε α}

theorem ensures_manyUntil {I : List Terminal → α → List Fault → Prop}
    {J : List Terminal → List α → List Fault → Prop} (hnil : J [] [] [])
    (hcons : ∀ ys a fs zs as gs, I ys a fs → J zs as gs → J (ys ++ zs) (a :: as) (fs ++ gs))
    (hitem : ∀ d : Cursor, (item d).Ensures d fun ys a _ fs => I ys a fs) (rounds : Nat)
    (c : Cursor) :
    (manyUntil stop item rounds c).Ensures c fun ys as _ fs => J ys as fs := by
  induction rounds generalizing c with
  | zero =>
    rw [manyUntil, here_bind]
    exact ensures_exhaustIf_bind (ensures_pure hnil)
  | succ rounds ih =>
    rw [manyUntil, here_bind]
    cases stop c with
    | true => exact ensures_pure hnil
    | false =>
      apply ensures_bind (hitem c)
      intro ys a d fs _ ha
      exact ensures_map ((ih d).mono fun zs as _ gs has => hcons _ _ _ _ _ _ ha has)

theorem succeeds_manyUntil {yield : α → List Terminal} {f : α → γ} {rest : List Terminal}
    {room : Nat} {as : List α}
    (hitem : ∀ a ∈ as, ∀ (d : Cursor) (zs : List Terminal),
      d.Sees (yield a ++ zs) → d.ahead.length ≤ room → stop d = false ∧
      (item d).Succeeds fun b e fs => fs = [] ∧ f b = f a ∧ e.Sees zs)
    (hstop : ∀ d : Cursor, d.Sees rest → stop d = true)
    {rounds : Nat} (hrounds : as.length ≤ rounds) {c : Cursor} (hroom : c.ahead.length ≤ room)
    (hc : c.Sees (as.flatMap yield ++ rest)) :
    (manyUntil stop item rounds c).Succeeds fun bs d fs =>
      fs = [] ∧ bs.map f = as.map f ∧ d.Sees rest := by
  induction rounds generalizing c as with
  | zero =>
    obtain rfl : as = [] := List.length_eq_zero_iff.1 (by omega)
    rw [manyUntil_of_stop (hstop c hc)]
    exact succeeds_pure ⟨rfl, rfl, hc⟩
  | succ rounds ih =>
    cases as with
    | nil =>
      rw [manyUntil_of_stop (hstop c hc)]
      exact succeeds_pure ⟨rfl, rfl, hc⟩
    | cons a as =>
      rw [List.flatMap_cons, List.append_assoc] at hc
      obtain ⟨hs, ha⟩ := hitem a List.mem_cons_self c _ hc hroom
      rw [manyUntil, here_bind, hs]
      apply succeeds_bind ha
      rintro b d fs ⟨rfl, hb, hd⟩
      have hlen : d.ahead.length ≤ room := hc.length_ahead_le hd (by simp) hroom
      refine succeeds_map ((ih (fun x hx => hitem x (List.mem_cons_of_mem a hx))
        (by simpa using hrounds) hlen hd).mono ?_)
      rintro bs e fs ⟨rfl, hbs, he⟩
      exact ⟨rfl, by simp [hb, hbs], he⟩

end ManyUntil

/-! ## Items up to a mark, with a state -/

section ManyFrom

variable {stop : Cursor → Bool} {item : σ → Reader ε (Option α)} {next : σ → α → σ}

theorem ensures_manyFrom {I : σ → List Terminal → Option α → List Fault → Prop}
    {J : σ → List Terminal → List α → List Fault → Prop} (hnil : ∀ s, J s [] [] [])
    (hsome : ∀ s ys a fs zs as gs, I s ys (some a) fs → J (next s a) zs as gs →
      J s (ys ++ zs) (a :: as) (fs ++ gs))
    (hnone : ∀ s ys fs zs as gs, I s ys none fs → J s zs as gs → J s (ys ++ zs) as (fs ++ gs))
    (hitem : ∀ s (d : Cursor), (item s d).Ensures d fun ys a _ fs => I s ys a fs) (rounds : Nat)
    (s : σ) (c : Cursor) :
    (manyFrom stop item next rounds s c).Ensures c fun ys as _ fs => J s ys as fs := by
  induction rounds generalizing s c with
  | zero =>
    rw [manyFrom, here_bind]
    exact ensures_exhaustIf_bind (ensures_pure (hnil s))
  | succ rounds ih =>
    rw [manyFrom, here_bind]
    cases stop c with
    | true => exact ensures_pure (hnil s)
    | false =>
      apply ensures_bind (hitem s c)
      intro ys a d fs _ ha
      cases a with
      | some a =>
        exact ensures_map ((ih (next s a) d).mono fun zs as _ gs h => hsome _ _ _ _ _ _ _ ha h)
      | none => exact (ih s d).mono fun zs as _ gs h => hnone _ _ _ _ _ _ ha h

/-- What holds of each item holds of all of them. -/
theorem ensures_manyFrom_forall {P : α → Prop}
    (hitem : ∀ s (d : Cursor), (item s d).Ensures d fun _ a _ _ => ∀ b ∈ a, P b) (rounds : Nat)
    (s : σ) (c : Cursor) :
    (manyFrom stop item next rounds s c).Ensures c fun _ as _ _ => ∀ a ∈ as, P a :=
  ensures_manyFrom (I := fun _ _ a _ => ∀ b ∈ a, P b) (J := fun _ _ as _ => ∀ a ∈ as, P a)
    (fun _ => List.forall_mem_nil _)
    (fun _ _ a _ _ _ _ ha has => List.forall_mem_cons.2 ⟨ha a rfl, has⟩)
    (fun _ _ _ _ _ _ _ has => has) hitem rounds s c

/-- If no item is faulty and each takes a token, then no round is missing: a mark is reached. -/
theorem ensures_manyFrom_stop
    (hstop : ∀ d : Cursor, d.Regular → d.ahead = [] → stop d = true)
    (hitem : ∀ s (d : Cursor), (item s d).Ensures d fun ys _ _ fs =>
      stop d = false → fs = [] → ys ≠ [])
    {rounds : Nat} (s : σ) {c : Cursor} (hc : c.ahead.length ≤ rounds) :
    (manyFrom stop item next rounds s c).Ensures c fun _ _ d fs => fs = [] → stop d = true := by
  induction rounds generalizing s c with
  | zero =>
    intro hreg
    have hnil : c.ahead = [] := List.length_eq_zero_iff.1 (Nat.le_zero.1 hc)
    have hdone : stop c = true := hstop c hreg hnil
    rw [manyFrom_of_stop hdone]
    exact ensures_pure (R := fun _ _ d fs => fs = [] → stop d = true) (fun _ => hdone) hreg
  | succ rounds ih =>
    rw [manyFrom, here_bind]
    cases hs : stop c with
    | true => exact ensures_pure fun _ => hs
    | false =>
      apply ensures_bind (hitem s c)
      intro ys a d fs hd ha
      cases fs with
      | cons fault fs =>
        -- with a fault noted there is nothing to show, whatever the rest of the loop does
        have hrest : ∀ s', (manyFrom stop item next rounds s' d).Ensures d fun _ _ _ _ => True :=
          fun s' => ensures_manyFrom (I := fun _ _ _ _ => True) (J := fun _ _ _ _ => True)
            (fun _ => trivial) (fun _ _ _ _ _ _ _ _ _ => trivial)
            (fun _ _ _ _ _ _ _ _ => trivial)
            (fun s d => (hitem s d).mono fun _ _ _ _ _ => trivial) rounds s' d
        cases a with
        | some a => exact ensures_map ((hrest _).mono fun _ _ _ _ _ h => by cases h)
        | none => exact (hrest _).mono fun _ _ _ _ _ h => by cases h
      | nil =>
        have hlen : d.ahead.length ≤ rounds := by
          have h := hd.length_eq
          have h' := List.length_pos_iff.2 (ha hs rfl)
          omega
        cases a with
        | some a => exact ensures_map ((ih _ hlen).mono fun _ _ _ _ h => h)
        | none => exact (ih _ hlen).mono fun _ _ _ _ h => h

/--
The items are read one after the other, each in the state that those before it lead to. What they
are to be is given by a list of another kind, of which `Valid` says when it can stand in a state.
-/
theorem succeeds_manyFrom {ω : Type} {yield : ω → List Terminal} (f : α → γ) (f' : ω → γ)
    (g : α → List Fault) (next' : σ → ω → σ) (Valid : σ → List ω → Prop) {rest : List Terminal}
    {room : Nat} (htail : ∀ s w ws, Valid s (w :: ws) → Valid (next' s w) ws)
    (hnext : ∀ s w a, f a = f' w → next s a = next' s w)
    (hitem : ∀ s w ws, Valid s (w :: ws) → ∀ (d : Cursor) (zs : List Terminal),
      d.Sees (yield w ++ zs) → d.ahead.length ≤ room → stop d = false ∧
      (item s d).Succeeds fun r e fs => ∃ a, r = some a ∧ f a = f' w ∧ fs = g a ∧ e.Sees zs)
    (hstop : ∀ d : Cursor, d.Sees rest → stop d = true)
    {rounds : Nat} {ws : List ω} (hrounds : ws.length ≤ rounds) {s : σ} (hs : Valid s ws)
    {c : Cursor} (hroom : c.ahead.length ≤ room) (hc : c.Sees (ws.flatMap yield ++ rest)) :
    (manyFrom stop item next rounds s c).Succeeds fun as d fs =>
      as.map f = ws.map f' ∧ fs = as.flatMap g ∧ d.Sees rest := by
  induction rounds generalizing s c ws with
  | zero =>
    obtain rfl : ws = [] := List.length_eq_zero_iff.1 (by omega)
    rw [manyFrom_of_stop (hstop c hc)]
    exact succeeds_pure ⟨rfl, rfl, hc⟩
  | succ rounds ih =>
    cases ws with
    | nil =>
      rw [manyFrom_of_stop (hstop c hc)]
      exact succeeds_pure ⟨rfl, rfl, hc⟩
    | cons w ws =>
      rw [List.flatMap_cons, List.append_assoc] at hc
      obtain ⟨hmore, hw⟩ := hitem s w ws hs c _ hc hroom
      rw [manyFrom, here_bind, hmore]
      apply succeeds_bind hw
      rintro _ d fs ⟨a, rfl, ha, rfl, hd⟩
      have hlen : d.ahead.length ≤ room := hc.length_ahead_le hd (by simp) hroom
      have hs' : Valid (next s a) ws := by
        rw [hnext s w a ha]
        exact htail s w ws hs
      refine succeeds_map ((ih (by simpa using hrounds) hs' hlen hd).mono ?_)
      rintro as e fs ⟨has, rfl, he⟩
      exact ⟨by simp [ha, has], by simp, he⟩

end ManyFrom

end Reader

end MiniJava
