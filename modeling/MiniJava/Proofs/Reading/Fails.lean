import Mathlib.Data.List.Forall2
import MiniJava.Proofs.Reading.Built
import MiniJava.Proofs.Reading.Loops

/-!
# Reading that breaks off

Where a token is missing, what stands before it is read, and then reading fails at the token that
stands in its place. `Cursor.Spells` gives the tokens from this one on as they are, since the fault
shows the token itself.
-/

namespace MiniJava

variable {ε α β σ : Type}

/-- Ahead of `c` lie tokens that spell `ys`, and after them the tokens `tail`. -/
structure Cursor.Spells (c : Cursor) (ys : List Terminal) (tail : List Token) : Prop where
  regular : c.Regular
  ahead : ∃ ts, c.ahead = ts ++ tail ∧ ts.map Token.terminal = ys

namespace Cursor

variable {c d : Cursor} {ys zs : List Terminal} {y : Terminal} {t : Token} {tail : List Token}

theorem Spells.sees (h : c.Spells ys tail) : c.Sees (ys ++ tail.map Token.terminal) := by
  obtain ⟨-, ts, hahead, rfl⟩ := h
  exact ⟨by rw [terminals, hahead, List.map_append]⟩

/-- What is left after reading still ends with `tail`, if it is long enough. -/
theorem Spells.of_reaches (hc : c.Spells ys tail) {taken : List Terminal} (hd : c.Reaches taken d)
    (hsees : d.Sees (zs ++ tail.map Token.terminal)) : d.Spells zs tail := by
  obtain ⟨hreg, ts, hahead, -⟩ := hc
  obtain ⟨us, vs, hd', hus, hvs⟩ := List.map_eq_append_iff.1 hsees.terminals_eq
  have hlength := congrArg List.length hvs
  rw [List.length_map, List.length_map] at hlength
  obtain ⟨taken', htaken, -, -⟩ := id hd
  rw [hd', ← List.append_assoc] at htaken
  have hsuffix := (List.append_inj' (htaken.symm.trans hahead) hlength).2
  exact ⟨hd.regular hreg, us, hsuffix ▸ hd', hus⟩

theorem Spells.drop_one (h : c.Spells (y :: ys) tail) : (c.drop 1).Spells ys tail :=
  h.of_reaches (c.reaches_drop 1) h.sees.drop_one

theorem Spells.current_eq (h : c.Spells [] (t :: tail)) : c.current = t := by
  obtain ⟨-, ts, hahead, hts⟩ := h
  rw [List.map_eq_nil_iff.1 hts, List.nil_append] at hahead
  rw [Cursor.current_eq, hahead, List.headD_cons]

theorem Spells.kind_current (h : c.Spells (y :: ys) tail) : c.current.kind = y.kind :=
  h.sees.kind_current

theorem Spells.length_eq (h : c.Spells ys tail) : c.ahead.length = ys.length + tail.length := by
  rw [h.sees.length_eq, List.length_append, List.length_map]

end Cursor

/-- Reading stops before `tail` with a fault, and none was noted before. -/
structure Reading.FailsAt (r : Reading Fault α) (fault : Fault) (tail : List Token) : Prop where
  outcome : r.outcome = .error fault
  cursor : r.cursor.Spells [] tail
  faults : r.faults = []

/-- Reading succeeds without fault up to where `zs` and `tail` lie ahead, and `A` holds of it. -/
def Reading.Passes (r : Reading ε α) (A : α → Prop) (zs : List Terminal) (tail : List Token) :
    Prop :=
  r.Succeeds fun a d fs => fs = [] ∧ A a ∧ d.Spells zs tail

/-- A token of some kind is missing where another one was found. -/
def Fault.missing (kind : TokenKind) (found : Token) : Fault :=
  .unexpected found [.token kind] none

namespace Reader

open Reading

variable {p : Reader ε α} {c : Cursor} {ys zs : List Terminal} {tail : List Token}
  {fault : Fault}

/-- Where a reader succeeds without fault, it passes. -/
theorem passes_of_succeeds {A : α → Prop} {Q : Post α} (hc : c.Spells ys tail)
    (h : (p c).Succeeds fun a d fs => fs = [] ∧ A a ∧ d.Sees (zs ++ tail.map Token.terminal))
    (he : (p c).Ensures c Q) : (p c).Passes A zs tail := by
  obtain ⟨a, ha, hfs, hA, hsees⟩ := h
  obtain ⟨taken, hreach, -⟩ := he hc.regular
  exact ⟨a, ha, hfs, hA, hc.of_reaches hreach hsees⟩

/-- What is read as usual, whatever comes after it, passes. -/
theorem passes_of_forall_succeeds {xs : List Terminal} {A : α → Prop} {Q : Post α}
    (hc : c.Spells (xs ++ ys) tail)
    (h : ∀ zs, c.Sees (xs ++ (ys ++ zs)) →
      (p c).Succeeds fun a d fs => fs = [] ∧ A a ∧ d.Sees (ys ++ zs))
    (he : (p c).Ensures c Q) : (p c).Passes A ys tail :=
  passes_of_succeeds hc (h _ (by simpa using hc.sees)) he

section

variable {p : Reader Fault α} {f : α → Reader Fault β}

theorem failsAt_bind_of_failsAt (h : (p c).FailsAt fault tail) :
    ((p >>= f) c).FailsAt fault tail := by
  obtain ⟨houtcome, hcursor, hfaults⟩ := h
  rcases hr : p c with ⟨o, d, journal⟩
  rw [hr] at houtcome hcursor hfaults
  cases houtcome
  rw [bind_apply_of_error hr]
  exact ⟨rfl, hcursor, hfaults⟩

theorem failsAt_bind {A : α → Prop} (hp : (p c).Passes A zs tail)
    (hf : ∀ a d, A a → d.Spells zs tail → (f a d).FailsAt fault tail) :
    ((p >>= f) c).FailsAt fault tail := by
  obtain ⟨a, ha, hfs, hA, hd⟩ := hp
  rcases hr : p c with ⟨o, d, journal⟩
  rw [hr] at ha hfs hd
  cases ha
  obtain ⟨houtcome, hcursor, hfaults⟩ := hf a d hA hd
  rw [bind_apply_of_ok hr]
  refine ⟨houtcome, hcursor, ?_⟩
  rw [faults, List.filterMap_append]
  exact List.append_eq_nil_iff.2 ⟨hfs, hfaults⟩

theorem failsAt_expect_bind {kind : TokenKind} {f : Token → Reader Fault β} {y : Terminal}
    (hy : y.kind = kind) (hc : c.Spells (y :: ys) tail)
    (hf : ∀ t d, d.Spells ys tail → (f t d).FailsAt fault tail) :
    ((expect kind >>= f) c).FailsAt fault tail := by
  rw [bind_apply_of_ok (expect_of_kind (hc.kind_current.trans hy))]
  exact hf _ _ hc.drop_one

end

/-- Another token stands where one is missing. -/
theorem failsAt_missing_bind {kind : TokenKind} {t : Token} {f : Token → Reader Fault β}
    (hc : c.Spells [] (t :: tail)) (hne : t.kind ≠ kind) :
    ((expect kind >>= f) c).FailsAt (.missing kind t) (t :: tail) := by
  have ht := hc.current_eq
  rw [bind_apply_of_error (expect_of_ne (ht ▸ hne)), ht]
  exact ⟨rfl, hc, rfl⟩

theorem succeeds_rescue_of_failsAt {p : Reader Fault α} {handle : Fault → Reader ε α}
    {Q : Result α} [Taking p] (h : (p c).FailsAt fault tail)
    (hh : ∀ d, d.tokens = c.tokens → d.Spells [] tail → (handle fault d).Succeeds Q) :
    ((rescue p handle) c).Succeeds Q := by
  obtain ⟨houtcome, hcursor, hfaults⟩ := h
  have htokens := Taking.tokens_eq p c
  rcases hr : p c with ⟨o, d, journal⟩
  rw [hr] at houtcome hcursor hfaults htokens
  cases houtcome
  obtain ⟨a, ha, hQ⟩ := hh d htokens hcursor
  have hnil : journal.filterMap Entry.fault? = [] := hfaults
  rw [rescue_apply_of_error hr]
  refine ⟨a, ha, ?_⟩
  rw [faults, List.filterMap_append, hnil, List.nil_append]
  exact hQ

/-! ## Tokens before the place that matters -/

section Tokens

variable {kind : TokenKind} {y : Terminal} {n : String} {Q : Result β}

theorem succeeds_expect_bind_of_spells {f : Token → Reader Fault β} (hy : y.kind = kind)
    (hc : c.Spells (y :: ys) tail) (h : ∀ t d, d.Spells ys tail → (f t d).Succeeds Q) :
    ((expect kind >>= f) c).Succeeds Q := by
  rw [bind_apply_of_ok (expect_of_kind (hc.kind_current.trans hy))]
  exact h _ _ hc.drop_one

theorem succeeds_expectName_bind_of_spells {f : String → Reader Fault β}
    (hc : c.Spells (.ident n :: ys) tail) (h : ∀ d, d.Spells ys tail → (f n d).Succeeds Q) :
    ((expectName >>= f) c).Succeeds Q := by
  have hk : c.current.kind = .identifier := hc.kind_current
  rw [expectName, bind_assoc, bind_apply_of_ok (expect_of_kind hk), pure_bind,
    hc.sees.lexeme_current]
  exact h _ hc.drop_one

end Tokens

/-! ## Items before the one that matters -/

section Loops

variable {ω : Type} {stop : Cursor → Bool} {item : σ → Reader ε (Option α)} {next : σ → α → σ}
  {s : σ} {rounds : Nat}

theorem succeeds_manyFrom_stop {Q : Result (List α)} (h : stop c = true) (hQ : Q [] c []) :
    (manyFrom stop item next rounds s c).Succeeds Q := by
  rw [manyFrom_of_stop h]
  exact succeeds_pure hQ

/-- One item is read, and then the others. -/
theorem succeeds_manyFrom_step {R : Result (Option α)} {Q : Result (List α)}
    (h : stop c = false) (hitem : (item s c).Succeeds R)
    (hrest : ∀ r d fs, R r d fs →
      (manyFrom stop item next rounds (r.elim s (next s)) d).Succeeds fun as e gs =>
        Q (r.toList ++ as) e (fs ++ gs)) :
    (manyFrom stop item next (rounds + 1) s c).Succeeds Q := by
  rw [manyFrom, here_bind, h]
  apply succeeds_bind hitem
  intro r d fs hR
  cases r with
  | none => exact hrest none d fs hR
  | some a => exact succeeds_map (hrest (some a) d fs hR)

/-- An item that takes a token leaves enough rounds for the others. -/
theorem succeeds_manyFrom_item {R : Result (Option α)} {Q : Result (List α)} (h : stop c = false)
    (hrounds : c.ahead.length ≤ rounds)
    (hitem : (item s c).Succeeds fun r d fs => d.ahead.length < c.ahead.length ∧ R r d fs)
    (hrest : ∀ n r d fs, d.ahead.length ≤ n → R r d fs →
      (manyFrom stop item next n (r.elim s (next s)) d).Succeeds fun as e gs =>
        Q (r.toList ++ as) e (fs ++ gs)) :
    (manyFrom stop item next rounds s c).Succeeds Q := by
  cases rounds with
  | zero =>
    obtain ⟨_, _, hlength, -⟩ := hitem
    omega
  | succ n =>
    apply succeeds_manyFrom_step h hitem
    rintro r d fs ⟨hlength, hR⟩
    exact hrest n r d fs (by omega) hR

/-- Items without fault are read in a state that allows them, up to where another text starts. -/
theorem succeeds_manyFrom_front {yield : ω → List Terminal} {V : ω → α → Prop} {I : σ → Prop}
    {room : Nat} {ws : List ω} {Q : Result (List α)}
    (hitem : ∀ w ∈ ws, ∀ s, I s → ∀ (d : Cursor) (zs : List Terminal),
      d.Sees (yield w ++ zs) → d.ahead.length ≤ room → stop d = false ∧
      (item s d).Succeeds fun r e fs => fs = [] ∧ (∃ a, r = some a ∧ V w a) ∧ e.Sees zs)
    (hyield : ∀ w ∈ ws, yield w ≠ []) (hnext : ∀ w ∈ ws, ∀ s a, I s → V w a → I (next s a))
    (hreach : ∀ s d, (item s d).Ensures d fun _ _ _ _ => True)
    (hrest : ∀ rounds s d, I s → d.Spells zs tail → d.ahead.length ≤ rounds →
      d.ahead.length ≤ room → (manyFrom stop item next rounds s d).Succeeds Q)
    (hs : I s) (hc : c.Spells (ws.flatMap yield ++ zs) tail) (hrounds : c.ahead.length ≤ rounds)
    (hroom : c.ahead.length ≤ room) :
    (manyFrom stop item next rounds s c).Succeeds fun as d fs =>
      ∃ as₁ as₂, as = as₁ ++ as₂ ∧ List.Forall₂ V ws as₁ ∧ Q as₂ d fs := by
  induction ws generalizing c s rounds with
  | nil =>
    apply (hrest rounds s c hs hc hrounds hroom).mono
    intro as d fs hQ
    exact ⟨[], as, rfl, .nil, hQ⟩
  | cons w ws ih =>
    rw [List.flatMap_cons, List.append_assoc] at hc
    have hsees := hc.sees
    rw [List.append_assoc, List.append_assoc, ← List.append_assoc _ zs] at hsees
    obtain ⟨hstop, hw⟩ := hitem w List.mem_cons_self s hs c _ hsees hroom
    have hlength := hc.sees.length_eq
    have hpos := List.length_pos_iff.2 (hyield w List.mem_cons_self)
    obtain ⟨rounds, rfl⟩ : ∃ n, rounds = n + 1 := by
      apply Nat.exists_eq_succ_of_ne_zero
      rintro rfl
      simp only [List.length_append] at hlength
      omega
    apply succeeds_manyFrom_step hstop (passes_of_succeeds hc hw (hreach s c))
    rintro _ d fs ⟨rfl, ⟨a, rfl, ha⟩, hd⟩
    have hlength' := hd.sees.length_eq
    simp only [List.length_append] at hlength hlength'
    have hs' : I (next s a) := hnext w List.mem_cons_self s a hs ha
    apply (ih (fun w' h => hitem w' (List.mem_cons_of_mem w h))
      (fun w' h => hyield w' (List.mem_cons_of_mem w h))
      (fun w' h => hnext w' (List.mem_cons_of_mem w h)) hs' hd (by omega) (by omega)).mono
    rintro as e fs ⟨as₁, as₂, rfl, hV, hQ⟩
    exact ⟨a :: as₁, as₂, rfl, .cons ha hV, hQ⟩

end Loops

/-- A loop without a state is one with a state of which there is only one. -/
theorem manyUntil_eq_manyFrom (stop : Cursor → Bool) (item : Reader ε α) (rounds : Nat) :
    manyUntil stop item rounds =
      manyFrom stop (fun _ : Unit => some <$> item) (fun s _ => s) rounds () := by
  induction rounds with
  | zero => rfl
  | succ rounds ih =>
    rw [manyUntil, manyFrom, ih]
    simp

theorem succeeds_manyUntil_front {ω : Type} {stop : Cursor → Bool} {item : Reader ε α}
    {yield : ω → List Terminal} {V : ω → α → Prop} {room rounds : Nat} {ws : List ω}
    {Q : Result (List α)}
    (hitem : ∀ w ∈ ws, ∀ (d : Cursor) (zs : List Terminal),
      d.Sees (yield w ++ zs) → d.ahead.length ≤ room → stop d = false ∧
      (item d).Succeeds fun a e fs => fs = [] ∧ V w a ∧ e.Sees zs)
    (hyield : ∀ w ∈ ws, yield w ≠ []) (hreach : ∀ d, (item d).Ensures d fun _ _ _ _ => True)
    (hrest : ∀ rounds d, d.Spells zs tail → d.ahead.length ≤ rounds → d.ahead.length ≤ room →
      (manyUntil stop item rounds d).Succeeds Q)
    (hc : c.Spells (ws.flatMap yield ++ zs) tail) (hrounds : c.ahead.length ≤ rounds)
    (hroom : c.ahead.length ≤ room) :
    (manyUntil stop item rounds c).Succeeds fun as d fs =>
      ∃ as₁ as₂, as = as₁ ++ as₂ ∧ List.Forall₂ V ws as₁ ∧ Q as₂ d fs := by
  simp only [manyUntil_eq_manyFrom] at hrest ⊢
  apply succeeds_manyFrom_front (I := fun _ => True) _ hyield (fun _ _ _ _ _ _ => trivial) _
    (fun rounds _ d _ => hrest rounds d) trivial hc hrounds hroom
  · intro w hw _ _ d zs hd hlength
    obtain ⟨hstop, hread⟩ := hitem w hw d zs hd hlength
    refine ⟨hstop, succeeds_map ?_⟩
    apply hread.mono
    rintro a e fs ⟨rfl, ha, he⟩
    exact ⟨rfl, ⟨a, rfl, ha⟩, he⟩
  · exact fun _ d => ensures_map (hreach d)

/-! ## Items one by one -/

section Corresponding

variable {ω γ : Type} {ws : List ω} {as : List α}

/-- Items that correspond one to one have the same images. -/
theorem map_eq_of_forall₂ {f : ω → γ} {g : α → γ}
    (h : List.Forall₂ (fun w a => g a = f w) ws as) : as.map g = ws.map f := by
  induction h with
  | nil => rfl
  | cons ha _ ih => rw [List.map_cons, List.map_cons, ha, ih]

/-- Of items that all have an image, the images are as many. -/
theorem forall₂_filterMap {f : α → Option γ} {R : ω → γ → Prop}
    (h : List.Forall₂ (fun w a => ∃ b, f a = some b ∧ R w b) ws as) :
    List.Forall₂ R ws (as.filterMap f) := by
  induction h with
  | nil => exact .nil
  | cons ha _ ih =>
    obtain ⟨b, hb, hR⟩ := ha
    rw [List.filterMap_cons_some hb]
    exact .cons hR ih

theorem filterMap_eq_nil_of_forall₂ {f : α → Option γ}
    (h : List.Forall₂ (fun _ a => f a = none) ws as) : as.filterMap f = [] := by
  induction h with
  | nil => rfl
  | cons ha _ ih => rw [List.filterMap_cons_none ha, ih]

end Corresponding

end Reader

end MiniJava
