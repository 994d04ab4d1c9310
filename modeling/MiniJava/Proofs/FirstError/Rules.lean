import MiniJava.Proofs.FirstError.Cut
import MiniJava.Proofs.Reading.Fails

/-!
# Rules for two readings of texts that begin alike

One rule for each way in which a reader is built. Where the next token decides, a rule tells apart
the places before the cut, at which both texts have the same token, and those at the cut.
-/

namespace MiniJava.Reader

open Reading

variable {ε ε' α β σ : Type} [Failure ε] [Failure ε'] {k k' : Cut} {X X' Y Y' : Prop}
  {V : α → α → Prop} {W : β → β → Prop} {P : Verdict → Prop} {n m : Nat} {c d : Cursor}
  {p q : Reader ε α} {f g : α → Reader ε β}

/-! ## Verdicts of readers that start at the cut -/

theorem meets_passes {r : Reading ε α} (hc : c.In k k.size) (hk : k.next.kind ≠ .endOfInput)
    (hr : r.From (c.drop 1)) : r.Meets k .passes :=
  .passes hc (k.after_ne_nil hk) hr

theorem meets_advance_bind {f : Token → Reader ε β} [∀ t, Onward (f t)] (hc : c.In k k.size)
    (hk : k.next.kind ≠ .endOfInput) : ((advance >>= f) c).Meets k .passes := by
  rw [advance_bind]
  exact meets_passes hc hk (Onward.from_start _)

theorem meets_failUnexpected {expected : List Expectation} (hc : c.In k k.size)
    (hne : expected ≠ []) :
    ((failUnexpected expected : Reader Fault α) c).Meets k (.objects expected none) := by
  refine .objects [] hc (from_failUnexpected hne c) ?_
  rw [← hc.current_at]
  rfl

theorem early_failUnexpected (hc : c.In k n) (hn : n < k.size) (expected : List Expectation) :
    ((failUnexpected expected : Reader Fault α) c).Meets k .early :=
  .early (List.mem_singleton_self _) (hc.current_mem hn)

theorem meets_report_bind {f : Unit → Reader ε β} [∀ u, Onward (f u)]
    {expected : List Expectation} (hc : c.In k k.size) (hne : expected ≠ []) (hint : Option Hint) :
    ((report (.unexpected c.current expected hint) >>= f) c).Meets k (.objects expected hint) := by
  refine Meets.mono (r := (report (.unexpected c.current expected hint) : Reader ε Unit) c) ?_
    (extends_bind _ _ c)
  refine .objects [] hc (from_report hne hint c) ?_
  rw [← hc.current_at]
  rfl

theorem early_report_bind {f : Unit → Reader ε β} [∀ u, Onward (f u)] (hc : c.In k n)
    (hn : n < k.size) (expected : List Expectation) (hint : Option Hint) :
    ((report (.unexpected c.current expected hint) >>= f) c).Meets k .early := by
  refine Meets.mono (r := (report (.unexpected c.current expected hint) : Reader ε Unit) c) ?_
    (extends_bind _ _ c)
  exact .early (o := ⟨c.current, expected, hint⟩) (List.mem_singleton_self _) (hc.current_mem hn)

/-! ## Putting readers together -/

theorem joint_pure {a b : α} (h : k.Places k' n c d) (hm : m ≤ n) (hv : V a b) :
    ((pure a : Reader ε α) c).Joint k k' X Y m V ((pure b : Reader ε α) d) :=
  .together rfl rfl hv rfl rfl hm h

theorem settled_pure {a : α} (hc : c.In k k.size) (hx : X) :
    ((pure a : Reader ε α) c).Settled k P X :=
  .inr ⟨hx, ⟨a, rfl⟩, rfl, hc⟩

omit [Failure ε] in
theorem bind_apply_congr (h : p c = q c) : (p >>= f) c = (q >>= f) c := by
  simp only [Bind.bind, Reader.bind, h]

/-- After reading without any objection, the rest of reading tells all. -/
theorem keeps_bind [∀ a, Onward (f a)] {a : α} (ha : (p c).outcome = .ok a)
    (hnone : (p c).objections = []) : (f a (p c).cursor).Keeps ((p >>= f) c) := by
  rcases hr : p c with ⟨o, c', journal⟩
  rw [hr] at ha hnone
  cases ha
  have hobjections : (⟨(f a c').outcome, (f a c').cursor, journal ++ (f a c').journal⟩ :
      Reading ε β).objections = (f a c').objections := by
    rw [objections, List.append_eq_nil_iff] at hnone
    rw [objections, noted_append, List.append_assoc]
    exact congrArg (· ++ _) hnone.1
  rw [bind_apply_of_ok hr]
  exact ⟨.of_eq (.refl _) hobjections, fun _ h => h, fun _ _ => rfl, fun _ _ => hobjections⟩

/-- What follows a reader that stops at the cut has to be settled too. -/
theorem settled_bind [∀ a, Onward (f a)] (hp : (p c).Settled k P X)
    (hX : X → ∀ a c', c'.In k k.size → (f a c').Settled k P X') :
    ((p >>= f) c).Settled k P X' := by
  rcases hp with ⟨v, hv, hexcused⟩ | ⟨hx, ⟨a, ha⟩, hnone, hcursor⟩
  · exact (hv.mono (extends_bind p f c)).settled hexcused
  · exact (hX hx a _ hcursor).of_keeps (keeps_bind ha hnone)

theorem joint_bind_of_settled [∀ a, Onward (f a)] [∀ a, Onward (g a)]
    (hp : (p c).Joint k k' X Y n V (q d))
    (hX : X → ∀ a c', c'.In k k.size → (f a c').Settled k k'.Excuses X')
    (hY : Y → ∀ b d', d'.In k' k'.size → (g b d').Settled k' (· = .passes) Y')
    (hf : ∀ a b i c' d', k.Places k' i c' d' → n ≤ i → V a b →
      (f a c').Joint k k' X' Y' m W (g b d')) :
    ((p >>= f) c).Joint k k' X' Y' m W ((q >>= g) d) := by
  cases hp with
  | together ha hb hv hr hs hle h =>
    exact (hf _ _ _ _ _ h hle hv).of_keeps (keeps_bind ha hr) (keeps_bind hb hs)
  | both heq hr hs =>
    exact .both heq (hr.mono (extends_bind p f c)) (hs.mono (extends_bind q g d))
  | left hne hr => exact .left hne (settled_bind hr hX)
  | right hne hs => exact .right hne (settled_bind hs hY)

theorem joint_bind [∀ a, Onward (f a)] [∀ a, Onward (g a)]
    (hp : (p c).Joint k k' False False n V (q d))
    (hf : ∀ a b i c' d', k.Places k' i c' d' → n ≤ i → V a b →
      (f a c').Joint k k' X Y m W (g b d')) :
    ((p >>= f) c).Joint k k' X Y m W ((q >>= g) d) :=
  joint_bind_of_settled hp False.elim False.elim hf

theorem extends_map (g : α → β) (p : Reader ε α) (c : Cursor) :
    (p c).Extends ((g <$> p) c) := by
  rw [map_eq_pure_bind]
  exact extends_bind p _ c

theorem joint_map {f g : α → β} (hp : (p c).Joint k k' X Y n (fun a b => W (f a) (g b)) (q d)) :
    ((f <$> p) c).Joint k k' X Y n W ((g <$> q) d) := by
  rw [map_eq_pure_bind, map_eq_pure_bind]
  refine joint_bind_of_settled hp (fun hx a c' hc => settled_pure hc hx)
    (fun hy b d' hd => settled_pure hd hy) ?_
  exact fun _ _ _ _ _ h hle hv => joint_pure h hle hv

/-- A handler that takes up each failure changes nothing of what came before. -/
theorem keeps_rescue {handle : ε → Reader ε' α}
    (hh : ∀ e d, (⟨.error e, d, []⟩ : Reading ε α).Extends (handle e d)) (c : Cursor) :
    (p c).Keeps (rescue p handle c) := by
  have hok : ∀ a, (p c).outcome = .ok a → (rescue p handle c).outcome = .ok a ∧
      (rescue p handle c).cursor = (p c).cursor ∧
        (rescue p handle c).objections = (p c).objections := by
    intro a ha
    rcases hr : p c with ⟨o, c', journal⟩
    rw [hr] at ha
    cases ha
    rw [rescue_apply_of_ok hr]
    exact ⟨rfl, rfl, rfl⟩
  exact ⟨extends_rescue hh c, fun a ha => (hok a ha).1, fun a ha => (hok a ha).2.1,
    fun a ha => (hok a ha).2.2⟩

theorem joint_rescue {handle handle' : ε → Reader ε' α}
    (hh : ∀ e d, (⟨.error e, d, []⟩ : Reading ε α).Extends (handle e d))
    (hh' : ∀ e d, (⟨.error e, d, []⟩ : Reading ε α).Extends (handle' e d))
    (hp : (p c).Joint k k' X Y n V (q d)) :
    (rescue p handle c).Joint k k' X Y n V (rescue q handle' d) :=
  hp.of_keeps (keeps_rescue hh c) (keeps_rescue hh' d)

/-- Noting what is no objection makes no difference. -/
theorem joint_quiet_bind {a b : α} [∀ a, Onward (f a)] [∀ a, Onward (g a)]
    (hp : (p c).Quiet c a) (hq : (q d).Quiet d b)
    (hf : (f a c).Joint k k' X Y m W (g b d)) : ((p >>= f) c).Joint k k' X Y m W ((q >>= g) d) := by
  have hfc := keeps_bind (f := f) hp.outcome hp.objections
  have hgd := keeps_bind (f := g) hq.outcome hq.objections
  rw [hp.cursor] at hfc
  rw [hq.cursor] at hgd
  exact hf.of_keeps hfc hgd

theorem quiet_reportIf (faulty : Bool) (rule : OrderRule) (span : Span) (c : Cursor) :
    ((reportIf faulty (.misplaced rule span) : Reader ε Unit) c).Quiet c () := by
  cases faulty <;> exact ⟨rfl, rfl, rfl⟩

theorem joint_spanFrom_bind {f g : Span → Reader ε β} (start start' : Nat)
    (hf : ∀ s s', (f s c).Joint k k' X Y m W (g s' d)) :
    ((spanFrom start >>= f) c).Joint k k' X Y m W ((spanFrom start' >>= g) d) :=
  hf _ _

theorem joint_withRoom {p q : Nat → Reader ε α}
    (hp : (p c.ahead.length c).Joint k k' X Y n V (q d.ahead.length d)) :
    (withRoom p c).Joint k k' X Y n V (withRoom q d) := by
  rw [withRoom, withRoom, c.room_eq, d.room_eq]
  exact hp

/-! ## Tokens -/

section Tokens

variable {kind : TokenKind}

theorem joint_failUnexpected (h : k.Places k' n c d) (hn : n < k.size)
    (expected : List Expectation) {V : α → α → Prop} :
    ((failUnexpected expected : Reader Fault α) c).Joint k k' X Y m V
      ((failUnexpected expected : Reader Fault α) d) :=
  .of_early (early_failUnexpected h.left hn expected)
    (early_failUnexpected h.right (h.lt_right hn) expected)

theorem joint_advance_bind {f g : Token → Reader ε β} (h : k.Places k' n c d) (hn : n < k.size)
    (hf : ∀ t u, k.Places k' (n + 1) (c.drop 1) (d.drop 1) →
      (f t (c.drop 1)).Joint k k' X Y m W (g u (d.drop 1))) :
    ((advance >>= f) c).Joint k k' X Y m W ((advance >>= g) d) :=
  hf _ _ (h.drop_one hn)

theorem from_advance_bind {f : Token → Reader ε β} [∀ t, Onward (f t)] (c : Cursor) :
    ((advance >>= f) c).From (c.drop 1) := by
  rw [advance_bind]
  exact Onward.from_start _

/-- Readers of which the next token decides whether they can start. -/
structure Opens (p : Reader Fault α) (expected : List Expectation) : Prop where
  takes : ∀ c, (∃ x ∈ expected, x.Admits c.current) →
    c.current.kind ≠ .endOfInput ∧ (p c).From (c.drop 1)
  refuses : ∀ c, (∀ x ∈ expected, ¬ x.Admits c.current) → p c = failUnexpected expected c
  named : expected ≠ []

theorem Opens.bind {p : Reader Fault α} {f : α → Reader Fault β} [∀ a, Onward (f a)]
    {expected : List Expectation} (hp : Opens p expected) : Opens (p >>= f) expected := by
  refine ⟨fun c h => ?_, fun c h => ?_, hp.named⟩
  · obtain ⟨hne, hfrom⟩ := hp.takes c h
    exact ⟨hne, (extends_bind p f c).from_start hfrom⟩
  · exact bind_apply_of_error (hp.refuses c h)

theorem Opens.answers {p : Reader Fault α} {expected : List Expectation} (hp : Opens p expected)
    (hc : c.In k k.size) : (p c).Answers k expected none := by
  have hnext := hc.current_at
  refine ⟨fun h => ?_, fun h => ?_⟩
  · obtain ⟨hne, hfrom⟩ := hp.takes c (hnext ▸ h)
    exact meets_passes hc (hnext ▸ hne) hfrom
  · rw [hp.refuses c (hnext ▸ h)]
    exact meets_failUnexpected hc hp.named

/-- At the cut the next tokens decide, so that only places before it are left to be looked at. -/
theorem joint_of_opens {p q : Reader Fault α} {expected : List Expectation}
    (hp : Opens p expected) (hq : Opens q expected) (h : k.Places k' n c d)
    (hbefore : n < k.size → (p c).Joint k k' X Y m V (q d)) :
    (p c).Joint k k' X Y m V (q d) := by
  rcases h.left.lt_or_eq with hn | rfl
  · exact hbefore hn
  · exact .of_answers (hp.answers h.left) (hq.answers h.right_at)

/-- The kinds of which an expectation admits no other. -/
def Exact (kind : TokenKind) : Prop := kind.spelling?.isSome ∨ kind = .identifier

instance (kind : TokenKind) : Decidable (Exact kind) := by
  unfold Exact
  infer_instance

theorem Exact.admits_iff (h : Exact kind) {t : Token} :
    (Expectation.token kind).Admits t ↔ t.kind = kind := by
  rcases h with h | rfl
  · exact Expectation.admits_token_iff h
  · simp [Expectation.Admits]

theorem Exact.ne_endOfInput (h : Exact kind) : kind ≠ .endOfInput := by
  rintro rfl
  rcases h with h | h <;> cases h

theorem opens_expect (hkind : Exact kind) : Opens (expect kind) [.token kind] := by
  refine ⟨fun c h => ?_, fun c h => ?_, List.cons_ne_nil _ _⟩
  · have hk : c.current.kind = kind := by
      simpa only [List.mem_singleton, exists_eq_left, hkind.admits_iff] using h
    rw [expect_of_kind hk]
    exact ⟨hk ▸ hkind.ne_endOfInput, .refl _, List.forall_mem_nil _⟩
  · rw [List.forall_mem_singleton, hkind.admits_iff] at h
    exact expect_of_ne h

theorem joint_expect_bind {f g : Token → Reader Fault β} [∀ t, Onward (f t)] [∀ t, Onward (g t)]
    (hkind : Exact kind) (h : k.Places k' n c d)
    (hf : ∀ t u, k.Places k' (n + 1) (c.drop 1) (d.drop 1) →
      (f t (c.drop 1)).Joint k k' X Y m W (g u (d.drop 1))) :
    ((expect kind >>= f) c).Joint k k' X Y m W ((expect kind >>= g) d) := by
  refine joint_of_opens (opens_expect hkind).bind (opens_expect hkind).bind h fun hn => ?_
  by_cases hk : c.current.kind = kind
  · rw [bind_apply_of_ok (expect_of_kind hk),
      bind_apply_of_ok (expect_of_kind (h.kind_eq hn ▸ hk))]
    exact joint_advance_bind h hn hf
  · rw [bind_apply_of_error (expect_of_ne hk),
      bind_apply_of_error (expect_of_ne (h.kind_eq hn ▸ hk))]
    exact joint_failUnexpected (α := β) h hn _

theorem meets_expect_bind {f : Token → Reader Fault β} [∀ t, Onward (f t)] (hkind : Exact kind)
    (hc : c.In k k.size) (hk : k.next.kind = kind) : ((expect kind >>= f) c).Meets k .passes :=
  ((opens_expect hkind).bind.answers hc).takes ⟨_, List.mem_singleton_self _, .inl hk⟩

theorem meets_expectName_bind {f : String → Reader Fault β} [∀ t, Onward (f t)]
    (hc : c.In k k.size) (hk : k.next.kind = .identifier) :
    ((expectName >>= f) c).Meets k .passes := by
  rw [expectName, bind_assoc]
  exact meets_expect_bind (by decide) hc hk

theorem joint_expectName_bind {f g : String → Reader Fault β} [∀ t, Onward (f t)]
    [∀ t, Onward (g t)] (h : k.Places k' n c d)
    (hf : ∀ t u, k.Places k' (n + 1) (c.drop 1) (d.drop 1) →
      (f t (c.drop 1)).Joint k k' X Y m W (g u (d.drop 1))) :
    ((expectName >>= f) c).Joint k k' X Y m W ((expectName >>= g) d) := by
  rw [expectName, bind_assoc, bind_assoc]
  exact joint_expect_bind (by decide) h fun t u => hf t.lexeme u.lexeme

omit [Failure ε] in
theorem eat_bind_of_kind {f : Bool → Reader ε β} (hk : c.current.kind = kind) :
    (eat kind >>= f) c = f true (c.drop 1) := by
  rw [eat, bind_assoc, isAt_bind, if_pos (decide_eq_true hk), bind_assoc, advance_bind, pure_bind]

omit [Failure ε] in
theorem eat_bind_of_ne {f : Bool → Reader ε β} (hk : c.current.kind ≠ kind) :
    (eat kind >>= f) c = f false c := by
  rw [eat, bind_assoc, isAt_bind, if_neg (by simpa using hk), pure_bind]

/-- A token that may be left out. -/
theorem joint_eat_bind {f g : Bool → Reader ε β} [∀ b, Onward (f b)] [∀ b, Onward (g b)]
    (hkind : Exact kind) (h : k.Places k' n c d)
    (htrue : k.Places k' (n + 1) (c.drop 1) (d.drop 1) →
      (f true (c.drop 1)).Joint k k' X Y m W (g true (d.drop 1)))
    (hfalse : c.current.kind ≠ kind → d.current.kind ≠ kind →
      (f false c).Joint k k' X Y m W (g false d)) :
    ((eat kind >>= f) c).Joint k k' X Y m W ((eat kind >>= g) d) := by
  rcases h.left.lt_or_eq with hn | rfl
  · by_cases hk : c.current.kind = kind
    · rw [eat_bind_of_kind hk, eat_bind_of_kind (h.kind_eq hn ▸ hk)]
      exact htrue (h.drop_one hn)
    · rw [eat_bind_of_ne hk, eat_bind_of_ne (h.kind_eq hn ▸ hk)]
      exact hfalse hk (h.kind_eq hn ▸ hk)
  · have hleft := congrArg Token.kind h.left.current_at
    have hright := congrArg Token.kind h.right_at.current_at
    refine .of_choice (A := (· = kind)) (fun ht => ?_) (fun hu => ?_) fun ht hu => ?_
    · rw [eat_bind_of_kind (hleft.trans ht)]
      exact meets_passes h.left (ht ▸ hkind.ne_endOfInput) (Onward.from_start _)
    · rw [eat_bind_of_kind (hright.trans hu)]
      exact meets_passes h.right_at (hu ▸ hkind.ne_endOfInput) (Onward.from_start _)
    · have hc : c.current.kind ≠ kind := hleft ▸ ht
      have hd : d.current.kind ≠ kind := hright ▸ hu
      rw [eat_bind_of_ne hc, eat_bind_of_ne hd]
      exact hfalse hc hd

omit [Failure ε] in
theorem expectOrReport_bind_of_kind {f : Unit → Reader ε β} (hk : c.current.kind = kind) :
    (expectOrReport kind >>= f) c = f () (c.drop 1) := by
  have he := bind_apply_of_ok (f := fun _ => (pure () : Reader Fault Unit)) (expect_of_kind hk)
  exact bind_apply_of_ok (rescue_apply_of_ok he)

omit [Failure ε] in
theorem expectOrReport_bind_of_ne {f : Unit → Reader ε β} (hk : c.current.kind ≠ kind) :
    (expectOrReport kind >>= f) c =
      (report (.unexpected c.current [.token kind] none) >>= f) c := by
  have he := bind_apply_of_error (f := fun _ => (pure () : Reader Fault Unit)) (expect_of_ne hk)
  exact bind_apply_of_ok (rescue_apply_of_error he)

theorem answers_expectOrReport_bind {f : Unit → Reader ε β} [∀ u, Onward (f u)]
    (hkind : Exact kind) (hc : c.In k k.size) :
    ((expectOrReport kind >>= f) c).Answers k [.token kind] none := by
  have hnext := congrArg Token.kind hc.current_at
  refine ⟨fun h => ?_, fun h => ?_⟩
  · have hk : k.next.kind = kind := by
      simpa only [List.mem_singleton, exists_eq_left, hkind.admits_iff] using h
    rw [expectOrReport_bind_of_kind (hnext.trans hk)]
    exact meets_passes hc (hk ▸ hkind.ne_endOfInput) (Onward.from_start _)
  · rw [List.forall_mem_singleton, hkind.admits_iff, ← hnext] at h
    rw [expectOrReport_bind_of_ne h]
    exact meets_report_bind hc (List.cons_ne_nil _ _) none

theorem joint_expectOrReport_bind {f g : Unit → Reader ε β} [∀ u, Onward (f u)]
    [∀ u, Onward (g u)] (hkind : Exact kind) (h : k.Places k' n c d)
    (hf : k.Places k' (n + 1) (c.drop 1) (d.drop 1) →
      (f () (c.drop 1)).Joint k k' X Y m W (g () (d.drop 1))) :
    ((expectOrReport kind >>= f) c).Joint k k' X Y m W ((expectOrReport kind >>= g) d) := by
  rcases h.left.lt_or_eq with hn | rfl
  · by_cases hk : c.current.kind = kind
    · rw [expectOrReport_bind_of_kind hk, expectOrReport_bind_of_kind (h.kind_eq hn ▸ hk)]
      exact hf (h.drop_one hn)
    · rw [expectOrReport_bind_of_ne hk, expectOrReport_bind_of_ne (h.kind_eq hn ▸ hk)]
      exact .of_early (early_report_bind h.left hn _ _)
        (early_report_bind h.right (h.lt_right hn) _ _)
  · exact .of_answers (answers_expectOrReport_bind hkind h.left)
      (answers_expectOrReport_bind hkind h.right_at)

end Tokens

/-! ## Loops -/

section Loops

variable {start rounds rounds' : Nat} {stop : Cursor → Bool} {halts : TokenKind → Bool}

/-- What is read after an item, where items have commas between them. -/
def afterItem (item : Reader Fault α) : Nat → α → Reader Fault (List α)
  | 0, a => do
    exhaustIf (← isAt .comma)
    return [a]
  | rounds + 1, a => do
    if ← eat .comma then (a :: ·) <$> sepByComma item rounds
    else return [a]

theorem sepByComma_eq (item : Reader Fault α) (rounds : Nat) :
    sepByComma item rounds = item >>= afterItem item rounds := by
  cases rounds <;> rfl

instance (item : Reader Fault α) [Onward item] (rounds : Nat) (a : α) :
    Onward (afterItem item rounds a) := by
  cases rounds <;> unfold afterItem <;> infer_instance

/-- Items with commas between them, each of at least one token. -/
theorem joint_sepByComma {item item' : Reader Fault α} [Onward item] [Onward item']
    (hitem : ∀ n c d, start ≤ n → k.Places k' n c d → (item c).JointAny k k' (n + 1) (item' d))
    (hstart : start ≤ n) (h : k.Places k' n c d) (hrounds : c.ahead.length ≤ rounds)
    (hrounds' : d.ahead.length ≤ rounds') :
    (sepByComma item rounds c).JointAny k k' (n + 1) (sepByComma item' rounds' d) := by
  induction rounds generalizing rounds' n c d with
  | zero =>
    rw [sepByComma_eq, sepByComma_eq]
    refine joint_bind (hitem n c d hstart h) fun a b i c' d' h' hlt _ => ?_
    have hless := h.left.length_lt h'.left hlt
    omega
  | succ rounds ih =>
    rw [sepByComma_eq, sepByComma_eq]
    refine joint_bind (hitem n c d hstart h) fun a b i c' d' h' hlt _ => ?_
    have hless := h.left.length_lt h'.left hlt
    have hless' := h.right.length_lt h'.right hlt
    cases rounds' with
    | zero => omega
    | succ rounds' =>
      refine joint_eat_bind (by decide) h' (fun h'' => ?_) fun _ _ => ?_
      · have hnext := h'.left.length_lt h''.left (Nat.lt_succ_self i)
        have hnext' := h'.right.length_lt h''.right (Nat.lt_succ_self i)
        refine joint_map ((ih ?_ h'' ?_ ?_).mono ?_ fun _ _ h => h) <;> omega
      · exact joint_pure h' hlt trivial

/-- Read items, or none if a closing parenthesis is next. -/
def unlessClosed (p : Reader Fault (List α)) : Reader Fault (List α) := do
  if ← isAt .rightParen then return [] else p

theorem unlessClosed_of_kind (p : Reader Fault (List α)) (hk : c.current.kind = .rightParen) :
    unlessClosed p c = (pure [] : Reader Fault (List α)) c := by
  rw [unlessClosed, isAt_bind, if_pos (decide_eq_true hk)]

theorem unlessClosed_of_ne (p : Reader Fault (List α)) (hk : c.current.kind ≠ .rightParen) :
    unlessClosed p c = p c := by
  rw [unlessClosed, isAt_bind, if_neg (by simpa using hk)]

/--
Items before a closing parenthesis. If that stands at the cut of the first text only, its reading
stops there; if it stands at the cut of the second text only, nothing in the first one is to be
one.
-/
theorem joint_unlessClosed {p q : Reader Fault (List α)} {expected : List Expectation}
    (h : k.Places k' n c d) (hpq : (p c).JointAny k k' n (q d))
    (hp : c.In k k.size → (p c).Answers k expected none)
    (hexpected : ∀ x ∈ expected, ∀ t : Token, t.kind = .rightParen → ¬ x.Admits t) :
    (unlessClosed p c).Joint k k' (k.next.kind = .rightParen) False n (fun _ _ => True)
      (unlessClosed q d) := by
  have hsame (hiff : c.current.kind = .rightParen ↔ d.current.kind = .rightParen) :
      (unlessClosed p c).Joint k k' (k.next.kind = .rightParen) False n (fun _ _ => True)
        (unlessClosed q d) := by
    by_cases hk : c.current.kind = .rightParen
    · rw [unlessClosed_of_kind p hk, unlessClosed_of_kind q (hiff.1 hk)]
      exact joint_pure h (Nat.le_refl n) trivial
    · rw [unlessClosed_of_ne p hk, unlessClosed_of_ne q fun hk' => hk (hiff.2 hk')]
      exact hpq.widen False.elim id
  rcases h.left.lt_or_eq with hn | rfl
  · exact hsame (by rw [h.kind_eq hn])
  · have hnext := h.left.current_at
    have hnext' := congrArg Token.kind h.right_at.current_at
    by_cases ht : k.next.kind = .rightParen <;> by_cases hu : k'.next.kind = .rightParen
    · exact hsame (by rw [hnext, hnext', ht, hu])
    · refine .left (Cut.word_ne fun heq => hu (heq ▸ ht)) ?_
      rw [unlessClosed_of_kind p (hnext ▸ ht)]
      exact settled_pure h.left ht
    · refine .left (Cut.word_ne fun heq => ht (heq ▸ hu)) ?_
      rw [unlessClosed_of_ne p (hnext ▸ ht)]
      exact .inl ((hp h.left).excused fun x hx => hexpected x hx _ hu)
    · exact hsame (by rw [hnext, hnext']; exact iff_of_false ht hu)

/-- What is read after an item of a loop with a state. -/
def afterRound (stop : Cursor → Bool) (item : σ → Reader ε (Option α)) (next : σ → α → σ)
    (rounds : Nat) (s : σ) : Option α → Reader ε (List α)
  | some a => (a :: ·) <$> manyFrom stop item next rounds (next s a)
  | none => manyFrom stop item next rounds s

instance (item : σ → Reader ε (Option α)) [∀ s, Onward (item s)] (next : σ → α → σ)
    (rounds : Nat) (s : σ) (a : Option α) : Onward (afterRound stop item next rounds s a) := by
  cases a <;> unfold afterRound <;> infer_instance

omit [Failure ε] in
theorem manyFrom_bind_of_stop {item : σ → Reader ε (Option α)} {next : σ → α → σ} {s : σ}
    {f : List α → Reader ε β} (hc : stop c = true) (rounds : Nat) :
    (manyFrom stop item next rounds s >>= f) c = f [] c :=
  bind_apply_of_ok (manyFrom_of_stop hc rounds s)

omit [Failure ε] in
theorem manyFrom_bind_of_item {item : σ → Reader ε (Option α)} {next : σ → α → σ} {s : σ}
    {f : List α → Reader ε β} (hc : stop c = false) (rounds : Nat) :
    (manyFrom stop item next (rounds + 1) s >>= f) c =
      (item s >>= fun a => afterRound stop item next rounds s a >>= f) c := by
  rw [manyFrom, bind_assoc, here_bind, if_neg (by rw [hc]; decide), bind_assoc]
  rfl

omit [Failure ε] in
theorem length_pos_of_not_halts {c : Cursor} (hend : halts .endOfInput = true)
    (h : halts c.current.kind = false) : 0 < c.ahead.length := by
  apply List.length_pos_iff.2
  intro hnil
  rw [Cursor.kind_current_of_ahead_eq_nil hnil, hend] at h
  cases h

theorem meets_manyFrom_bind {item : σ → Reader ε (Option α)} {next : σ → α → σ} {s : σ}
    {f : List α → Reader ε β} {v : Verdict} [∀ s, Onward (item s)] [∀ as, Onward (f as)]
    (hstop : ∀ c, stop c = halts c.current.kind) (hend : halts .endOfInput = true)
    (hc : c.In k k.size) (hgo : halts k.next.kind = false) (hrounds : c.ahead.length ≤ rounds)
    (hv : (item s c).Meets k v) : ((manyFrom stop item next rounds s >>= f) c).Meets k v := by
  have hgo' : halts c.current.kind = false := hc.current_at ▸ hgo
  have hpos := length_pos_of_not_halts hend hgo'
  obtain ⟨rounds, rfl⟩ := Nat.exists_eq_succ_of_ne_zero (by omega : rounds ≠ 0)
  rw [Nat.succ_eq_add_one, manyFrom_bind_of_item ((hstop c).trans hgo')]
  exact hv.mono (extends_bind _ _ c)

/--
What is asked of the items of two loops, which end before tokens of some kinds. If only one of the
loops ends at its cut, the other one has an item to read there that settles the matter; but where
`X` holds the first loop may end anyhow, and the second one where `Y` does.
-/
structure JointItems (k k' : Cut) (start : Nat) (halts : TokenKind → Bool) (X Y : Prop)
    (V : α → α → Prop) (item item' : σ → Reader ε (Option α)) : Prop where
  both : ∀ s n c d, start ≤ n → k.Places k' n c d → halts c.current.kind = false →
    halts d.current.kind = false →
      (item s c).Joint k k' False False (n + 1) (Option.Rel V) (item' s d)
  left : ∀ s c, start ≤ k.size → c.In k k.size → halts k.next.kind = false →
    halts k'.next.kind = true → Y ∨ ∃ v, (item s c).Meets k v ∧ k'.Excuses v
  right : ∀ s d, start ≤ k'.size → d.In k' k'.size → halts k.next.kind = true →
    halts k'.next.kind = false → X ∨ (item' s d).Meets k' .passes

section AtCut

variable {item item' : σ → Reader ε (Option α)} {next : σ → α → σ} {f g : List α → Reader ε β}
  (hstop : ∀ c, stop c = halts c.current.kind) (hend : halts .endOfInput = true)
  (hitems : JointItems k k' start halts X Y V item item')
include hstop hend hitems

/-- At the cut only the second loop ends. -/
theorem joint_of_second_ends [∀ s, Onward (item s)] [∀ as, Onward (f as)] (s : σ)
    (hstart : start ≤ k.size) (hc : c.In k k.size) (hd : d.In k' k'.size)
    (hgo : halts k.next.kind = false) (hends : halts k'.next.kind = true)
    (hrounds : c.ahead.length ≤ rounds)
    (hY : Y → ∀ bs d', d'.In k' k'.size → halts k'.next.kind = true →
      (g bs d').Settled k' (· = .passes) Y') :
    ((manyFrom stop item next rounds s >>= f) c).Joint k k' X' Y' m W
      ((manyFrom stop item' next rounds' s >>= g) d) := by
  have hne : k.next.word ≠ k'.next.word := Cut.word_ne fun heq => by
    rw [heq, hends] at hgo
    cases hgo
  rcases hitems.left s c hstart hc hgo hends with hy | ⟨v, hv, hexcused⟩
  · refine .right hne ?_
    rw [manyFrom_bind_of_stop ((hstop d).trans (hd.current_at ▸ hends))]
    exact hY hy [] d hd hends
  · exact .left hne ((meets_manyFrom_bind hstop hend hc hgo hrounds hv).settled hexcused)

/-- At the cut only the first loop ends. -/
theorem joint_of_first_ends [∀ s, Onward (item' s)] [∀ as, Onward (g as)] (s : σ)
    (hstart : start ≤ k'.size) (hc : c.In k k.size) (hd : d.In k' k'.size)
    (hends : halts k.next.kind = true) (hgo : halts k'.next.kind = false)
    (hrounds' : d.ahead.length ≤ rounds')
    (hX : X → ∀ as c', c'.In k k.size → halts k.next.kind = true →
      (f as c').Settled k k'.Excuses X') :
    ((manyFrom stop item next rounds s >>= f) c).Joint k k' X' Y' m W
      ((manyFrom stop item' next rounds' s >>= g) d) := by
  have hne : k.next.word ≠ k'.next.word := Cut.word_ne fun heq => by
    rw [← heq, hends] at hgo
    cases hgo
  rcases hitems.right s d hstart hd hends hgo with hx | hv
  · refine .left hne ?_
    rw [manyFrom_bind_of_stop ((hstop c).trans (hc.current_at ▸ hends))]
    exact hX hx [] c hc hends
  · exact .right hne ((meets_manyFrom_bind hstop hend hd hgo hrounds' hv).settled rfl)

end AtCut

/-- Loops, and what is read after them. The induction is on the tokens ahead. -/
theorem joint_manyFrom_bind {item item' : σ → Reader ε (Option α)} {next : σ → α → σ} {s : σ}
    {f g : List α → Reader ε β} [∀ s, Onward (item s)] [∀ s, Onward (item' s)]
    [∀ as, Onward (f as)] [∀ as, Onward (g as)]
    (hstop : ∀ c, stop c = halts c.current.kind) (hend : halts .endOfInput = true)
    (hnext : ∀ s a b, V a b → next s a = next s b)
    (hitems : JointItems k k' start halts X Y V item item') (hstart : start ≤ n)
    (h : k.Places k' n c d) (hrounds : c.ahead.length ≤ rounds)
    (hrounds' : d.ahead.length ≤ rounds')
    (hX : X → ∀ as c', c'.In k k.size → halts k.next.kind = true →
      (f as c').Settled k k'.Excuses X')
    (hY : Y → ∀ bs d', d'.In k' k'.size → halts k'.next.kind = true →
      (g bs d').Settled k' (· = .passes) Y')
    (hf : ∀ as bs i c' d', k.Places k' i c' d' → n ≤ i → List.Forall₂ V as bs →
      halts c'.current.kind = true → halts d'.current.kind = true →
        (f as c').Joint k k' X' Y' m W (g bs d')) :
    ((manyFrom stop item next rounds s >>= f) c).Joint k k' X' Y' m W
      ((manyFrom stop item' next rounds' s >>= g) d) := by
  induction hlength : c.ahead.length using Nat.strong_induction_on
    generalizing rounds rounds' s n c d f g with
  | _ length ih =>
  subst hlength
  have hpause (hc : halts c.current.kind = true) (hd : halts d.current.kind = true) :
      ((manyFrom stop item next rounds s >>= f) c).Joint k k' X' Y' m W
        ((manyFrom stop item' next rounds' s >>= g) d) := by
    rw [manyFrom_bind_of_stop ((hstop c).trans hc), manyFrom_bind_of_stop ((hstop d).trans hd)]
    exact hf [] [] n c d h (Nat.le_refl n) .nil hc hd
  have hround (hc : halts c.current.kind = false) (hd : halts d.current.kind = false) :
      ((manyFrom stop item next rounds s >>= f) c).Joint k k' X' Y' m W
        ((manyFrom stop item' next rounds' s >>= g) d) := by
    have hpos := length_pos_of_not_halts hend hc
    have hpos' := length_pos_of_not_halts hend hd
    obtain ⟨rounds, rfl⟩ := Nat.exists_eq_succ_of_ne_zero (by omega : rounds ≠ 0)
    obtain ⟨rounds', rfl⟩ := Nat.exists_eq_succ_of_ne_zero (by omega : rounds' ≠ 0)
    rw [Nat.succ_eq_add_one, Nat.succ_eq_add_one, manyFrom_bind_of_item ((hstop c).trans hc),
      manyFrom_bind_of_item ((hstop d).trans hd)]
    refine joint_bind (hitems.both s n c d hstart h hc hd) fun a b i c' d' h' hlt hv => ?_
    have hless := h.left.length_lt h'.left hlt
    have hless' := h.right.length_lt h'.right hlt
    cases hv with
    | none =>
      exact ih _ hless (by omega) h' (by omega) (by omega) hX hY
        (fun as bs j c d h hle => hf as bs j c d h (by omega)) rfl
    | @some a b hv =>
      rw [afterRound, afterRound, ← hnext s _ _ hv, bind_map_left, bind_map_left]
      exact ih _ hless (by omega) h' (by omega) (by omega) (fun hx as => hX hx (a :: as))
        (fun hy bs => hY hy (b :: bs))
        (fun as bs j c d h hle hvs => hf _ _ j c d h (by omega) (.cons hv hvs)) rfl
  rcases h.left.lt_or_eq with hn | rfl
  · cases hc : halts c.current.kind with
    | true => exact hpause hc (h.kind_eq hn ▸ hc)
    | false => exact hround hc (h.kind_eq hn ▸ hc)
  · have hnext := congrArg Token.kind h.left.current_at
    have hnext' := congrArg Token.kind h.right_at.current_at
    cases hc : halts k.next.kind <;> cases hd : halts k'.next.kind
    · exact hround (hnext ▸ hc) (hnext' ▸ hd)
    · exact joint_of_second_ends hstop hend hitems s hstart h.left h.right_at hc hd hrounds hY
    · exact joint_of_first_ends hstop hend hitems s (h.size_eq ▸ hstart) h.left h.right_at hc hd
        hrounds' hX
    · exact hpause (hnext ▸ hc) (hnext' ▸ hd)

theorem joint_manyFrom {item item' : σ → Reader ε (Option α)} {next : σ → α → σ} {s : σ}
    [∀ s, Onward (item s)] [∀ s, Onward (item' s)]
    (hstop : ∀ c, stop c = halts c.current.kind) (hend : halts .endOfInput = true)
    (hnext : ∀ s a b, V a b → next s a = next s b)
    (hitems : JointItems k k' start halts X Y V item item') (hstart : start ≤ n)
    (h : k.Places k' n c d) (hrounds : c.ahead.length ≤ rounds)
    (hrounds' : d.ahead.length ≤ rounds') :
    (manyFrom stop item next rounds s c).Joint k k' X Y n (List.Forall₂ V)
      (manyFrom stop item' next rounds' s d) := by
  rw [← bind_pure (manyFrom stop item next rounds s), ← bind_pure (manyFrom stop item' _ _ _)]
  refine joint_manyFrom_bind hstop hend hnext hitems hstart h hrounds hrounds'
    (fun hx _ _ hc _ => settled_pure hc hx) (fun hy _ _ hd _ => settled_pure hd hy) ?_
  exact fun as bs i c' d' h' hle hvs _ _ => joint_pure h' hle hvs

theorem joint_manyUntil {item item' : Reader ε α} [Onward item] [Onward item']
    (hstop : ∀ c, stop c = halts c.current.kind) (hend : halts .endOfInput = true)
    (hitems : JointItems k k' start halts X Y V (fun _ : Unit => some <$> item)
      (fun _ => some <$> item'))
    (hstart : start ≤ n) (h : k.Places k' n c d) (hrounds : c.ahead.length ≤ rounds)
    (hrounds' : d.ahead.length ≤ rounds') :
    (manyUntil stop item rounds c).Joint k k' X Y n (List.Forall₂ V)
      (manyUntil stop item' rounds' d) := by
  rw [manyUntil_eq_manyFrom, manyUntil_eq_manyFrom]
  exact joint_manyFrom hstop hend (fun _ _ _ _ => rfl) hitems hstart h hrounds hrounds'

end Loops

end MiniJava.Reader
