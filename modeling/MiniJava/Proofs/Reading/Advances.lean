import MiniJava.Proofs.Reading.Loops
import MiniJava.Proofs.Reading.Passage

/-!
# Reading at a place of a text

`Reading.Advances` says what holds of reading that starts at a place of a text, however it ends: it
comes to another place of the text, each fault that it notes or fails with is a fault of the text,
and no bound is reached. Each way to build a reader has one rule.
-/

namespace MiniJava

variable {ε ε' α β σ : Type}

/-! ## Faults of a text -/

/--
The token is what was expected. The value of a number does not matter, and a comment counts as the
end of the input.
-/
def Expectation.Admits (t : Token) : Expectation → Prop
  | token kind => t.kind = kind ∨ (∃ v w, t.kind = .integer v ∧ kind = .integer w) ∨
    t.kind = .endOfInput ∧ kind = .comment
  | mainName => t.kind = .identifier ∧ t.lexeme = "main"

theorem Expectation.admits_token_iff {t : Token} {kind : TokenKind}
    (h : kind.spelling?.isSome) : (token kind).Admits t ↔ t.kind = kind := by
  refine ⟨?_, .inl⟩
  rintro (hk | ⟨v, w, -, rfl⟩ | ⟨-, rfl⟩)
  · exact hk
  · cases h
  · cases h

/--
The fault is one of the text: the token that was found is one of the text and none of those that
were expected, and a construct in the wrong place has a place in the text.
-/
def Fault.Holds (source : String) : Fault → Prop
  | unexpected found expected _ =>
    found ∈ (tokenize source).all ∧ ∀ x ∈ expected, ¬ x.Admits found
  | misplaced _ span => span.Valid source

/-- What is noted holds of the text: a fault is one of the text. No bound is ever reached. -/
def Entry.Holds (source : String) : Entry → Prop
  | fault f => f.Holds source
  | skipped .. => True
  | exhausted => False

/-! ## Advancing -/

/--
From a place `c` of a text, reading comes to a place of the text and notes what holds of the text.
It fails with what satisfies `E`, and `Q` holds if it succeeds.
-/
def Reading.Advances (r : Reading ε α) (source : String) (E : ε → Prop) (c : Cursor)
    (Q : Reading.Post α) : Prop :=
  c.Of source → (∀ entry ∈ r.journal, entry.Holds source) ∧ (∀ e, r.outcome = .error e → E e) ∧
    ∃ ys, Passage source c ys r.cursor ∧ ∀ a, r.outcome = .ok a → Q ys a r.cursor r.faults

namespace Reading.Advances

variable {r : Reading ε α} {source : String} {E : ε → Prop} {c d : Cursor} {ys : List Terminal}
  {Q R : Post α}

theorem mono (h : r.Advances source E c R) (hQ : ∀ ys a d fs, R ys a d fs → Q ys a d fs) :
    r.Advances source E c Q := by
  intro hc
  obtain ⟨hjs, he, ys, hd, ha⟩ := h hc
  exact ⟨hjs, he, ys, hd, fun a hok => hQ _ _ _ _ (ha a hok)⟩

theorem of_place (h : c.Of source → r.Advances source E c Q) : r.Advances source E c Q :=
  fun hc => h hc hc

/-- What is to be shown of the outcome may use the passage that led to it. -/
theorem passage
    (h : r.Advances source E c fun ys a d fs => Passage source c ys d → Q ys a d fs) :
    r.Advances source E c Q := by
  intro hc
  obtain ⟨hjs, he, ys, hd, ha⟩ := h hc
  exact ⟨hjs, he, ys, hd, fun a hok => ha a hok hd⟩

/-- What reading does further on holds from here, with the tokens between put in front. -/
theorem after (hd : Passage source c ys d)
    (h : r.Advances source E d fun zs a e fs => Q (ys ++ zs) a e fs) : r.Advances source E c Q := by
  intro _
  obtain ⟨hjs, he, zs, hd', ha⟩ := h hd.goal
  exact ⟨hjs, he, ys ++ zs, hd.trans hd', ha⟩

/-- What reading ensures wherever it starts holds at a place of a text too. -/
theorem and_ensures (h : r.Advances source E c Q) (h' : r.Ensures c R) :
    r.Advances source E c fun ys a d fs => Q ys a d fs ∧ R ys a d fs := by
  intro hc
  obtain ⟨hjs, he, ys, hd, ha⟩ := h hc
  obtain ⟨zs, hd', ha'⟩ := h' hc.regular
  obtain rfl := hd.reaches.unique hd'
  exact ⟨hjs, he, ys, hd, fun a hok => ⟨ha a hok, ha' a hok⟩⟩

/-- The faults that were noted are faults of the text. -/
theorem holds_of_mem_faults (h : r.Advances source E c Q) (hc : c.Of source) :
    ∀ fault ∈ r.faults, fault.Holds source := by
  intro fault hfault
  obtain ⟨entry, hentry, heq⟩ := List.mem_filterMap.1 hfault
  have hholds := (h hc).1 entry hentry
  cases entry with
  | fault f => cases heq; exact hholds
  | skipped | exhausted => cases heq

/-- No bound was reached. -/
theorem exhausted_notMem (h : r.Advances source E c Q) (hc : c.Of source) :
    .exhausted ∉ r.journal :=
  fun hmem => (h hc).1 _ hmem

end Reading.Advances

namespace Reader

open Reading

variable {p : Reader ε α} {f : α → Reader ε β} {source : String} {E : ε → Prop} {E' : ε' → Prop}
  {c : Cursor} {Q : Post β} {R : Post α}

theorem advances_pure {a : α} (h : R [] a c []) :
    ((pure a : Reader ε α) c).Advances source E c R :=
  fun hc => ⟨nofun, nofun, [], .refl hc, fun _ ha => by cases ha; exact h⟩

theorem advances_fail {e : ε} (h : c.Of source → E e) (R : Post α) :
    ((fail e : Reader ε α) c).Advances source E c R :=
  fun hc => ⟨nofun, fun _ he => by cases he; exact h hc, [], .refl hc, nofun⟩

theorem advances_failUnexpected {expected : List Expectation}
    (h : c.Of source → ∀ x ∈ expected, ¬ x.Admits c.current) (R : Post α) :
    ((failUnexpected expected : Reader Fault α) c).Advances source (Fault.Holds source) c R :=
  advances_fail (fun hc => ⟨hc.current_mem, h hc⟩) R

theorem advances_bind (hp : (p c).Advances source E c R)
    (hf : ∀ ys a d fs, Passage source c ys d → R ys a d fs →
      (f a d).Advances source E d fun zs b e gs => Q (ys ++ zs) b e (fs ++ gs)) :
    ((p >>= f) c).Advances source E c Q := by
  intro hc
  obtain ⟨hjs, he, ys, hd, ha⟩ := hp hc
  rcases h : p c with ⟨e | a, d, journal⟩
  · rw [bind_apply_of_error h]
    rw [h] at hjs he hd
    exact ⟨hjs, fun e' he' => he e' (by cases he'; rfl), ys, hd, nofun⟩
  · rw [bind_apply_of_ok h]
    rw [h] at hjs hd ha
    obtain ⟨hks, he', zs, hd', hb⟩ := hf ys a d _ hd (ha a rfl) hd.goal
    refine ⟨List.forall_mem_append.2 ⟨hjs, hks⟩, he', ys ++ zs, hd.trans hd', fun b hok => ?_⟩
    rw [faults, List.filterMap_append]
    exact hb b hok

theorem advances_map {g : α → β}
    (hp : (p c).Advances source E c fun ys a d fs => Q ys (g a) d fs) :
    ((g <$> p) c).Advances source E c Q := by
  intro hc
  obtain ⟨hjs, he, ys, hd, ha⟩ := hp hc
  rcases h : p c with ⟨e | a, d, journal⟩ <;>
    simp only [Functor.map, Reader.map, h] at hjs he hd ha ⊢
  · exact ⟨hjs, fun e' he' => he e' (by cases he'; rfl), ys, hd, nofun⟩
  · exact ⟨hjs, nofun, ys, hd, fun b hb => by cases hb; exact ha a rfl⟩

/-- After a failure, the handler goes on from where reading stopped. -/
theorem advances_rescue_at {handle : ε → Reader ε' α} (hp : (p c).Advances source E c R)
    (hh : ∀ e ys fs, E e → Passage source c ys (p c).cursor →
      (handle e (p c).cursor).Advances source E' (p c).cursor fun zs a d gs =>
        R (ys ++ zs) a d (fs ++ gs)) :
    ((rescue p handle) c).Advances source E' c R := by
  intro hc
  obtain ⟨hjs, he, ys, hd, ha⟩ := hp hc
  rcases h : p c with ⟨e | a, d, journal⟩
  · rw [rescue_apply_of_error h]
    rw [h] at hjs he hd hh
    obtain ⟨hks, he', zs, hd', hb⟩ :=
      hh e ys (journal.filterMap Entry.fault?) (he e rfl) hd hd.goal
    refine ⟨List.forall_mem_append.2 ⟨hjs, hks⟩, he', ys ++ zs, hd.trans hd', fun b hok => ?_⟩
    rw [faults, List.filterMap_append]
    exact hb b hok
  · rw [rescue_apply_of_ok h]
    rw [h] at hjs hd ha
    refine ⟨hjs, fun _ hfail => ?_, ys, hd, fun b hb => ?_⟩
    · cases hfail
    · cases hb
      exact ha a rfl

theorem advances_rescue {handle : ε → Reader ε' α} (hp : (p c).Advances source E c R)
    (hh : ∀ e ys d fs, E e → Passage source c ys d →
      (handle e d).Advances source E' d fun zs a d' gs => R (ys ++ zs) a d' (fs ++ gs)) :
    ((rescue p handle) c).Advances source E' c R :=
  advances_rescue_at hp fun e ys fs he hd => hh e ys _ fs he hd

theorem advances_noteAll {entries : List Entry} {R : Post Unit}
    (hjs : c.Of source → ∀ entry ∈ entries, entry.Holds source)
    (h : R [] () c (entries.filterMap Entry.fault?)) :
    ((noteAll entries : Reader ε Unit) c).Advances source E c R :=
  fun hc => ⟨hjs hc, nofun, [], .refl hc, fun _ _ => h⟩

theorem advances_report_bind {fault : Fault} {f : Unit → Reader ε β}
    (hfault : c.Of source → fault.Holds source)
    (h : (f () c).Advances source E c fun zs b e gs => Q zs b e (fault :: gs)) :
    ((report fault >>= f) c).Advances source E c Q := by
  refine advances_bind (R := fun ys _ d fs => ys = [] ∧ d = c ∧ fs = [fault])
    (advances_noteAll (fun hc => List.forall_mem_singleton.2 (hfault hc)) ⟨rfl, rfl, rfl⟩) ?_
  rintro _ _ _ _ - ⟨rfl, rfl, rfl⟩
  exact h

theorem advances_reportIf_bind {faulty : Bool} {fault : Fault} {f : Unit → Reader ε β}
    (hfault : c.Of source → fault.Holds source)
    (h : (f () c).Advances source E c fun zs b e gs =>
      Q zs b e ((if faulty then [fault] else []) ++ gs)) :
    ((reportIf faulty fault >>= f) c).Advances source E c Q := by
  cases faulty with
  | true => exact advances_report_bind hfault h
  | false => exact h

/-- Skipping leads to another place of the text. -/
theorem advances_resync (region : Region) (origin c : Cursor) :
    ((resync region origin : Reader ε Unit) c).Advances source E c fun ys _ _ fs =>
      fs = [] ∧ ys.length = min (region.skip (origin.pos < c.pos) c.ahead) c.ahead.length := by
  intro hc
  refine ⟨List.forall_mem_singleton.2 trivial, nofun, _, .drop hc _, fun _ _ => ⟨rfl, ?_⟩⟩
  rw [List.length_map, List.length_take]

/-! ## Tokens -/

section Tokens

variable {kind : TokenKind}

theorem advances_advance_bind {f : Token → Reader ε β} (hk : c.current.kind ≠ .endOfInput)
    (h : Passage source c [c.current.terminal] (c.drop 1) →
      (f c.current (c.drop 1)).Advances source E (c.drop 1) fun zs b e gs =>
        Q (c.current.terminal :: zs) b e gs) :
    ((advance >>= f) c).Advances source E c Q := by
  intro hc
  have hd : Passage source c [c.current.terminal] (c.drop 1) :=
    ⟨hc, hc.drop 1, Cursor.reaches_drop_one hk⟩
  rw [advance_bind]
  exact (h hd).after hd hc

theorem advances_advance_word_bind {f : Token → Reader ε β} (hk : c.current.kind = kind)
    (hs : kind.spelling?.isSome)
    (h : Passage source c [.word kind] (c.drop 1) →
      (f c.current (c.drop 1)).Advances source E (c.drop 1) fun zs b e gs =>
        Q (.word kind :: zs) b e gs) :
    ((advance >>= f) c).Advances source E c Q := by
  intro hc
  have hd : Passage source c [.word kind] (c.drop 1) :=
    ⟨hc, hc.drop 1, hc.regular.reaches_word hk hs⟩
  rw [advance_bind]
  exact (h hd).after hd hc

/-- Where a keyword or a mark was expected and is not, there is a fault of the text. -/
theorem holds_of_kind_ne (hc : c.Of source) (hs : kind.spelling?.isSome)
    (h : c.current.kind ≠ kind) (hint : Option Hint) :
    (Fault.unexpected c.current [.token kind] hint).Holds source := by
  refine ⟨hc.current_mem, List.forall_mem_singleton.2 fun hadmits => h ?_⟩
  exact (Expectation.admits_token_iff hs).1 hadmits

theorem advances_expect_bind {f : Token → Reader Fault β} (hs : kind.spelling?.isSome)
    (h : ∀ d, Passage source c [.word kind] d →
      (f c.current d).Advances source (Fault.Holds source) d fun zs b e gs =>
        Q (.word kind :: zs) b e gs) :
    ((expect kind >>= f) c).Advances source (Fault.Holds source) c Q := by
  by_cases hk : c.current.kind = kind
  · rw [bind_apply_of_ok (expect_of_kind hk)]
    exact advances_advance_word_bind hk hs (h _)
  · rw [bind_apply_of_error (expect_of_ne hk)]
    exact advances_fail (fun hc => holds_of_kind_ne hc hs hk none) Q

theorem advances_expect_identifier_bind {f : Token → Reader Fault β}
    (h : ∀ d, Passage source c [.ident c.current.lexeme] d →
      (f c.current d).Advances source (Fault.Holds source) d fun zs b e gs =>
        Q (.ident c.current.lexeme :: zs) b e gs) :
    ((expect .identifier >>= f) c).Advances source (Fault.Holds source) c Q := by
  by_cases hk : c.current.kind = .identifier
  · rw [bind_apply_of_ok (expect_of_kind hk)]
    refine advances_advance_bind (by rw [hk]; nofun) ?_
    rw [Token.terminal_ident hk]
    exact h _
  · rw [bind_apply_of_error (expect_of_ne hk)]
    exact advances_fail (fun hc => ⟨hc.current_mem, by simpa [Expectation.Admits] using hk⟩) Q

theorem advances_expectName_bind {f : String → Reader Fault β}
    (h : ∀ n d, Passage source c [.ident n] d →
      (f n d).Advances source (Fault.Holds source) d fun zs b e gs => Q (.ident n :: zs) b e gs) :
    ((expectName >>= f) c).Advances source (Fault.Holds source) c Q := by
  rw [expectName, bind_assoc]
  exact advances_expect_identifier_bind (h _)

theorem advances_eat_bind {f : Bool → Reader ε β} (hs : kind.spelling?.isSome)
    (h : ∀ d, Passage source c [.word kind] d →
      (f true d).Advances source E d fun zs b e gs => Q (.word kind :: zs) b e gs)
    (h' : c.current.kind ≠ kind → (f false c).Advances source E c Q) :
    ((eat kind >>= f) c).Advances source E c Q := by
  rw [eat, bind_assoc, isAt_bind]
  by_cases hk : c.current.kind = kind
  · rw [if_pos (decide_eq_true hk), bind_assoc]
    exact advances_advance_word_bind hk hs (h _)
  · rw [if_neg (by simpa using hk)]
    exact h' hk

theorem advances_expectOrReport_bind {f : Unit → Reader ε β} (hs : kind.spelling?.isSome)
    (h : ∀ d, Passage source c [.word kind] d →
      (f () d).Advances source E d fun zs b e gs => Q (.word kind :: zs) b e gs)
    (h' : ∀ fault, (f () c).Advances source E c fun zs b e gs => Q zs b e (fault :: gs)) :
    ((expectOrReport kind >>= f) c).Advances source E c Q := by
  by_cases hk : c.current.kind = kind
  · have htake : (expectOrReport kind : Reader ε Unit) c = ⟨.ok (), c.drop 1, []⟩ := by
      have he : (do let _ ← expect kind : Reader Fault Unit) c = ⟨.ok (), c.drop 1, []⟩ := by
        rw [bind_apply_of_ok (expect_of_kind hk)]
        rfl
      rw [expectOrReport, rescue_apply_of_ok he]
    rw [bind_apply_of_ok htake]
    exact advances_advance_word_bind (f := fun _ => f ()) hk hs (h _)
  · have hnote : (expectOrReport kind : Reader ε Unit) c =
        report (.unexpected c.current [.token kind] none) c := by
      have he := bind_apply_of_error (f := fun _ => pure ()) (expect_of_ne hk)
      rw [expectOrReport, rescue_apply_of_error he]
      rfl
    have hreport := advances_report_bind (ε := ε) (E := E)
      (fun hc => holds_of_kind_ne hc hs hk none) (h' _)
    rwa [show (expectOrReport kind >>= f) c =
      (report (.unexpected c.current [.token kind] none) >>= f) c by
        simp only [bind, Reader.bind, hnote]]

end Tokens

/-! ## Loops -/

section Loops

variable {stop : Cursor → Bool} {room : Nat}

/--
Items with commas between them are each read from where the comma before them ends. Each comma is a
token, so that no round is missing.
-/
theorem advances_sepByComma {item : Reader Fault α}
    {I : Cursor → Post α} {J : Cursor → Post (List α)}
    (hone : ∀ c ys a d fs, Passage source c ys d → I c ys a d fs → J c ys [a] d fs)
    (hmore : ∀ c ys a d fs d' zs as e gs, Passage source c ys d →
      Passage source d [.word .comma] d' → Passage source d' zs e → I c ys a d fs →
      J d' zs as e gs → J c (ys ++ .word .comma :: zs) (a :: as) e (fs ++ gs))
    (hitem : ∀ d : Cursor, d.ahead.length ≤ room →
      (item d).Advances source (Fault.Holds source) d (I d))
    {rounds : Nat} {c : Cursor} (hrounds : c.ahead.length ≤ rounds)
    (hc : c.ahead.length ≤ room) :
    (sepByComma item rounds c).Advances source (Fault.Holds source) c (J c) := by
  induction rounds generalizing c with
  | zero =>
    apply advances_bind (hitem c hc)
    intro ys a d fs hd ha
    have hnil : d.ahead = [] :=
      List.length_eq_zero_iff.1 (Nat.le_zero.1 (hd.reaches.length_ahead_le hrounds))
    rw [isAt_bind, Cursor.kind_current_of_ahead_eq_nil hnil]
    change ((pure [a] : Reader Fault (List α)) d).Advances _ _ _ _
    exact advances_pure (by simpa using hone c ys a d fs hd ha)
  | succ rounds ih =>
    apply advances_bind (hitem c hc)
    intro ys a d fs hd ha
    refine advances_eat_bind rfl (fun d' hd' => ?_) fun _ => ?_
    · have hlen := (hd.trans hd').reaches.length_ahead_le hc
      have hlen' := (hd.trans hd').reaches.length_ahead_lt (by simp) hrounds
      exact advances_map ((ih hlen' hlen).mono fun zs as e gs has hp =>
        hmore c ys a d fs d' zs as e gs hd hd' hp ha has).passage
    · exact advances_pure (by simpa using hone c ys a d fs hd ha)

/--
If each item takes a token, then no round is missing: items are read up to the mark, and what holds
of them all follows from what holds of each.
-/
theorem advances_manyFrom {item : σ → Reader ε (Option α)} {next : σ → α → σ}
    {I : σ → Cursor → Post (Option α)} {J : σ → Cursor → Post (List α)}
    (hend : ∀ c : Cursor, c.Of source → c.ahead = [] → stop c = true)
    (hnil : ∀ s c, c.Of source → stop c = true → J s c [] [] c [])
    (hsome : ∀ s c ys a d fs zs as e gs, Passage source c ys d → Passage source d zs e →
      I s c ys (some a) d fs → J (next s a) d zs as e gs → J s c (ys ++ zs) (a :: as) e (fs ++ gs))
    (hnone : ∀ s c ys d fs zs as e gs, Passage source c ys d → Passage source d zs e →
      I s c ys none d fs → J s d zs as e gs → J s c (ys ++ zs) as e (fs ++ gs))
    (hitem : ∀ s (d : Cursor), d.ahead.length ≤ room → stop d = false →
      (item s d).Advances source E d fun ys a e fs => ys ≠ [] ∧ I s d ys a e fs)
    {rounds : Nat} (s : σ) {c : Cursor} (hrounds : c.ahead.length ≤ rounds)
    (hroom : c.ahead.length ≤ room) :
    (manyFrom stop item next rounds s c).Advances source E c (J s c) := by
  induction rounds generalizing s c with
  | zero =>
    refine .of_place fun hc => ?_
    have hstop := hend c hc (List.length_eq_zero_iff.1 (Nat.le_zero.1 hrounds))
    rw [manyFrom_of_stop hstop]
    exact advances_pure (hnil s c hc hstop)
  | succ rounds ih =>
    rw [manyFrom, here_bind]
    cases hstop : stop c with
    | true => exact .of_place fun hc => advances_pure (hnil s c hc hstop)
    | false =>
      apply advances_bind (hitem s c hroom hstop)
      rintro ys a d fs hd ⟨hys, ha⟩
      have hlen := hd.reaches.length_ahead_lt hys hrounds
      have hlen' := hd.reaches.length_ahead_le hroom
      cases a with
      | some a =>
        exact advances_map ((ih (next s a) hlen hlen').mono fun zs as e gs has hp =>
          hsome s c ys a d fs zs as e gs hd hp ha has).passage
      | none =>
        exact ((ih s hlen hlen').mono fun zs as e gs has hp =>
          hnone s c ys d fs zs as e gs hd hp ha has).passage

/-- The same for items of which none is left out. -/
theorem advances_manyUntil {item : Reader ε α} {I : Cursor → Post α} {J : Cursor → Post (List α)}
    (hend : ∀ c : Cursor, c.Of source → c.ahead = [] → stop c = true)
    (hnil : ∀ c, c.Of source → stop c = true → J c [] [] c [])
    (hcons : ∀ c ys a d fs zs as e gs, Passage source c ys d → Passage source d zs e →
      I c ys a d fs → J d zs as e gs → J c (ys ++ zs) (a :: as) e (fs ++ gs))
    (hitem : ∀ d : Cursor, d.ahead.length ≤ room → stop d = false →
      (item d).Advances source E d fun ys a e fs => ys ≠ [] ∧ I d ys a e fs)
    {rounds : Nat} {c : Cursor} (hrounds : c.ahead.length ≤ rounds)
    (hroom : c.ahead.length ≤ room) :
    (manyUntil stop item rounds c).Advances source E c (J c) := by
  induction rounds generalizing c with
  | zero =>
    refine .of_place fun hc => ?_
    have hstop := hend c hc (List.length_eq_zero_iff.1 (Nat.le_zero.1 hrounds))
    rw [manyUntil_of_stop hstop]
    exact advances_pure (hnil c hc hstop)
  | succ rounds ih =>
    rw [manyUntil, here_bind]
    cases hstop : stop c with
    | true => exact .of_place fun hc => advances_pure (hnil c hc hstop)
    | false =>
      apply advances_bind (hitem c hroom hstop)
      rintro ys a d fs hd ⟨hys, ha⟩
      have hlen := hd.reaches.length_ahead_lt hys hrounds
      exact advances_map ((ih hlen (hd.reaches.length_ahead_le hroom)).mono fun zs as e gs has hp =>
        hcons c ys a d fs zs as e gs hd hp ha has).passage

end Loops

end Reader

end MiniJava
