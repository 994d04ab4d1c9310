import MiniJava.Proofs.Recovery.Around

/-!
# Reading around a gap

In a gap between two statements of a block, a statement is read. Then the statements around it, the
method, the class and the whole program are read as they would be without it, and the faults that
are noted are those of this statement.
-/

namespace MiniJava

open Terminal

/-! ## Statements in gaps -/

/-- One statement is in the gap, and `P` holds of it. What is around the gap is as before. -/
def Stmt.Gap.FilledWith (g : Stmt.Gap) (P : Stmt → Prop) (s : Stmt) : Prop :=
  ∃ (g' : Stmt.Gap) (x : Stmt), s = g'.fill [x] ∧ g'.withoutSpans = g.withoutSpans ∧ P x

@[inherit_doc Stmt.Gap.FilledWith]
def Method.Gap.FilledWith (g : Method.Gap) (P : Stmt → Prop) (m : Method) : Prop :=
  ∃ (g' : Method.Gap) (x : Stmt), m = g'.fill [x] ∧ g'.withoutSpans = g.withoutSpans ∧ P x

@[inherit_doc Stmt.Gap.FilledWith]
def ClassDecl.Gap.FilledWith (g : ClassDecl.Gap) (P : Stmt → Prop) (k : ClassDecl) : Prop :=
  ∃ (g' : ClassDecl.Gap) (x : Stmt), k = g'.fill [x] ∧ g'.withoutSpans = g.withoutSpans ∧ P x

@[inherit_doc Stmt.Gap.FilledWith]
def Program.Gap.FilledWith (g : Program.Gap) (P : Stmt → Prop) (p : Program) : Prop :=
  ∃ (g' : Program.Gap) (x : Stmt), p = g'.fill [x] ∧ g'.withoutSpans = g.withoutSpans ∧ P x

theorem Stmt.WellFormed.of_block {span : Span} {ss : List Stmt}
    (h : (Stmt.block span ss).WellFormed) : ∀ s ∈ ss, s.WellFormed := by
  obtain ⟨-, hss⟩ := List.forall_mem_cons.1 h
  rw [Stmt.nodesList_eq] at hss
  exact List.forall_mem_flatMap.1 hss

namespace Parse

open Reader Reading

variable {ε : Type} {c : Cursor} {rest : List Terminal} {tail : List Token} {room : Nat}
  {P : Stmt → List Fault → Prop}

/-- The first token before a gap opens a block, an `if` or a `while`. -/
theorem kind_current_of_yieldBefore {g : Stmt.Gap} (hc : c.Spells g.yieldBefore tail) :
    c.current.kind = .leftBrace ∨ c.current.kind = .ifKw ∨ c.current.kind = .whileKw := by
  cases g with
  | block | inBlock => exact .inl hc.kind_current
  | inThen | inElse => exact .inr (.inl hc.kind_current)
  | inWhile => exact .inr (.inr hc.kind_current)

theorem startsStatement_gap (g : Stmt.Gap) : StartsStatement g.yieldBefore tail := by
  intro c hc
  rw [atVariableDecl, atBodyEnd, atListEnd]
  rcases kind_current_of_yieldBefore hc with h | h | h <;> rw [h] <;> exact ⟨rfl, rfl⟩

/-- Reading a statement with a gap, up to where `rest` lies ahead. -/
def ReadsGap (tail : List Token) (P : Stmt → List Fault → Prop) (g : Stmt.Gap) : Prop :=
  ∀ {rest : List Terminal} {room : Nat} {c : Cursor},
    ReadsStatementAt [] tail (g.yieldAfter ++ rest) P → c.Spells g.yieldBefore tail →
    c.ahead.length ≤ room →
    (statementWithin room c).Succeeds fun s d fs =>
      g.FilledWith (P · fs) s ∧ s.recurs = [] ∧ d.Sees rest

/-- What is read in a gap is a part of what is read around it. -/
theorem ReadsGap.readsStatementAt {g : Stmt.Gap} (hg : ReadsGap tail P g)
    (h : ReadsStatementAt [] tail (g.yieldAfter ++ rest) P) :
    ReadsStatementAt g.yieldBefore tail rest fun s fs => g.FilledWith (P · fs) s where
  more c hc := by
    rw [atListEnd]
    rcases kind_current_of_yieldBefore hc with h | h | h <;> rw [h]
  reads room c hc hroom := succeeds_recovering (hg h hc hroom)
  shorter := by
    have hshorter := h.shorter
    simp only [List.length_append, List.length_nil] at hshorter
    omega

theorem readsGap_block (span : Span) {before after : List Stmt}
    (hbefore : ∀ s ∈ before, s.WellFormed) (hafter : ∀ s ∈ after, s.WellFormed) :
    ReadsGap tail P (.block span before after) := by
  intro rest room c h hc hroom
  simp only [Stmt.Gap.yieldAfter, List.append_assoc, List.singleton_append] at h
  rw [Stmt.Gap.yieldBefore, ← List.append_nil (before.flatMap _)] at hc
  apply (succeeds_block_around_place hbefore hafter h hc hroom).mono
  rintro _ d fs ⟨⟨span', _, rfl, ss₁, x, ss₂, rfl, hsame₁, hsame₂, hP⟩, hnone, hd⟩
  refine ⟨⟨.block span' ss₁ ss₂, x, rfl, ?_, hP⟩, hnone, hd⟩
  rw [Stmt.Gap.withoutSpans, Stmt.Gap.withoutSpans, hsame₁, hsame₂]

theorem readsGap_inBlock (span : Span) {before after : List Stmt} {g : Stmt.Gap}
    (hbefore : ∀ s ∈ before, s.WellFormed) (hafter : ∀ s ∈ after, s.WellFormed)
    (hg : ReadsGap tail P g) : ReadsGap tail P (.inBlock span before g after) := by
  intro rest room c h hc hroom
  simp only [Stmt.Gap.yieldAfter, List.append_assoc, List.singleton_append] at h
  apply (succeeds_block_around_place hbefore hafter (hg.readsStatementAt h) hc hroom).mono
  rintro _ d fs ⟨⟨span', _, rfl, ss₁, _, ss₂, rfl, hsame₁, hsame₂, g', x, rfl, hg', hP⟩, hnone, hd⟩
  refine ⟨⟨.inBlock span' ss₁ g' ss₂, x, rfl, ?_, hP⟩, hnone, hd⟩
  rw [Stmt.Gap.withoutSpans, Stmt.Gap.withoutSpans, hsame₁, hsame₂, hg']

theorem readsGap_inWhile (span : Span) {e : Expr} {g : Stmt.Gap} (he : e.Readable)
    (hg : ReadsGap tail P g) : ReadsGap tail P (.inWhile span e g) := by
  intro rest room c h hc hroom
  have hf : ∀ n, statementOf (statementWithin n) n c = whileLoopOf (statementWithin n) c := by
    intro n
    rw [statementOf, look_bind, hc.kind_current]
    rfl
  apply succeeds_statement_of_condition he hf hc hroom
  intro n _ e' d he' hd hroom'
  apply succeeds_bind (hg h hd hroom')
  rintro _ d fs ⟨⟨g', x, rfl, hg', hP⟩, hnone, hd⟩
  rw [spanFrom_bind]
  refine succeeds_pure ⟨⟨.inWhile _ e' g', x, rfl, ?_, by rwa [List.append_nil]⟩, hnone, hd⟩
  rw [Stmt.Gap.withoutSpans, Stmt.Gap.withoutSpans, he', hg']

theorem readsGap_inThen (span : Span) {e : Expr} {g : Stmt.Gap} {u : Stmt} (he : e.Readable)
    (hu : u.WellFormed) (hg : ReadsGap tail P g) : ReadsGap tail P (.inThen span e g u) := by
  intro rest room c h hc hroom
  have hf : ∀ n, statementOf (statementWithin n) n c = ifElseOf (statementWithin n) c := by
    intro n
    rw [statementOf, look_bind, hc.kind_current]
    rfl
  apply succeeds_statement_of_condition he hf hc hroom
  intro n _ e' d he' hd hroom'
  have hshorter := h.shorter
  rw [Stmt.Gap.yieldAfter, List.append_assoc, List.cons_append] at h hshorter
  apply succeeds_bind (hg h hd hroom')
  rintro _ d' fs ⟨⟨g', x, rfl, hg', hP⟩, hnone, hd'⟩
  have hroom'' : (d'.drop 1).ahead.length ≤ n := by
    have heq := hd.length_eq
    have heq' := hd'.drop_one.length_eq
    simp only [List.length_append, List.length_cons, List.length_nil] at hshorter heq'
    omega
  have helse : (elseBranchOf (statementWithin n) d').Succeeds (StatementReadAs u rest) := by
    rw [elseBranchOf_apply hd'.kind_current]
    exact readsStatement u hu.readable n _ _ hd'.drop_one hroom''
  apply succeeds_bind helse
  rintro u' d fs' ⟨rfl, hu', hd⟩
  rw [spanFrom_bind]
  refine succeeds_pure ⟨⟨.inThen _ e' g' u', x, rfl, ?_, by simpa using hP⟩, ?_, hd⟩
  · rw [Stmt.Gap.withoutSpans, Stmt.Gap.withoutSpans, he', hg', hu']
  · rw [Stmt.recurs, hnone, hu.recurs_eq_nil hu']
    rfl

theorem readsGap_inElse (span : Span) {e : Expr} {t : Stmt} {g : Stmt.Gap} (he : e.Readable)
    (ht : t.WellFormed) (hg : ReadsGap tail P g) : ReadsGap tail P (.inElse span e t g) := by
  intro rest room c h hc hroom
  have hf : ∀ n, statementOf (statementWithin n) n c = ifElseOf (statementWithin n) c := by
    intro n
    rw [statementOf, look_bind, hc.kind_current]
    rfl
  apply succeeds_statement_of_condition he hf hc hroom
  intro n _ e' d he' hd hroom'
  apply succeeds_bind (passes_of_forall_succeeds hd
    (fun _ hs => readsStatement t ht.readable n d _ hs hroom') (ensures_statementWithin n d))
  rintro t' d' fs ⟨rfl, ht', hd'⟩
  have hroom'' : (d'.drop 1).ahead.length ≤ n := by
    have heq := hd.length_eq
    have heq' := hd'.drop_one.length_eq
    simp only [List.length_append, List.length_cons] at heq
    omega
  have helse : (elseBranchOf (statementWithin n) d').Succeeds fun s d fs =>
      g.FilledWith (P · fs) s ∧ s.recurs = [] ∧ d.Sees rest := by
    rw [elseBranchOf_apply hd'.kind_current]
    exact hg h hd'.drop_one hroom''
  apply succeeds_bind helse
  rintro _ d fs ⟨⟨g', x, rfl, hg', hP⟩, hnone, hd⟩
  rw [spanFrom_bind]
  refine succeeds_pure ⟨⟨.inElse _ e' t' g', x, rfl, ?_, by simpa using hP⟩, ?_, hd⟩
  · rw [Stmt.Gap.withoutSpans, Stmt.Gap.withoutSpans, he', hg', ht']
  · rw [Stmt.recurs, hnone, ht.recurs_eq_nil ht']
    rfl

/-- What is around a gap of a correct statement is read as before, one case for each way down. -/
theorem readsGap (g : Stmt.Gap) (hg : (g.fill []).WellFormed) : ReadsGap tail P g := by
  induction g with
  | block span before after =>
    obtain ⟨hbefore, hafter⟩ := List.forall_mem_append.1 hg.of_block
    exact readsGap_block span hbefore hafter
  | inBlock span before g after ih =>
    obtain ⟨hbefore, hafter⟩ := List.forall_mem_append.1 hg.of_block
    obtain ⟨hg, hafter⟩ := List.forall_mem_cons.1 hafter
    exact readsGap_inBlock span hbefore hafter (ih hg)
  | inThen span e g u ih =>
    obtain ⟨-, hg⟩ := List.forall_mem_cons.1 hg
    obtain ⟨he, hg⟩ := List.forall_mem_append.1 hg
    obtain ⟨hg, hu⟩ := List.forall_mem_append.1 hg
    exact readsGap_inThen span (fun n hn => (he n hn).readable) hu (ih hg)
  | inElse span e t g ih =>
    obtain ⟨-, hg⟩ := List.forall_mem_cons.1 hg
    obtain ⟨he, hg⟩ := List.forall_mem_append.1 hg
    obtain ⟨ht, hg⟩ := List.forall_mem_append.1 hg
    exact readsGap_inElse span (fun n hn => (he n hn).readable) ht (ih hg)
  | inWhile span e g ih =>
    obtain ⟨-, hg⟩ := List.forall_mem_cons.1 hg
    obtain ⟨he, hg⟩ := List.forall_mem_append.1 hg
    exact readsGap_inWhile span (fun n hn => (he n hn).readable) (ih hg)

/-! ## Methods, classes and programs with gaps -/

theorem succeeds_method_gap {g : Method.Gap} (hg : ∀ n ∈ (g.fill []).nodes, n.WellFormed)
    (h : ReadsStatementAt [] tail (g.yieldAfter ++ rest) P) (hc : c.Spells g.yieldBefore tail) :
    (method c).Succeeds fun m d fs => g.FilledWith (P · fs) m ∧ d.Sees rest := by
  obtain ⟨-, hg⟩ := List.forall_mem_cons.1 hg
  obtain ⟨-, hg⟩ := List.forall_mem_append.1 hg
  obtain ⟨-, hg⟩ := List.forall_mem_append.1 hg
  obtain ⟨hbody, hr⟩ := List.forall_mem_append.1 hg
  obtain ⟨hbefore, hbody⟩ := List.forall_mem_append.1 (List.forall_mem_flatMap.1 hbody)
  obtain ⟨hinner, hafter⟩ := List.forall_mem_cons.1 hbody
  simp only [Method.Gap.yieldAfter, List.append_assoc, List.singleton_append] at h
  refine (succeeds_method_of_body hc fun d hd => succeeds_methodBody_around_place hbefore hafter
    (fun n hn => (hr n hn).readable) (startsStatement_gap g.inner)
    (ReadsGap.readsStatementAt (readsGap g.inner hinner) h) hd).mono ?_
  rintro ⟨span, n, t, ps, vs, ss, r⟩ d fs ⟨hn, ht, hps, hvs, ⟨ss₁, _, ss₂, hss, hsame₁, hsame₂,
    g', x, rfl, hg', hP⟩, hr, hd⟩
  dsimp only at hn ht hps hvs hss hr
  subst hn ht hss
  refine ⟨⟨⟨span, g.name, g.returnType, ps, vs, ss₁, g', ss₂, r⟩, x, rfl, ?_, hP⟩, hd⟩
  rw [Method.Gap.withoutSpans, hps, hvs, hsame₁, hsame₂, hg', hr]
  rfl

/-- A method with a gap is one of the members of a class. -/
theorem readsMemberAt_gap {g : Method.Gap} (hg : ∀ n ∈ (g.fill []).nodes, n.WellFormed)
    (h : ReadsStatementAt [] tail (g.yieldAfter ++ rest) P) :
    ReadsMemberAt g.yieldBefore tail rest fun item fs =>
      ∃ m, item = some (.method m) ∧ g.FilledWith (P · fs) m := by
  have hshorter := h.shorter
  simp only [List.length_append, List.length_nil] at hshorter
  exact readsMemberAt_of_method (fun c hc => succeeds_method_gap hg h hc)
    (Nat.lt_of_lt_of_le (by omega) (Nat.le_add_left _ _))

theorem readsClassAt_gap {g : ClassDecl.Gap} (hg : ∀ n ∈ (g.fill []).nodes, n.WellFormed)
    (h : ReadsStatementAt [] tail (g.yieldAfter ++ rest) P) :
    ReadsClassAt g.yieldBefore tail rest fun k fs => g.FilledWith (P · fs) k := by
  obtain ⟨-, hg⟩ := List.forall_mem_cons.1 hg
  obtain ⟨-, hms⟩ := List.forall_mem_append.1 hg
  obtain ⟨hbefore, hms⟩ := List.forall_mem_append.1 (List.forall_mem_flatMap.1 hms)
  obtain ⟨hinner, hafter⟩ := List.forall_mem_cons.1 hms
  simp only [ClassDecl.Gap.yieldAfter, List.append_assoc, List.singleton_append] at h
  refine (readsClassAt_of_method hbefore hafter (readsMemberAt_gap hinner h)).mono ?_
  rintro ⟨span, n, s, vs, ms⟩ fs ⟨hn, hs, hvs, ms₁, _, ms₂, hms, hsame₁, hsame₂, g', x, rfl, hg', hP⟩
  dsimp only at hn hs hvs hms
  subst hn hs hms
  refine ⟨⟨span, g.name, g.superclass, vs, ms₁, g', ms₂⟩, x, rfl, ?_, hP⟩
  rw [ClassDecl.Gap.withoutSpans, ClassDecl.Gap.withoutSpans, hvs, hsame₁, hsame₂, hg']

/-- What is around a gap of a correct program is read as before. -/
theorem succeeds_program_gap {g : Program.Gap} (hg : (g.fill []).WellFormed)
    (h : ReadsStatementAt [] tail g.yieldAfter P) (hc : c.Spells g.yieldBefore tail) :
    ((program : Reader ε Program) c).Succeeds fun p _ fs => g.FilledWith (P · fs) p := by
  obtain ⟨-, hg⟩ := List.forall_mem_cons.1 hg
  obtain ⟨hmain, hks⟩ := List.forall_mem_append.1 hg
  rw [List.forall_mem_flatMap] at hks
  cases g with
  | inMain span mainSpan n a g ks =>
    refine (succeeds_program_around_main hks (ReadsGap.readsStatementAt (readsGap g hmain) h)
      hc).mono ?_
    rintro ⟨span', ⟨mainSpan', n', a', s⟩, ks'⟩ d fs ⟨hn, ha, ⟨g', x, hs, hg', hP⟩, hsame⟩
    dsimp only at hn ha hs hsame
    subst hn ha hs
    refine ⟨.inMain span' mainSpan' n' a' g' ks', x, rfl, ?_, hP⟩
    rw [Program.Gap.withoutSpans, hg', hsame]
    rfl
  | inClass span m before g after =>
    obtain ⟨hbefore, hks⟩ := List.forall_mem_append.1 hks
    obtain ⟨hinner, hafter⟩ := List.forall_mem_cons.1 hks
    refine (succeeds_program_around_class hmain hbefore hafter (readsClassAt_gap hinner h) hc).mono
      ?_
    rintro ⟨span', m', ks⟩ d fs ⟨hm, ks₁, _, ks₂, hks, hsame₁, hsame₂, g', x, rfl, hg', hP⟩
    dsimp only at hm hks
    subst hks
    refine ⟨.inClass span' m' ks₁ g' ks₂, x, rfl, ?_, hP⟩
    rw [Program.Gap.withoutSpans, hm, hsame₁, hsame₂, hg']
    rfl

end Parse

end MiniJava
