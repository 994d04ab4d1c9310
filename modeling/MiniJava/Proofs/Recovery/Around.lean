import MiniJava.Proofs.Grammar.Gaps
import MiniJava.Proofs.Program.Grammar
import MiniJava.Proofs.Recovery.Classes
import MiniJava.Proofs.Recovery.Members

/-!
# Reading around a place

Of one part of a text it is known what is read of it. Then it is known of the text: the parts before
it and the parts after it are read as usual, and the faults that are noted are those of this part.
There is one such rule for blocks, for methods, for classes and for programs. What lies ahead is
given as the terminals up to some place in the part, and the tokens from there on.
-/

namespace MiniJava

open Terminal

/-- Statements of which one satisfies `P`, and around it stand `before` and `after`, up to spans. -/
def StatementsAround (before after : List Stmt) (P : Stmt → Prop) (ss : List Stmt) : Prop :=
  ∃ ss₁ s ss₂, ss = ss₁ ++ s :: ss₂ ∧ ss₁.map Stmt.withoutSpans = before.map Stmt.withoutSpans ∧
    ss₂.map Stmt.withoutSpans = after.map Stmt.withoutSpans ∧ P s

/--
Where `zs` and `tail` lie ahead, a statement is read for which `P` holds with the faults that are
noted, and then `later` lies ahead. It holds no `recur`.
-/
structure ReadsStatementAt (zs : List Terminal) (tail : List Token) (later : List Terminal)
    (P : Stmt → List Fault → Prop) : Prop where
  more : ∀ c : Cursor, c.Spells zs tail → Parse.atListEnd c = false
  reads : ∀ {ε : Type} (room : Nat) (c : Cursor), c.Spells zs tail → c.ahead.length ≤ room →
    ((Parse.recovering (Parse.statementWithin room) : Reader ε Stmt) c).Succeeds fun s d fs =>
      P s fs ∧ s.recurs = [] ∧ d.Sees later
  shorter : later.length < zs.length + tail.length

namespace Parse

open Reader Reading

variable {ε : Type} {c : Cursor} {zs rest : List Terminal} {tail : List Token}
  {rounds room : Nat} {P : Stmt → List Fault → Prop}

/-! ## Blocks -/

/-- A statement is read by its first token, and what comes after that fits the room left. -/
theorem exists_statementOf_of_spells {y : Terminal} (hc : c.Spells (y :: zs) tail)
    (hroom : c.ahead.length ≤ room) :
    ∃ n, statementWithin room c = statementOf (statementWithin n) n c ∧
      zs.length + tail.length ≤ n := by
  have hlength := hc.length_eq
  rw [List.length_cons] at hlength
  obtain ⟨n, hstatement, hn⟩ := exists_statementOf (List.length_pos_iff.1 (by omega)) hroom
  exact ⟨n, hstatement, by omega⟩

/-- A statement with a condition is read up to the condition, and then on within the room left. -/
theorem succeeds_statement_of_condition {f : Nat → Token → Expr → Reader Fault Stmt}
    {Q : Result Stmt} {y : Terminal} {e : Expr} (he : e.Readable)
    (hf : ∀ n, statementOf (statementWithin n) n c =
      (advance >>= fun t => parenthesized >>= f n t) c)
    (hc : c.Spells (y :: word .leftParen :: (e.yield ++ word .rightParen :: zs)) tail)
    (hroom : c.ahead.length ≤ room)
    (h : ∀ n t e' d, e'.withoutSpans = e.withoutSpans → d.Spells zs tail → d.ahead.length ≤ n →
      (f n t e' d).Succeeds Q) : (statementWithin room c).Succeeds Q := by
  obtain ⟨n, hstatement, hn⟩ := exists_statementOf_of_spells hc hroom
  have hd := hc.drop_one
  have hpasses : (parenthesized (c.drop 1)).Passes
      (fun e' => e'.withoutSpans = e.withoutSpans) zs tail := by
    have hsees := hd.sees
    simp only [List.cons_append, List.append_assoc] at hsees
    exact passes_of_succeeds hd (succeeds_parenthesized he hsees) (ensures_parenthesized _)
  rw [hstatement, hf, advance_bind]
  apply succeeds_bind hpasses
  rintro e' d fs ⟨rfl, he', hd⟩
  refine h n _ e' d he' hd ?_
  rw [hd.length_eq]
  simp only [List.length_cons, List.length_append] at hn
  omega

/-- A statement among others is read at a place, and the others are read as usual. -/
theorem succeeds_manyStatements_around_place {before after : List Stmt}
    (hbefore : ∀ s ∈ before, s.WellFormed) (hafter : ∀ s ∈ after, s.WellFormed)
    (h : ReadsStatementAt zs tail (after.flatMap Stmt.yield ++ word .rightBrace :: rest) P)
    (hc : c.Spells (before.flatMap Stmt.yield ++ zs) tail) (hrounds : c.ahead.length ≤ rounds)
    (hroom : c.ahead.length ≤ room) :
    ((manyUntil atListEnd (recovering (statementWithin room)) rounds :
      Reader ε (List Stmt)) c).Succeeds fun ss d fs =>
        StatementsAround before after (P · fs) ss ∧ Stmt.recursList ss = [] ∧
          d.Sees (word .rightBrace :: rest) := by
  have hreads : ∀ s : Stmt, s.WellFormed → ∀ (d : Cursor) (ys : List Terminal),
      d.Sees (s.yield ++ ys) → d.ahead.length ≤ room →
      (statementWithin room d).Succeeds (StatementReadAs s ys) :=
    fun s hs d ys hd hlength => readsStatement s hs.readable room d ys hd hlength
  have hfront : ∀ s ∈ before, ∀ (d : Cursor) (ys : List Terminal),
      d.Sees (s.yield ++ ys) → d.ahead.length ≤ room → atListEnd d = false ∧
      ((recovering (statementWithin room) : Reader ε Stmt) d).Succeeds fun s' e fs =>
        fs = [] ∧ s'.withoutSpans = s.withoutSpans ∧ e.Sees ys := fun s hs d ys hd hlength =>
    ⟨atListEnd_of_statement (hbefore s hs).readable hd,
      succeeds_recovering (hreads s (hbefore s hs) d ys hd hlength)⟩
  have hreach : ∀ d : Cursor, ((recovering (statementWithin room) : Reader ε Stmt) d).Ensures d
      fun _ _ _ _ => True := fun d =>
    (ensures_recovering (ensures_statementWithin room) d).mono fun _ _ _ _ _ => trivial
  have hstop : ∀ d : Cursor, d.Sees (word .rightBrace :: rest) → atListEnd d = true := by
    intro d hd
    rw [atListEnd, hd.kind_current]
    rfl
  -- the statement at the place, and those after it
  have hrest : ∀ (rounds : Nat) (d : Cursor), d.Spells zs tail → d.ahead.length ≤ rounds →
      d.ahead.length ≤ room →
      ((manyUntil atListEnd (recovering (statementWithin room)) rounds :
        Reader ε (List Stmt)) d).Succeeds fun ss e fs =>
          StatementsAround [] after (P · fs) ss ∧ Stmt.recursList ss = [] ∧
            e.Sees (word .rightBrace :: rest) := by
    intro rounds d hd hrounds hlength
    have hshorter := h.shorter
    have heq := hd.length_eq
    cases rounds with
    | zero => omega
    | succ rounds =>
      rw [manyUntil, here_bind, h.more d hd]
      apply succeeds_bind (h.reads room d hd hlength)
      rintro s e fs ⟨hP, hs, he⟩
      have heq' := he.length_eq
      apply succeeds_map
      apply (succeeds_manyStatements (fun s hs => (hafter s hs).readable)
        (fun s hs => hreads s (hafter s hs)) hstop he (by omega : e.ahead.length ≤ rounds)
        (by omega)).mono
      rintro ss e' fs' ⟨rfl, hsame, he'⟩
      have hnone := Stmt.WellFormed.recursList_eq_nil hafter hsame
      rw [List.append_nil]
      exact ⟨⟨[], s, ss, rfl, rfl, hsame, hP⟩, by rw [Stmt.recursList, hs, hnone]; rfl, he'⟩
  apply (succeeds_manyUntil_front hfront (fun s hs => (hbefore s hs).readable.yield_ne_nil) hreach
    hrest hc hrounds hroom).mono
  rintro _ d fs ⟨ss₁, _, rfl, hsame₁, ⟨ss₂, s, ss₃, rfl, hnil, hsame₃, hP⟩, hnone, hd⟩
  obtain rfl : ss₂ = [] := List.map_eq_nil_iff.1 hnil
  have hsame : ss₁.map Stmt.withoutSpans = before.map Stmt.withoutSpans := map_eq_of_forall₂ hsame₁
  have hnone₁ := Stmt.WellFormed.recursList_eq_nil hbefore hsame
  refine ⟨⟨ss₁, s, ss₃, rfl, hsame, hsame₃, hP⟩, ?_, hd⟩
  rw [Stmt.recursList_eq] at hnone hnone₁ ⊢
  rw [List.flatMap_append, hnone, hnone₁]
  rfl

/-- A block with a place in it. -/
theorem succeeds_block_around_place {before after : List Stmt}
    (hbefore : ∀ s ∈ before, s.WellFormed) (hafter : ∀ s ∈ after, s.WellFormed)
    (h : ReadsStatementAt zs tail (after.flatMap Stmt.yield ++ word .rightBrace :: rest) P)
    (hc : c.Spells (word .leftBrace :: (before.flatMap Stmt.yield ++ zs)) tail)
    (hroom : c.ahead.length ≤ room) :
    (statementWithin room c).Succeeds fun s d fs =>
      (∃ span ss, s = .block span ss ∧ StatementsAround before after (P · fs) ss) ∧
        s.recurs = [] ∧ d.Sees rest := by
  obtain ⟨n, hstatement, hn⟩ := exists_statementOf_of_spells hc hroom
  have hd := hc.drop_one
  have hroom' : (c.drop 1).ahead.length ≤ n := hd.length_eq ▸ hn
  rw [hstatement, statementOf, look_bind, hc.kind_current]
  show (blockOf (statementWithin n) n c).Succeeds _
  rw [blockOf, advance_bind]
  apply succeeds_bind (succeeds_manyStatements_around_place hbefore hafter h hd hroom' hroom')
  rintro ss d fs ⟨hss, hnone, hd⟩
  apply succeeds_expect_bind hd
  intro _ d hd
  rw [spanFrom_bind]
  exact succeeds_pure ⟨⟨_, ss, rfl, by rwa [List.append_nil]⟩, hnone, hd⟩

/-! ## Methods -/

/-- The result of a method is read, and what stands before its last statements stays. -/
theorem succeeds_methodResult_after {r : MethodResult} {after body : List Stmt}
    (front : List Stmt) (hr : ∀ n ∈ r.nodes, n.Readable)
    (hbody : body.map Stmt.withoutSpans = (r.after after).map Stmt.withoutSpans)
    (hc : c.Sees (r.yieldAfter ++ word .rightBrace :: rest)) :
    ((methodResult (front ++ body) : Reader ε (List Stmt × MethodResult)) c).Succeeds
      fun br d fs => (∃ body', br.1 = front ++ body' ∧
        body'.map Stmt.withoutSpans = after.map Stmt.withoutSpans) ∧
          br.2.withoutSpans = r.withoutSpans ∧ fs = [] ∧ d.Sees (word .rightBrace :: rest) := by
  cases r with
  | returns s e =>
    apply (succeeds_methodResult_returns (s := s) hr (front ++ body) hc).mono
    rintro ⟨_, r'⟩ d fs ⟨rfl, hr', rfl, hd⟩
    exact ⟨⟨body, rfl, hbody⟩, hr', rfl, hd⟩
  | recurs q =>
    obtain ⟨init, q', rfl, hinit, hq⟩ := exists_of_shape_recur hbody
    rw [← List.append_assoc]
    apply (succeeds_methodResult_trailing (r := .recurs q') rfl hc).mono
    rintro _ d fs ⟨rfl, rfl, hd⟩
    exact ⟨⟨init, rfl, hinit⟩, by simp [MethodResult.withoutSpans, hq], rfl, hd⟩

/-- Neither a local variable nor a result is where `zs` and `tail` lie ahead. -/
def StartsStatement (zs : List Terminal) (tail : List Token) : Prop :=
  ∀ c : Cursor, c.Spells zs tail → atVariableDecl c = false ∧ atBodyEnd c = false

/-- The statement at the place is one of the items of a method. -/
theorem succeeds_bodyItem_at_place {later : List Terminal} (hstart : StartsStatement zs tail)
    (h : ReadsStatementAt zs tail later P) (seen : Bool) (hc : c.Spells zs tail) :
    ((bodyItem seen : Reader ε (Option BodyItem)) c).Succeeds fun item d fs =>
      d.ahead.length < c.ahead.length ∧
        (∃ s, item = some (.statement s) ∧ P s fs ∧ s.recurs = []) ∧ d.Sees later := by
  rw [bodyItem, here_bind, if_neg (by simp [(hstart c hc).1])]
  apply succeeds_bind (h.reads c.room c hc c.length_le_room)
  rintro s d fs ⟨hP, hs, hd⟩
  refine succeeds_pure ⟨?_, ⟨s, rfl, by rwa [List.append_nil], hs⟩, hd⟩
  rw [hd.length_eq, hc.length_eq]
  exact h.shorter

/-- The items of a method with a place among its statements. -/
theorem succeeds_bodyItems_around_place {vs : List Variable} {before after : List Stmt}
    {r : MethodResult} (hbefore : ∀ s ∈ before, s.WellFormed) (hafter : ∀ s ∈ after, s.WellFormed)
    (hr : ∀ n ∈ r.nodes, n.Readable) (hstart : StartsStatement zs tail)
    (h : ReadsStatementAt zs tail ((r.after after).flatMap Stmt.yield ++
      (r.yieldAfter ++ word .rightBrace :: rest)) P)
    (hc : c.Spells (vs.flatMap Variable.yieldDecl ++ (before.flatMap Stmt.yield ++ zs)) tail) :
    ((bodyItems : Reader ε (List BodyItem)) c).Succeeds fun items d fs =>
      (items.filterMap BodyItem.local?).map Variable.withoutSpans = vs.map Variable.withoutSpans ∧
      (∃ front s body, items.filterMap BodyItem.statement? = front ++ s :: body ∧
        front.map Stmt.withoutSpans = before.map Stmt.withoutSpans ∧
        body.map Stmt.withoutSpans = (r.after after).map Stmt.withoutSpans ∧ P s fs ∧
        s.recurs = []) ∧
      d.Sees (r.yieldAfter ++ word .rightBrace :: rest) := by
  have hrest : ∀ (n : Nat) (seen : Bool) (d : Cursor), d.Spells zs tail → d.ahead.length ≤ n →
      ((bodyItemsFrom n seen : Reader ε (List BodyItem)) d).Succeeds fun items e fs =>
        (∃ s items', items = .statement s :: items' ∧
          ItemsReadAs [] (r.after after) items' ∧ P s fs ∧ s.recurs = []) ∧
        e.Sees (r.yieldAfter ++ word .rightBrace :: rest) := by
    intro n seen d hd hn
    apply succeeds_manyFrom_item (hstart d hd).2 hn (succeeds_bodyItem_at_place hstart h seen hd)
    rintro n _ e fs hlength ⟨⟨s, rfl, hP, hs⟩, he⟩
    have hnone : ∀ b : Bool, b = true → ([] : List Variable) = [] := fun _ _ => rfl
    apply (succeeds_bodyItemsFrom (hnone _) (MethodResult.readable_after hr hafter)
      (fun _ => atBodyEnd_of_yieldAfter r) hlength he).mono
    rintro items e fs' ⟨hvs, hss, rfl, he⟩
    rw [List.append_nil]
    exact ⟨⟨s, items, rfl, ⟨hvs, hss⟩, hP, hs⟩, he⟩
  apply (succeeds_items_locals (fun n d hd hn => succeeds_items_statements hbefore hrest hd hn)
    hc c.length_le_room).mono
  rintro _ d fs ⟨items₁, _, rfl, hlocals, items₂, _, rfl, hfront,
    ⟨s, items₃, rfl, hbody, hP, hs⟩, hd⟩
  have hnone₁ : items₁.filterMap BodyItem.statement? = [] :=
    List.map_eq_nil_iff.1 hlocals.statements
  have hnone₂ : items₂.filterMap BodyItem.local? = [] := List.map_eq_nil_iff.1 hfront.locals
  have hnone₃ : items₃.filterMap BodyItem.local? = [] := List.map_eq_nil_iff.1 hbody.locals
  refine ⟨?_, ⟨items₂.filterMap BodyItem.statement?, s, items₃.filterMap BodyItem.statement?,
    ?_, hfront.statements, hbody.statements, hP, hs⟩, hd⟩
  · rw [List.filterMap_append, List.filterMap_append, List.filterMap_cons_none rfl, hnone₂, hnone₃,
      List.append_nil, List.append_nil]
    exact hlocals.locals
  · simp [hnone₁, BodyItem.statement?]

/-- What follows the head of a method, with a place among its statements. -/
theorem succeeds_methodBody_around_place {vs : List Variable} {before after : List Stmt}
    {r : MethodResult} (hbefore : ∀ s ∈ before, s.WellFormed) (hafter : ∀ s ∈ after, s.WellFormed)
    (hr : ∀ n ∈ r.nodes, n.Readable) (hstart : StartsStatement zs tail)
    (h : ReadsStatementAt zs tail
      (after.flatMap Stmt.yield ++ (r.yield ++ word .rightBrace :: rest)) P)
    (hc : c.Spells (vs.flatMap Variable.yieldDecl ++ (before.flatMap Stmt.yield ++ zs)) tail) :
    ((methodBody : Reader ε (List Variable × List Stmt × MethodResult)) c).Succeeds fun b d fs =>
      b.1.map Variable.withoutSpans = vs.map Variable.withoutSpans ∧
        StatementsAround before after (P · fs) b.2.1 ∧ b.2.2.withoutSpans = r.withoutSpans ∧
          d.Sees rest := by
  rw [← List.append_assoc, ← MethodResult.flatMap_after, List.append_assoc] at h
  apply succeeds_bind (succeeds_bodyItems_around_place hbefore hafter hr hstart h hc)
  rintro items d fs ⟨hlocals, ⟨front, s, body, hitems, hfront, hbody, hP, hs⟩, hd⟩
  have hsplit : items.filterMap BodyItem.statement? = (front ++ [s]) ++ body := by
    rw [hitems, List.append_assoc, List.singleton_append]
  rw [hsplit]
  apply succeeds_bind (succeeds_methodResult_after (front ++ [s]) hr hbody hd)
  rintro ⟨_, r'⟩ d fs' ⟨⟨body', rfl, hbody'⟩, hr', rfl, hd⟩
  have hquiet : Quiet ((front ++ [s]) ++ body') :=
    ((quiet_of_shape hbefore hfront).append (List.forall_mem_singleton.2 hs)).append
      (quiet_of_shape hafter hbody')
  refine succeeds_afterResult_bind hd (succeeds_expectOrReport_bind hd fun d hd => ?_)
  apply succeeds_bind (succeeds_reportRecurs _ d)
  rintro _ _ _ ⟨rfl, rfl⟩
  rw [hquiet.recursList_eq_nil]
  refine succeeds_pure ⟨hlocals, ?_, hr', hd⟩
  exact ⟨front, s, body', by simp, hfront, hbody', by simpa [misplacedRecurs]⟩

/-- The head of a method is read, and then what follows it. -/
theorem succeeds_method_of_body {n : String} {t : TypeName} {ps : List Variable}
    {R : Result (List Variable × List Stmt × MethodResult)}
    (hc : c.Spells (Method.yieldHead t n ps ++ zs) tail)
    (hbody : ∀ d : Cursor, d.Spells zs tail →
      ((methodBody : Reader Fault (List Variable × List Stmt × MethodResult)) d).Succeeds R) :
    (method c).Succeeds fun m d fs => m.name = n ∧ m.returnType = t ∧
      m.params.map Variable.withoutSpans = ps.map Variable.withoutSpans ∧
        R (m.locals, m.body, m.result) d fs := by
  simp only [Method.yieldHead, List.cons_append, List.append_assoc, List.nil_append] at hc
  apply succeeds_expect_bind_of_spells rfl hc
  intro _ d hd
  apply succeeds_bind (passes_of_forall_succeeds hd (fun _ hs => succeeds_typeName hs)
    (ensures_typeName d))
  rintro t' d fs ⟨rfl, ht, hd⟩
  refine succeeds_expectName_bind_of_spells hd fun d hd => ?_
  apply succeeds_expect_bind_of_spells rfl hd
  intro _ d hd
  apply succeeds_bind (passes_of_forall_succeeds hd (fun _ hs => succeeds_parameters hs)
    (ensures_parameters d))
  rintro ps' d fs ⟨rfl, hps, hd⟩
  apply succeeds_expect_bind_of_spells rfl hd
  intro _ d hd
  apply succeeds_expect_bind_of_spells rfl hd
  intro _ d hd
  apply succeeds_bind (hbody d hd)
  rintro ⟨vs, ss, r⟩ d fs hR
  dsimp only
  rw [spanFrom_bind]
  exact succeeds_pure ⟨rfl, ht, hps, by rwa [List.append_nil]⟩

/-! ## Classes -/

/-- The head of a class is read, and then its members. -/
theorem succeeds_classDecl_of_members {n : String} {s : Option String}
    {R : List Member → List Fault → Prop} (hc : c.Spells (ClassDecl.yieldHead n s ++ zs) tail)
    (hmembers : ∀ d : Cursor, d.Spells zs tail →
      ((members : Reader Fault (List Member)) d).Succeeds fun items e fs =>
        R items fs ∧ e.Sees (word .rightBrace :: rest)) :
    (classDecl c).Succeeds fun k d fs => (k.name = n ∧ k.superclass = s ∧
      ∃ items, k.fields = items.filterMap Member.field? ∧
        k.methods = items.filterMap Member.method? ∧ R items fs) ∧ d.Sees rest := by
  simp only [ClassDecl.yieldHead, List.cons_append, List.append_assoc, List.nil_append] at hc
  apply succeeds_expect_bind_of_spells rfl hc
  intro _ d hd
  refine succeeds_expectName_bind_of_spells hd fun d hd => ?_
  apply succeeds_bind (passes_of_forall_succeeds hd (fun _ hs => succeeds_superclass hs)
    (ensures_superclass d))
  rintro s' d fs ⟨rfl, hs, hd⟩
  apply succeeds_expect_bind_of_spells rfl hd
  intro _ d hd
  apply succeeds_bind (hmembers d hd)
  rintro items d fs ⟨hR, hd⟩
  apply succeeds_expectOrReport_bind hd
  intro d hd
  rw [spanFrom_bind]
  exact succeeds_pure ⟨⟨rfl, hs, items, rfl, rfl, by rwa [List.append_nil]⟩, hd⟩

/-- What is read at a place among members: one of them or none, and `P` holds with the faults. -/
structure ReadsMemberAt (zs : List Terminal) (tail : List Token) (later : List Terminal)
    (P : Option Member → List Fault → Prop) : Prop where
  more : ∀ c : Cursor, c.Spells zs tail → atMembersEnd c = false
  reads : ∀ {ε : Type} (seen : Bool) (c : Cursor), c.Spells zs tail →
    ((member seen : Reader ε (Option Member)) c).Succeeds fun item d fs =>
      P item fs ∧ d.Sees later
  shorter : later.length < zs.length + tail.length

/-- A method that is read at a place among members is one of them. -/
theorem readsMemberAt_of_method {later : List Terminal} {P : Method → List Fault → Prop}
    (hmethod : ∀ c : Cursor, c.Spells (word .publicKw :: zs) tail →
      (method c).Succeeds fun m d fs => P m fs ∧ d.Sees later)
    (hshorter : later.length < (word .publicKw :: zs).length + tail.length) :
    ReadsMemberAt (word .publicKw :: zs) tail later fun item fs =>
      ∃ m, item = some (.method m) ∧ P m fs where
  more c hc := by
    rw [atMembersEnd, hc.kind_current]
    rfl
  reads seen c hc := by
    have hk : c.current.kind = .publicKw := hc.kind_current
    rw [member, here_bind, if_pos hk]
    apply succeeds_rescue
    apply succeeds_bind (hmethod c hc)
    rintro m d fs ⟨hm, hd⟩
    exact succeeds_pure ⟨⟨m, rfl, by rwa [List.append_nil]⟩, hd⟩
  shorter := hshorter

/-- Members of which one, or none, was read at a place, and the others around it. -/
def MembersAround (vs₁ vs₂ : List Variable) (ms₁ ms₂ : List Method) (P : Option Member → Prop)
    (items : List Member) : Prop :=
  ∃ items₁ item items₂, items = items₁ ++ (item.toList ++ items₂) ∧
    MembersReadAs vs₁ ms₁ items₁ ∧ MembersReadAs vs₂ ms₂ items₂ ∧ P item

section Members

variable {vs₁ vs₂ : List Variable} {ms₁ ms₂ : List Method}
  {P : Option Member → List Fault → Prop}

/-- What is read at the place, and the members after it. -/
theorem succeeds_membersFrom_at_place {seen : Bool} (hms₂ : ∀ m ∈ ms₂, ∀ n ∈ m.nodes, n.WellFormed)
    (hseen : seen = true → vs₂ = []) (hlast : ∀ item fs, P item fs → item = none ∨ vs₂ = [])
    (h : ReadsMemberAt zs tail
      (vs₂.flatMap Variable.yieldDecl ++ (ms₂.flatMap Method.yield ++ word .rightBrace :: rest)) P)
    (hc : c.Spells zs tail) (hrounds : c.ahead.length ≤ rounds) :
    ((membersFrom rounds seen : Reader ε (List Member)) c).Succeeds fun items d fs =>
      MembersAround [] vs₂ [] ms₂ (P · fs) items ∧ d.Sees (word .rightBrace :: rest) := by
  have hitem : ((member seen : Reader ε (Option Member)) c).Succeeds fun item d fs =>
      d.ahead.length < c.ahead.length ∧ P item fs ∧
        d.Sees (vs₂.flatMap Variable.yieldDecl ++
          (ms₂.flatMap Method.yield ++ word .rightBrace :: rest)) := by
    apply (h.reads seen c hc).mono
    rintro item d fs ⟨hP, hd⟩
    refine ⟨?_, hP, hd⟩
    rw [hd.length_eq, hc.length_eq]
    exact h.shorter
  apply succeeds_manyFrom_item (h.more c hc) hrounds hitem
  rintro n item d fs hn ⟨hP, hd⟩
  have hseen' : item.elim seen (fun m => seen || m.method?.isSome) = true → vs₂ = [] := by
    rcases hlast item fs hP with rfl | hnil
    · exact hseen
    · exact fun _ => hnil
  apply (succeeds_membersFrom_after hseen' hms₂ hn hd).mono
  rintro items e fs' ⟨hread, rfl, he⟩
  rw [List.append_nil]
  exact ⟨⟨[], item, items, rfl, ⟨rfl, rfl⟩, hread, hP⟩, he⟩

theorem MembersAround.append {items items' : List Member} {vs : List Variable} {ms : List Method}
    {A : Option Member → Prop} (hfront : MembersReadAs vs ms items)
    (h : MembersAround vs₁ vs₂ ms₁ ms₂ A items') :
    MembersAround (vs ++ vs₁) vs₂ (ms ++ ms₁) ms₂ A (items ++ items') := by
  obtain ⟨items₁, item, items₂, rfl, hread₁, hread₂, hA⟩ := h
  exact ⟨items ++ items₁, item, items₂, (List.append_assoc _ _ _).symm, hfront.append hread₁,
    hread₂, hA⟩

/-- The members of a class with a place among them, before the methods or after the fields. -/
theorem succeeds_members_around_place (hms₁ : ∀ m ∈ ms₁, ∀ n ∈ m.nodes, n.WellFormed)
    (hms₂ : ∀ m ∈ ms₂, ∀ n ∈ m.nodes, n.WellFormed) (horder : ms₁ = [] ∨ vs₂ = [])
    (hlast : ∀ item fs, P item fs → item = none ∨ vs₂ = [])
    (h : ReadsMemberAt zs tail
      (vs₂.flatMap Variable.yieldDecl ++ (ms₂.flatMap Method.yield ++ word .rightBrace :: rest)) P)
    (hc : c.Spells (vs₁.flatMap Variable.yieldDecl ++ (ms₁.flatMap Method.yield ++ zs)) tail) :
    ((members : Reader ε (List Member)) c).Succeeds fun items d fs =>
      MembersAround vs₁ vs₂ ms₁ ms₂ (P · fs) items ∧ d.Sees (word .rightBrace :: rest) := by
  have hrest : ∀ (n : Nat) (d : Cursor), d.Spells (ms₁.flatMap Method.yield ++ zs) tail →
      d.ahead.length ≤ n → ((membersFrom n false : Reader ε (List Member)) d).Succeeds
        fun items e fs => MembersAround [] vs₂ ms₁ ms₂ (P · fs) items ∧
          e.Sees (word .rightBrace :: rest) := by
    intro n d hd hn
    rcases horder with rfl | hnil
    · exact succeeds_membersFrom_at_place hms₂ nofun hlast h hd hn
    · apply (succeeds_members_methods hms₁ (fun n seen e he hn =>
        succeeds_membersFrom_at_place hms₂ (fun _ => hnil) hlast h he hn) hd hn).mono
      rintro _ e fs ⟨items₁, items₂, rfl, hread, haround, he⟩
      have hall := MembersAround.append hread haround
      rw [List.append_nil ms₁] at hall
      exact ⟨hall, he⟩
  apply (succeeds_members_fields hrest hc c.length_le_room).mono
  rintro _ d fs ⟨items₁, items₂, rfl, hread, haround, hd⟩
  have hall := MembersAround.append hread haround
  rw [List.append_nil vs₁] at hall
  exact ⟨hall, hd⟩

end Members

/-! ## Programs -/

/-- What is read of a class with a place in it, for which `P` holds with the faults. -/
structure ReadsClassAt (zs : List Terminal) (tail : List Token) (later : List Terminal)
    (P : ClassDecl → List Fault → Prop) : Prop where
  kind : ∀ c : Cursor, c.Spells zs tail → c.current.kind = .classKw
  reads : ∀ c : Cursor, c.Spells zs tail →
    (classDecl c).Succeeds fun k d fs => P k fs ∧ d.Sees later
  shorter : later.length < zs.length + tail.length

theorem ReadsClassAt.mono {later : List Terminal} {P Q : ClassDecl → List Fault → Prop}
    (h : ReadsClassAt zs tail later P) (hPQ : ∀ k fs, P k fs → Q k fs) :
    ReadsClassAt zs tail later Q :=
  ⟨h.kind, fun c hc => (h.reads c hc).mono fun k _ fs hk => ⟨hPQ k fs hk.1, hk.2⟩, h.shorter⟩

/--
A class in which a method satisfies `P`. What is before this method and what is after it is as
given, up to spans.
-/
def ClassAround (n : String) (s : Option String) (vs : List Variable) (before after : List Method)
    (P : Method → Prop) (k : ClassDecl) : Prop :=
  k.name = n ∧ k.superclass = s ∧
    k.fields.map Variable.withoutSpans = vs.map Variable.withoutSpans ∧
    ∃ ms₁ m ms₂, k.methods = ms₁ ++ m :: ms₂ ∧
      ms₁.map Method.withoutSpans = before.map Method.withoutSpans ∧
      ms₂.map Method.withoutSpans = after.map Method.withoutSpans ∧ P m

/-- A method of a class is read at a place, and what is around it as usual. -/
theorem readsClassAt_of_method {n : String} {s : Option String} {vs : List Variable}
    {before after : List Method} {P : Method → List Fault → Prop}
    (hbefore : ∀ m ∈ before, ∀ n ∈ m.nodes, n.WellFormed)
    (hafter : ∀ m ∈ after, ∀ n ∈ m.nodes, n.WellFormed)
    (h : ReadsMemberAt zs tail (after.flatMap Method.yield ++ word .rightBrace :: rest)
      fun item fs => ∃ m, item = some (.method m) ∧ P m fs) :
    ReadsClassAt (ClassDecl.yieldHead n s ++ (vs.flatMap Variable.yieldDecl ++
      (before.flatMap Method.yield ++ zs))) tail rest
      fun k fs => ClassAround n s vs before after (P · fs) k where
  kind c hc := hc.kind_current
  reads c hc := by
    have hmember : ReadsMemberAt zs tail (([] : List Variable).flatMap Variable.yieldDecl ++
        (after.flatMap Method.yield ++ word .rightBrace :: rest))
        fun item fs => ∃ m, item = some (.method m) ∧ P m fs := h
    refine (succeeds_classDecl_of_members hc fun d hd => succeeds_members_around_place hbefore
      hafter (.inr rfl) (fun _ _ _ => .inr rfl) hmember hd).mono ?_
    rintro k d fs ⟨⟨hn, hs, _, hvs, hms, items₁, _, items₂, rfl, hread₁, hread₂, m, rfl, hP⟩, hd⟩
    have hnone : items₂.filterMap Member.field? = [] := List.map_eq_nil_iff.1 hread₂.fields
    refine ⟨⟨hn, hs, ?_, items₁.filterMap Member.method?, m, items₂.filterMap Member.method?, ?_,
      hread₁.methods, hread₂.methods, hP⟩, hd⟩
    · rw [hvs, List.filterMap_append, List.filterMap_append, hnone, List.append_nil,
        ← hread₁.fields]
      exact congrArg _ (List.append_nil _)
    · rw [hms, List.filterMap_append]
      rfl
  shorter := by
    have hshorter := h.shorter
    simp only [List.length_append, List.length_cons] at hshorter ⊢
    omega

/-- Classes of which one satisfies `P`, and around it stand `before` and `after`, up to spans. -/
def ClassesAround (before after : List ClassDecl) (P : ClassDecl → Prop) (ks : List ClassDecl) :
    Prop :=
  ∃ ks₁ k ks₂, ks = ks₁ ++ k :: ks₂ ∧
    ks₁.map ClassDecl.withoutSpans = before.map ClassDecl.withoutSpans ∧
    ks₂.map ClassDecl.withoutSpans = after.map ClassDecl.withoutSpans ∧ P k

section Classes

variable {before after : List ClassDecl} {P : ClassDecl → List Fault → Prop}

theorem succeeds_topLevelItem_at_place {later : List Terminal} (h : ReadsClassAt zs tail later P)
    (hc : c.Spells zs tail) :
    ((topLevelItem : Reader ε (Option ClassDecl)) c).Succeeds fun r d fs =>
      d.ahead.length < c.ahead.length ∧ (∃ k, r = some k ∧ P k fs) ∧ d.Sees later := by
  rw [topLevelItem, here_bind, if_pos (h.kind c hc)]
  apply succeeds_rescue
  apply succeeds_bind (h.reads c hc)
  rintro k d fs ⟨hP, hd⟩
  refine succeeds_pure ⟨?_, ⟨k, rfl, by rwa [List.append_nil]⟩, hd⟩
  rw [hd.length_eq, hc.length_eq]
  exact h.shorter

theorem succeeds_classes_around_place (hbefore : ∀ k ∈ before, ∀ n ∈ k.nodes, n.WellFormed)
    (hafter : ∀ k ∈ after, ∀ n ∈ k.nodes, n.WellFormed)
    (h : ReadsClassAt zs tail (after.flatMap ClassDecl.yield) P)
    (hc : c.Spells (before.flatMap ClassDecl.yield ++ zs) tail)
    (hrounds : c.ahead.length ≤ rounds) :
    ((manyFrom atEnd (fun _ : Unit => topLevelItem) (fun s _ => s) rounds () :
      Reader ε (List ClassDecl)) c).Succeeds fun ks _ fs =>
        ClassesAround before after (P · fs) ks := by
  have hreach : ∀ (_ : Unit) (d : Cursor), ((topLevelItem : Reader ε (Option ClassDecl)) d).Ensures
      d fun _ _ _ _ => True := fun _ d => (ensures_topLevelItem d).mono fun _ _ _ _ _ => trivial
  have hrest : ∀ (n : Nat) (d : Cursor), d.Spells zs tail → d.ahead.length ≤ n →
      ((manyFrom atEnd (fun _ : Unit => topLevelItem) (fun s _ => s) n () :
        Reader ε (List ClassDecl)) d).Succeeds fun ks _ fs =>
          ClassesAround [] after (P · fs) ks := by
    intro n d hd hn
    have hmore : atEnd d = false := by
      rw [atEnd, h.kind d hd]
      rfl
    refine succeeds_manyFrom_item hmore hn (succeeds_topLevelItem_at_place h hd) ?_
    rintro n _ e fs hlength ⟨⟨k, rfl, hP⟩, he⟩
    apply (succeeds_classes (fun q hq n hn => (hafter q hq n hn).readable) he hlength).mono
    rintro ks e fs' ⟨hsame, rfl, -⟩
    rw [misplacedRecurs_classes_eq_nil hafter hsame, List.append_nil]
    exact ⟨[], k, ks, rfl, rfl, hsame, hP⟩
  apply (succeeds_manyFrom_front (I := fun _ => True)
    (fun q hq _ _ _ _ hd _ => succeeds_topLevelItem_correct (hbefore q hq) hd)
    (fun _ _ => by rintro ⟨⟩) (fun _ _ _ _ _ _ => trivial) hreach
    (fun n _ d _ hd hn _ => hrest n d hd hn) trivial hc hrounds hrounds).mono
  rintro _ d fs ⟨ks₁, _, rfl, hsame₁, ks₂, k, ks₃, rfl, hnil, hsame₃, hP⟩
  obtain rfl : ks₂ = [] := List.map_eq_nil_iff.1 hnil
  exact ⟨ks₁, k, ks₃, rfl, map_eq_of_forall₂ hsame₁, hsame₃, hP⟩

/-- A program with a place in one of the classes after the main class. -/
theorem succeeds_program_around_class {m : MainClass} (hm : m.body.WellFormed)
    (hbefore : ∀ k ∈ before, ∀ n ∈ k.nodes, n.WellFormed)
    (hafter : ∀ k ∈ after, ∀ n ∈ k.nodes, n.WellFormed)
    (h : ReadsClassAt zs tail (after.flatMap ClassDecl.yield) P)
    (hc : c.Spells (m.yield ++ (before.flatMap ClassDecl.yield ++ zs)) tail) :
    ((program : Reader ε Program) c).Succeeds fun p _ fs =>
      p.main.withoutSpans = m.withoutSpans ∧ ClassesAround before after (P · fs) p.classes := by
  have hmain : ((mainClassRecovering : Reader ε MainClass) c).Passes
      (fun m' => m'.withoutSpans = m.withoutSpans) (before.flatMap ClassDecl.yield ++ zs) tail := by
    refine passes_of_forall_succeeds hc (fun ys hs => ?_) (ensures_mainClassRecovering c)
    rw [mainClassRecovering, look_bind]
    apply succeeds_rescue
    apply (succeeds_mainClass hm.readable hs).mono
    rintro m' d fs ⟨hm', rfl, hd⟩
    exact ⟨misplacedRecurs_main_eq_nil hm hm', hm', hd⟩
  rw [program, look_bind]
  apply succeeds_bind hmain
  rintro m' d fs ⟨rfl, hm', hd⟩
  apply succeeds_bind
    (succeeds_classes_around_place hbefore hafter h hd d.length_le_room)
  rintro ks d fs hks
  rw [spanFrom_bind]
  exact succeeds_pure ⟨hm', by simpa using hks⟩

end Classes

/-- The body of the main method is a statement with a place in it. -/
theorem succeeds_mainBody_at_place (start : Nat)
    (h : ReadsStatementAt zs tail (word .rightBrace :: word .rightBrace :: rest) P)
    (hc : c.Spells zs tail) :
    ((mainBody start : Reader ε Stmt) c).Succeeds fun s d fs => P s fs ∧ d.Sees rest := by
  have hstatements : ((statements : Reader ε (List Stmt)) c).Succeeds fun ss d fs =>
      (∃ s, ss = [s] ∧ P s fs ∧ s.recurs = []) ∧
        d.Sees (word .rightBrace :: word .rightBrace :: rest) := by
    obtain ⟨n, hn⟩ : ∃ n, c.room = n + 1 := by
      have hshorter := h.shorter
      rw [← hc.length_eq, ← c.room_eq] at hshorter
      exact Nat.exists_eq_succ_of_ne_zero (by omega)
    show (manyUntil atListEnd (recovering statement) c.room c).Succeeds _
    rw [hn, manyUntil, here_bind, h.more c hc]
    apply succeeds_bind (h.reads c.room c hc c.length_le_room)
    rintro s d fs ⟨hP, hs, hd⟩
    have hstop : atListEnd d = true := by
      rw [atListEnd, hd.kind_current]
      rfl
    refine succeeds_map ?_
    rw [manyUntil_eq_manyFrom]
    exact succeeds_manyFrom_stop hstop ⟨⟨s, rfl, by rwa [List.append_nil], hs⟩, hd⟩
  apply succeeds_bind hstatements
  rintro _ d fs ⟨⟨s, rfl, hP, hs⟩, hd⟩
  apply succeeds_expectOrReport_bind hd
  intro d hd
  rw [spanFrom_bind]
  apply succeeds_expectOrReport_bind hd
  intro d hd
  rw [oneStatement, pure_bind]
  apply succeeds_bind (succeeds_reportRecurs _ d)
  rintro _ _ _ ⟨rfl, rfl⟩
  rw [hs]
  exact succeeds_pure ⟨by simpa [misplacedRecurs] using hP, hd⟩

/-- A program with a place in the main class. -/
theorem succeeds_program_around_main {n a : String} {ks : List ClassDecl}
    (hks : ∀ k ∈ ks, ∀ n ∈ k.nodes, n.WellFormed)
    (h : ReadsStatementAt zs tail
      (word .rightBrace :: word .rightBrace :: ks.flatMap ClassDecl.yield) P)
    (hc : c.Spells (word .classKw :: (MainClass.yieldHead n a ++ word .leftBrace :: zs)) tail) :
    ((program : Reader ε Program) c).Succeeds fun p _ fs =>
      p.main.name = n ∧ p.main.argsName = a ∧ P p.main.body fs ∧
        p.classes.map ClassDecl.withoutSpans = ks.map ClassDecl.withoutSpans := by
  have hmain : (mainClass c).Succeeds fun m d fs =>
      (m.name = n ∧ m.argsName = a ∧ P m.body fs) ∧ d.Sees (ks.flatMap ClassDecl.yield) := by
    apply succeeds_expect_bind_of_spells rfl hc
    intro _ d hd
    apply succeeds_bind (passes_of_forall_succeeds hd (fun _ hs => succeeds_mainHead hs)
      (ensures_mainHead d))
    rintro _ d fs ⟨rfl, rfl, hd⟩
    apply succeeds_expect_bind_of_spells rfl hd
    intro _ d hd
    apply succeeds_bind (succeeds_mainBody_at_place _ h hd)
    rintro s d fs ⟨hP, hd⟩
    rw [spanFrom_bind]
    exact succeeds_pure ⟨⟨rfl, rfl, by rwa [List.append_nil]⟩, hd⟩
  have hrecovering : ((mainClassRecovering : Reader ε MainClass) c).Succeeds fun m d fs =>
      (m.name = n ∧ m.argsName = a ∧ P m.body fs) ∧ d.Sees (ks.flatMap ClassDecl.yield) := by
    rw [mainClassRecovering, look_bind]
    exact succeeds_rescue hmain
  rw [program, look_bind]
  apply succeeds_bind hrecovering
  rintro m d fs ⟨⟨hn, ha, hP⟩, hd⟩
  have hreadable := fun k hk n hn => (hks k hk n hn).readable
  apply succeeds_bind (succeeds_classes hreadable hd d.length_le_room)
  rintro ks' d fs' ⟨hsame, rfl, -⟩
  rw [misplacedRecurs_classes_eq_nil hks hsame, spanFrom_bind]
  exact succeeds_pure ⟨hn, ha, by simpa using hP, hsame⟩

end Parse

/-- Up to a place, a text has the tokens of one without faults, and `tail` comes after them. -/
theorem spells_of_inserted {source source' : String} {before tail : List Token}
    {ys zs later : List Terminal} (hclean : (parse source).diagnostics = [])
    (hyield : (parse source).tree.yield = ys ++ zs)
    (hsource : terminalsOf source = before.map Token.terminal ++ later)
    (hplace : before.map Token.terminal = ys)
    (htokens : (tokenize source').tokens = before ++ tail) :
    (parse source).tree.WellFormed ∧ zs = later ∧ (startOf source').Spells ys tail := by
  obtain ⟨-, hfaults⟩ := diagnostics_analyze_eq_nil_iff.1 hclean
  obtain ⟨hwell, hall⟩ := wellFormed_of_faults_program hfaults
  rw [hyield, hsource, hplace] at hall
  have hahead := (Cursor.ahead_startOf source').trans htokens
  exact ⟨hwell, List.append_cancel_left hall, startOf_regular source', before, hahead, hplace⟩

end MiniJava
