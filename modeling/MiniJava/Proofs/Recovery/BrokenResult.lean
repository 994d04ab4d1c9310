import MiniJava.Proofs.Recovery.BrokenMember
import MiniJava.Proofs.Recovery.Insertion

/-!
# Broken results of methods

The tokens of the result of a method are replaced by others that start like a result but are none.
A broken `return` is given up where the result is read. A broken `recur` is one of the statements
first, and at the end of the method the error that is left of it becomes the result. Either way one
fault is reported, and the program is read as before but for this result.
-/

namespace MiniJava

open Terminal

/-! ## Places of results -/

/-- The terminals of a method before its result. -/
def Method.yieldBeforeResult (m : Method) : List Terminal :=
  yieldHead m.returnType m.name m.params ++
    (m.locals.flatMap Variable.yieldDecl ++ m.body.flatMap Stmt.yield)

/-- A method among those of a class. -/
structure ClassDecl.MethodPlace (k : ClassDecl) where
  before : List Method
  method : Method
  after : List Method
  methods_eq : k.methods = before ++ method :: after

namespace ClassDecl.MethodPlace

variable {k : ClassDecl} (place : k.MethodPlace)

/-- The class with another result of the method. -/
def withResult (r : MethodResult) : ClassDecl :=
  { k with methods := place.before ++ { place.method with result := r } :: place.after }

/-- The terminals of the class before the result of the method. -/
def yieldBefore : List Terminal :=
  yieldHead k.name k.superclass ++ (k.fields.flatMap Variable.yieldDecl ++
    (place.before.flatMap Method.yield ++ place.method.yieldBeforeResult))

/-- The terminals of the class after the result of the method. -/
def yieldAfter : List Terminal :=
  word .rightBrace :: (place.after.flatMap Method.yield ++ [word .rightBrace])

theorem yield_eq :
    k.yield = place.yieldBefore ++ (place.method.result.yield ++ place.yieldAfter) := by
  simp [ClassDecl.yield, yieldBefore, yieldAfter, yieldHead, Method.yield,
    Method.yieldBeforeResult, Method.yieldHead, place.methods_eq]

theorem withoutSpans_withResult {r r' : MethodResult} (h : r.withoutSpans = r'.withoutSpans) :
    (place.withResult r).withoutSpans = (place.withResult r').withoutSpans := by
  simp [withResult, ClassDecl.withoutSpans, Method.withoutSpans, h]

end ClassDecl.MethodPlace

/-- A method of one of the classes after the main class. -/
structure Program.MethodPlace (p : Program) where
  before : List ClassDecl
  owner : ClassDecl
  after : List ClassDecl
  classes_eq : p.classes = before ++ owner :: after
  inner : owner.MethodPlace

namespace Program.MethodPlace

variable {p : Program} (place : p.MethodPlace)

/-- The program with another result of the method. -/
def withResult (r : MethodResult) : Program :=
  { p with classes := place.before ++ place.inner.withResult r :: place.after }

/-- The terminals of the program before the result of the method. -/
def yieldBefore : List Terminal :=
  p.main.yield ++ (place.before.flatMap ClassDecl.yield ++ place.inner.yieldBefore)

/-- The terminals of the program after the result of the method. -/
def yieldAfter : List Terminal :=
  place.inner.yieldAfter ++ place.after.flatMap ClassDecl.yield

theorem yield_eq :
    p.yield = place.yieldBefore ++ (place.inner.method.result.yield ++ place.yieldAfter) := by
  simp [Program.yield, yieldBefore, yieldAfter, place.classes_eq, place.inner.yield_eq]

theorem yieldAfter_eq : place.yieldAfter = word .rightBrace ::
    (place.inner.after.flatMap Method.yield ++
      word .rightBrace :: place.after.flatMap ClassDecl.yield) := by
  simp [yieldAfter, ClassDecl.MethodPlace.yieldAfter]

/-- Results that are equal up to spans make programs that are. -/
theorem withoutSpans_withResult {r r' : MethodResult} (h : r.withoutSpans = r'.withoutSpans) :
    (place.withResult r).withoutSpans = (place.withResult r').withoutSpans := by
  simp [withResult, Program.withoutSpans, place.inner.withoutSpans_withResult h]

/-- Each method of a program has its place. -/
theorem exists_of_mem {k : ClassDecl} {m : Method} (hk : k ∈ p.classes) (hm : m ∈ k.methods) :
    ∃ place : p.MethodPlace, place.owner = k ∧ place.inner.method = m := by
  obtain ⟨before, after, hclasses⟩ := List.append_of_mem hk
  obtain ⟨methodsBefore, methodsAfter, hmethods⟩ := List.append_of_mem hm
  exact ⟨⟨before, k, after, hclasses, ⟨methodsBefore, m, methodsAfter, hmethods⟩⟩, rfl, rfl⟩

end Program.MethodPlace

/-! ## Broken results -/

/-- A `return` of an error, which stands in place of a result that cannot be read. -/
def MethodResult.unread : MethodResult := .returns Span.nowhere (.error Span.nowhere)

/-- Some terminals are those of the result of a method. -/
def SpellsResult (ys : List Terminal) : Prop :=
  ∃ r : MethodResult, (∀ n ∈ r.nodes, n.Readable) ∧ r.yield = ys

/-- A result is a clause: nothing ends it before its last token, which is a semicolon. -/
theorem MethodResult.exists_yield_eq (r : MethodResult) :
    ∃ xs, r.yield = xs ++ [word .semicolon] ∧ ∀ x ∈ xs, x.kind.endsClause = false := by
  have hplain : ∀ {kind : TokenKind}, kind.inExpression → kind.endsClause = false := by
    intro kind h
    cases kind <;> first | rfl | cases h
  have hexpr : ∀ e : Expr, ∀ x ∈ e.yield, x.kind.endsClause = false := fun e x hx =>
    hplain (kind_of_allKinds e.allKinds_yield hx)
  cases r with
  | returns span e => exact ⟨word .returnKw :: e.yield, rfl, List.forall_mem_cons.2 ⟨rfl, hexpr e⟩⟩
  | recurs q =>
    have hargs : ∀ x ∈ Expr.yieldList q.args, x.kind.endsClause = false := fun x hx =>
      hplain (kind_of_allKinds (Expr.allKinds_yieldList q.args) hx)
    refine ⟨q.yieldClause, by simp [MethodResult.yield, Recur.yield, Recur.yieldClause], ?_⟩
    simp only [Recur.yieldClause, List.forall_mem_cons, List.forall_mem_append]
    exact ⟨rfl, rfl, hexpr q.condition, rfl, rfl, rfl, hargs, rfl, rfl, hexpr q.fallback⟩

/--
Tokens that start like the result of a method but are none: the keyword, then tokens that open or
bound no statement and no declaration, and no semicolon, or one that does not make it a result.
-/
inductive BrokenResult : List Token → Prop
  | unterminated {keyword : Token} {w : List Token}
      (hkeyword : keyword.kind = .returnKw ∨ keyword.kind = .recurKw)
      (hw : ∀ t ∈ w, t.kind.isBoundary = false) : BrokenResult (keyword :: w)
  | terminated {keyword semicolon : Token} {w : List Token}
      (hkeyword : keyword.kind = .returnKw ∨ keyword.kind = .recurKw)
      (hw : ∀ t ∈ w, t.kind.isBoundary = false) (hsemicolon : semicolon.kind = .semicolon)
      (hnone : ¬ SpellsResult ((keyword :: (w ++ [semicolon])).map Token.terminal)) :
      BrokenResult (keyword :: (w ++ [semicolon]))

theorem BrokenResult.exists_eq_cons {ts : List Token} (h : BrokenResult ts) :
    ∃ keyword w, ts = keyword :: w ∧ (keyword.kind = .returnKw ∨ keyword.kind = .recurKw) := by
  cases h with
  | unterminated hkeyword => exact ⟨_, _, rfl, hkeyword⟩
  | terminated hkeyword => exact ⟨_, _, rfl, hkeyword⟩

/-- No clause ends among the tokens up to the semicolon. -/
theorem endsClause_of_opensResult {keyword : Token} {w : List Token}
    (hkeyword : keyword.kind = .returnKw ∨ keyword.kind = .recurKw)
    (hw : ∀ t ∈ w, t.kind.isBoundary = false) : ∀ t ∈ keyword :: w, t.kind.endsClause = false := by
  refine List.forall_mem_cons.2 ⟨?_, fun t ht => ?_⟩
  · rcases hkeyword with h | h <;> rw [h] <;> rfl
  · have hplain := hw t ht
    cases hkind : t.kind <;> simp [hkind, TokenKind.isBoundary, TokenKind.endsClause] at hplain ⊢

/--
Reading of some tokens before a brace fails, at one of them or at the brace. What is left of them is
skipped.
-/
structure Reading.GivesUp {α : Type} (r : Reading Fault α) (ts : List Token) (closing : Token)
    (more : List Token) (fault : Fault) (left : List Token) : Prop where
  fails : r.FailsAt fault (left ++ closing :: more)
  among : FaultAmong (ts ++ [closing]) [fault]
  skips : ∀ moved, Region.statements.skip moved (left ++ closing :: more) = left.length

namespace Parse

open Reader Reading

variable {ε α : Type} {c d : Cursor} {keyword closing : Token} {ts w more : List Token}

/-! ### Where reading of a result fails -/

/-- Before the end of the method, no result is taken off these tokens. -/
theorem not_reaches_of_broken {ys : List Terminal} (h : BrokenResult ts)
    (hclosing : closing.kind = .rightBrace) (hc : c.Spells [] (ts ++ closing :: more))
    (hys : SpellsResult ys) : ¬ c.Reaches ys d := by
  intro hreach
  obtain ⟨r, hr, rfl⟩ := hys
  obtain ⟨xs, hxs, hplain⟩ := r.exists_yield_eq
  rw [hxs] at hreach
  cases h with
  | @unterminated keyword w hkeyword hw =>
    have hwords := endsClause_of_opensResult hkeyword hw
    -- the semicolon of the result would be the brace
    have heq := (hreach.eq_of_test hplain rfl hc hwords (by rw [hclosing]; rfl)).1
    rw [List.map_append] at heq
    have hlast := (List.cons.inj (List.append_inj' heq rfl).2).1
    cases (congrArg Terminal.kind hlast).trans hclosing
  | @terminated keyword semicolon w hkeyword hw hsemicolon hnone =>
    have hwords := endsClause_of_opensResult hkeyword hw
    rw [← List.cons_append, List.append_assoc, List.singleton_append] at hc
    have heq := (hreach.eq_of_test hplain rfl hc hwords (by rw [hsemicolon]; rfl)).1
    exact hnone ⟨r, hr, hxs.trans heq⟩

/-- Behind the keyword reading is given up. -/
theorem exists_givesUp_of_broken {p : Reader Fault α} {fault : Fault}
    (h : BrokenResult (keyword :: w)) (hclosing : closing.kind = .rightBrace)
    (hc : c.Spells [] (w ++ closing :: more)) (hp : (p c).FailsWithinClause c)
    (hfault : (p c).outcome = .error fault) :
    ∃ left, (p c).GivesUp w closing more fault left := by
  cases h with
  | unterminated hkeyword hw =>
    obtain ⟨w₁, w₂, t, expected, rfl, hfails, ht, rfl⟩ :=
      hp.exists_failsAt hfault hc (by rw [hclosing]; rfl)
    refine ⟨w₂, hfails, ⟨t, ?_, expected, rfl⟩,
      Region.skip_to_brace (by simp) (Region.forall_passes hw) hclosing⟩
    rw [List.append_assoc]
    exact List.mem_append_right w₁ ht
  | @terminated _ semicolon w hkeyword hw hsemicolon hnone =>
    rw [List.append_assoc, List.singleton_append] at hc
    obtain ⟨w₁, w₂, t, expected, rfl, hfails, ht, rfl⟩ :=
      hp.exists_failsAt hfault hc (by rw [hsemicolon]; rfl)
    refine ⟨w₂ ++ [semicolon], by rwa [List.append_assoc], ⟨t, ?_, expected, rfl⟩,
      Region.skip_clause (by simp) (Region.forall_passes hw) hsemicolon⟩
    rw [List.append_assoc w₁, List.append_assoc w₁]
    exact List.mem_append_right w₁ (List.mem_append_left _ ht)

/-- A reader of results that starts with the keyword gives up. -/
theorem givesUp_of_broken {kind : TokenKind} {f : Token → Reader Fault α}
    (h : BrokenResult (keyword :: w)) (hclosing : closing.kind = .rightBrace)
    (hkeyword : keyword.kind = kind) (hc : c.Spells [] (keyword :: (w ++ closing :: more)))
    (hread : ((expect kind >>= f) c).Ensures c fun ys _ _ _ => SpellsResult ys)
    (hf : ∀ t d, (f t d).FailsWithinClause d) :
    ∃ fault left, ((expect kind >>= f) c).GivesUp (keyword :: w) closing more fault left := by
  have hk : c.current.kind = kind := hc.current_eq ▸ hkeyword
  have hd : (c.drop 1).Spells [] (w ++ closing :: more) :=
    (Cursor.Spells.map_terminal (w := [keyword]) hc).drop_one
  cases hr : ((expect kind >>= f) c).outcome with
  | ok a =>
    obtain ⟨ys, hreach, hys⟩ := hread hc.regular
    exact absurd hreach (not_reaches_of_broken h hclosing hc (hys a hr))
  | error fault =>
    rw [bind_apply_of_ok (expect_of_kind hk)] at hr ⊢
    obtain ⟨left, hfails, hamong, hskips⟩ := exists_givesUp_of_broken h hclosing hd (hf _ _) hr
    exact ⟨fault, left, hfails, hamong.mono (List.subset_cons_self _ _), hskips⟩

theorem givesUp_returned (h : BrokenResult (keyword :: w)) (hclosing : closing.kind = .rightBrace)
    (hkeyword : keyword.kind = .returnKw) (hc : c.Spells [] (keyword :: (w ++ closing :: more))) :
    ∃ fault left, (returned c).GivesUp (keyword :: w) closing more fault left := by
  refine givesUp_of_broken h hclosing hkeyword hc ?_ fun _ d => ?_
  · apply (ensures_returned c).mono
    rintro _ r d _ ⟨rfl, rfl, hr⟩
    exact ⟨r, fun n hn => (hr n hn).readable, rfl⟩
  · refine failsWithin_bind (within_expression d) fun _ d => ?_
    exact failsWithin_expect_bind (fun _ _ _ => ⟨_, rfl⟩) d

theorem givesUp_recur (h : BrokenResult (keyword :: w)) (hclosing : closing.kind = .rightBrace)
    (hkeyword : keyword.kind = .recurKw) (hc : c.Spells [] (keyword :: (w ++ closing :: more))) :
    ∃ fault left, (recur c).GivesUp (keyword :: w) closing more fault left := by
  refine givesUp_of_broken h hclosing hkeyword hc ?_ fun _ d => ?_
  · apply (ensures_recur c).mono
    rintro _ q d _ ⟨rfl, rfl, hq⟩
    exact ⟨.recurs q, fun n hn => (hq n hn).readable, rfl⟩
  · refine failsWithin_bind (within_parenthesized d) fun _ d => ?_
    refine failsWithin_bind (within_expect rfl d) fun _ d => ?_
    refine failsWithin_bind (within_expect rfl d) fun _ d => ?_
    refine failsWithin_bind (within_arguments d) fun _ d => ?_
    refine failsWithin_bind (within_expect rfl d) fun _ d => ?_
    refine failsWithin_bind (within_expect rfl d) fun _ d => ?_
    refine failsWithin_bind (within_expression d) fun _ d => ?_
    exact failsWithin_expect_bind (fun _ _ _ => ⟨_, rfl⟩) d

/-! ### Methods -/

/--
Where `tail` lies ahead, the items of a method end with at most a statement that is given up for the
result, and a result is read for which `P` holds with the faults that are noted.
-/
structure ReadsResultAt (tail : List Token) (rest : List Terminal)
    (P : MethodResult → List Fault → Prop) : Prop where
  reads : ∀ {ε : Type} (rounds : Nat) (seen : Bool) (c : Cursor), c.Spells [] tail →
    c.ahead.length ≤ rounds →
    ((bodyItemsFrom rounds seen : Reader ε (List BodyItem)) c).Succeeds fun items d fs =>
      items.filterMap BodyItem.local? = [] ∧ ∀ body : List Stmt,
        ((methodResult (body ++ items.filterMap BodyItem.statement?) :
          Reader ε (List Stmt × MethodResult)) d).Succeeds fun br e gs =>
            br.1 = body ∧ P br.2 (fs ++ gs) ∧ e.Sees (word .rightBrace :: rest)
  shorter : rest.length < tail.length

/-- The result is an error, and one fault is noted, at one of the tokens or the brace after them. -/
def ResultLost (ts : List Token) (closing : Token) (r : MethodResult) (fs : List Fault) : Prop :=
  r.withoutSpans = .unread ∧ FaultAmong (ts ++ [closing]) fs

/-- A broken `return` is read as the result. -/
theorem succeeds_returnedRecovering_unread (h : BrokenResult (keyword :: w))
    (hclosing : closing.kind = .rightBrace) (hkeyword : keyword.kind = .returnKw)
    (hc : c.Spells [] (keyword :: (w ++ closing :: more))) :
    ((returnedRecovering : Reader ε MethodResult) c).Succeeds fun r d fs =>
      ResultLost (keyword :: w) closing r fs ∧ d.Spells [] (closing :: more) := by
  obtain ⟨fault, left, hfails, hamong, hskips⟩ := givesUp_returned h hclosing hkeyword hc
  rw [returnedRecovering, here_bind]
  apply succeeds_rescue_recover hfails hskips
  intro d hd
  rw [spanFrom_bind]
  exact succeeds_pure ⟨⟨rfl, hamong⟩, hd⟩

theorem readsResultAt_return (h : BrokenResult (keyword :: w))
    (hclosing : closing.terminal = word .rightBrace) (hkeyword : keyword.kind = .returnKw) :
    ReadsResultAt (keyword :: (w ++ closing :: more)) (more.map Token.terminal)
      (ResultLost (keyword :: w) closing) where
  reads rounds seen c hc _ := by
    have hk : c.current.kind = .returnKw := hc.current_eq ▸ hkeyword
    have hstop : atBodyEnd c = true := by
      rw [atBodyEnd, hk]
      exact Bool.or_true _
    refine succeeds_manyFrom_stop hstop ⟨rfl, fun body => ?_⟩
    rw [methodResult, isAt_bind, if_pos (decide_eq_true hk)]
    apply succeeds_bind (succeeds_returnedRecovering_unread h (congrArg Terminal.kind hclosing)
      hkeyword hc)
    rintro r d fs ⟨hlost, hd⟩
    have hsees := hd.sees
    rw [List.nil_append, List.map_cons, hclosing] at hsees
    exact succeeds_pure ⟨List.append_nil body, by rwa [List.append_nil], hsees⟩
  shorter := by
    simp only [List.length_cons, List.length_append, List.length_map]
    omega

/-- Of a broken `recur` an error is left among the items of the method. -/
theorem succeeds_bodyItem_unread (h : BrokenResult (keyword :: w))
    (hclosing : closing.kind = .rightBrace) (hkeyword : keyword.kind = .recurKw) (seen : Bool)
    (hc : c.Spells [] (keyword :: (w ++ closing :: more))) :
    ((bodyItem seen : Reader ε (Option BodyItem)) c).Succeeds fun item d fs =>
      d.ahead.length < c.ahead.length ∧ RecurUnread item d ∧
        FaultAmong (keyword :: w ++ [closing]) fs ∧ d.Spells [] (closing :: more) := by
  have hk : c.current.kind = .recurKw := hc.current_eq ▸ hkeyword
  have hplace : atVariableDecl c = false := by
    rw [atVariableDecl, hk]
  obtain ⟨fault, left, hfails, hamong, hskips⟩ := givesUp_recur h hclosing hkeyword hc
  have hstatement : (statement c).FailsAt fault (left ++ closing :: more) := by
    have hmore : c.ahead ≠ [] := by
      rw [hc.ahead_eq]
      simp
    obtain ⟨n, hn, -⟩ := exists_statementOf hmore c.length_le_room
    show (statementWithin c.room c).FailsAt fault (left ++ closing :: more)
    rw [hn, statementOf, look_bind, hk]
    exact failsAt_bind_of_failsAt hfails
  have hrecovering : ((recovering statement : Reader ε Stmt) c).Succeeds fun s d fs =>
      (∃ span, s = .error span) ∧ fs = [fault] ∧ d.Spells [] (closing :: more) := by
    rw [recovering, here_bind]
    apply succeeds_rescue_recover hstatement hskips
    intro d hd
    rw [spanFrom_bind]
    exact succeeds_pure ⟨⟨_, rfl⟩, rfl, hd⟩
  apply succeeds_recurUnread hc.regular hk
  rw [bodyItem, here_bind, if_neg (by simp [hplace])]
  apply succeeds_bind hrecovering
  rintro _ d fs ⟨⟨span, rfl⟩, rfl, hd⟩
  refine succeeds_pure ⟨?_, ⟨span, rfl⟩, hamong, hd⟩
  rw [hd.length_eq, hc.length_eq]
  simp only [List.length_nil, List.length_cons, List.length_append]
  omega

theorem readsResultAt_recur (h : BrokenResult (keyword :: w))
    (hclosing : closing.terminal = word .rightBrace) (hkeyword : keyword.kind = .recurKw) :
    ReadsResultAt (keyword :: (w ++ closing :: more)) (more.map Token.terminal)
      (ResultLost (keyword :: w) closing) where
  reads rounds seen c hc hrounds := by
    have hk : c.current.kind = .recurKw := hc.current_eq ▸ hkeyword
    have hmore : atBodyEnd c = false := by
      rw [atBodyEnd, atListEnd, hk]
      rfl
    apply succeeds_manyFrom_item hmore hrounds
      (succeeds_bodyItem_unread h (congrArg Terminal.kind hclosing) hkeyword seen hc)
    rintro n _ d fs - ⟨⟨span, rfl, htrailing⟩, hamong, hd⟩
    have hsees := hd.sees
    rw [List.nil_append, List.map_cons, hclosing] at hsees
    have hstop : atBodyEnd d = true := by
      rw [atBodyEnd, atListEnd, hsees.kind_current]
      rfl
    refine succeeds_manyFrom_stop hstop ⟨rfl, fun body => ?_⟩
    apply (succeeds_methodResult_trailing htrailing hsees).mono
    rintro _ e gs ⟨rfl, rfl, he⟩
    exact ⟨rfl, ⟨rfl, by simpa using hamong⟩, he⟩
  shorter := by
    simp only [List.length_cons, List.length_append, List.length_map]
    omega

theorem readsResultAt_broken (h : BrokenResult ts)
    (hclosing : closing.terminal = word .rightBrace) :
    ReadsResultAt (ts ++ closing :: more) (more.map Token.terminal) (ResultLost ts closing) := by
  obtain ⟨keyword, w, rfl, hreturn | hrecur⟩ := h.exists_eq_cons
  · exact readsResultAt_return h hclosing hreturn
  · exact readsResultAt_recur h hclosing hrecur

section Results

variable {tail : List Token} {rest : List Terminal} {P : MethodResult → List Fault → Prop}

/-- What comes before the result of a method is read as usual. -/
theorem succeeds_methodBody_of_readsResultAt {vs : List Variable} {ss : List Stmt}
    (hss : ∀ s ∈ ss, s.WellFormed) (h : ReadsResultAt tail rest P)
    (hc : c.Spells (vs.flatMap Variable.yieldDecl ++ ss.flatMap Stmt.yield) tail) :
    ((methodBody : Reader ε (List Variable × List Stmt × MethodResult)) c).Succeeds fun b d fs =>
      b.1.map Variable.withoutSpans = vs.map Variable.withoutSpans ∧
        b.2.1.map Stmt.withoutSpans = ss.map Stmt.withoutSpans ∧ P b.2.2 fs ∧ d.Sees rest := by
  rw [← List.append_nil (ss.flatMap _)] at hc
  apply succeeds_bind (succeeds_items_locals (fun n d hd hn => succeeds_items_statements hss
    h.reads hd hn) hc c.length_le_room)
  rintro _ d fs ⟨items₁, _, rfl, hlocals, items₂, items₃, rfl, hfront, hnone₃, hresult⟩
  have hnone₁ : items₁.filterMap BodyItem.statement? = [] :=
    List.map_eq_nil_iff.1 hlocals.statements
  have hnone₂ : items₂.filterMap BodyItem.local? = [] := List.map_eq_nil_iff.1 hfront.locals
  simp only [List.filterMap_append, hnone₁, hnone₂, hnone₃, List.nil_append, List.append_nil]
  apply succeeds_bind (hresult (items₂.filterMap BodyItem.statement?))
  rintro ⟨_, r⟩ d gs ⟨rfl, hP, hd⟩
  refine succeeds_afterResult_bind hd (succeeds_expectOrReport_bind hd fun d hd => ?_)
  apply succeeds_bind (succeeds_reportRecurs _ d)
  rintro _ _ _ ⟨rfl, rfl⟩
  rw [(quiet_of_shape hss hfront.statements).recursList_eq_nil]
  exact succeeds_pure ⟨hlocals.locals, hfront.statements, by simpa [misplacedRecurs] using hP, hd⟩

/-- A method of which the result is read at a place is a member of its class. -/
theorem readsMemberAt_result {m : Method} (hm : ∀ n ∈ m.nodes, n.WellFormed)
    (h : ReadsResultAt tail rest P) :
    ReadsMemberAt m.yieldBeforeResult tail rest fun item fs => ∃ m', item = some (.method m') ∧
      ∃ r, m'.withoutSpans = { m with result := r }.withoutSpans ∧ P r fs := by
  obtain ⟨-, hm⟩ := List.forall_mem_cons.1 hm
  obtain ⟨-, hm⟩ := List.forall_mem_append.1 hm
  obtain ⟨-, hm⟩ := List.forall_mem_append.1 hm
  obtain ⟨hss, -⟩ := List.forall_mem_append.1 hm
  refine readsMemberAt_of_method (fun c hc => ?_) (Nat.lt_of_lt_of_le h.shorter (Nat.le_add_left _ _))
  refine (succeeds_method_of_body hc fun d hd =>
    succeeds_methodBody_of_readsResultAt (List.forall_mem_flatMap.1 hss) h hd).mono ?_
  rintro ⟨span, n, t, ps, vs, ss, r⟩ d fs ⟨hn, ht, hps, hvs, hss', hP, hd⟩
  dsimp only at hn ht hps hvs hss'
  refine ⟨⟨r, ?_, hP⟩, hd⟩
  rw [Method.withoutSpans, Method.withoutSpans, hn, ht, hps, hvs, hss']

theorem readsClassAt_result {k : ClassDecl} (place : k.MethodPlace)
    (hk : ∀ n ∈ k.nodes, n.WellFormed)
    (h : ReadsResultAt tail (place.after.flatMap Method.yield ++ word .rightBrace :: rest) P) :
    ReadsClassAt place.yieldBefore tail rest fun k' fs =>
      ∃ r, k'.withoutSpans = (place.withResult r).withoutSpans ∧ P r fs := by
  obtain ⟨-, hk⟩ := List.forall_mem_cons.1 hk
  obtain ⟨-, hms⟩ := List.forall_mem_append.1 hk
  rw [place.methods_eq, List.forall_mem_flatMap] at hms
  obtain ⟨hbefore, hms⟩ := List.forall_mem_append.1 hms
  obtain ⟨hinner, hafter⟩ := List.forall_mem_cons.1 hms
  refine (readsClassAt_of_method hbefore hafter (readsMemberAt_result hinner h)).mono ?_
  rintro ⟨span, n, s, vs, ms⟩ fs ⟨hn, hs, hvs, ms₁, m, ms₂, hms, hsame₁, hsame₂, r, hm, hP⟩
  dsimp only at hn hs hvs hms
  refine ⟨r, ?_, hP⟩
  rw [ClassDecl.withoutSpans, ClassDecl.withoutSpans, hn, hs, hvs, hms, List.map_append,
    List.map_cons, hsame₁, hm, hsame₂, ClassDecl.MethodPlace.withResult, List.map_append,
    List.map_cons]

theorem succeeds_program_result {p : Program} (place : p.MethodPlace) (hp : p.WellFormed)
    (h : ReadsResultAt tail (place.inner.after.flatMap Method.yield ++
      word .rightBrace :: place.after.flatMap ClassDecl.yield) P)
    (hc : c.Spells place.yieldBefore tail) :
    ((program : Reader ε Program) c).Succeeds fun p' _ fs =>
      ∃ r, p'.withoutSpans = (place.withResult r).withoutSpans ∧ P r fs := by
  obtain ⟨-, hp⟩ := List.forall_mem_cons.1 hp
  obtain ⟨hmain, hks⟩ := List.forall_mem_append.1 hp
  rw [place.classes_eq, List.forall_mem_flatMap] at hks
  obtain ⟨hbefore, hks⟩ := List.forall_mem_append.1 hks
  obtain ⟨howner, hafter⟩ := List.forall_mem_cons.1 hks
  refine (succeeds_program_around_class hmain hbefore hafter
    (readsClassAt_result place.inner howner h) hc).mono ?_
  rintro ⟨span, m, ks⟩ d fs ⟨hm, ks₁, k, ks₂, hks, hsame₁, hsame₂, r, hk, hP⟩
  dsimp only at hm hks
  refine ⟨r, ?_, hP⟩
  rw [Program.withoutSpans, Program.withoutSpans, hm, hks, List.map_append, List.map_cons, hsame₁,
    hk, hsame₂, Program.MethodPlace.withResult, List.map_append, List.map_cons]

end Results

end Parse

/--
In a text without faults the result of a method is replaced by a broken one. The tree of the new
text is that of the old one, up to spans, but for this result, which is a `return` of an error.
There is one diagnostic, at one of the tokens put in or at the brace after them.
-/
theorem parse_with_broken_result {source source' : String} {before replacement after : List Token}
    (hclean : (parse source).diagnostics = []) (place : (parse source).tree.MethodPlace)
    (hsource : terminalsOf source = before.map Token.terminal ++
      (place.inner.method.result.yield ++ after.map Token.terminal))
    (hplace : before.map Token.terminal = place.yieldBefore)
    (htokens : (tokenize source').tokens = before ++ (replacement ++ after))
    (herrors : (tokenize source').errors = []) (hbroken : BrokenResult replacement) :
    (parse source').tree.withoutSpans = (place.withResult .unread).withoutSpans ∧
      ∃ t ∈ replacement ++ after.take 1, ∃ d, (parse source').diagnostics = [d] ∧
        d.span = t.span := by
  obtain ⟨hwell, hrest, hspells⟩ :=
    spells_of_inserted hclean place.yield_eq hsource hplace htokens
  have hafter := (List.append_cancel_left hrest).symm
  rw [place.yieldAfter_eq] at hafter
  obtain ⟨closing, more, rfl, hclosing, hmore⟩ := List.map_eq_cons_iff.1 hafter
  have hresult : Parse.ReadsResultAt (replacement ++ closing :: more)
      (place.inner.after.flatMap Method.yield ++
        word .rightBrace :: place.after.flatMap ClassDecl.yield)
      (Parse.ResultLost replacement closing) := by
    rw [← hmore]
    exact Parse.readsResultAt_broken hbroken hclosing
  obtain ⟨-, r, htree, hunread, hamong⟩ :=
    tree_parse_of_succeeds (Parse.succeeds_program_result place hwell hresult hspells)
  exact ⟨htree.trans (place.withoutSpans_withResult hunread),
    diagnostics_parse_of_faultAmong herrors hamong⟩

/-- A `return` is replaced by a `recur` of which the condition lacks its parentheses. -/
theorem parse_with_bare_condition_for_return :
    let source := "class M\x7bpublic static void main(String[] a)\x7bx=1;\x7d\x7d " ++
      "class A\x7bpublic int f()\x7breturn 1;\x7d\x7d"
    let source' := "class M\x7bpublic static void main(String[] a)\x7bx=1;\x7d\x7d " ++
      "class A\x7bpublic int f()\x7brecur 1?(2):3;\x7d\x7d"
    let tokens := (tokenize source').tokens
    (parse source).diagnostics = [] ∧ BrokenResult ((tokens.drop 29).take 9) ∧
      ∃ place : (parse source).tree.MethodPlace, place.inner.method.name = "f" ∧
        (parse source').tree.withoutSpans = (place.withResult .unread).withoutSpans ∧
          ∃ t ∈ (tokens.drop 29).take 9 ++ (tokens.drop 38).take 1,
            ∃ d, (parse source').diagnostics = [d] ∧ d.span = t.span := by
  intro source source' tokens
  have hclean : (parse source).diagnostics = [] :=
    diagnostics_analyze_eq_nil_iff.2 (by decide +kernel)
  let method : Method :=
    ⟨⟨59, 84⟩, "f", .int, [], [], [], .returns ⟨74, 83⟩ (.integer ⟨81, 82⟩ 1)⟩
  let owner : ClassDecl := ⟨⟨51, 85⟩, "A", none, [], [method]⟩
  let place : (parse source).tree.MethodPlace :=
    { before := []
      owner
      after := []
      classes_eq := by decide +kernel
      inner := ⟨[], method, [], rfl⟩ }
  have hbroken : BrokenResult ((tokens.drop 29).take 9) := by
    let w := (tokens.drop 30).take 7
    have ⟨hbroken, hkeyword, hw, hsemicolon, hterminals⟩ :
        (tokens.drop 29).take 9 = tokens.getD 29 default :: (w ++ [tokens.getD 37 default]) ∧
        (tokens.getD 29 default).kind = .recurKw ∧ (∀ t ∈ w, t.kind.isBoundary = false) ∧
        (tokens.getD 37 default).kind = .semicolon ∧
        ((tokens.drop 29).take 9).map Token.terminal =
          word .recurKw :: number 1 :: ((tokens.drop 31).take 7).map Token.terminal := by
      decide +kernel
    rw [hbroken] at hterminals ⊢
    refine .terminated (.inr hkeyword) hw hsemicolon ?_
    rw [hterminals]
    rintro ⟨r, -, hr⟩
    cases r with
    | returns => cases (List.cons.inj hr).1
    | recurs => cases (List.cons.inj (List.cons.inj hr).2).1
  have ⟨hsource, hplace, htokens, herrors⟩ :
      terminalsOf source = (tokens.take 29).map Token.terminal ++
        (place.inner.method.result.yield ++ (tokens.drop 38).map Token.terminal) ∧
      (tokens.take 29).map Token.terminal = place.yieldBefore ∧
      tokens = tokens.take 29 ++ ((tokens.drop 29).take 9 ++ tokens.drop 38) ∧
      (tokenize source').errors = [] := by
    decide +kernel
  exact ⟨hclean, hbroken, place, rfl,
    parse_with_broken_result hclean place hsource hplace htokens herrors hbroken⟩

end MiniJava
