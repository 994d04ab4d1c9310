import MiniJava.Proofs.Declaration.Sound
import MiniJava.Proofs.Parallel.Statement

/-!
# Two readings of declarations

Methods and classes come out with the same members, in the same order. A class may be read only
where its keyword is no border.
-/

namespace MiniJava

variable {Starts : Nat → Nat → Prop}

/-- Two variables that differ in spans only and start at places which correspond. -/
structure Variable.Twin (Starts : Nat → Nat → Prop) (v v' : Variable) : Prop where
  tree : v.withoutSpans = v'.withoutSpans
  span : v.span.Twin Starts v'.span

/-- Two items of method bodies that correspond. -/
inductive Parse.BodyItem.Twin (Starts : Nat → Nat → Prop) : BodyItem → BodyItem → Prop
  | local {v v' : Variable} (h : v.Twin Starts v') : Twin Starts (.local v) (.local v')
  | statement {s s' : Stmt} (h : s.Twin Starts s') : Twin Starts (.statement s) (.statement s')

/-- Two members of classes that differ in spans only. -/
inductive Parse.Member.Twin : Member → Member → Prop
  | field {v v' : Variable} (h : v.withoutSpans = v'.withoutSpans) : Twin (.field v) (.field v')
  | method {m m' : Method} (h : m.withoutSpans = m'.withoutSpans) : Twin (.method m) (.method m')

/-- Lists of twins are the same once spans are forgotten. -/
theorem List.map_eq_of_forall₂ {α β : Type} {R : α → α → Prop} {f : α → β}
    (hR : ∀ a b, R a b → f a = f b) {as bs : List α} (h : List.Forall₂ R as bs) :
    as.map f = bs.map f := by
  induction h with
  | nil => rfl
  | cons ha _ ih => rw [List.map_cons, List.map_cons, hR _ _ ha, ih]

theorem List.Forall₂.getLast? {α : Type} {R : α → α → Prop} {as bs : List α}
    (h : List.Forall₂ R as bs) : Option.Rel R as.getLast? bs.getLast? := by
  induction h with
  | nil => exact .none
  | cons ha has ih =>
    cases has with
    | nil => exact .some ha
    | cons => exact ih

theorem List.Forall₂.dropLast {α : Type} {R : α → α → Prop} {as bs : List α}
    (h : List.Forall₂ R as bs) : List.Forall₂ R as.dropLast bs.dropLast := by
  induction h with
  | nil => exact .nil
  | cons ha has ih =>
    cases has with
    | nil => exact .nil
    | cons => exact .cons ha ih

namespace Parse

open Reader Reading

variable {ε : Type} {P : Pairing} {c d : Cursor} {E : ε → ε → Prop}

/-! ## Variables -/

theorem parallel_typeName (h : P.Pairs c d) :
    (typeName c).Parallel P (Fault.Twin P.Starts) Eq (typeName d) := by
  rw [typeName, look_bind, look_bind, ← P.kind_eq h, ← P.lexeme_eq h]
  generalize hk : c.current.kind = kind
  split
  next =>
    apply parallel_advance_bind h (P.free h (by simp [hk]))
    intro _ _ _ h'
    apply parallel_eat_bind h' (by decide)
    intro taken c' d' h'
    cases taken with
    | true =>
      apply parallel_expect_bind h' (by decide)
      intro _ _ c' d' h' _
      exact parallel_pure h' rfl
    | false => exact parallel_pure h' rfl
  next =>
    apply parallel_advance_bind h (P.free h (by simp [hk]))
    intro _ _ _ h'
    exact parallel_pure h' rfl
  next =>
    apply parallel_advance_bind h (P.free h (by simp [hk]))
    intro _ _ _ h'
    exact parallel_pure h' rfl
  next => exact parallel_failUnexpected h _

theorem parallel_parameter (h : P.Pairs c d) :
    (parameter c).Parallel P (Fault.Twin P.Starts) (Variable.Twin P.Starts) (parameter d) := by
  rw [parameter, look_bind, look_bind]
  apply parallel_bind (parallel_typeName h)
  rintro t _ c' d' h' rfl
  apply parallel_expectName_bind h'
  intro n c' d' h'
  apply parallel_spanFrom_bind
  intro s s' hs hs'
  apply parallel_pure h'
  refine ⟨rfl, ?_⟩
  rw [Span.Twin, hs, hs']
  exact (P.current h).start

theorem parallel_variableDecl (h : P.Pairs c d) :
    (variableDecl c).Parallel P (Fault.Twin P.Starts) (Variable.Twin P.Starts)
      (variableDecl d) := by
  rw [variableDecl, look_bind, look_bind]
  apply parallel_bind (parallel_typeName h)
  rintro t _ c' d' h' rfl
  apply parallel_expectName_bind h'
  intro n c' d' h'
  apply parallel_expect_bind h' (by decide)
  intro _ _ c' d' h' _
  apply parallel_spanFrom_bind
  intro s s' hs hs'
  apply parallel_pure h'
  refine ⟨rfl, ?_⟩
  rw [Span.Twin, hs, hs']
  exact (P.current h).start

theorem parallel_parameters (h : P.Pairs c d) :
    (parameters c).Parallel P (Fault.Twin P.Starts) (List.Forall₂ (Variable.Twin P.Starts))
      (parameters d) := by
  apply parallel_isAt_bind h
  split
  · exact parallel_pure h .nil
  · exact parallel_withRoom h
      (parallel_sepByComma (fun _ _ => parallel_parameter) c.room h)

/-! ## Bodies of methods -/

theorem parallel_localDecl (started : Bool) (h : P.Pairs c d) :
    (localDecl started c).Parallel P (Fault.Twin P.Starts) (Option.Rel (BodyItem.Twin P.Starts))
      (localDecl started d) := by
  apply parallel_bind (parallel_variableDecl h)
  intro v v' c' d' h' hv
  apply parallel_bind (parallel_reportIf started h' (.misplaced hv.span _))
  intro _ _ c' d' h' _
  exact parallel_pure h' (.some (.local hv))

theorem atVariableDecl_eq (h : P.Pairs c d) : atVariableDecl c = atVariableDecl d := by
  rw [atVariableDecl, atVariableDecl, P.kind_eq h, P.secondKind_eq h]

theorem parallel_bodyItem (started : Bool) (h : P.Pairs c d) (hfree : P.Free c.ahead) :
    ((bodyItem started : Reader ε (Option BodyItem)) c).Parallel P E
      (Option.Rel (BodyItem.Twin P.Starts)) (bodyItem started d) := by
  rw [bodyItem, here_bind, here_bind, ← atVariableDecl_eq h]
  split
  · apply parallel_rescue_recover .statements h hfree (parallel_localDecl started h)
      (ensures_reportIf_variable c)
    intro c' d' h'
    exact parallel_pure h' .none
  · apply parallel_bind (parallel_recovering (parallelStatement P) h hfree)
    intro s s' c' d' h' hs
    exact parallel_pure h' (.some (.statement hs))

theorem parallel_bodyItems (h : P.Pairs c d) :
    ((bodyItems : Reader ε (List BodyItem)) c).Parallel P E
      (List.Forall₂ (BodyItem.Twin P.Starts)) (bodyItems d) := by
  refine parallel_withRoom h (parallel_manyFrom ?_ ?_ ?_ _ _ h)
  · intro c d h
    rw [atBodyEnd, atBodyEnd, atListEnd_eq h, P.kind_eq h]
  · rintro started a b ⟨⟩ <;> rfl
  · intro started c d h hc
    rw [atBodyEnd, Bool.or_eq_false_iff] at hc
    exact parallel_bodyItem started h (free_of_atListEnd h hc.1)

theorem parallel_returned (h : P.Pairs c d) :
    (returned c).Parallel P (Fault.Twin P.Starts)
      (fun r r' => r.withoutSpans = r'.withoutSpans) (returned d) := by
  apply parallel_expect_bind h (by decide)
  intro t u c' d' h' _
  apply parallel_bind (parallel_expression h')
  intro e e' c' d' h' he
  apply parallel_expect_bind h' (by decide)
  intro _ _ c' d' h' _
  apply parallel_spanFrom_bind
  intro s s' _ _
  apply parallel_pure h'
  simpa only [Expr.Twin, MethodResult.withoutSpans, MethodResult.returns.injEq, true_and] using he

theorem parallel_returnedRecovering (h : P.Pairs c d) (hfree : P.Free c.ahead) :
    ((returnedRecovering : Reader ε MethodResult) c).Parallel P E
      (fun r r' => r.withoutSpans = r'.withoutSpans) (returnedRecovering d) := by
  rw [returnedRecovering, here_bind, here_bind]
  apply parallel_rescue_recover .statements h hfree (parallel_returned h) (ensures_returned c)
  intro c' d' h'
  apply parallel_spanFrom_bind
  intro s s' _ _
  exact parallel_pure h' rfl

theorem parallel_missingResult (h : P.Pairs c d) :
    ((missingResult : Reader ε MethodResult) c).Parallel P E
      (fun r r' => r.withoutSpans = r'.withoutSpans) (missingResult d) := by
  rw [missingResult, look_bind, look_bind]
  apply parallel_bind (parallel_report h (.unexpected (P.current h) _ _))
  intro _ _ c' d' h' _
  exact parallel_pure h' rfl

/-- A last statement that could not be read starts where its twin does, with the same token. -/
theorem trailing?_twin {s s' : Stmt} (h : P.Pairs c d) (hs : s.Twin P.Starts s') :
    Option.Rel (fun r r' => r.withoutSpans = r'.withoutSpans) (trailing? c s)
      (trailing? d s') := by
  obtain ⟨htree, -, hunread⟩ := hs
  cases s <;> cases s' <;> simp only [Stmt.withoutSpans, reduceCtorEq] at htree
  case recur.recur => exact .some (congrArg MethodResult.recurs (Stmt.recur.inj htree))
  case error.error span span' =>
    cases hunread with
    | some hstarts =>
      rw [trailing?, trailing?, P.kindAt_eq h hstarts]
      split
      · exact .some rfl
      · exact .none
  all_goals exact .none

theorem trailing?_getLast?_twin {body body' : List Stmt} (h : P.Pairs c d)
    (hbody : List.Forall₂ (Stmt.Twin P.Starts) body body') :
    Option.Rel (fun r r' => r.withoutSpans = r'.withoutSpans) (body.getLast?.bind (trailing? c))
      (body'.getLast?.bind (trailing? d)) := by
  have hlast := List.Forall₂.getLast? hbody
  generalize body.getLast? = last at hlast ⊢
  generalize body'.getLast? = last' at hlast ⊢
  cases hlast with
  | none => exact .none
  | some hs => exact trailing?_twin h hs

/-- Two bodies of methods that correspond, with their results. -/
structure ResultTwin (Starts : Nat → Nat → Prop) (p p' : List Stmt × MethodResult) : Prop where
  body : List.Forall₂ (Stmt.Twin Starts) p.1 p'.1
  result : p.2.withoutSpans = p'.2.withoutSpans

theorem parallel_methodResult {body body' : List Stmt} (h : P.Pairs c d)
    (hbody : List.Forall₂ (Stmt.Twin P.Starts) body body') :
    ((methodResult body : Reader ε (List Stmt × MethodResult)) c).Parallel P E
      (ResultTwin P.Starts) (methodResult body' d) := by
  have htrailing := trailing?_getLast?_twin h hbody
  apply parallel_isAt_bind h
  by_cases hk : c.current.kind = .returnKw
  · simp only [hk, decide_true, if_true]
    apply parallel_bind (parallel_returnedRecovering h (P.free h (by simp [hk])))
    intro r r' c' d' h' hr
    exact parallel_pure h' ⟨hbody, hr⟩
  · rw [if_neg (by simpa using hk), if_neg (by simpa using hk), here_bind, here_bind]
    generalize body.getLast?.bind (trailing? c) = result at htrailing ⊢
    generalize body'.getLast?.bind (trailing? d) = result' at htrailing ⊢
    cases htrailing with
    | some hr => exact parallel_pure h ⟨List.Forall₂.dropLast hbody, hr⟩
    | none =>
      apply parallel_bind (parallel_missingResult h)
      intro r r' c' d' h' hr
      exact parallel_pure h' ⟨hbody, hr⟩

theorem parallel_afterResult (h : P.Pairs c d) :
    ((afterResult : Reader ε Unit) c).Parallel P E (fun _ _ => True) (afterResult d) := by
  rw [afterResult, here_bind, here_bind, ← atListEnd_eq h]
  split
  · exact parallel_pure h trivial
  · rw [look_bind, look_bind]
    apply parallel_bind (parallel_report h (.unexpected (P.current h) _ _))
    intro _ _ c' d' h' _
    apply parallel_bind (parallel_statements h')
    intro _ _ c' d' h' _
    exact parallel_pure h' trivial

/-- Two readings of what follows the head of a method give parts that differ in spans only. -/
structure BodyTwin (b b' : List Variable × List Stmt × MethodResult) : Prop where
  locals : b.1.map Variable.withoutSpans = b'.1.map Variable.withoutSpans
  body : b.2.1.map Stmt.withoutSpans = b'.2.1.map Stmt.withoutSpans
  result : b.2.2.withoutSpans = b'.2.2.withoutSpans

theorem BodyItem.Twin.local? {Starts : Nat → Nat → Prop} {a b : BodyItem}
    (h : a.Twin Starts b) : Option.Rel (Variable.Twin Starts) a.local? b.local? := by
  cases h with
  | «local» h => exact .some h
  | statement => exact .none

theorem BodyItem.Twin.statement? {Starts : Nat → Nat → Prop} {a b : BodyItem}
    (h : a.Twin Starts b) : Option.Rel (Stmt.Twin Starts) a.statement? b.statement? := by
  cases h with
  | «local» => exact .none
  | statement h => exact .some h

theorem parallel_methodBody (h : P.Pairs c d) :
    ((methodBody : Reader ε (List Variable × List Stmt × MethodResult)) c).Parallel P E BodyTwin
      (methodBody d) := by
  apply parallel_bind (parallel_bodyItems h)
  intro items items' c' d' h' hitems
  have hlocals : List.Forall₂ (Variable.Twin P.Starts) (items.filterMap BodyItem.local?)
      (items'.filterMap BodyItem.local?) := List.rel_filterMap (fun _ _ h => h.local?) hitems
  have hbody : List.Forall₂ (Stmt.Twin P.Starts) (items.filterMap BodyItem.statement?)
      (items'.filterMap BodyItem.statement?) := List.rel_filterMap (fun _ _ h => h.statement?) hitems
  apply parallel_bind (parallel_methodResult h' hbody)
  rintro ⟨body, result⟩ ⟨body', result'⟩ c' d' h' ⟨hbody, hresult⟩
  apply parallel_bind (parallel_afterResult h')
  intro _ _ c' d' h' _
  apply parallel_bind (parallel_expectOrReport h' (by decide))
  intro _ _ c' d' h' _
  apply parallel_bind (parallel_reportRecurs h' (Stmt.Twin.list_recurs hbody))
  intro _ _ c' d' h' _
  apply parallel_pure h'
  exact ⟨List.map_eq_of_forall₂ (fun _ _ h => h.tree) hlocals,
    List.map_eq_of_forall₂ (fun _ _ h => h.tree) hbody, hresult⟩

/-! ## Methods and classes -/

theorem parallel_method (h : P.Pairs c d) :
    (method c).Parallel P (Fault.Twin P.Starts)
      (fun m m' => m.withoutSpans = m'.withoutSpans) (method d) := by
  apply parallel_expect_bind h (by decide)
  intro t u c' d' h' _
  apply parallel_bind (parallel_typeName h')
  rintro type _ c' d' h' rfl
  apply parallel_expectName_bind h'
  intro name c' d' h'
  apply parallel_expect_bind h' (by decide)
  intro _ _ c' d' h' _
  apply parallel_bind (parallel_parameters h')
  intro ps ps' c' d' h' hps
  apply parallel_expect_bind h' (by decide)
  intro _ _ c' d' h' _
  apply parallel_expect_bind h' (by decide)
  intro _ _ c' d' h' _
  apply parallel_bind (parallel_methodBody h')
  rintro ⟨vs, ss, r⟩ ⟨vs', ss', r'⟩ c' d' h' ⟨hvs, hss, hr⟩
  apply parallel_spanFrom_bind
  intro s s' _ _
  apply parallel_pure h'
  have hparams : ps.map Variable.withoutSpans = ps'.map Variable.withoutSpans :=
    List.map_eq_of_forall₂ (fun _ _ h => h.tree) hps
  simpa only [Method.withoutSpans, Method.mk.injEq, true_and] using ⟨hparams, hvs, hss, hr⟩

theorem parallel_methodDecl (h : P.Pairs c d) :
    (methodDecl c).Parallel P (Fault.Twin P.Starts) (Option.Rel Member.Twin) (methodDecl d) := by
  apply parallel_bind (parallel_method h)
  intro m m' c' d' h' hm
  exact parallel_pure h' (.some (.method hm))

theorem ensures_methodDecl (c : Cursor) :
    (methodDecl c).Ensures c fun _ _ _ _ => True :=
  ensures_bind (ensures_method c) fun _ _ _ _ _ _ => ensures_pure trivial

theorem parallel_fieldDecl (seenMethod : Bool) (h : P.Pairs c d) :
    (fieldDecl seenMethod c).Parallel P (Fault.Twin P.Starts) (Option.Rel Member.Twin)
      (fieldDecl seenMethod d) := by
  apply parallel_bind (parallel_variableDecl h)
  intro v v' c' d' h' hv
  apply parallel_bind (parallel_reportIf seenMethod h' (.misplaced hv.span _))
  intro _ _ c' d' h' _
  exact parallel_pure h' (.some (.field hv.tree))

theorem parallel_member (seen : Bool) (h : P.Pairs c d) (hfree : P.Free c.ahead) :
    ((member seen : Reader ε (Option Member)) c).Parallel P E (Option.Rel Member.Twin)
      (member seen d) := by
  rw [member, here_bind, here_bind, ← P.kind_eq h]
  split
  · apply parallel_rescue_recover .members h hfree (parallel_methodDecl h)
      (ensures_methodDecl c)
    intro c' d' h'
    exact parallel_pure h' .none
  · apply parallel_rescue_recover .members h hfree (parallel_fieldDecl seen h)
      (ensures_reportIf_variable c)
    intro c' d' h'
    exact parallel_pure h' .none

theorem parallel_members (h : P.Pairs c d) :
    ((members : Reader ε (List Member)) c).Parallel P E (List.Forall₂ Member.Twin)
      (members d) := by
  refine parallel_withRoom h (parallel_manyFrom ?_ ?_ ?_ _ _ h)
  · intro c d h
    rw [atMembersEnd, atMembersEnd, P.kind_eq h]
  · rintro seen a b ⟨⟩ <;> rfl
  · intro seen c d h hc
    apply parallel_member seen h
    apply P.free h
    intro hk
    simp [atMembersEnd, hk] at hc

theorem parallel_superclass (h : P.Pairs c d) :
    (superclass c).Parallel P (Fault.Twin P.Starts) Eq (superclass d) := by
  apply parallel_eat_bind h (by decide)
  intro taken c' d' h'
  cases taken with
  | true =>
    apply parallel_expectName_bind h'
    intro n c' d' h'
    exact parallel_pure h' rfl
  | false => exact parallel_pure h' rfl

theorem Member.Twin.field? {a b : Member} (h : a.Twin b) :
    Option.Rel (fun v v' => v.withoutSpans = v'.withoutSpans) a.field? b.field? := by
  cases h with
  | field h => exact .some h
  | method => exact .none

theorem Member.Twin.method? {a b : Member} (h : a.Twin b) :
    Option.Rel (fun m m' => m.withoutSpans = m'.withoutSpans) a.method? b.method? := by
  cases h with
  | field => exact .none
  | method h => exact .some h

theorem parallel_classDecl (h : P.Pairs c d) (hfree : P.Free c.ahead) :
    (classDecl c).Parallel P (Fault.Twin P.Starts)
      (fun k k' => k.withoutSpans = k'.withoutSpans) (classDecl d) := by
  apply parallel_bind (parallel_expect h fun _ => hfree)
  intro t u c' d' h' _
  apply parallel_expectName_bind h'
  intro name c' d' h'
  apply parallel_bind (parallel_superclass h')
  rintro super _ c' d' h' rfl
  apply parallel_expect_bind h' (by decide)
  intro _ _ c' d' h' _
  apply parallel_bind (parallel_members h')
  intro items items' c' d' h' hitems
  have hfields : (items.filterMap Member.field?).map Variable.withoutSpans =
      (items'.filterMap Member.field?).map Variable.withoutSpans :=
    List.map_eq_of_forall₂ (fun _ _ h => h) (List.rel_filterMap (fun _ _ h => h.field?) hitems)
  have hmethods : (items.filterMap Member.method?).map Method.withoutSpans =
      (items'.filterMap Member.method?).map Method.withoutSpans :=
    List.map_eq_of_forall₂ (fun _ _ h => h) (List.rel_filterMap (fun _ _ h => h.method?) hitems)
  apply parallel_bind (parallel_expectOrReport h' (by decide))
  intro _ _ c' d' h' _
  apply parallel_spanFrom_bind
  intro s s' _ _
  apply parallel_pure h'
  simpa only [ClassDecl.withoutSpans, ClassDecl.mk.injEq, true_and] using ⟨hfields, hmethods⟩

end Parse

end MiniJava
