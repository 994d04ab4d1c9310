import MiniJava.Proofs.Grammar.Recurs
import MiniJava.Proofs.Statement.Sound
import MiniJava.Parsing.Declaration

/-!
# What is read as declarations

Variables come before statements and fields before methods. The two loops that read them share one
invariant: as long as no fault is noted, the items of the first kind stand before those of the
second, so that putting them into two lists keeps the order of the tokens.
-/

namespace MiniJava

/-- Two kinds of items of which the first comes first, and what they stand for. -/
structure Layout (α β γ : Type) where
  early? : α → Option β
  late? : α → Option γ
  nodesEarly : β → List Node
  yieldEarly : β → List Terminal
  nodesLate : γ → List Node
  yieldLate : γ → List Terminal

namespace Layout

variable {α β γ : Type} (l : Layout α β γ)

/-- The nodes of some items, in two lists. -/
def nodes (as : List α) : List Node :=
  (as.filterMap l.early?).flatMap l.nodesEarly ++ (as.filterMap l.late?).flatMap l.nodesLate

/-- The terminals of some items, in two lists. -/
def yield (as : List α) : List Terminal :=
  (as.filterMap l.early?).flatMap l.yieldEarly ++ (as.filterMap l.late?).flatMap l.yieldLate

variable (Good : Node → Prop)

/-- What holds of an item that was read, after a late one was seen or not. -/
inductive ItemRead (seen : Bool) (ys : List Terminal) (fs : List Fault) : Option α → Prop
  | skipped (hf : fs ≠ []) : ItemRead seen ys fs none
  | early {a : α} {b : β} (he : l.early? a = some b) (hl : l.late? a = none)
      (hb : Faithful Good (l.nodesEarly b) (l.yieldEarly b) ys fs) (hf : seen → fs ≠ []) :
      ItemRead seen ys fs (some a)
  | late {a : α} {g : γ} (he : l.early? a = none) (hl : l.late? a = some g)
      (hg : Faithful Good (l.nodesLate g) (l.yieldLate g) ys fs) : ItemRead seen ys fs (some a)

/-- What holds of items that were read, after a late one was seen or not. -/
structure ItemsRead (seen : Bool) (ys : List Terminal) (as : List α) (fs : List Fault) :
    Prop where
  faithful : Faithful Good (l.nodes as) (l.yield as) ys fs
  ordered : seen → fs = [] → as.filterMap l.early? = []

variable {l Good} {seen : Bool} {ys zs : List Terminal} {fs gs : List Fault} {a : α} {as : List α}

theorem ItemsRead.skip (hf : fs ≠ []) (h : l.ItemsRead Good seen zs as gs) :
    l.ItemsRead Good seen (ys ++ zs) as (fs ++ gs) :=
  ⟨.of_faulty h.faithful.proper (by simp [hf]), fun _ hnil =>
    absurd (List.append_eq_nil_iff.1 hnil).1 hf⟩

theorem ItemsRead.cons (ha : l.ItemRead Good seen ys fs (some a))
    (h : l.ItemsRead Good (seen || (l.late? a).isSome) zs as gs) :
    l.ItemsRead Good seen (ys ++ zs) (a :: as) (fs ++ gs) := by
  cases ha with
  | early he hl hb hf =>
    refine ⟨?_, fun hs hnil => absurd (List.append_eq_nil_iff.1 hnil).1 (hf hs)⟩
    have hall := hb.append h.faithful
    simpa [nodes, yield, List.filterMap_cons, he, hl] using hall
  | late he hl hg =>
    have hord : gs = [] → as.filterMap l.early? = [] := h.ordered (by simp [hl])
    refine ⟨⟨?_, fun hnil => ?_, fun hnil => ?_⟩, fun _ hnil => ?_⟩
    · intro n hn
      have hall := (hg.append h.faithful).proper n
      simp only [nodes, List.filterMap_cons, he, hl, List.flatMap_cons, List.mem_append] at hn hall
      exact hall (or_left_comm.1 hn)
    · obtain ⟨hf, hgs⟩ := List.append_eq_nil_iff.1 hnil
      rw [hg.yield_eq hf, h.faithful.yield_eq hgs]
      simp [yield, he, hl, hord hgs]
    · obtain ⟨hf, hgs⟩ := List.append_eq_nil_iff.1 hnil
      have hall := (hg.append h.faithful).good hnil
      simpa [nodes, List.filterMap_cons, he, hl, hord hgs] using hall
    · simpa [List.filterMap_cons, he] using hord (List.append_eq_nil_iff.1 hnil).2

end Layout

namespace Parse

open Reader Reading Terminal

variable {ε : Type} {c : Cursor}

theorem ensures_items {α β γ : Type} {l : Layout α β γ} {Good : Node → Prop}
    {stop : Cursor → Bool} {item : Bool → Reader ε (Option α)}
    (hitem : ∀ seen (d : Cursor), (item seen d).Ensures d fun ys a _ fs =>
      l.ItemRead Good seen ys fs a) (rounds : Nat) (c : Cursor) :
    (manyFrom stop item (fun seen a => seen || (l.late? a).isSome) rounds false c).Ensures c
      fun ys as _ fs => Faithful Good (l.nodes as) (l.yield as) ys fs := by
  refine (ensures_manyFrom (I := fun seen ys a fs => l.ItemRead Good seen ys fs a)
    (J := l.ItemsRead Good) ?_ ?_ ?_ hitem rounds false c).mono ?_
  · exact fun _ => ⟨.tokens [], fun _ _ => rfl⟩
  · exact fun _ _ _ _ _ _ _ ha h => h.cons ha
  · rintro _ _ _ _ _ _ ⟨hf⟩ h
    exact h.skip hf
  · exact fun _ _ _ _ h => h.faithful

/-! ## Variables -/

theorem ensures_typeName (c : Cursor) : (typeName c).Ensures c fun ys t _ fs =>
    fs = [] ∧ ys = t.yield ∧ ∀ n ∈ t.names, IsName n := by
  rw [typeName, look_bind]
  generalize hk : c.current.kind = kind
  split
  next =>
    apply ensures_advance_word_bind hk rfl
    intro _
    refine ensures_eat_bind rfl (fun d _ => ?_) fun _ =>
      ensures_pure ⟨rfl, rfl, List.forall_mem_nil _⟩
    exact ensures_expect_bind rfl fun _ _ _ => ensures_pure ⟨rfl, rfl, List.forall_mem_nil _⟩
  next =>
    exact ensures_advance_word_bind hk rfl fun _ => ensures_pure ⟨rfl, rfl, List.forall_mem_nil _⟩
  next =>
    apply ensures_advance_bind (by rw [hk]; rintro ⟨⟩)
    intro hreg _
    rw [Token.terminal_ident hk]
    exact ensures_pure ⟨rfl, rfl, List.forall_mem_singleton.2 (hreg.named hk)⟩
  next => exact ensures_failUnexpected _ _ _

/-- What holds of a variable that was read, with `yield` for what it stands for. -/
def VariableRead (yield : Variable → List Terminal) : Post Variable := fun ys v _ fs =>
  fs = [] ∧ ys = yield v ∧ (∀ n ∈ v.name :: v.type.names, IsName n)

theorem ensures_parameter (c : Cursor) :
    (parameter c).Ensures c (VariableRead Variable.yield) := by
  rw [parameter, look_bind]
  apply ensures_bind (ensures_typeName c)
  rintro ys t d fs - ⟨rfl, rfl, ht⟩
  apply ensures_expectName_bind
  intro n d' hn _
  rw [spanFrom_bind]
  exact ensures_pure ⟨rfl, rfl, List.forall_mem_cons.2 ⟨hn, ht⟩⟩

theorem ensures_variableDecl (c : Cursor) :
    (variableDecl c).Ensures c (VariableRead Variable.yieldDecl) := by
  rw [variableDecl, look_bind]
  apply ensures_bind (ensures_typeName c)
  rintro ys t d fs - ⟨rfl, rfl, ht⟩
  refine ensures_expectName_bind fun n d' hn _ => ensures_expect_bind rfl fun _ _ _ => ?_
  rw [spanFrom_bind]
  refine ensures_pure ⟨rfl, ?_, List.forall_mem_cons.2 ⟨hn, ht⟩⟩
  simp [Variable.yieldDecl, Variable.yield]

theorem ensures_parameters (c : Cursor) : (parameters c).Ensures c fun ys vs _ fs =>
    fs = [] ∧ ys = commaSeparated Variable.yield vs ∧
      ∀ v ∈ vs, ∀ n ∈ v.name :: v.type.names, IsName n := by
  rw [parameters, isAt_bind]
  split
  · exact ensures_pure ⟨rfl, rfl, nofun⟩
  · refine (ensures_sepByComma (fun d _ => ensures_parameter d) c.room (Nat.le_refl _)).mono ?_
    rintro ys vs d fs ⟨rfl, -, hy, hvs⟩
    exact ⟨rfl, hy, hvs⟩

/-- A variable with names for its name and its type keeps to the grammar. -/
theorem legal_var {v : Variable} (hv : ∀ n ∈ v.name :: v.type.names, IsName n) :
    (Node.var v).Legal :=
  ⟨⟨hv, trivial, trivial⟩, id⟩

theorem legal_param {v : Variable} (hv : ∀ n ∈ v.name :: v.type.names, IsName n) :
    (Node.param v).Legal :=
  ⟨⟨hv, trivial, trivial⟩, id⟩

/-- What holds of a variable that was read, and reported if it is out of order. -/
theorem ensures_reportIf_variable {α : Type} {seen : Bool} {rule : OrderRule} {f : Variable → α}
    (c : Cursor) :
    ((do
      let v ← variableDecl
      reportIf seen (.misplaced rule v.span)
      return f v : Reader Fault α) c).Ensures c fun ys a _ fs =>
        ∃ v, a = f v ∧ Faithful Node.WellFormed [.var v] v.yieldDecl ys fs ∧
          (seen → fs ≠ []) := by
  apply ensures_bind (ensures_variableDecl c)
  rintro ys v d fs - ⟨rfl, rfl, hv⟩
  have hlegal := legal_var hv
  refine ensures_reportIf_bind (ensures_pure ⟨v, rfl, ?_, ?_⟩)
  · exact ⟨List.forall_mem_singleton.2 hlegal.toProper, fun _ => List.append_nil _,
      fun _ => List.forall_mem_singleton.2 ⟨hlegal, id⟩⟩
  · rintro rfl
    nofun

/-! ## Bodies of methods -/

/-- Local variables and statements. -/
def bodyLayout : Layout BodyItem Variable Stmt where
  early? := BodyItem.local?
  late? := BodyItem.statement?
  nodesEarly v := [.var v]
  yieldEarly := Variable.yieldDecl
  nodesLate := Stmt.nodes
  yieldLate := Stmt.yield

theorem ensures_bodyItem (seen : Bool) (c : Cursor) :
    ((bodyItem seen : Reader ε (Option BodyItem)) c).Ensures c fun ys a _ fs =>
      bodyLayout.ItemRead Node.Legal seen ys fs a := by
  rw [bodyItem, here_bind]
  split
  · refine ensures_rescue ((ensures_reportIf_variable c).mono ?_) fun fault ys d fs _ => ?_
    · rintro ys a d fs ⟨v, rfl, hv, hf⟩
      exact .early (b := v) rfl rfl (hv.mono fun _ n _ hn => hn.toLegal) hf
    · apply ensures_bind (ensures_recover .statements c fault d)
      intro _ _ _ gs _ hgs
      exact ensures_pure (.skipped (by simp [hgs]))
  · apply ensures_bind (ensures_recovering ensures_statement c)
    intro ys s d fs _ hs
    refine ensures_pure (.late (g := s) rfl rfl ?_)
    rw [List.append_nil, List.append_nil]
    exact hs

theorem ensures_bodyItems (c : Cursor) :
    ((bodyItems : Reader ε (List BodyItem)) c).Ensures c fun ys items _ fs =>
      Faithful Node.Legal (bodyLayout.nodes items) (bodyLayout.yield items) ys fs :=
  ensures_items (l := bodyLayout) ensures_bodyItem c.room c

theorem ensures_returned (c : Cursor) : (returned c).Ensures c fun ys r _ fs =>
    fs = [] ∧ ys = r.yield ∧ ∀ n ∈ r.nodes, n.Legal := by
  refine ensures_expect_bind rfl fun _ d _ => ensures_bind (ensures_expression d) ?_
  rintro ys e d fs - ⟨rfl, rfl, he⟩
  apply ensures_expect_bind rfl
  intro _ d' _
  rw [spanFrom_bind]
  exact ensures_pure ⟨rfl, rfl, he⟩

theorem proper_returns_error (s t : Span) :
    ∀ n ∈ (MethodResult.returns s (.error t)).nodes, n.Proper :=
  List.forall_mem_singleton.2 ⟨nofun, trivial, trivial⟩

theorem ensures_returnedRecovering (c : Cursor) :
    ((returnedRecovering : Reader ε MethodResult) c).Ensures c fun ys r _ fs =>
      Faithful Node.Legal r.nodes r.yield ys fs := by
  have hreturned : (returned c).Ensures c fun ys r _ fs =>
      Faithful Node.Legal r.nodes r.yield ys fs := by
    apply (ensures_returned c).mono
    rintro _ r d _ ⟨rfl, rfl, hr⟩
    exact Faithful.of_legal hr rfl
  rw [returnedRecovering, here_bind]
  apply ensures_rescue hreturned
  intro fault ys d fs _
  apply ensures_bind (ensures_recover .statements c fault d)
  intro zs _ d' gs _ hgs
  rw [spanFrom_bind]
  exact ensures_pure (Faithful.of_faulty (proper_returns_error _ _) (by simp [hgs]))

/-- What holds of the statements and the result of a method, after `ns` and `zs` for the rest. -/
def ResultRead (ns : List Node) (zs before : List Terminal) (noted : List Fault) :
    Post (List Stmt × MethodResult) := fun ys br _ fs =>
  Faithful Node.Legal (ns ++ (br.1.flatMap Stmt.nodes ++ br.2.nodes))
    (zs ++ (br.1.flatMap Stmt.yield ++ br.2.yield)) (before ++ ys) (noted ++ fs)

variable {ns : List Node} {zs before : List Terminal} {noted : List Fault}
  {body : List Stmt}

theorem ensures_missingResult (c : Cursor) : ((missingResult : Reader ε MethodResult) c).Ensures c
    fun _ r _ fs => (∀ n ∈ r.nodes, n.Proper) ∧ fs ≠ [] := by
  rw [missingResult, look_bind]
  refine ensures_bind (R := fun _ _ _ fs => fs ≠ []) (ensures_report (by simp)) ?_
  intro _ _ d fs _ hfs
  exact ensures_pure ⟨proper_returns_error _ _, by simp [hfs]⟩

/-- A last statement that becomes the result is a `recur`, or an error where a `recur` starts. -/
theorem exists_of_trailing {c : Cursor} {r : MethodResult}
    (h : body.getLast?.bind (trailing? c) = some r) : ∃ init,
      (∃ q, body = init ++ [.recur q] ∧ r = .recurs q) ∨
        ∃ span, body = init ++ [.error span] ∧ c.kindAt span.start = some .recurKw ∧
          r = .returns span (.error span) := by
  obtain ⟨s, hlast, hs⟩ := Option.bind_eq_some_iff.1 h
  obtain ⟨init, rfl⟩ := List.getLast?_eq_some_iff.1 hlast
  refine ⟨init, ?_⟩
  cases s with
  | recur q => exact .inl ⟨q, rfl, (Option.some.inj hs).symm⟩
  | error span =>
    rw [trailing?] at hs
    split at hs
    next hkind => exact .inr ⟨span, rfl, hkind, (Option.some.inj hs).symm⟩
    next => cases hs
  | _ => cases hs

/-- A `recur` at the end of the statements loses only its own node when it becomes the result. -/
theorem mem_of_trailing_recur {init : List Stmt} {r : Recur} {n : Node}
    (hn : n ∈ ns ++ (init.flatMap Stmt.nodes ++ (MethodResult.recurs r).nodes)) :
    n ∈ ns ++ (init ++ [Stmt.recur r]).flatMap Stmt.nodes := by
  simp only [MethodResult.nodes, Stmt.nodes, List.flatMap_append, List.flatMap_singleton,
    List.mem_append, List.mem_cons] at hn ⊢
  exact hn.imp_right fun hn => hn.imp_right .inr

/-- The last statement becomes the result, and an erroneous one was reported before. -/
theorem resultRead_of_trailing {c : Cursor} {r : MethodResult}
    (h : Faithful Node.Legal (ns ++ body.flatMap Stmt.nodes) (zs ++ body.flatMap Stmt.yield)
      before noted)
    (hlast : body.getLast?.bind (trailing? c) = some r) :
    ResultRead ns zs before noted [] (body.dropLast, r) c [] := by
  obtain ⟨init, ⟨q, rfl, rfl⟩ | ⟨span, rfl, -, rfl⟩⟩ := exists_of_trailing hlast
  · rw [List.dropLast_concat]
    refine ⟨fun n hn => h.proper n ?_, fun hf => ?_, fun hf n hn => ?_⟩
    · exact mem_of_trailing_recur hn
    · simpa [Stmt.yield, MethodResult.yield] using h.yield_eq (by simpa using hf)
    · exact h.good (by simpa using hf) n (mem_of_trailing_recur hn)
  · rw [List.dropLast_concat]
    have hfaulty : noted ≠ [] := by
      intro hf
      have hlegal := h.good hf (.stmt (.error span)) (by simp [Stmt.nodes])
      exact hlegal.noError trivial
    refine Faithful.of_faulty ?_ (by simpa using hfaulty)
    rw [← List.append_assoc]
    refine List.forall_mem_append.2 ⟨fun n hn => h.proper n ?_, proper_returns_error _ _⟩
    rw [List.mem_append] at hn ⊢
    apply hn.imp_right
    intro hn
    rw [List.flatMap_append]
    exact List.mem_append_left _ hn

theorem ensures_methodResult
    (h : Faithful Node.Legal (ns ++ body.flatMap Stmt.nodes) (zs ++ body.flatMap Stmt.yield)
      before noted)
    (c : Cursor) : ((methodResult body : Reader ε (List Stmt × MethodResult)) c).Ensures c
      (ResultRead ns zs before noted) := by
  rw [methodResult, isAt_bind]
  split
  · apply ensures_bind (ensures_returnedRecovering c)
    intro ys r d fs _ hr
    have hall := h.append hr
    exact ensures_pure (by simpa [ResultRead] using hall)
  · rw [here_bind]
    cases hlast : body.getLast?.bind (trailing? c) with
    | some r => exact ensures_pure (resultRead_of_trailing h hlast)
    | none =>
      apply ensures_bind (ensures_missingResult c)
      rintro ys r d fs - ⟨hr, hfs⟩
      refine ensures_pure (Faithful.of_faulty ?_ (by simp [hfs]))
      rw [← List.append_assoc]
      exact List.forall_mem_append.2 ⟨h.proper, hr⟩

theorem ensures_afterResult (c : Cursor) : ((afterResult : Reader ε Unit) c).Ensures c
    fun ys _ _ fs => Faithful Node.Legal [] [] ys fs := by
  rw [afterResult, here_bind]
  split
  · exact ensures_pure (Faithful.tokens [])
  · rw [look_bind]
    refine ensures_bind (R := fun _ _ _ fs => fs ≠ []) (ensures_report (by simp)) ?_
    intro _ _ d fs _ hfs
    apply ensures_bind (ensures_statements d)
    intro _ _ _ gs _ _
    exact ensures_pure (Faithful.of_faulty (List.forall_mem_nil _) (by simp [hfs]))

/-- If each `recur` statement is reported, a tree without report is part of a correct program. -/
theorem wellFormed_of_legal {ys : List Terminal} {fs : List Fault} {rs : List Recur}
    (h : Faithful Node.Legal ns zs ys fs) (hrs : recurStatements ns = rs) :
    Faithful Node.WellFormed ns zs ys (fs ++ misplacedRecurs rs) := by
  refine ⟨h.proper, fun hnil => ?_, fun hnil n hn => ?_⟩
  · exact h.yield_eq (List.append_eq_nil_iff.1 hnil).1
  · obtain ⟨hf, hr⟩ := List.append_eq_nil_iff.1 hnil
    have hnone : recurStatements ns = [] := hrs.trans (List.map_eq_nil_iff.1 hr)
    exact ⟨h.good hf n hn, (recurStatements_eq_nil_iff ns).1 hnone n hn⟩

/-- What holds of the parts of a method that follow its head. -/
def BodyRead : Post (List Variable × List Stmt × MethodResult) := fun ys b _ fs =>
  Faithful Node.WellFormed
    (b.1.map Node.var ++ (b.2.1.flatMap Stmt.nodes ++ b.2.2.nodes))
    (b.1.flatMap Variable.yieldDecl ++ (b.2.1.flatMap Stmt.yield ++
      (b.2.2.yield ++ [word .rightBrace]))) ys fs

theorem recurStatements_body (vs : List Variable) (ss : List Stmt) (r : MethodResult) :
    recurStatements (vs.map Node.var ++ (ss.flatMap Stmt.nodes ++ r.nodes)) =
      Stmt.recursList ss := by
  rw [recurStatements_append, recurStatements_append, recurStatements_map fun _ => rfl,
    ← Stmt.nodesList_eq, Stmt.recurStatements_nodesList, r.recurStatements_nodes,
    List.append_nil, List.nil_append]

theorem ensures_methodBody (c : Cursor) :
    ((methodBody : Reader ε (List Variable × List Stmt × MethodResult)) c).Ensures c BodyRead := by
  apply ensures_bind (ensures_bodyItems c)
  intro ys items d fs _ hitems
  have hbody : Faithful Node.Legal
      ((items.filterMap BodyItem.local?).map Node.var ++
        (items.filterMap BodyItem.statement?).flatMap Stmt.nodes)
      ((items.filterMap BodyItem.local?).flatMap Variable.yieldDecl ++
        (items.filterMap BodyItem.statement?).flatMap Stmt.yield) ys fs := by
    simpa only [Layout.nodes, Layout.yield, bodyLayout, ← List.map_eq_flatMap] using hitems
  apply ensures_bind (ensures_methodResult hbody d)
  rintro zs ⟨body, result⟩ d gs - hresult
  apply ensures_bind (ensures_afterResult d)
  intro ws _ d hs _ hafter
  refine ensures_bind (ensures_expectOrReport Node.Legal rfl d)
    fun bs _ d hs' _ hbrace => ?_
  apply ensures_bind (ensures_reportRecurs (Stmt.recursList body) d)
  rintro _ _ _ _ - ⟨rfl, rfl, rfl⟩
  have hall := (hresult.append hafter).append hbrace
  rw [List.append_nil, List.append_nil] at hall
  apply ensures_pure
  simpa [BodyRead] using
    wellFormed_of_legal hall (recurStatements_body _ _ _)

/-! ## Methods and classes -/

theorem ensures_method (c : Cursor) : (method c).Ensures c fun ys m _ fs =>
    Faithful Node.WellFormed m.nodes m.yield ys fs := by
  refine ensures_expect_bind rfl fun _ d _ => ensures_bind (ensures_typeName d) ?_
  rintro ys t d fs - ⟨rfl, rfl, ht⟩
  refine ensures_expectName_bind fun n d hn _ => ensures_expect_bind rfl fun _ d _ => ?_
  apply ensures_bind (ensures_parameters d)
  rintro ys ps d fs - ⟨rfl, rfl, hps⟩
  refine ensures_expect_bind rfl fun _ d _ => ensures_expect_bind rfl fun _ d _ => ?_
  apply ensures_bind (ensures_methodBody d)
  rintro ys ⟨vs, ss, r⟩ d fs - hbody
  dsimp only
  rw [spanFrom_bind]
  refine ensures_pure (Faithful.cons_wellFormed ⟨⟨⟨?_, trivial, trivial⟩, id⟩, id⟩ ?_)
  · exact List.forall_mem_cons.2 ⟨hn, ht⟩
  have hparams : ∀ p ∈ ps.map Node.param, p.WellFormed :=
    List.forall_mem_map.2 fun v hv => ⟨legal_param (hps v hv), id⟩
  have hhead := Faithful.of_wellFormed hparams (rfl : word .publicKw :: (t.yield ++ ident n ::
    word .leftParen :: (commaSeparated Variable.yield ps ++
      [word .rightParen, word .leftBrace])) = _)
  simpa [Method.yield] using hhead.append hbody

/-- Fields and methods. -/
def memberLayout : Layout Member Variable Method where
  early? := Member.field?
  late? := Member.method?
  nodesEarly v := [.var v]
  yieldEarly := Variable.yieldDecl
  nodesLate := Method.nodes
  yieldLate := Method.yield

theorem ensures_member (seen : Bool) (c : Cursor) :
    ((member seen : Reader ε (Option Member)) c).Ensures c fun ys a _ fs =>
      memberLayout.ItemRead Node.WellFormed seen ys fs a := by
  rw [member, here_bind]
  refine ensures_rescue ?_ fun fault ys d fs _ => ?_
  · split
    · apply ensures_bind (ensures_method c)
      intro ys m d fs _ hm
      refine ensures_pure (.late (g := m) rfl rfl ?_)
      rw [List.append_nil, List.append_nil]
      exact hm
    · apply (ensures_reportIf_variable c).mono
      rintro ys a d fs ⟨v, rfl, hv, hf⟩
      exact .early (b := v) rfl rfl hv hf
  · apply ensures_bind (ensures_recover .members c fault d)
    intro _ _ _ gs _ hgs
    exact ensures_pure (.skipped (by simp [hgs]))

theorem ensures_members (c : Cursor) :
    ((members : Reader ε (List Member)) c).Ensures c fun ys items _ fs =>
      Faithful Node.WellFormed (memberLayout.nodes items) (memberLayout.yield items) ys fs :=
  ensures_items (l := memberLayout) ensures_member c.room c

theorem ensures_superclass (c : Cursor) : (superclass c).Ensures c fun ys s _ fs =>
    fs = [] ∧ ys = ClassDecl.yieldSuperclass s ∧ ∀ n ∈ s.toList, IsName n := by
  refine ensures_eat_bind rfl (fun d _ => ?_) fun _ => ensures_pure ⟨rfl, rfl, nofun⟩
  exact ensures_expectName_bind fun n _ hn _ =>
    ensures_pure ⟨rfl, rfl, List.forall_mem_singleton.2 hn⟩

theorem ensures_classDecl (c : Cursor) : (classDecl c).Ensures c fun ys k _ fs =>
    Faithful Node.WellFormed k.nodes k.yield ys fs := by
  refine ensures_expect_bind rfl fun _ d _ => ensures_expectName_bind fun n d hn _ => ?_
  apply ensures_bind (ensures_superclass d)
  rintro ys s d fs - ⟨rfl, rfl, hs⟩
  apply ensures_expect_bind rfl
  intro _ d _
  apply ensures_bind (ensures_members d)
  intro ys items d fs _ hitems
  have hnames : ∀ x ∈ n :: s.toList, IsName x := List.forall_mem_cons.2 ⟨hn, hs⟩
  have hmembers : Faithful Node.WellFormed
      ((items.filterMap Member.field?).map Node.var ++
        (items.filterMap Member.method?).flatMap Method.nodes)
      ((items.filterMap Member.field?).flatMap Variable.yieldDecl ++
        (items.filterMap Member.method?).flatMap Method.yield) ys fs := by
    simpa only [Layout.nodes, Layout.yield, memberLayout, ← List.map_eq_flatMap] using hitems
  refine ensures_bind (ensures_expectOrReport Node.WellFormed rfl d)
    fun bs _ d hs _ hbrace => ?_
  rw [spanFrom_bind]
  refine ensures_pure (Faithful.cons_wellFormed ⟨⟨⟨hnames, trivial, trivial⟩, id⟩, id⟩ ?_)
  have hall := ((Faithful.tokens (word .classKw :: ident n :: (ClassDecl.yieldSuperclass s ++
    [word .leftBrace]))).append hmembers).append hbrace
  simpa [ClassDecl.yield] using hall

end Parse

end MiniJava
