import MiniJava.Proofs.Declaration.Sound
import MiniJava.Proofs.Extents.Statement

/-!
# Where declarations stand

The items of a method body and the members of a class are read one after the other, so that those of
one kind stand in a row as well. The result of a method stands after its statements, is the last of
them, or is missing.
-/

namespace MiniJava

/-! ## Items -/

namespace Parse

/-- Where an item of a method body stands. -/
def BodyItem.span : BodyItem → Span
  | .local v => v.span
  | .statement s => s.span

/-- The nodes of an item of a method body. -/
def BodyItem.nodes : BodyItem → List Node
  | .local v => [.var v]
  | .statement s => s.nodes

/-- Where a member of a class stands. -/
def Member.span : Member → Span
  | .field v => v.span
  | .method m => m.span

/-- The nodes of a member of a class. -/
def Member.nodes : Member → List Node
  | .field v => [.var v]
  | .method m => m.nodes

end Parse

/-- Picking items out of a list keeps the order of their spans. -/
theorem List.sublist_map_filterMap {α β : Type} {pick : α → Option β} {span : α → Span}
    {span' : β → Span} (h : ∀ a b, pick a = some b → span' b = span a) (as : List α) :
    ((as.filterMap pick).map span').Sublist (as.map span) := by
  induction as with
  | nil => exact .slnil
  | cons a as ih =>
    cases hpick : pick a with
    | none =>
      rw [List.filterMap_cons_none hpick, List.map_cons]
      exact ih.cons _
    | some b =>
      rw [List.filterMap_cons_some hpick, List.map_cons, List.map_cons, h a b hpick]
      exact ih.cons_cons _

namespace Parse

open Reader Reading Terminal

variable {ε : Type} {source : String} {E : ε → Prop} {origin c : Cursor}

/-- What holds of an item that was read from `c` on; where there is none, some tokens were taken. -/
def ItemAt {α : Type} (source : String) (span : α → Span) (nodes : α → List Node) (c : Cursor) :
    Post (Option α) := fun ys a d fs =>
  ys ≠ [] ∧ ∀ x ∈ a, Stretch source c [span x] d ∧ Extents source (nodes x) fs

/-- Where an item could stand, one is read or some tokens are skipped. -/
theorem advances_item {α : Type} {span : α → Span} {nodes : α → List Node} {region : Region}
    {inner : Reader Fault (Option α)} (htakes : region.Takes c.current.kind)
    (h : (inner c).Advances source (Fault.Holds source) c (ItemAt source span nodes c)) :
    ((rescue inner fun fault => do
      recover region c fault
      return none : Reader ε (Option α)) c).Advances source E c (ItemAt source span nodes c) := by
  apply advances_rescue h
  intro fault ys d fs hfault hp
  apply advances_bind (advances_recover hp hfault)
  rintro zs _ d' gs - ⟨-, htaken⟩
  refine advances_pure ⟨?_, by simp⟩
  rw [List.append_nil]
  exact htaken htakes

/-- What holds of items that were read one after the other from `c` on, up to a mark. -/
def ItemsAt {α : Type} (source : String) (stop : Cursor → Bool) (span : α → Span)
    (nodes : α → List Node) (c : Cursor) : Post (List α) := fun _ as d fs =>
  Stretch source c (as.map span) d ∧ Extents source (as.flatMap nodes) fs ∧ stop d = true

theorem advances_items {α σ : Type} {stop : Cursor → Bool} {item : σ → Reader ε (Option α)}
    {next : σ → α → σ} {span : α → Span} {nodes : α → List Node}
    (hend : ∀ c : Cursor, c.current.kind = .endOfInput → stop c = true)
    (hitem : ∀ s (d : Cursor), stop d = false →
      (item s d).Advances source E d (ItemAt source span nodes d))
    (s : σ) (c : Cursor) :
    (manyFrom stop item next c.room s c).Advances source E c
      (ItemsAt source stop span nodes c) := by
  have hroom := c.length_le_room
  refine advances_manyFrom (I := fun _ d _ a e fs => ∀ x ∈ a,
    Stretch source d [span x] e ∧ Extents source (nodes x) fs)
    (J := fun _ => ItemsAt source stop span nodes)
    (fun d hd hnil => hend d (Cursor.kind_current_of_ahead_eq_nil hnil)) ?_ ?_ ?_
    (fun s d _ => hitem s d) s hroom hroom
  · exact fun _ d hd hstop => ⟨(Passage.refl hd).stretch, .nil, hstop⟩
  · rintro _ c ys a d fs zs as e gs - - ha ⟨has, hns, hstop⟩
    obtain ⟨hspan, hnodes⟩ := ha a rfl
    exact ⟨hspan.trans has, hnodes.append hns, hstop⟩
  · rintro _ c ys d fs zs as e gs hp - - ⟨has, hns, hstop⟩
    exact ⟨hp.stretch.trans has, hns.mono fun hnil => (List.append_eq_nil_iff.1 hnil).2, hstop⟩

/-- The items of one kind stand in a row as well. -/
theorem ItemsAt.pick {α β : Type} {stop : Cursor → Bool} {span : α → Span} {nodes : α → List Node}
    {pick : α → Option β} {span' : β → Span} {nodes' : β → List Node} {ys : List Terminal}
    {as : List α} {d : Cursor} {fs : List Fault} (h : ItemsAt source stop span nodes c ys as d fs)
    (hpick : ∀ a b, pick a = some b → span' b = span a ∧ nodes' b = nodes a) :
    Stretch source c ((as.filterMap pick).map span') d ∧
      Extents source ((as.filterMap pick).flatMap nodes') fs := by
  obtain ⟨hstretch, hns, -⟩ := h
  constructor
  · exact hstretch.sublist (List.sublist_map_filterMap (fun a b hab => (hpick a b hab).1) as)
  · refine hns.subset fun n hn => ?_
    obtain ⟨b, hb, hn⟩ := List.mem_flatMap.1 hn
    obtain ⟨a, ha, hab⟩ := List.mem_filterMap.1 hb
    rw [(hpick a b hab).2] at hn
    exact List.mem_flatMap.2 ⟨a, ha, hn⟩

/-! ## Variables -/

theorem advances_typeName (source : String) (c : Cursor) :
    (typeName c).Advances source (Fault.Holds source) c fun ys t _ fs =>
      fs = [] ∧ ys = t.yield := by
  rw [typeName, look_bind]
  generalize hk : c.current.kind = kind
  split
  next =>
    refine advances_advance_word_bind hk rfl fun _ => ?_
    refine advances_eat_bind rfl (fun d _ => ?_) fun _ => advances_pure ⟨rfl, rfl⟩
    exact advances_expect_bind rfl fun _ _ => advances_pure ⟨rfl, rfl⟩
  next => exact advances_advance_word_bind hk rfl fun _ => advances_pure ⟨rfl, rfl⟩
  next =>
    refine advances_advance_bind (by simp [hk]) fun _ => ?_
    rw [Token.terminal_ident hk]
    exact advances_pure ⟨rfl, rfl⟩
  next h₁ h₂ h₃ =>
    exact advances_failUnexpected
      (fun _ => by simpa [Expectation.Admits, hk] using ⟨h₁, h₂, h₃⟩) _

/-- What holds of a variable that was read from `c` on, with `yield` for what it stands for. -/
def VariableAt (yield : Variable → List Terminal) (c : Cursor) : Post Variable :=
  fun ys v d fs => fs = [] ∧ ys = yield v ∧ ys ≠ [] ∧ v.span = ⟨c.nextStart, d.lastStop⟩

theorem advances_parameter (source : String) (c : Cursor) :
    (parameter c).Advances source (Fault.Holds source) c (VariableAt Variable.yield c) := by
  rw [parameter, look_bind]
  apply advances_bind (advances_typeName source c)
  rintro ys t d fs htype ⟨rfl, rfl⟩
  refine advances_expectName_bind fun n d' hname => ?_
  have hp := htype.trans hname
  exact advances_spanFrom_bind hp (by simp) rfl (advances_pure ⟨rfl, rfl, by simp, rfl⟩)

theorem advances_variableDecl (source : String) (c : Cursor) :
    (variableDecl c).Advances source (Fault.Holds source) c
      (VariableAt Variable.yieldDecl c) := by
  rw [variableDecl, look_bind]
  apply advances_bind (advances_typeName source c)
  rintro ys t d fs htype ⟨rfl, rfl⟩
  refine advances_expectName_bind fun n d' hname => advances_expect_bind rfl fun d'' hend => ?_
  have hp := htype.trans (hname.trans hend)
  refine advances_spanFrom_bind hp (by simp) rfl (advances_pure ⟨rfl, ?_, by simp, rfl⟩)
  simp [Variable.yieldDecl, Variable.yield]

theorem VariableAt.stretch {yield : Variable → List Terminal} {d : Cursor} {ys : List Terminal}
    {v : Variable} {fs : List Fault} (h : VariableAt yield c ys v d fs)
    (hp : Passage source c ys d) : Stretch source c [v.span] d := by
  obtain ⟨-, -, hys, hspan⟩ := h
  rw [hspan]
  exact hp.stretch_span hys

/-- What holds of parameters that were read from `c` on. -/
def ParametersAt (source : String) (c : Cursor) : Post (List Variable) := fun _ vs d fs =>
  fs = [] ∧ Stretch source c (vs.map Variable.span) d ∧ Extents source (vs.map Node.param) []

theorem advances_parameters (source : String) (c : Cursor) :
    (parameters c).Advances source (Fault.Holds source) c (ParametersAt source c) := by
  rw [parameters, isAt_bind]
  split
  · exact .of_place fun hof => advances_pure ⟨rfl, (Passage.refl hof).stretch, .nil⟩
  · refine advances_sepByComma (I := VariableAt Variable.yield) (J := ParametersAt source) ?_ ?_
      (fun d _ => advances_parameter source d) c.length_le_room c.length_le_room
    · rintro c ys v d fs hp hv
      obtain ⟨rfl, rfl, hys, hspan⟩ := id hv
      exact ⟨rfl, hv.stretch hp, .cons_of_passage .nil hp hys (by rw [Node.extents, hspan])
        (fun _ => rfl) trivial⟩
    · rintro c ys v d fs d' zs vs e gs hp hcomma - hv ⟨rfl, hvs, hns⟩
      obtain ⟨rfl, rfl, hys, hspan⟩ := id hv
      exact ⟨rfl, (hv.stretch hp).trans (hcomma.stretch.trans hvs),
        .cons_of_passage hns hp hys (by rw [Node.extents, hspan]) (fun _ => rfl) trivial⟩

/-- A variable that is reported for where it stands has its place in the text all the same. -/
theorem advances_reportIf_variable {α : Type} {seen : Bool} {rule : OrderRule} (f : Variable → α)
    {span : α → Span} {nodes : α → List Node} (hspan : ∀ v, span (f v) = v.span)
    (hnodes : ∀ v, nodes (f v) = [.var v]) (source : String) (c : Cursor) :
    ((do
      let v ← variableDecl
      reportIf seen (.misplaced rule v.span)
      return some (f v) : Reader Fault (Option α)) c).Advances source (Fault.Holds source) c
        (ItemAt source span nodes c) := by
  apply advances_bind (advances_variableDecl source c)
  rintro ys v d fs hp hv
  obtain ⟨rfl, rfl, hys, hvspan⟩ := id hv
  refine advances_reportIf_bind (fun _ => ?_) (advances_pure ⟨by simpa using hys, ?_⟩)
  · rw [Fault.Holds, hvspan]
    exact hp.valid_span hys
  · rintro _ ⟨rfl⟩
    rw [hspan, hnodes]
    exact ⟨hv.stretch hp, .cons_of_passage .nil hp hys (by rw [Node.extents, hvspan])
      (fun _ => rfl) trivial⟩

/-! ## Bodies of methods -/

theorem advances_bodyItem (seen : Bool) (hend : atBodyEnd c = false) :
    ((bodyItem seen : Reader ε (Option BodyItem)) c).Advances source E c
      (ItemAt source BodyItem.span BodyItem.nodes c) := by
  have hlist : atListEnd c = false := (Bool.or_eq_false_iff.1 hend).1
  rw [bodyItem, here_bind]
  split
  · exact advances_item (takes_of_atListEnd hlist)
      (advances_reportIf_variable BodyItem.local (fun _ => rfl) (fun _ => rfl) source c)
  · apply advances_bind (advances_recovering (advances_statement source c))
    rintro ys s d fs - ⟨-, hs⟩
    have hs := hs hlist
    refine advances_pure ⟨by simpa using hs.taken, ?_⟩
    rintro _ ⟨rfl⟩
    rw [List.append_nil]
    exact ⟨hs.stretch, hs.extents⟩

theorem advances_bodyItems (source : String) (c : Cursor) :
    ((bodyItems : Reader ε (List BodyItem)) c).Advances source E c
      (ItemsAt source atBodyEnd BodyItem.span BodyItem.nodes c) :=
  advances_items (fun c hk => by simp [atBodyEnd, atListEnd, hk])
    (fun seen _ => advances_bodyItem seen) false c

/-- The result has its place in the text; if no fault was noted, that is exact. -/
structure ResultPlaced (source : String) (r : MethodResult) (fs : List Fault) : Prop where
  valid : r.span.Valid source
  nested : r.Nested
  exact : fs = [] → r.span.Spells source r.yield
  extents : Extents source r.nodes fs

theorem ResultPlaced.of_error {s : Span} {fs : List Fault} (h : s.Valid source) (hf : fs ≠ []) :
    ResultPlaced source (.returns s (.error s)) fs :=
  ⟨h, ⟨Nat.le_refl _, Nat.le_refl _⟩, fun hnil => absurd hnil hf, .of_faulty
    (List.forall_mem_singleton.2 ⟨List.forall_mem_singleton.2 h, trivial⟩) hf⟩

theorem ResultPlaced.mono {r : MethodResult} {fs gs : List Fault} (h : ResultPlaced source r fs)
    (hnil : gs = [] → fs = []) : ResultPlaced source r gs :=
  ⟨h.valid, h.nested, fun hg => h.exact (hnil hg), h.extents.mono hnil⟩

theorem advances_returned (source : String) (c : Cursor) :
    (returned c).Advances source (Fault.Holds source) c fun _ r d fs =>
      Stretch source c [r.span] d ∧ ResultPlaced source r fs := by
  refine advances_expect_bind rfl fun d hd => ?_
  apply advances_bind (advances_expression source d)
  rintro ys e d' fs - ⟨rfl, rfl, he⟩
  refine advances_expect_bind rfl fun d'' hd' => ?_
  have hp := hd.trans (he.passage.trans hd')
  refine advances_spanFrom_bind hp (by simp) rfl (advances_pure ⟨hp.stretch_span (by simp), ?_⟩)
  have hrow := (hd.stretch.trans (he.stretch.trans hd'.stretch)).row
  exact ⟨hp.valid_span (by simp), hrow.within _ (by simp), fun _ => hp.spells (by simp), he.extents⟩

theorem advances_returnedRecovering (hk : c.current.kind = .returnKw) :
    ((returnedRecovering : Reader ε MethodResult) c).Advances source E c fun _ r d fs =>
      Stretch source c [r.span] d ∧ ResultPlaced source r fs := by
  rw [returnedRecovering, here_bind]
  apply advances_rescue (advances_returned source c)
  intro fault ys d fs hfault hp
  apply advances_bind (advances_recover hp hfault)
  rintro zs _ d' gs hp' ⟨hgs, htaken⟩
  have hys := htaken ⟨by simp [hk], .inr (by simp [hk])⟩
  have hpass := hp.trans hp'
  refine advances_spanFrom_bind hpass hys rfl (advances_pure ⟨hpass.stretch_span hys, ?_⟩)
  exact .of_error (hpass.valid_span hys) (by simp [hgs])

theorem advances_missingResult (hreturn : c.current.kind ≠ .returnKw)
    (hrecur : c.current.kind ≠ .recurKw) :
    ((missingResult : Reader ε MethodResult) c).Advances source E c fun _ r _ fs =>
      fs ≠ [] ∧ r.IsMissing ∧ ResultPlaced source r fs := by
  rw [missingResult, look_bind]
  refine .of_place fun hc => advances_report_bind (fun _ => ⟨hc.current_mem, ?_⟩) (advances_pure
    ⟨List.cons_ne_nil _ _, ⟨_, rfl⟩, .of_error hc.valid_point (List.cons_ne_nil _ _)⟩)
  simpa [Expectation.Admits] using ⟨hreturn, hrecur⟩

/-- What holds of the statements and the result of a method of which the body starts at `c`. -/
structure BodyAt (source : String) (c : Cursor) (ss : List Stmt) (r : MethodResult) (d : Cursor)
    (fs : List Fault) : Prop where
  statements : Stretch source c (ss.map Stmt.span) d
  nodes : Extents source (ss.flatMap Stmt.nodes) fs
  result : Stretch source c [r.span] d ∨ r.IsMissing
  placed : ResultPlaced source r fs

/-- The last of the statements becomes the result. -/
theorem BodyAt.of_last {init : List Stmt} {s : Stmt} {r : MethodResult} {fs : List Fault}
    (hbody : Stretch source origin ((init ++ [s]).map Stmt.span) c)
    (hns : Extents source ((init ++ [s]).flatMap Stmt.nodes) fs) (hspan : r.span = s.span)
    (hplaced : Extents source s.nodes fs → ResultPlaced source r fs) :
    BodyAt source origin init r c fs := by
  rw [List.flatMap_append] at hns
  rw [List.map_append] at hbody
  refine ⟨hbody.sublist (List.sublist_append_left _ _), hns.subset (List.subset_append_left _ _),
    .inl ?_, hplaced ?_⟩
  · rw [hspan]
    exact hbody.sublist (List.sublist_append_right _ _)
  · exact hns.subset (by simp)

theorem ResultPlaced.of_recur {r : Recur} {fs : List Fault}
    (h : Extents source (Stmt.recur r).nodes fs) : ResultPlaced source (.recurs r) fs where
  valid := (h.placed (.stmt (.recur r)) List.mem_cons_self).valid _ List.mem_cons_self
  nested := trivial
  exact hf := h.exact hf (.stmt (.recur r)) List.mem_cons_self _ List.mem_cons_self
  extents := h.subset (List.subset_cons_self _ _)

theorem ResultPlaced.of_error_statement {span : Span} {fs : List Fault}
    (h : Extents source (Stmt.error span).nodes fs) :
    ResultPlaced source (.returns span (.error span)) fs := by
  refine .of_error ((h.placed (.stmt (.error span)) List.mem_cons_self).valid _
    List.mem_cons_self) fun hf => ?_
  exact Span.not_spells_nil _ (h.exact hf (.stmt (.error span)) List.mem_cons_self _
    List.mem_cons_self)

theorem advances_methodResult {body : List Stmt} {noted : List Fault}
    (hbody : Stretch source origin (body.map Stmt.span) c)
    (hns : Extents source (body.flatMap Stmt.nodes) noted) (hend : atBodyEnd c = true) :
    ((methodResult body : Reader ε (List Stmt × MethodResult)) c).Advances source E c
      fun _ br d fs => BodyAt source origin br.1 br.2 d (noted ++ fs) := by
  rw [methodResult, isAt_bind]
  -- a result that is read or missing stands after all the statements
  have hafter : ∀ {ys : List Terminal} {r : MethodResult} {d : Cursor} {fs : List Fault},
      Passage source c ys d → Stretch source c [r.span] d ∨ r.IsMissing →
        ResultPlaced source r fs →
          BodyAt source origin body r d (noted ++ (fs ++ [])) := by
    intro ys r d fs hp hr hplaced
    refine ⟨by simpa using hbody.trans hp.stretch, hns.mono (by simp +contextual), ?_,
      hplaced.mono (by simp +contextual)⟩
    exact hr.imp_left fun h => by simpa using (hbody.sublist (List.nil_sublist _)).trans h
  split
  next hk =>
    apply advances_bind (advances_returnedRecovering (of_decide_eq_true hk))
    rintro ys r d fs hp ⟨hr, hplaced⟩
    exact advances_pure (hafter hp (.inl hr) hplaced)
  next hk =>
    rw [here_bind]
    cases hlast : body.getLast?.bind (trailing? c) with
    | some r =>
      refine advances_pure ?_
      rw [List.append_nil]
      obtain ⟨init, ⟨q, rfl, rfl⟩ | ⟨span, rfl, -, rfl⟩⟩ := exists_of_trailing hlast
      · rw [List.dropLast_concat]
        exact .of_last hbody hns rfl .of_recur
      · rw [List.dropLast_concat]
        exact .of_last hbody hns rfl .of_error_statement
    | none =>
      have hkinds : c.current.kind ≠ .returnKw ∧ c.current.kind ≠ .recurKw := by
        refine ⟨by simpa using hk, fun hrecur => ?_⟩
        simp [atBodyEnd, atListEnd, hrecur] at hend
      apply advances_bind (advances_missingResult hkinds.1 hkinds.2)
      rintro ys r d fs hp ⟨-, hmissing, hplaced⟩
      exact advances_pure (hafter hp (.inr hmissing) hplaced)

theorem advances_afterResult (source : String) (c : Cursor) :
    ((afterResult : Reader ε Unit) c).Advances source E c fun _ _ _ _ => True := by
  rw [afterResult, here_bind]
  split
  · exact advances_pure trivial
  next hend =>
    rw [look_bind]
    refine advances_report_bind (fun hc => holds_of_kind_ne hc rfl (fun hk => hend ?_) _) ?_
    · rw [atListEnd, hk]
    · exact advances_bind (advances_statements source c) fun _ _ _ _ _ _ => advances_pure trivial

/-- Whether or not a token is missing, reading goes on. -/
theorem advances_expectOrReport (source : String) {kind : TokenKind}
    (hs : kind.spelling?.isSome) (c : Cursor) :
    ((expectOrReport kind : Reader ε Unit) c).Advances source E c fun _ _ _ _ => True := by
  rw [← bind_pure (expectOrReport kind : Reader ε Unit)]
  exact advances_expectOrReport_bind hs (fun _ _ => advances_pure trivial)
    fun _ => advances_pure trivial

/-- What holds of the parts of a method that follow its head, which ends at `c`. -/
def PartsAt (source : String) (c : Cursor) : Post (List Variable × List Stmt × MethodResult) :=
  fun _ b d fs => Stretch source c (b.1.map Variable.span) d ∧
    Extents source (b.1.map Node.var) fs ∧ BodyAt source c b.2.1 b.2.2 d fs

theorem advances_methodBody (source : String) (c : Cursor) :
    ((methodBody : Reader ε (List Variable × List Stmt × MethodResult)) c).Advances source E c
      (PartsAt source c) := by
  apply advances_bind (advances_bodyItems source c)
  rintro ys items d fs hread hitems
  have hlocal : ∀ a v, BodyItem.local? a = some v → v.span = a.span ∧ [Node.var v] = a.nodes := by
    rintro (v | _) _ ⟨rfl⟩
    exact ⟨rfl, rfl⟩
  have hstatement : ∀ a s, BodyItem.statement? a = some s →
      s.span = a.span ∧ s.nodes = a.nodes := by
    rintro (_ | s) _ ⟨rfl⟩
    exact ⟨rfl, rfl⟩
  obtain ⟨hlocals, hvars⟩ := hitems.pick hlocal
  obtain ⟨hstatements, hbodyNodes⟩ := hitems.pick hstatement
  rw [← List.map_eq_flatMap] at hvars
  apply advances_bind (advances_methodResult hstatements hbodyNodes hitems.2.2)
  rintro zs ⟨body, result⟩ d₁ gs hresult hbody
  apply advances_bind (advances_afterResult source d₁)
  rintro ws _ d₂ hs hafter -
  apply advances_bind (advances_expectOrReport source rfl d₂)
  rintro us _ d₃ ks hbrace -
  have hlist : recurStatements (body.flatMap Stmt.nodes) = Stmt.recursList body := by
    rw [← Stmt.nodesList_eq, Stmt.recurStatements_nodesList]
  apply advances_bind (advances_reportRecurs hbody.nodes hlist d₃)
  rintro _ _ _ _ - ⟨rfl, rfl, -⟩
  -- what comes after the result only moves the end further on
  have hrest := (hafter.trans hbrace).stretch
  apply advances_pure
  refine ⟨by simpa using (hlocals.trans hresult.stretch).trans hrest,
    hvars.mono (by simp +contextual), ?_⟩
  exact ⟨by simpa using hbody.statements.trans hrest, hbody.nodes.mono (by simp +contextual),
    hbody.result.imp_left fun h => by simpa using h.trans hrest,
    hbody.placed.mono (by simp +contextual)⟩

/-! ## Methods and classes -/

/-- What holds of a method that was read from `c` on, its own yield apart. -/
structure MethodParts (source : String) (c : Cursor) (ys : List Terminal) (m : Method) (d : Cursor)
    (fs : List Fault) : Prop where
  taken : ys ≠ []
  span_eq : m.span = ⟨c.nextStart, d.lastStop⟩
  nested : (Node.method m).Nested
  paramsFirst : m.ParamsFirst
  result : ResultPlaced source m.result fs
  below : Extents source (m.params.map Node.param ++ (m.locals.map Node.var ++
    (m.body.flatMap Stmt.nodes ++ m.result.nodes))) fs

theorem advances_method_parts (source : String) (c : Cursor) :
    (method c).Advances source (Fault.Holds source) c (MethodParts source c) := by
  refine advances_expect_bind rfl fun d₁ h₁ => ?_
  apply advances_bind (advances_typeName source d₁)
  rintro ys t d₂ fs h₂ ⟨rfl, -⟩
  refine advances_expectName_bind fun n d₃ h₃ => advances_expect_bind rfl fun d₄ h₄ => ?_
  apply advances_bind (advances_parameters source d₄)
  rintro zs ps d₅ fs h₅ ⟨rfl, hps, hpns⟩
  refine advances_expect_bind rfl fun d₆ h₆ => advances_expect_bind rfl fun d₇ h₇ => ?_
  apply advances_bind (advances_methodBody source d₇)
  rintro us ⟨vs, ss, r⟩ d₈ fs h₈ ⟨hvs, hvns, hbody⟩
  have hhead := h₁.trans (h₂.trans (h₃.trans h₄))
  have hopen := hhead.trans (h₅.trans (h₆.trans h₇))
  have hp := hopen.trans h₈
  refine advances_spanFrom_bind hp (by simp) rfl (advances_pure ?_)
  simp only [List.nil_append, List.append_nil]
  have hparams := (hhead.stretch.trans (hps.trans (h₆.trans (h₇.trans h₈)).stretch)).row
  have hresult : r.span.Within ⟨c.nextStart, d₈.lastStop⟩ ∨ r.IsMissing :=
    hbody.result.imp_left fun h => (hopen.stretch.trans h).row.within _ (by simp)
  -- the parameters stand before the brace that all else comes after
  have hbefore : ∀ {ts : List Span}, Stretch source d₇ ts d₈ → ∀ v ∈ ps, ∀ t ∈ ts,
      v.span.stop ≤ t.start := fun hts v hv t ht =>
    hps.stop_le_start ((h₆.trans h₇).stretch.trans hts) (List.mem_map_of_mem hv) (by simpa using ht)
  have hfirst : ∀ v ∈ ps, v.span.stop ≤ r.span.start ∨ r.IsMissing := fun v hv =>
    hbody.result.imp_left fun h => hbefore h v hv _ List.mem_cons_self
  refine ⟨List.cons_ne_nil _ _, rfl, ⟨by simpa using hparams, (hopen.stretch.trans hvs).row,
    (hopen.stretch.trans hbody.statements).row, hbody.placed.nested, hresult⟩,
    ⟨fun v hv w hw => hbefore hvs v hv _ (List.mem_map_of_mem hw),
      fun v hv s hs => hbefore hbody.statements v hv _ (List.mem_map_of_mem hs), hfirst⟩,
    hbody.placed, ?_⟩
  have hbelow := hpns.append (hvns.append (hbody.nodes.append hbody.placed.extents))
  exact hbelow.mono (by simp +contextual)

/-- What holds of a declaration with these nodes that was read from `c` on. -/
def DeclarationAt {α : Type} (source : String) (span : α → Span) (nodes : α → List Node)
    (c : Cursor) : Post α := fun ys a d fs =>
  ys ≠ [] ∧ span a = ⟨c.nextStart, d.lastStop⟩ ∧ Extents source (nodes a) fs

/-- A declaration is an item by itself. -/
theorem advances_some {α β : Type} {reader : Reader Fault α} {f : α → β} {span : β → Span}
    {nodes : β → List Node}
    (h : (reader c).Advances source (Fault.Holds source) c
      (DeclarationAt source (span ∘ f) (nodes ∘ f) c)) :
    ((do
      let a ← reader
      return some (f a) : Reader Fault (Option β)) c).Advances source (Fault.Holds source) c
        (ItemAt source span nodes c) := by
  apply advances_bind h
  rintro ys a d fs hp ⟨hys, hspan, hns⟩
  refine advances_pure ⟨by simpa using hys, ?_⟩
  rintro _ ⟨rfl⟩
  rw [List.append_nil, show span (f a) = _ from hspan]
  exact ⟨hp.stretch_span hys, hns⟩

theorem advances_method (source : String) (c : Cursor) :
    (method c).Advances source (Fault.Holds source) c
      (DeclarationAt source Method.span Method.nodes c) := by
  refine .passage (((advances_method_parts source c).and_ensures (ensures_method c)).mono ?_)
  rintro ys m d fs ⟨hm, hyield⟩ hp
  refine ⟨hm.taken, hm.span_eq, hm.below.cons ⟨?_, hm.nested⟩ fun hf => ?_⟩
  · refine List.forall_mem_cons.2 ⟨?_, List.forall_mem_singleton.2 hm.result.valid⟩
    rw [hm.span_eq]
    exact hp.valid_span hm.taken
  · refine List.forall_mem_cons.2 ⟨?_, List.forall_mem_singleton.2 (hm.result.exact hf)⟩
    rw [hm.span_eq, ← hyield.yield_eq hf]
    exact hp.spells hm.taken

theorem advances_member (seen : Bool) (hend : atMembersEnd c = false) :
    ((member seen : Reader ε (Option Member)) c).Advances source E c
      (ItemAt source Member.span Member.nodes c) := by
  have htakes : Region.members.Takes c.current.kind := by
    refine ⟨fun hk => ?_, .inr fun hk => ?_⟩ <;> simp [atMembersEnd, hk] at hend
  rw [member, here_bind]
  apply advances_item htakes
  split
  · exact advances_some (advances_method source c)
  · exact advances_reportIf_variable Member.field (fun _ => rfl) (fun _ => rfl) source c

theorem advances_members (source : String) (c : Cursor) :
    ((members : Reader ε (List Member)) c).Advances source E c
      (ItemsAt source atMembersEnd Member.span Member.nodes c) :=
  advances_items (fun c hk => by simp [atMembersEnd, hk]) (fun seen _ => advances_member seen)
    false c

theorem advances_superclass (source : String) (c : Cursor) :
    (superclass c).Advances source (Fault.Holds source) c fun _ _ _ _ => True :=
  advances_eat_bind rfl
    (fun _ _ => advances_expectName_bind fun _ _ _ => advances_pure trivial)
    fun _ => advances_pure trivial

theorem advances_classDecl_parts (source : String) (c : Cursor) :
    (classDecl c).Advances source (Fault.Holds source) c fun ys k d fs =>
      ys ≠ [] ∧ k.span = ⟨c.nextStart, d.lastStop⟩ ∧ (Node.classDecl k).Nested ∧
        Extents source (k.fields.map Node.var ++ k.methods.flatMap Method.nodes) fs := by
  refine advances_expect_bind rfl fun d₁ h₁ => advances_expectName_bind fun n d₂ h₂ => ?_
  apply advances_bind (advances_superclass source d₂)
  rintro ys s d₃ fs h₃ -
  refine advances_expect_bind rfl fun d₄ h₄ => ?_
  apply advances_bind (advances_members source d₄)
  rintro zs items d₅ gs h₅ hitems
  have hfield : ∀ a v, Member.field? a = some v → v.span = a.span ∧ [Node.var v] = a.nodes := by
    rintro (v | _) _ ⟨rfl⟩
    exact ⟨rfl, rfl⟩
  have hmethod : ∀ a m, Member.method? a = some m → m.span = a.span ∧ m.nodes = a.nodes := by
    rintro (_ | m) _ ⟨rfl⟩
    exact ⟨rfl, rfl⟩
  obtain ⟨hfields, hvars⟩ := hitems.pick hfield
  obtain ⟨hmethods, hmethodNodes⟩ := hitems.pick hmethod
  rw [← List.map_eq_flatMap] at hvars
  apply advances_bind (advances_expectOrReport source rfl d₅)
  rintro us _ d₆ hs h₆ -
  have hopen := h₁.trans (h₂.trans (h₃.trans h₄))
  have hp := hopen.trans (h₅.trans h₆)
  refine advances_spanFrom_bind hp (by simp) rfl (advances_pure ?_)
  refine ⟨List.cons_ne_nil _ _, rfl, ⟨?_, ?_⟩, (hvars.append hmethodNodes).mono ?_⟩
  · simpa using (hopen.stretch.trans (hfields.trans h₆.stretch)).row
  · simpa using (hopen.stretch.trans (hmethods.trans h₆.stretch)).row
  · simp +contextual

theorem advances_classDecl (source : String) (c : Cursor) :
    (classDecl c).Advances source (Fault.Holds source) c
      (DeclarationAt source ClassDecl.span ClassDecl.nodes c) := by
  refine .passage (((advances_classDecl_parts source c).and_ensures (ensures_classDecl c)).mono ?_)
  rintro ys k d fs ⟨⟨hys, hspan, hnested, hbelow⟩, hyield⟩ hp
  exact ⟨hys, hspan, hbelow.cons_of_passage hp hys (by rw [Node.extents, hspan]) hyield.yield_eq
    hnested⟩

end Parse

end MiniJava
