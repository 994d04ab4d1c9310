import MiniJava.Proofs.Program.Sound
import MiniJava.Proofs.Reading.Analysis
import MiniJava.Proofs.Statement.NearestElse

/-!
# Every `else` belongs to the nearest `if`

What holds of the statements that are read holds of all statements in the tree of a text: a method
and a class add no `if` of their own, and what stands in for a faulty one has none.
-/

namespace MiniJava

namespace Parse

open Reader Reading

variable {ε : Type} {c : Cursor}

/-! ## Methods -/

/-- The `if`s in an item of a method body have their `else`. -/
def BodyItem.Nearest (item : BodyItem) : Prop := ∀ s ∈ item.statement?, ElsesNearest s.nodes

theorem nearest_bodyItem (seen : Bool) (c : Cursor) :
    ((bodyItem seen : Reader ε (Option BodyItem)) c).Ensures c fun _ a _ _ =>
      ∀ b ∈ a, b.Nearest := by
  rw [bodyItem, here_bind]
  split
  · refine ensures_rescue ((ensures_reportIf_variable c).mono ?_) fun fault ys d fs _ => ?_
    · rintro ys a d fs ⟨v, rfl, -, -⟩ b hb
      cases hb
      rintro _ ⟨⟩
    · apply ensures_bind (ensures_recover .statements c fault d)
      intro _ _ _ _ _ _
      exact ensures_pure (by rintro _ ⟨⟩)
  · apply ensures_bind (nearest_recovering nearest_statement c)
    intro _ s d _ _ hs
    refine ensures_pure fun b hb => ?_
    cases hb
    rintro p hp
    cases hp
    exact hs

theorem nearest_bodyItems (c : Cursor) :
    ((bodyItems : Reader ε (List BodyItem)) c).Ensures c fun _ items _ _ =>
      ElsesNearest ((items.filterMap BodyItem.statement?).flatMap Stmt.nodes) := by
  refine (ensures_manyFrom_forall nearest_bodyItem c.room false c).mono ?_
  intro _ items _ _ hitems
  refine List.forall_mem_flatMap.2 fun s hs => ?_
  obtain ⟨item, hitem, hpick⟩ := List.mem_filterMap.1 hs
  exact hitems item hitem s hpick

/-- The last statement may be taken away, which leaves the others. -/
theorem nearest_methodResult {body : List Stmt} (h : ElsesNearest (body.flatMap Stmt.nodes))
    (c : Cursor) : ((methodResult body : Reader ε (List Stmt × MethodResult)) c).Ensures c
      fun _ br _ _ => ElsesNearest (br.1.flatMap Stmt.nodes) := by
  have hinit : ElsesNearest (body.dropLast.flatMap Stmt.nodes) :=
    List.forall_mem_flatMap.2 fun s hs =>
      List.forall_mem_flatMap.1 h s (List.dropLast_subset body hs)
  rw [methodResult, isAt_bind]
  split
  · exact ensures_bind (ensures_returnedRecovering c) fun _ _ _ _ _ _ => ensures_pure h
  · rw [here_bind]
    cases body.getLast?.bind (trailing? c) with
    | some r => exact ensures_pure hinit
    | none => exact ensures_bind (ensures_missingResult c) fun _ _ _ _ _ _ => ensures_pure h

theorem nearest_methodBody (c : Cursor) :
    ((methodBody : Reader ε (List Variable × List Stmt × MethodResult)) c).Ensures c
      fun _ b _ _ => ElsesNearest (b.2.1.flatMap Stmt.nodes) := by
  apply ensures_bind (nearest_bodyItems c)
  intro _ items d _ _ hitems
  apply ensures_bind (nearest_methodResult hitems d)
  rintro _ ⟨body, result⟩ d _ - hbody
  refine ensures_bind (ensures_afterResult d) fun _ _ d _ _ _ => ?_
  refine ensures_bind (ensures_expectOrReport Node.Legal rfl d) fun _ _ d _ _ _ => ?_
  apply ensures_bind (ensures_reportRecurs (Stmt.recursList body) d)
  intro _ _ _ _ _ _
  exact ensures_pure hbody

theorem elsesNearest_method {m : Method} (h : ElsesNearest (m.body.flatMap Stmt.nodes)) :
    ElsesNearest m.nodes := by
  refine .cons trivial (.append ?_ (.append ?_ (h.append (.result m.result))))
  · exact List.forall_mem_map.2 fun _ _ => trivial
  · exact List.forall_mem_map.2 fun _ _ => trivial

theorem nearest_method (c : Cursor) :
    (method c).Ensures c fun _ m _ _ => ElsesNearest m.nodes := by
  refine ensures_expect_bind rfl fun _ d _ => ensures_bind (ensures_typeName d) ?_
  intro _ _ _ _ _ _
  refine ensures_expectName_bind fun n d hn _ => ensures_expect_bind rfl fun _ d _ => ?_
  apply ensures_bind (ensures_parameters d)
  intro _ _ _ _ _ _
  refine ensures_expect_bind rfl fun _ d _ => ensures_expect_bind rfl fun _ d _ => ?_
  apply ensures_bind (nearest_methodBody d)
  rintro _ ⟨locals, body, result⟩ d _ - hbody
  exact ensures_pure (elsesNearest_method hbody)

/-! ## Classes -/

/-- The `if`s in a member of a class have their `else`. -/
def Member.Nearest (member : Member) : Prop := ∀ m ∈ member.method?, ElsesNearest m.nodes

theorem nearest_member (seen : Bool) (c : Cursor) :
    ((member seen : Reader ε (Option Member)) c).Ensures c fun _ a _ _ => ∀ b ∈ a, b.Nearest := by
  rw [member, here_bind]
  refine ensures_rescue ?_ fun fault ys d fs _ => ?_
  · split
    · apply ensures_bind (nearest_method c)
      intro _ m _ _ _ hm
      refine ensures_pure fun b hb => ?_
      cases hb
      rintro m' hm'
      cases hm'
      exact hm
    · apply (ensures_reportIf_variable c).mono
      rintro _ a _ _ ⟨v, rfl, -, -⟩ b hb
      cases hb
      rintro _ ⟨⟩
  · apply ensures_bind (ensures_recover .members c fault d)
    intro _ _ _ _ _ _
    exact ensures_pure (by rintro _ ⟨⟩)

theorem nearest_members (c : Cursor) :
    ((members : Reader ε (List Member)) c).Ensures c fun _ items _ _ =>
      ∀ m ∈ items.filterMap Member.method?, ElsesNearest m.nodes := by
  refine (ensures_manyFrom_forall nearest_member c.room false c).mono ?_
  intro _ items _ _ hitems m hm
  obtain ⟨item, hitem, hpick⟩ := List.mem_filterMap.1 hm
  exact hitems item hitem m hpick

theorem elsesNearest_classDecl {k : ClassDecl} (h : ∀ m ∈ k.methods, ElsesNearest m.nodes) :
    ElsesNearest k.nodes := by
  refine .cons trivial (.append ?_ (List.forall_mem_flatMap.2 h))
  exact List.forall_mem_map.2 fun _ _ => trivial

theorem nearest_classDecl (c : Cursor) :
    (classDecl c).Ensures c fun _ k _ _ => ElsesNearest k.nodes := by
  refine ensures_expect_bind rfl fun _ d _ => ensures_expectName_bind fun n d hn _ => ?_
  refine ensures_bind (ensures_superclass d) fun _ _ d _ _ _ => ?_
  apply ensures_expect_bind rfl
  intro _ d _
  apply ensures_bind (nearest_members d)
  intro _ items d _ _ hitems
  refine ensures_bind (ensures_expectOrReport Node.Legal rfl d) fun _ _ d _ _ _ => ?_
  exact ensures_pure (elsesNearest_classDecl hitems)

/-! ## Programs -/

theorem nearest_oneStatement (span : Span) {ss : List Stmt}
    (h : ElsesNearest (ss.flatMap Stmt.nodes)) (c : Cursor) :
    ((oneStatement span ss : Reader ε Stmt) c).Ensures c fun _ s _ _ => ElsesNearest s.nodes := by
  unfold oneStatement
  split
  next s =>
    rw [List.flatMap_singleton] at h
    exact ensures_pure h
  next =>
    refine ensures_bind (R := fun _ _ _ _ => True) (ensures_report trivial) ?_
    intro _ _ d _ _ _
    exact ensures_pure (Stmt.readUpTo_block h d).nearest

theorem nearest_mainBody (start : Nat) (c : Cursor) :
    ((mainBody start : Reader ε Stmt) c).Ensures c fun _ s _ _ => ElsesNearest s.nodes := by
  apply ensures_bind (nearest_statements c)
  intro _ ss d _ _ hss
  refine ensures_bind (ensures_expectOrReport Node.Legal rfl d) fun _ _ d _ _ _ => ?_
  rw [spanFrom_bind]
  refine ensures_bind (ensures_expectOrReport Node.Legal rfl d) fun _ _ d _ _ _ => ?_
  apply ensures_bind (nearest_oneStatement _ hss d)
  intro _ s d _ _ hs
  apply ensures_bind (ensures_reportRecurs s.recurs d)
  intro _ _ _ _ _ _
  exact ensures_pure hs

theorem nearest_mainClassRecovering (c : Cursor) :
    ((mainClassRecovering : Reader ε MainClass) c).Ensures c fun _ m _ _ =>
      ElsesNearest m.body.nodes := by
  rw [mainClassRecovering, look_bind]
  refine ensures_rescue ?_ fun fault ys d fs _ => ?_
  · refine ensures_expect_bind rfl fun _ d _ => ensures_bind (ensures_mainHead d) ?_
    rintro _ ⟨n, a⟩ d _ - -
    apply ensures_expect_bind rfl
    intro _ d _
    apply ensures_bind (nearest_mainBody _ d)
    intro _ _ _ _ _ hs
    exact ensures_pure hs
  · rw [here_bind]
    apply ensures_bind (ensures_recover .toplevel d fault d)
    intro _ _ _ _ _ _
    exact ensures_pure (.error _)

theorem nearest_topLevelItem (c : Cursor) :
    ((topLevelItem : Reader ε (Option ClassDecl)) c).Ensures c fun _ a _ _ =>
      ∀ k ∈ a, ElsesNearest k.nodes := by
  rw [topLevelItem, here_bind]
  refine ensures_rescue ?_ fun fault ys d fs _ => ?_
  · split
    · apply ensures_bind (nearest_classDecl c)
      intro _ k _ _ _ hk
      refine ensures_pure fun k' hk' => ?_
      cases hk'
      exact hk
    · exact ensures_failUnexpected _ _ _
  · apply ensures_bind (ensures_recover .toplevel c fault d)
    intro _ _ _ _ _ _
    exact ensures_pure (by rintro _ ⟨⟩)

theorem nearest_program (c : Cursor) :
    ((program : Reader ε Program) c).Ensures c fun _ p _ _ => ElsesNearest p.nodes := by
  rw [program, look_bind]
  apply ensures_bind (nearest_mainClassRecovering c)
  intro _ m d _ _ hm
  apply ensures_bind (ensures_manyFrom_forall (fun _ => nearest_topLevelItem) d.room () d)
  intro _ ks d _ _ hks
  exact ensures_pure (.cons trivial (hm.append (List.forall_mem_flatMap.2 hks)))

theorem nearest_wholeStatement (c : Cursor) :
    (wholeStatement c).Ensures c fun _ s _ _ => ElsesNearest s.nodes := by
  apply ensures_bind (nearest_recovering nearest_statement c)
  intro _ s d _ _ hs
  refine ensures_bind (R := fun _ _ _ _ => True) (f := fun _ => pure s) ?_
    fun _ _ _ _ _ _ => ensures_pure hs
  rw [expectEnd, here_bind]
  split
  · exact ensures_pure trivial
  · rw [look_bind]
    exact ensures_report trivial

end Parse

/--
In the tree of any text, correct or not, an `if` either lacks its `else`, or the `else` is followed
by a statement and belongs to this `if`: no `if` that ends the first branch lacks one.
-/
theorem parse_else_nearest (source : String) :
    (∀ n ∈ (parse source).tree.nodes, n.ElseNearest) ∧
      ∀ n ∈ (parseStatement source).tree.nodes, n.ElseNearest :=
  ⟨(Parse.nearest_program _).tree, (Parse.nearest_wholeStatement _).tree⟩

end MiniJava
