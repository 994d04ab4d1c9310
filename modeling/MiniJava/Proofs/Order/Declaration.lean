import MiniJava.Proofs.Extents.Program
import MiniJava.Proofs.Order.Late

/-!
# What is noted about the order of declarations

A rule of order is noted to be broken at the places where the tree that is given breaks it, and
nowhere else: what was taken out of the tree on the way has left no trace in the faults. The rule on
how many statements the main method has is left out, since it is about no place of its own.
-/

namespace MiniJava.Parse

open Reader Reading

variable {ε : Type} {source : String} {rule : OrderRule} {E : ε → Prop} {c : Cursor}

/-! ## Items -/

theorem spanned_bodyLayout : bodyLayout.Spanned BodyItem.span Variable.span Stmt.span := by
  constructor
  · rintro (v | _) _ ⟨rfl⟩
    exact ⟨rfl, rfl⟩
  · rintro (_ | s) _ ⟨rfl⟩
    exact ⟨rfl, rfl⟩

theorem spanned_memberLayout : memberLayout.Spanned Member.span Variable.span Method.span := by
  constructor
  · rintro (v | _) _ ⟨rfl⟩
    exact ⟨rfl, rfl⟩
  · rintro (_ | m) _ ⟨rfl⟩
    exact ⟨rfl, rfl⟩

/-- A declaration that is read is reported just if it comes late. -/
theorem settles_reportIf_variable {α : Type} (f : Variable → α) (seen : Bool) (r : OrderRule)
    (hc : c.Of source) :
    ((do
      let v ← variableDecl
      reportIf seen (.misplaced r v.span)
      return some (f v) : Reader Fault (Option α)) c).Settles rule Fault.IsObjection
        fun a _ bs => ∃ v, a = some (f v) ∧ bs = if seen ∧ r = rule then [v.span] else [] := by
  refine settles_objecting_bind hc fun v d _ => settles_bind (settles_reportIf seen r v.span d) ?_
  rintro _ d _ rfl
  exact settles_pure ⟨v, rfl, List.append_nil _⟩

/-- What is skipped leaves no item, and no rule of order is noted to be broken. -/
theorem settles_skipped {α : Type} (region : Region) (origin : Cursor) {fault : Fault}
    (h : fault.IsObjection) (c : Cursor) :
    ((do
      recover region origin fault
      return none : Reader ε (Option α)) c).Settles rule E fun a _ bs => a = none ∧ bs = [] := by
  have hrecover := objecting_recover (E := E) region origin h
  refine settles_bind (settles_objecting (p := recover region origin fault) c) ?_
  rintro _ d _ rfl
  exact settles_pure ⟨rfl, rfl⟩

/-! ## Bodies of methods -/

/-- What an item of a method body owes. -/
def owedItem (rule : OrderRule) : Bool → BodyItem → List Span :=
  bodyLayout.owed (.localsFirst = rule) Variable.span fun _ => []

theorem settles_bodyItem (seen : Bool) (hc : c.Of source) :
    ((bodyItem seen : Reader ε (Option BodyItem)) c).Settles rule Never fun a _ bs =>
      bs = (a.map (owedItem rule seen)).getD [] ∧ ∀ b ∈ a, True := by
  rw [bodyItem, here_bind]
  split
  · refine settles_rescue (E := Fault.IsObjection) ?_ fun fault d h => ?_
    · refine (settles_reportIf_variable BodyItem.local seen .localsFirst hc).mono ?_
      rintro a d bs ⟨v, rfl, rfl⟩
      exact ⟨by simp [owedItem, Layout.owed, bodyLayout, BodyItem.local?, BodyItem.statement?],
        fun _ _ => trivial⟩
    · refine (settles_skipped .statements c h d).mono ?_
      rintro a e bs ⟨rfl, rfl⟩
      exact ⟨rfl, fun _ _ => trivial⟩
  · refine settles_bind (settles_objecting c) ?_
    rintro s d _ rfl
    refine settles_pure ⟨?_, fun _ _ => trivial⟩
    simp [owedItem, Layout.owed, bodyLayout, BodyItem.local?, BodyItem.statement?]

/-- What is noted of the items of a body, and where they stand. -/
theorem settles_bodyItems (hc : c.Of source) :
    ((bodyItems : Reader ε (List BodyItem)) c).Settles rule Never fun items d bs =>
      bs = owedBy bodyLayout.next (owedItem rule) false items ∧
        Stretch source c (items.map BodyItem.span) d := by
  have hread : ((bodyItems : Reader ε (List BodyItem)) c).Settles rule Never fun items _ bs =>
      bs = owedBy bodyLayout.next (owedItem rule) false items ∧ ∀ a ∈ items, True :=
    settles_manyFrom (fun seen _ => settles_bodyItem seen) c.room false hc
  refine (hread.and_advances (F := Never) (advances_bodyItems source c) hc).mono ?_
  rintro items d bs ⟨⟨hbs, -⟩, ys, fs, -, hitems⟩
  exact ⟨hbs, hitems.1⟩

/-- What may become of statements up to `d` at the end of a method: the last may be the result. -/
inductive EndsAs (stmts : List Stmt) (d : Cursor) : List Stmt → MethodResult → Prop
  | after {r : MethodResult} (h : d.nextStart ≤ r.span.start) : EndsAs stmts d stmts r
  | last {init : List Stmt} {s : Stmt} {r : MethodResult} (h : stmts = init ++ [s])
      (hspan : r.span = s.span) : EndsAs stmts d init r

theorem settles_missingResult (c : Cursor) :
    ((missingResult : Reader ε MethodResult) c).Settles rule E fun r _ bs =>
      bs = [] ∧ c.nextStart ≤ r.span.start := by
  have hnone : ((missingResult : Reader ε MethodResult) c).Settles rule E fun _ _ bs => bs = [] :=
    settles_objecting c
  refine ⟨hnone.failure, fun r hr => ⟨hnone.success r hr, ?_⟩⟩
  cases hr
  exact Nat.le_refl _

theorem settles_returnedRecovering (hk : c.current.kind = .returnKw) (hc : c.Of source) :
    ((returnedRecovering : Reader ε MethodResult) c).Settles rule E fun r _ bs =>
      bs = [] ∧ c.nextStart ≤ r.span.start := by
  refine ((settles_objecting (p := (returnedRecovering : Reader ε MethodResult))
    c).and_advances (F := Never) (advances_returnedRecovering hk) hc).mono ?_
  rintro r d bs ⟨rfl, ys, fs, -, hr, -⟩
  exact ⟨rfl, (hr.within r.span List.mem_cons_self).1⟩

theorem settles_methodResult (body : List Stmt) (hc : c.Of source) :
    ((methodResult body : Reader ε (List Stmt × MethodResult)) c).Settles rule E
      fun br _ bs => bs = [] ∧ EndsAs body c br.1 br.2 := by
  rw [methodResult, isAt_bind]
  split
  next hk =>
    refine settles_bind (settles_returnedRecovering (of_decide_eq_true hk) hc) ?_
    rintro r d _ ⟨rfl, hr⟩
    exact settles_pure ⟨rfl, .after hr⟩
  next =>
    rw [here_bind]
    cases hlast : body.getLast?.bind (trailing? c) with
    | some r =>
      obtain ⟨init, ⟨q, rfl, rfl⟩ | ⟨span, rfl, -, rfl⟩⟩ := exists_of_trailing hlast
      · rw [List.dropLast_concat]
        exact settles_pure ⟨rfl, .last rfl rfl⟩
      · rw [List.dropLast_concat]
        exact settles_pure ⟨rfl, .last rfl rfl⟩
    | none =>
      refine settles_bind (settles_missingResult c) ?_
      rintro r d _ ⟨rfl, hr⟩
      exact settles_pure ⟨rfl, .after hr⟩

/-- A statement was read before a variable just if one that is left, or the result, starts before. -/
theorem EndsAs.any_start_lt {stmts body : List Stmt} {r : MethodResult} {d : Cursor} {offset : Nat}
    (h : EndsAs stmts d body r) (hoffset : offset ≤ d.nextStart) :
    stmts.any (fun s => s.span.start < offset) =
      (body.any (fun s => s.span.start < offset) || decide (r.span.start < offset)) := by
  cases h with
  | after hr =>
    have hge : ¬ r.span.start < offset := Nat.not_lt.2 (Nat.le_trans hoffset hr)
    rw [decide_eq_false hge, Bool.or_false]
  | last hstmts hspan => rw [hstmts, List.any_append, hspan, List.any_cons, List.any_nil,
      Bool.or_false]

theorem EndsAs.stop_le_start {stmts body : List Stmt} {d : Cursor} {r : MethodResult}
    (h : EndsAs stmts d body r) (hstretch : Stretch source c (stmts.map Stmt.span) d)
    (hd : d.Of source) : ∀ s ∈ body, s.span.stop ≤ r.span.start := by
  intro s hs
  cases h with
  | after hr =>
    have hstop := (hstretch.within _ (List.mem_map_of_mem hs)).2
    exact Nat.le_trans hstop (Nat.le_trans hd.lastStop_le hr)
  | last hstmts hspan =>
    subst hstmts
    have hordered := hstretch.ordered
    rw [List.map_append, List.pairwise_append] at hordered
    rw [hspan]
    exact hordered.2.2 _ (List.mem_map_of_mem hs) _ List.mem_cons_self

theorem settles_reportRecurs (rs : List Recur) (c : Cursor) :
    ((reportRecurs rs : Reader ε Unit) c).Settles rule E fun _ _ bs =>
      bs = if .recurEndsMethod = rule then rs.map Recur.span else [] where
  failure _ he := by cases he
  success _ _ := by
    have hfaults : ((reportRecurs rs : Reader ε Unit) c).faults = misplacedRecurs rs := by
      simp [reportRecurs, noteAll, faults, misplacedRecurs, Entry.fault?, List.filterMap_map,
        Function.comp_def]
    rw [hfaults, breaches, misplacedRecurs, List.filterMap_map]
    by_cases hr : .recurEndsMethod = rule <;> simp [Function.comp_def, Fault.brokenAt?, hr]

/-- What holds of the parts of a method that follow its head. -/
def PartsSettled (rule : OrderRule) (b : List Variable × List Stmt × MethodResult) (_ : Cursor)
    (bs : List Span) : Prop :=
  ∀ m : Method, m.locals = b.1 → m.body = b.2.1 → m.result = b.2.2 →
    bs = m.breaches rule ∧ m.ResultLast

/-- What the items of a body owe shows in the method that is made of them. -/
theorem owedBy_bodyItems {items : List BodyItem} {body : List Stmt} {result : MethodResult}
    {d : Cursor} (hitems : Stretch source c (items.map BodyItem.span) d) (hd : d.Of source)
    (hend : EndsAs (items.filterMap BodyItem.statement?) d body result) (m : Method)
    (hlocals : m.locals = items.filterMap BodyItem.local?) (hbody : m.body = body)
    (hresult : m.result = result) :
    owedBy bodyLayout.next (owedItem rule) false items =
      if .localsFirst = rule then m.lateLocals.map Variable.span else [] := by
  by_cases hr : .localsFirst = rule
  · rw [if_pos hr, owedItem, decide_eq_true hr,
      Layout.owedBy_against spanned_bodyLayout hitems.row false, Method.lateLocals, hlocals]
    refine congrArg (List.map Variable.span) (List.filter_congr fun v hv => ?_)
    have hspan : v.span ∈ items.map BodyItem.span := by
      obtain ⟨item, hitem, hpick⟩ := List.mem_filterMap.1 hv
      rw [(spanned_bodyLayout.early item v hpick).1]
      exact List.mem_map_of_mem hitem
    have hstart : v.span.start ≤ d.nextStart :=
      Nat.le_trans (Nat.le_of_lt (hitems.nonempty _ hspan))
        (Nat.le_trans (hitems.within _ hspan).2 hd.lastStop_le)
    rw [Bool.false_or, hbody, hresult, ← hend.any_start_lt hstart]
    rfl
  · rw [if_neg hr, owedItem, decide_eq_false hr, Layout.owedBy_not_against,
      List.flatMap_eq_nil_iff]
    exact fun _ _ => rfl

theorem settles_methodBody (hc : c.Of source) :
    ((methodBody : Reader ε (List Variable × List Stmt × MethodResult)) c).Settles rule Never
      (PartsSettled rule) := by
  apply settles_bind (settles_place (settles_bodyItems hc) hc)
  rintro items d _ ⟨⟨rfl, hitems⟩, hd⟩
  apply settles_bind (settles_methodResult _ hd)
  rintro ⟨body, result⟩ d₁ _ ⟨rfl, hend⟩
  apply settles_bind (settles_objecting (p := afterResult) d₁)
  rintro _ d₂ _ rfl
  apply settles_bind (settles_objecting (p := expectOrReport .rightBrace) d₂)
  rintro _ d₃ _ rfl
  apply settles_bind (settles_reportRecurs (Stmt.recursList body) d₃)
  rintro _ d₄ _ rfl
  refine settles_pure fun m hlocals hbody hresult => ⟨?_, ?_⟩
  · rw [owedBy_bodyItems hitems hd hend m hlocals hbody hresult, Method.breaches, Method.recurs,
      hbody]
    simp
  · rw [Method.ResultLast, hbody, hresult]
    refine hend.stop_le_start (hitems.sublist ?_) hd
    exact List.sublist_map_filterMap (fun a s h => (spanned_bodyLayout.late a s h).1) items

/-! ## Methods and classes -/

theorem settles_method_parts (hc : c.Of source) :
    (method c).Settles rule Fault.IsObjection fun m _ bs =>
      bs = m.breaches rule ∧ m.ResultLast := by
  refine settles_objecting_bind hc fun first d₁ h₁ => settles_objecting_bind h₁ fun t d₂ h₂ => ?_
  refine settles_objecting_bind h₂ fun n d₃ h₃ => settles_objecting_bind h₃ fun _ d₄ h₄ => ?_
  refine settles_objecting_bind h₄ fun ps d₅ h₅ => settles_objecting_bind h₅ fun _ d₆ h₆ => ?_
  refine settles_objecting_bind h₆ fun _ d₇ h₇ => ?_
  apply settles_bind (settles_methodBody h₇).of_never
  rintro ⟨locals, body, result⟩ d₈ bs hparts
  refine settles_pure ?_
  rw [List.append_nil]
  exact hparts _ rfl rfl rfl

theorem settles_method (hc : c.Of source) :
    (method c).Settles rule Fault.IsObjection fun m _ bs => bs = m.breaches rule ∧ m.InOrder := by
  refine ((settles_method_parts hc).and_advances (advances_method_parts source c) hc).mono ?_
  rintro m d bs ⟨⟨hbs, hlast⟩, ys, fs, -, hm⟩
  exact ⟨hbs, hm.paramsFirst, hlast⟩

/-- What a member of a class owes. -/
def owedMember (rule : OrderRule) : Bool → Member → List Span :=
  memberLayout.owed (.fieldsFirst = rule) Variable.span fun m =>
    if .fieldsFirst = rule then [] else m.breaches rule

theorem settles_member (seen : Bool) (hc : c.Of source) :
    ((member seen : Reader ε (Option Member)) c).Settles rule Never fun a _ bs =>
      bs = (a.map (owedMember rule seen)).getD [] ∧
        ∀ b ∈ a, ∀ m ∈ b.method?, m.InOrder := by
  rw [member, here_bind]
  refine settles_rescue (E := Fault.IsObjection) ?_ fun fault d h => ?_
  · split
    · apply settles_bind (settles_method hc)
      rintro m d _ ⟨rfl, horder⟩
      refine settles_pure ⟨?_, ?_⟩
      · by_cases hr : .fieldsFirst = rule
        · subst hr
          simp [owedMember, Layout.owed, memberLayout, Member.field?, Member.method?,
            Method.breaches_fieldsFirst]
        · simp [owedMember, Layout.owed, memberLayout, Member.method?, hr]
      · rintro _ ⟨rfl⟩ _ ⟨rfl⟩
        exact horder
    · refine (settles_reportIf_variable Member.field seen .fieldsFirst hc).mono ?_
      rintro a d bs ⟨v, rfl, rfl⟩
      refine ⟨by simp [owedMember, Layout.owed, memberLayout, Member.field?, Member.method?], ?_⟩
      rintro _ ⟨rfl⟩ _ ⟨⟩
  · refine (settles_skipped .members c h d).mono ?_
    rintro a e bs ⟨rfl, rfl⟩
    exact ⟨rfl, fun b hb => by cases hb⟩

/-- What the members of a class owe shows in the class that is made of them. -/
theorem owedBy_members {items : List Member} {s : Span} (hrow : s.Row (items.map Member.span))
    (k : ClassDecl) (hfields : k.fields = items.filterMap Member.field?)
    (hmethods : k.methods = items.filterMap Member.method?) :
    owedBy memberLayout.next (owedMember rule) false items = k.breaches rule := by
  rw [ClassDecl.breaches]
  by_cases hr : .fieldsFirst = rule
  · simp only [owedMember, if_pos hr, decide_eq_true hr]
    rw [Layout.owedBy_against spanned_memberLayout hrow false, ClassDecl.lateFields, hfields,
      hmethods]
    rfl
  · simp only [owedMember, if_neg hr, decide_eq_false hr]
    rw [Layout.owedBy_not_against, hmethods]
    rfl

theorem settles_classDecl (hc : c.Of source) :
    (classDecl c).Settles rule Fault.IsObjection fun k _ bs =>
      bs = k.breaches rule ∧ ∀ m ∈ k.methods, m.InOrder := by
  refine settles_objecting_bind hc fun first d₁ h₁ => settles_objecting_bind h₁ fun n d₂ h₂ => ?_
  refine settles_objecting_bind h₂ fun s d₃ h₃ => settles_objecting_bind h₃ fun _ d₄ h₄ => ?_
  have hread : ((members : Reader Fault (List Member)) d₄).Settles rule Never fun items _ bs =>
      bs = owedBy memberLayout.next (owedMember rule) false items ∧
        ∀ a ∈ items, ∀ m ∈ a.method?, m.InOrder :=
    settles_manyFrom (fun seen _ => settles_member seen) d₄.room false h₄
  have hmembers := hread.and_advances (F := Never) (advances_members source d₄) h₄
  apply settles_bind hmembers.of_never
  rintro items d₅ _ ⟨⟨rfl, horder⟩, ys, fs, -, hitems⟩
  apply settles_bind (settles_objecting (p := expectOrReport .rightBrace) d₅)
  rintro _ d₆ _ rfl
  refine settles_pure ⟨?_, fun m hm => ?_⟩
  · rw [List.append_nil, List.append_nil]
    exact owedBy_members hitems.1.row _ rfl rfl
  · obtain ⟨a, ha, hpick⟩ := List.mem_filterMap.1 hm
    exact horder a ha m hpick

/-! ## Programs -/

variable (hrule : rule ≠ .oneMainStatement)
include hrule

theorem settles_oneStatement (span : Span) (ss : List Stmt) (c : Cursor) :
    ((oneStatement span ss : Reader ε Stmt) c).Settles rule E fun _ _ bs => bs = [] := by
  unfold oneStatement
  split
  · exact settles_pure rfl
  · apply settles_bind (settles_report c)
    rintro _ d _ rfl
    refine settles_pure ?_
    rw [if_neg hrule.symm, List.append_nil]

theorem settles_mainBody (start : Nat) (c : Cursor) :
    ((mainBody start : Reader ε Stmt) c).Settles rule E fun s _ bs =>
      bs = if .recurEndsMethod = rule then s.recurs.map Recur.span else [] := by
  apply settles_bind (settles_objecting (p := statements) c)
  rintro ss d₁ _ rfl
  apply settles_bind (settles_objecting (p := expectOrReport .rightBrace) d₁)
  rintro _ d₂ _ rfl
  rw [spanFrom_bind]
  apply settles_bind (settles_objecting (p := expectOrReport .rightBrace) d₂)
  rintro _ d₃ _ rfl
  apply settles_bind (settles_oneStatement hrule _ ss d₃)
  rintro s d₄ _ rfl
  apply settles_bind (settles_reportRecurs s.recurs d₄)
  rintro _ d₅ _ rfl
  exact settles_pure (by simp)

theorem settles_mainClassRecovering (hc : c.Of source) :
    ((mainClassRecovering : Reader ε MainClass) c).Settles rule Never fun m _ bs =>
      bs = if .recurEndsMethod = rule then m.body.recurs.map Recur.span else [] := by
  rw [mainClassRecovering, look_bind]
  refine settles_rescue (E := Fault.IsObjection) ?_ fun fault d h => ?_
  · refine settles_objecting_bind hc fun first d₁ h₁ => settles_objecting_bind h₁ ?_
    rintro ⟨n, a⟩ d₂ h₂
    refine settles_objecting_bind h₂ fun brace d₃ h₃ => ?_
    apply settles_bind (settles_mainBody hrule brace.span.start d₃)
    rintro s d₄ _ rfl
    refine settles_pure ?_
    rw [List.append_nil]
  · have hrecover := objecting_recover (ε := ε) (E := Never) .toplevel d h
    rw [here_bind]
    refine settles_bind (settles_objecting (p := recover .toplevel d fault) d) ?_
    rintro _ d' _ rfl
    exact settles_pure (by simp [Stmt.recurs])

omit hrule in
theorem settles_topLevelItem (hc : c.Of source) :
    ((topLevelItem : Reader ε (Option ClassDecl)) c).Settles rule Never fun a _ bs =>
      bs = (a.map (ClassDecl.breaches rule)).getD [] ∧
        ∀ k ∈ a, ∀ m ∈ k.methods, m.InOrder := by
  rw [topLevelItem, here_bind]
  refine settles_rescue (E := Fault.IsObjection) ?_ fun fault d h => ?_
  · split
    · apply settles_bind (settles_classDecl hc)
      rintro k d _ ⟨rfl, horder⟩
      refine settles_pure ⟨List.append_nil _, ?_⟩
      rintro _ ⟨rfl⟩
      exact horder
    · exact settles_failUnexpected _ c
  · refine (settles_skipped .toplevel c h d).mono ?_
    rintro a e bs ⟨rfl, rfl⟩
    exact ⟨rfl, fun b hb => by cases hb⟩

omit hrule in
theorem owedBy_const {α : Type} (owed : α → List Span) (as : List α) :
    owedBy (fun (s : Unit) _ => s) (fun _ => owed) () as = as.flatMap owed := by
  induction as with
  | nil => rfl
  | cons a as ih => rw [owedBy, ih, List.flatMap_cons]

theorem settles_program (hc : c.Of source) :
    ((program : Reader ε Program) c).Settles rule Never fun p _ bs =>
      bs = p.breaches rule ∧ ∀ k ∈ p.classes, ∀ m ∈ k.methods, m.InOrder := by
  rw [program, look_bind]
  apply settles_bind (settles_place (settles_mainClassRecovering hrule hc) hc)
  rintro main d _ ⟨rfl, hd⟩
  have hclasses : ((manyFrom atEnd (fun _ : Unit => topLevelItem) (fun s _ => s) d.room () :
      Reader ε (List ClassDecl)) d).Settles rule Never fun ks _ bs =>
        bs = owedBy (fun s _ => s) (fun _ => ClassDecl.breaches rule) () ks ∧
          ∀ k ∈ ks, ∀ m ∈ k.methods, m.InOrder :=
    settles_manyFrom (fun _ _ => settles_topLevelItem) d.room () hd
  apply settles_bind hclasses
  rintro classes d' _ ⟨rfl, horder⟩
  refine settles_pure ⟨?_, horder⟩
  rw [owedBy_const, List.append_nil]
  rfl

end MiniJava.Parse
