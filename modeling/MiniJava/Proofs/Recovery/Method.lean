import MiniJava.Proofs.Declaration.Complete
import MiniJava.Proofs.Declaration.Unread
import MiniJava.Proofs.Recovery.Statement

/-!
# Methods that lack a semicolon

A local variable, a statement or the result of a method may lack its semicolon. The method takes care
of it: what is left of the method is read to its end, and nothing else is reported.
-/

namespace MiniJava

open Terminal

/-! ## Where no semicolon stands -/

theorem TypeName.semicolon_notMem_yield (t : TypeName) : word .semicolon ∉ t.yield := by
  cases t <;> simp [TypeName.yield, word, ident]

theorem Variable.semicolon_notMem_yield (v : Variable) : word .semicolon ∉ v.yield := by
  simpa [Variable.yield, word, ident] using v.type.semicolon_notMem_yield

theorem semicolon_notMem_parameters (vs : List Variable) :
    word .semicolon ∉ commaSeparated Variable.yield vs := by
  cases vs with
  | nil => exact List.not_mem_nil
  | cons v vs =>
    simp only [commaSeparated, List.mem_append, List.mem_flatMap, List.mem_cons, not_or, not_exists,
      not_and]
    exact ⟨v.semicolon_notMem_yield, fun w _ => ⟨by rintro ⟨⟩, w.semicolon_notMem_yield⟩⟩

/-! ## Statements and the result after them -/

/-- The statements of a method up to its result, which is one of them if it is a `recur`. -/
def MethodResult.after (ss : List Stmt) : MethodResult → List Stmt
  | returns .. => ss
  | recurs r => ss ++ [.recur r]

/-- What comes after these statements. -/
def MethodResult.yieldAfter : MethodResult → List Terminal
  | returns s e => (returns s e).yield
  | recurs _ => []

/-- None of the statements that were read is a `recur` or holds one. -/
def Quiet (body : List Stmt) : Prop := ∀ s ∈ body, s.recurs = []

/--
The statements that were read let the result `r` be read at `d`: if it is a `recur`, the last of
them becomes the result.
-/
def LeavesResult (body : List Stmt) (d : Cursor) : MethodResult → Prop
  | .returns .. => Quiet body
  | .recurs _ => ∃ init last r', body = init ++ [last] ∧ Quiet init ∧
    Parse.trailing? d last = some r'

section Results

variable {r : MethodResult} {ss body : List Stmt} {d : Cursor}

theorem MethodResult.flatMap_after (ss : List Stmt) (r : MethodResult) :
    (r.after ss).flatMap Stmt.yield ++ r.yieldAfter = ss.flatMap Stmt.yield ++ r.yield := by
  cases r with
  | returns s e => rfl
  | recurs r => simp [after, yieldAfter, MethodResult.yield, Stmt.yield]

theorem MethodResult.readable_after (hr : ∀ n ∈ r.nodes, n.Readable)
    (hss : ∀ s ∈ ss, s.WellFormed) : ∀ s ∈ r.after ss, s.Readable := by
  have hss' : ∀ s ∈ ss, s.Readable := fun s hs => (hss s hs).readable
  cases r with
  | returns s e => exact hss'
  | recurs r =>
    refine List.forall_mem_append.2 ⟨hss', List.forall_mem_singleton.2 ?_⟩
    exact List.forall_mem_cons.2 ⟨⟨trivial, id⟩, hr⟩

theorem Stmt.afterSkip_append_recur (ss : List Stmt) (r : Recur) :
    Stmt.afterSkip (ss ++ [.recur r]) = Stmt.afterSkip ss ++ [.recur r] := by
  cases ss with
  | nil => rfl
  | cons s ss => cases s <;> rfl

/-- What is left of the statements still ends with the result. -/
theorem LeftOver.after {behind : List Terminal} {left : List Stmt} (hss : ∀ s ∈ ss, s.WellFormed)
    (h : LeftOver behind (r.after ss) left) :
    ∃ ss', (∀ s ∈ ss', s.WellFormed) ∧ left = r.after ss' := by
  cases h with
  | all => exact ⟨ss, hss, rfl⟩
  | skipped us hus =>
    refine ⟨Stmt.afterSkip (us ++ ss), fun s hs => ?_, ?_⟩
    · rcases List.mem_append.1 (Stmt.mem_of_mem_afterSkip hs) with hs | hs
      · exact hus.1 s hs
      · exact hss s hs
    · cases r with
      | returns s e => rfl
      | recurs r =>
        rw [MethodResult.after, MethodResult.after, ← List.append_assoc,
          Stmt.afterSkip_append_recur]

/-- A statement up to the result is followed by the others, or it is the result. -/
theorem MethodResult.after_eq_append_cons {s : Stmt} {ss₁ ss₂ : List Stmt}
    (hss : ∀ s ∈ ss, s.WellFormed) (h : r.after ss = ss₁ ++ s :: ss₂) :
    (∀ t ∈ ss₁, t.WellFormed) ∧
      ((s.WellFormed ∧ ∃ ss', (∀ t ∈ ss', t.WellFormed) ∧ ss₂ = r.after ss') ∨
        ∃ q, r = .recurs q ∧ s = .recur q ∧ ss₂ = []) := by
  have hinside : ∀ ss', ss = ss₁ ++ s :: ss' →
      (∀ t ∈ ss₁, t.WellFormed) ∧ s.WellFormed ∧ ∀ t ∈ ss', t.WellFormed := by
    rintro ss' rfl
    obtain ⟨h₁, h₂⟩ := List.forall_mem_append.1 hss
    exact ⟨h₁, List.forall_mem_cons.1 h₂⟩
  cases r with
  | returns _ e =>
    obtain ⟨h₁, hs, h₂⟩ := hinside ss₂ h
    exact ⟨h₁, .inl ⟨hs, ss₂, h₂, rfl⟩⟩
  | recurs q =>
    rcases append_eq_append_cons h with ⟨ss', hss', rfl⟩ | ⟨more, rfl, hmore⟩
    · obtain ⟨h₁, hs, h₂⟩ := hinside ss' hss'
      exact ⟨h₁, .inl ⟨hs, ss', h₂, rfl⟩⟩
    · cases more with
      | nil =>
        obtain ⟨rfl, rfl⟩ := List.cons.inj hmore
        rw [List.append_nil]
        exact ⟨hss, .inr ⟨q, rfl, rfl, rfl⟩⟩
      | cons t more =>
        have hlength := congrArg List.length hmore
        simp at hlength

theorem Quiet.append {body body' : List Stmt} (h : Quiet body) (h' : Quiet body') :
    Quiet (body ++ body') :=
  List.forall_mem_append.2 ⟨h, h'⟩

theorem Quiet.recursList_eq_nil (h : Quiet body) : Stmt.recursList body = [] := by
  rw [Stmt.recursList_eq, List.flatMap_eq_nil_iff]
  exact h

theorem LeavesResult.append {init : List Stmt} (h : LeavesResult body d r) (hinit : Quiet init) :
    LeavesResult (init ++ body) d r := by
  cases r with
  | returns s e => exact hinit.append h
  | recurs q =>
    obtain ⟨init', last, r', rfl, hinit', hlast⟩ := h
    exact ⟨init ++ init', last, r', (List.append_assoc _ _ _).symm, hinit.append hinit', hlast⟩

end Results

namespace Parse

open Reader Reading

theorem quiet_of_shape {ss body : List Stmt} (hss : ∀ s ∈ ss, s.WellFormed)
    (h : body.map Stmt.withoutSpans = ss.map Stmt.withoutSpans) : Quiet body := by
  intro s' hs'
  have hmem : s'.withoutSpans ∈ body.map Stmt.withoutSpans := List.mem_map_of_mem hs'
  rw [h] at hmem
  obtain ⟨s, hs, heq⟩ := List.mem_map.1 hmem
  exact (hss s hs).recurs_eq_nil heq.symm

/-- Up to the result, a `recur` that is the result was read as the last statement. -/
theorem exists_of_shape_recur {ss body : List Stmt} {q : Recur}
    (h : body.map Stmt.withoutSpans =
      ((MethodResult.recurs q).after ss).map Stmt.withoutSpans) :
    ∃ init q', body = init ++ [.recur q'] ∧
      init.map Stmt.withoutSpans = ss.map Stmt.withoutSpans ∧
      q'.withoutSpans = q.withoutSpans := by
  rw [MethodResult.after, List.map_append, List.map_eq_append_iff] at h
  obtain ⟨init, last, rfl, hinit, hlast⟩ := h
  obtain ⟨s, more, rfl, hs, hmore⟩ := List.map_eq_cons_iff.1 hlast
  obtain rfl : more = [] := List.map_eq_nil_iff.1 hmore
  obtain ⟨q', rfl, hq⟩ : ∃ q', s = .recur q' ∧ q'.withoutSpans = q.withoutSpans := by
    cases s <;> simp_all [Stmt.withoutSpans]
  exact ⟨init, q', rfl, hinit, hq⟩

theorem leavesResult_of_shape {r : MethodResult} {ss body : List Stmt}
    (hss : ∀ s ∈ ss, s.WellFormed)
    (h : body.map Stmt.withoutSpans = (r.after ss).map Stmt.withoutSpans) (d : Cursor) :
    LeavesResult body d r := by
  cases r with
  | returns s e => exact quiet_of_shape hss h
  | recurs q =>
    obtain ⟨init, q', rfl, hinit, -⟩ := exists_of_shape_recur h
    exact ⟨init, .recur q', .recurs q', rfl, quiet_of_shape hss hinit, rfl⟩

variable {ε β : Type} {c : Cursor} {found : Token} {later : List Token} {tail : List Token}
  {behind rest zs : List Terminal} {fault : Fault} {rounds : Nat}

/-! ## Variables -/

theorem failsAt_expectName_bind {n : String} {f : String → Reader Fault β}
    (hc : c.Spells (ident n :: zs) tail) (hf : ∀ x d, d.Spells zs tail → (f x d).FailsAt fault tail) :
    ((expectName >>= f) c).FailsAt fault tail := by
  rw [expectName, bind_assoc]
  apply failsAt_expect_bind rfl hc
  intro _ d hd
  exact hf _ d hd

theorem failsAt_variableDecl {v : Variable} (hfound : found.kind ≠ .semicolon)
    (hc : c.Spells v.yield (found :: later)) :
    (variableDecl c).FailsAt (.missing .semicolon found) (found :: later) := by
  have htype : (typeName c).Passes (fun _ => True) [ident v.name] (found :: later) := by
    have hsees := hc.sees
    rw [Variable.yield, List.append_assoc] at hsees
    apply passes_of_succeeds hc _ (ensures_typeName c)
    apply (succeeds_typeName hsees).mono
    rintro _ d fs ⟨rfl, -, hd⟩
    exact ⟨rfl, trivial, hd⟩
  rw [variableDecl, look_bind]
  apply failsAt_bind htype
  intro _ d _ hd
  apply failsAt_expectName_bind hd
  intro _ d hd
  exact failsAt_missing_bind hd hfound

theorem afterSemicolon_variables {vs : List Variable} (hrest : (headKind rest).afterSemicolon) :
    (headKind (vs.flatMap Variable.yieldDecl ++ rest)).afterSemicolon := by
  cases vs with
  | nil => exact hrest
  | cons v vs =>
    obtain ⟨_, n, t⟩ := v
    cases t <;> rfl

/-- The clause of a declaration was broken, and `rest` comes next. -/
theorem variable_broken {v : Variable} (hrest : (headKind rest).afterSemicolon)
    (hc : c.Lacks [] v.yieldDecl behind rest (found :: later)) :
    (variableDecl c).FailsAt (.missing .semicolon found) (found :: later) ∧
      c.Sees (v.yield ++ (found :: later).map Token.terminal) ∧
      (found :: later).map Token.terminal = rest := by
  obtain ⟨rfl, hspells⟩ := hc.clause v.semicolon_notMem_yield
  have hhead := hc.headKind_tail
  rw [← hhead] at hrest
  have htail := hc.tail_eq
  exact ⟨failsAt_variableDecl (Token.ne_semicolon hrest) hspells, hspells.sees, htail⟩

/-! ## Items of a method -/

/-- A local variable that is broken is left out, and one clause after it may be. -/
theorem succeeds_bodyItem_broken_variable {v : Variable} {vs : List Variable} {ss : List Stmt}
    (hss : ∀ s ∈ ss, s.Readable) (hzs : Region.statements.EndsAt (headKind zs))
    (hafter : (headKind zs).afterSemicolon)
    (hback : FindsBack ((found :: later).map Token.terminal))
    (hc : c.Lacks [] v.yieldDecl behind
      (vs.flatMap Variable.yieldDecl ++ (ss.flatMap Stmt.yield ++ zs)) (found :: later)) :
    ((bodyItem false : Reader ε (Option BodyItem)) c).Succeeds fun item d fs =>
      d.ahead.length < c.ahead.length ∧ item = none ∧ fs = [.missing .semicolon found] ∧
        ∃ (vs' : List Variable) (ss' : List Stmt), LeftOver [] ss ss' ∧
          d.Sees (vs'.flatMap Variable.yieldDecl ++ (ss'.flatMap Stmt.yield ++ zs)) := by
  obtain ⟨hfails, hsees, htail⟩ :=
    variable_broken (afterSemicolon_variables (afterSemicolon_statements hss hafter)) hc
  rw [bodyItem, here_bind, if_pos (atVariableDecl_of_variable hsees).1]
  apply succeeds_rescue_of_failsAt (failsAt_bind_of_failsAt hfails)
  intro d htokens hd
  have hd' := hd.sees
  rw [List.nil_append, htail] at hd'
  have hlands : ∃ (vs' : List Variable) (ss' : List Stmt), LeftOver [] ss ss' ∧
      d.LandsAt .statements (vs'.flatMap Variable.yieldDecl ++ (ss'.flatMap Stmt.yield ++ zs)) := by
    cases vs with
    | nil =>
      have hblock := hback.noBlock
      rw [htail] at hblock
      exact ⟨[], Stmt.afterSkip ss, .skipped [] .nil,
        landsAt_statements hss hzs hblock hd'⟩
    | cons w vs =>
      rw [List.flatMap_cons, List.append_assoc] at hd'
      exact ⟨vs, ss, .all, landsAt_variable (by simp) hd'⟩
  obtain ⟨vs', ss', hleft, hlands⟩ := hlands
  have hroom : d.room < c.room := hc.room_lt (by
    obtain ⟨_, n, t⟩ := v
    cases t <;> rintro ⟨⟩) hd
  apply succeeds_bind (succeeds_recover htokens hroom hlands)
  rintro _ e fs ⟨rfl, hlength, he⟩
  exact succeeds_pure ⟨hlength, rfl, rfl, vs', ss', hleft, he⟩

/-- A statement that is broken shows that no more local variables come. -/
theorem atVariableDecl_of_lacks {s : Stmt} (hs : s.Readable)
    (hc : c.Lacks [] s.yield behind rest tail) : atVariableDecl c = false ∧ atBodyEnd c = false := by
  have hkind := hc.kind_current_eq hs.headKind_ne
  have hsecond : ∀ n kind ys, s.yield = [ident n, word kind] ++ ys → kind ≠ .semicolon →
      kind ≠ .identifier → c.secondKind ≠ .identifier := by
    intro n kind ys hyield hsemicolon hident
    rw [hyield] at hc
    have hne : word .semicolon ∉ [ident n, word kind] := by
      simp [word, ident, hsemicolon.symm]
    obtain ⟨zs, hsees⟩ := (hc.append_of_notMem hne).exists_sees [ident n, word kind]
    rw [hsees.secondKind_eq]
    exact hident
  rw [atVariableDecl, atBodyEnd, hs.atListEnd_kind hkind, hkind]
  cases s with
  | error s => exact absurd hs (Stmt.not_readable_error s)
  | assign s n e =>
    exact ⟨decide_eq_false (hsecond n .assign _ rfl (by simp) (by simp)), rfl⟩
  | assignElement s n i e =>
    exact ⟨decide_eq_false (hsecond n .leftBracket _ rfl (by simp) (by simp)), rfl⟩
  | _ => exact ⟨rfl, rfl⟩

/-- A statement that is broken takes its place among the items. -/
theorem succeeds_bodyItem_broken_statement {s : Stmt} {ss : List Stmt} (hs : s.WellFormed)
    (hss : ∀ t ∈ ss, t.Readable) (hzs : Region.statements.EndsAt (headKind zs))
    (hafter : (headKind zs).afterSemicolon) (seen : Bool)
    (hback : FindsBack ((found :: later).map Token.terminal))
    (hc : c.Lacks [] s.yield behind (ss.flatMap Stmt.yield ++ zs) (found :: later)) :
    ((bodyItem seen : Reader ε (Option BodyItem)) c).Succeeds fun item d fs =>
      d.ahead.length < c.ahead.length ∧
        (∃ s', item = some (.statement s') ∧ s'.recurs = []) ∧
        fs = [.missing .semicolon found] ∧
        ∃ left, LeftOver behind ss left ∧ d.Sees (left.flatMap Stmt.yield ++ zs) := by
  have hbreaks : (statement c).Breaks found later behind (ss.flatMap Stmt.yield ++ zs) :=
    breaksStatement s hs hc (afterSemicolon_statements hss hafter) hback c.length_le_room
  rw [bodyItem, here_bind, if_neg (by simp [(atVariableDecl_of_lacks hs.readable hc).1])]
  apply succeeds_bind (succeeds_recovering_of_breaks hs.readable.headKind_ne hss hzs hback hc hbreaks)
  rintro s' d fs ⟨rfl, hs', hlength, left, hleft, hd⟩
  exact succeeds_pure ⟨hlength, ⟨s', rfl, hs'⟩, rfl, left, hleft, hd⟩

/-- What an item leaves of a `recur` that was to be the result: an error that becomes the result. -/
def RecurUnread (item : Option BodyItem) (d : Cursor) : Prop :=
  ∃ span, item = some (.statement (.error span)) ∧
    trailing? d (.error span) = some (.returns span (.error span))

/-- Of a `recur` that was read as an item of a method and gave an error, the keyword is found. -/
theorem succeeds_recurUnread {seen : Bool} {R : Result (Option BodyItem)} (hc : c.Regular)
    (hk : c.current.kind = .recurKw)
    (h : ((bodyItem seen : Reader ε (Option BodyItem)) c).Succeeds fun item d fs =>
      d.ahead.length < c.ahead.length ∧ (∃ span, item = some (.statement (.error span))) ∧
        R item d fs) :
    ((bodyItem seen : Reader ε (Option BodyItem)) c).Succeeds fun item d fs =>
      d.ahead.length < c.ahead.length ∧ RecurUnread item d ∧ R item d fs := by
  obtain ⟨_, hitem, hlength, ⟨span, rfl⟩, hR⟩ := h
  have hunread : (Stmt.error span).unread? = some span := rfl
  have hkind := kindAt_of_bodyItem hc hitem hunread
  exact ⟨_, hitem, hlength, ⟨span, rfl, if_pos (hkind.trans (congrArg some hk))⟩, hR⟩

/-- A `recur` at the end that is broken leaves an error that becomes the result. -/
theorem succeeds_bodyItem_broken_recur {r : Recur} (hr : r.Readable)
    (hzs : headKind zs = .rightBrace) (seen : Bool)
    (hback : FindsBack ((found :: later).map Token.terminal))
    (hc : c.Lacks [] (Stmt.recur r).yield behind zs (found :: later)) :
    ((bodyItem seen : Reader ε (Option BodyItem)) c).Succeeds fun item d fs =>
      d.ahead.length < c.ahead.length ∧ RecurUnread item d ∧
        fs = [.missing .semicolon found] ∧ d.Sees zs := by
  have hreadable : (Stmt.recur r).Readable := List.forall_mem_cons.2 ⟨⟨trivial, id⟩, hr⟩
  have hkind : c.current.kind = .recurKw := hc.kind_current_eq (by rintro ⟨⟩)
  obtain ⟨rfl, hfails⟩ :=
    failsStatement_recur hr hc (by rw [hzs]; rfl) c.length_le_room
  have hc' : c.Lacks [] (Stmt.recur r).yield []
      (([] : List Stmt).flatMap Stmt.yield ++ zs) (found :: later) := hc
  obtain ⟨⟨_, _, hspells⟩, -⟩ := id hc
  apply succeeds_recurUnread hspells.regular hkind
  rw [bodyItem, here_bind, if_neg (by simp [(atVariableDecl_of_lacks hreadable hc).1])]
  have hnone : ∀ t ∈ ([] : List Stmt), t.Readable := by simp
  have hfails' : (statement c).FailsAt (.missing .semicolon found) (found :: later) := hfails
  have hus : ElseBranches [] [] := .nil
  apply succeeds_bind (succeeds_recovering_of_failsAt hreadable.headKind_ne hnone (.inl hzs) hback hc'
    hus hfails')
  rintro _ d fs ⟨rfl, ⟨span, rfl⟩, hlength, hd⟩
  exact succeeds_pure ⟨hlength, ⟨span, rfl⟩, rfl, hd⟩

/-- The local variables and the statements that some items are, up to spans. -/
structure ItemsReadAs (vs : List Variable) (ss : List Stmt) (items : List BodyItem) : Prop where
  locals :
    (items.filterMap BodyItem.local?).map Variable.withoutSpans = vs.map Variable.withoutSpans
  statements :
    (items.filterMap BodyItem.statement?).map Stmt.withoutSpans = ss.map Stmt.withoutSpans

theorem ensures_bodyItem_moves (seen : Bool) (d : Cursor) :
    ((bodyItem seen : Reader ε (Option BodyItem)) d).Ensures d fun _ _ _ _ => True :=
  (ensures_bodyItem seen d).mono fun _ _ _ _ _ => trivial

section Front

variable {Q : Result (List BodyItem)}

/-- The local variables before the place that matters are read as usual. -/
theorem succeeds_items_locals {vs : List Variable}
    (hrest : ∀ rounds d, d.Spells zs tail → d.ahead.length ≤ rounds →
      ((bodyItemsFrom rounds false : Reader ε (List BodyItem)) d).Succeeds Q)
    (hc : c.Spells (vs.flatMap Variable.yieldDecl ++ zs) tail) (hrounds : c.ahead.length ≤ rounds) :
    ((bodyItemsFrom rounds false : Reader ε (List BodyItem)) c).Succeeds fun items d fs =>
      ∃ items₁ items₂, items = items₁ ++ items₂ ∧ ItemsReadAs vs [] items₁ ∧ Q items₂ d fs := by
  have hfront : ∀ v ∈ vs, ∀ seen, seen = false → ∀ (d : Cursor) (ys : List Terminal),
      d.Sees (v.yieldDecl ++ ys) → d.ahead.length ≤ rounds → atBodyEnd d = false ∧
      ((bodyItem seen : Reader ε (Option BodyItem)) d).Succeeds fun r e fs =>
        fs = [] ∧ (∃ a, r = some a ∧ ∃ v', a = .local v' ∧ v'.withoutSpans = v.withoutSpans) ∧
          e.Sees ys := by
    rintro v - _ rfl d ys hd -
    refine ⟨atBodyEnd_of_variable hd, ?_⟩
    apply (succeeds_bodyItem_variable hd).mono
    rintro _ e fs ⟨v', rfl, hv, rfl, he⟩
    exact ⟨rfl, ⟨_, rfl, v', rfl, hv⟩, he⟩
  have hnext : ∀ v ∈ vs, ∀ (seen : Bool) (a : BodyItem), seen = false →
      (∃ v', a = .local v' ∧ v'.withoutSpans = v.withoutSpans) →
      (seen || a.statement?.isSome) = false := by
    rintro v - _ _ rfl ⟨v', rfl, -⟩
    rfl
  apply (succeeds_manyFrom_front hfront (fun v _ => Variable.yieldDecl_ne_nil v) hnext
    ensures_bodyItem_moves (fun n _ d hs hd hn _ => hs ▸ hrest n d hd hn) rfl hc hrounds
    hrounds).mono
  rintro _ d fs ⟨items₁, items₂, rfl, hsame, hQ⟩
  have hlocals : (items₁.filterMap BodyItem.local?).map Variable.withoutSpans =
      vs.map Variable.withoutSpans := by
    refine map_eq_of_forall₂ (forall₂_filterMap (hsame.imp ?_))
    rintro _ _ ⟨v', rfl, hv⟩
    exact ⟨v', rfl, hv⟩
  have hnone : items₁.filterMap BodyItem.statement? = [] := by
    refine filterMap_eq_nil_of_forall₂ (hsame.imp ?_)
    rintro _ _ ⟨v', rfl, -⟩
    rfl
  exact ⟨items₁, items₂, rfl, ⟨hlocals, by rw [hnone, List.map_nil]⟩, hQ⟩

/-- The statements before the place that matters are read as usual. -/
theorem succeeds_items_statements {ss : List Stmt} {seen : Bool} (hss : ∀ s ∈ ss, s.WellFormed)
    (hrest : ∀ rounds seen d, d.Spells zs tail → d.ahead.length ≤ rounds →
      ((bodyItemsFrom rounds seen : Reader ε (List BodyItem)) d).Succeeds Q)
    (hc : c.Spells (ss.flatMap Stmt.yield ++ zs) tail) (hrounds : c.ahead.length ≤ rounds) :
    ((bodyItemsFrom rounds seen : Reader ε (List BodyItem)) c).Succeeds fun items d fs =>
      ∃ items₁ items₂, items = items₁ ++ items₂ ∧ ItemsReadAs [] ss items₁ ∧ Q items₂ d fs := by
  have hfront : ∀ s ∈ ss, ∀ seen, True → ∀ (d : Cursor) (ys : List Terminal),
      d.Sees (s.yield ++ ys) → d.ahead.length ≤ rounds → atBodyEnd d = false ∧
      ((bodyItem seen : Reader ε (Option BodyItem)) d).Succeeds fun r e fs =>
        fs = [] ∧ (∃ a, r = some a ∧
          ∃ s', a = .statement s' ∧ s'.withoutSpans = s.withoutSpans) ∧ e.Sees ys := by
    intro s hs seen _ d ys hd _
    have hread := (hss s hs).readable
    refine ⟨(atVariableDecl_of_statement hread hd).2, ?_⟩
    apply (succeeds_bodyItem_statement hread seen hd).mono
    rintro _ e fs ⟨s', rfl, hs', rfl, he⟩
    exact ⟨rfl, ⟨_, rfl, s', rfl, hs'⟩, he⟩
  apply (succeeds_manyFrom_front hfront (fun s hs => (hss s hs).readable.yield_ne_nil)
    (fun _ _ _ _ _ _ => trivial) ensures_bodyItem_moves
    (fun n seen d _ hd hn _ => hrest n seen d hd hn) trivial hc hrounds hrounds).mono
  rintro _ d fs ⟨items₁, items₂, rfl, hsame, hQ⟩
  have hstatements : (items₁.filterMap BodyItem.statement?).map Stmt.withoutSpans =
      ss.map Stmt.withoutSpans := by
    refine map_eq_of_forall₂ (forall₂_filterMap (hsame.imp ?_))
    rintro _ _ ⟨s', rfl, hs⟩
    exact ⟨s', rfl, hs⟩
  have hnone : items₁.filterMap BodyItem.local? = [] := by
    refine filterMap_eq_nil_of_forall₂ (hsame.imp ?_)
    rintro _ _ ⟨s', rfl, -⟩
    rfl
  exact ⟨items₁, items₂, rfl, ⟨by rw [hnone, List.map_nil], hstatements⟩, hQ⟩

end Front

section Items

variable {Q : Result (List Stmt)}

/-- The local variables before the place that matters add no statement. -/
theorem succeeds_bodyItems_variables {vs : List Variable}
    (hrest : ∀ rounds d, d.Spells zs tail → d.ahead.length ≤ rounds →
      ((bodyItemsFrom rounds false : Reader ε (List BodyItem)) d).Succeeds fun items e fs =>
        Q (items.filterMap BodyItem.statement?) e fs)
    (hc : c.Spells (vs.flatMap Variable.yieldDecl ++ zs) tail) (hrounds : c.ahead.length ≤ rounds) :
    ((bodyItemsFrom rounds false : Reader ε (List BodyItem)) c).Succeeds fun items d fs =>
      Q (items.filterMap BodyItem.statement?) d fs := by
  apply (succeeds_items_locals hrest hc hrounds).mono
  rintro _ d fs ⟨items₁, items₂, rfl, hread, hQ⟩
  have hnone : items₁.filterMap BodyItem.statement? = [] := List.map_eq_nil_iff.1 hread.statements
  rwa [List.filterMap_append, hnone]

/-- The statements before the place that matters leave the result as it is. -/
theorem succeeds_bodyItems_statements {ss : List Stmt} {seen : Bool} (hss : ∀ s ∈ ss, s.WellFormed)
    (hQ : ∀ body body' d fs, Quiet body → Q body' d fs → Q (body ++ body') d fs)
    (hrest : ∀ rounds seen d, d.Spells zs tail → d.ahead.length ≤ rounds →
      ((bodyItemsFrom rounds seen : Reader ε (List BodyItem)) d).Succeeds fun items e fs =>
        Q (items.filterMap BodyItem.statement?) e fs)
    (hc : c.Spells (ss.flatMap Stmt.yield ++ zs) tail) (hrounds : c.ahead.length ≤ rounds) :
    ((bodyItemsFrom rounds seen : Reader ε (List BodyItem)) c).Succeeds fun items d fs =>
      Q (items.filterMap BodyItem.statement?) d fs := by
  apply (succeeds_items_statements hss hrest hc hrounds).mono
  rintro _ d fs ⟨items₁, items₂, rfl, hread, hrestQ⟩
  rw [List.filterMap_append]
  exact hQ _ _ d fs (quiet_of_shape hss hread.statements) hrestQ

end Items

/-! ## Items around the broken one -/

theorem endsAt_yieldAfter (r : MethodResult) :
    Region.statements.EndsAt (headKind (r.yieldAfter ++ word .rightBrace :: rest)) := by
  cases r with
  | returns s e => exact .inr rfl
  | recurs q => exact .inl rfl

theorem afterSemicolon_yieldAfter (r : MethodResult) :
    (headKind (r.yieldAfter ++ word .rightBrace :: rest)).afterSemicolon := by
  cases r <;> rfl

theorem atBodyEnd_of_yieldAfter (r : MethodResult)
    (hc : c.Sees (r.yieldAfter ++ word .rightBrace :: rest)) : atBodyEnd c = true := by
  rw [atBodyEnd, atListEnd, hc.kind_current_eq]
  cases r <;> rfl

/-- What the items of a body come to, up to its result, when one of them is broken. -/
def BodyBroken (r : MethodResult) (found : Token) (rest : List Terminal) :
    Result (List Stmt) := fun body d fs =>
  LeavesResult body d r ∧ fs = [.missing .semicolon found] ∧
    d.Sees (r.yieldAfter ++ word .rightBrace :: rest)

section Around

variable {r : MethodResult} {ss : List Stmt}

theorem BodyBroken.append {body body' : List Stmt} {d : Cursor} {fs : List Fault}
    (h : BodyBroken r found rest body' d fs) (hquiet : Quiet body) :
    BodyBroken r found rest (body ++ body') d fs :=
  ⟨h.1.append hquiet, h.2⟩

/-- The items after the broken one are read as usual. -/
theorem succeeds_bodyItemsFrom_after {vs : List Variable} {seen : Bool}
    (hseen : seen = true → vs = []) (hss : ∀ s ∈ ss, s.WellFormed)
    (hr : ∀ n ∈ r.nodes, n.Readable) (hrounds : c.ahead.length ≤ rounds)
    (hc : c.Sees (vs.flatMap Variable.yieldDecl ++ ((r.after ss).flatMap Stmt.yield ++
      (r.yieldAfter ++ word .rightBrace :: rest)))) :
    ((bodyItemsFrom rounds seen : Reader ε (List BodyItem)) c).Succeeds fun items d fs =>
      LeavesResult (items.filterMap BodyItem.statement?) d r ∧ fs = [] ∧
        d.Sees (r.yieldAfter ++ word .rightBrace :: rest) := by
  apply (succeeds_bodyItemsFrom hseen (MethodResult.readable_after hr hss)
    (fun _ => atBodyEnd_of_yieldAfter r) hrounds hc).mono
  rintro items d fs ⟨-, hsame, rfl, hd⟩
  exact ⟨leavesResult_of_shape hss hsame d, rfl, hd⟩

theorem succeeds_bodyItemsFrom_broken_variable {v : Variable} {vs : List Variable}
    (hss : ∀ s ∈ ss, s.WellFormed) (hr : ∀ n ∈ r.nodes, n.Readable)
    (hback : FindsBack ((found :: later).map Token.terminal))
    (hc : c.Lacks [] v.yieldDecl behind (vs.flatMap Variable.yieldDecl ++
      ((r.after ss).flatMap Stmt.yield ++ (r.yieldAfter ++ word .rightBrace :: rest)))
      (found :: later)) (hrounds : c.ahead.length ≤ rounds) :
    ((bodyItemsFrom rounds false : Reader ε (List BodyItem)) c).Succeeds fun items d fs =>
      BodyBroken r found rest (items.filterMap BodyItem.statement?) d fs := by
  have hreadable := MethodResult.readable_after hr hss
  have hafter : (headKind (r.yieldAfter ++ word .rightBrace :: rest)).afterSemicolon :=
    afterSemicolon_yieldAfter r
  obtain ⟨-, hsees, -⟩ :=
    variable_broken (afterSemicolon_variables (afterSemicolon_statements hreadable hafter)) hc
  apply succeeds_manyFrom_item (atVariableDecl_of_variable hsees).2 hrounds
    (succeeds_bodyItem_broken_variable hreadable (endsAt_yieldAfter r) hafter hback hc)
  rintro n _ d fs hlength ⟨rfl, rfl, vs', left, hleft, hd⟩
  obtain ⟨ss', hss', rfl⟩ := hleft.after hss
  apply (succeeds_bodyItemsFrom_after (by simp) hss' hr hlength hd).mono
  rintro items e fs ⟨hresult, rfl, he⟩
  exact ⟨hresult, rfl, he⟩

theorem succeeds_bodyItemsFrom_broken_statement {s : Stmt} (hs : s.WellFormed)
    (hss : ∀ t ∈ ss, t.WellFormed) (hr : ∀ n ∈ r.nodes, n.Readable) (seen : Bool)
    (hback : FindsBack ((found :: later).map Token.terminal))
    (hc : c.Lacks [] s.yield behind ((r.after ss).flatMap Stmt.yield ++
      (r.yieldAfter ++ word .rightBrace :: rest)) (found :: later))
    (hrounds : c.ahead.length ≤ rounds) :
    ((bodyItemsFrom rounds seen : Reader ε (List BodyItem)) c).Succeeds fun items d fs =>
      BodyBroken r found rest (items.filterMap BodyItem.statement?) d fs := by
  apply succeeds_manyFrom_item (atVariableDecl_of_lacks hs.readable hc).2 hrounds
    (succeeds_bodyItem_broken_statement hs (MethodResult.readable_after hr hss)
      (endsAt_yieldAfter r) (afterSemicolon_yieldAfter r) seen hback hc)
  rintro n _ d fs hlength ⟨⟨s', rfl, hs'⟩, rfl, left, hleft, hd⟩
  obtain ⟨ss', hss', rfl⟩ := hleft.after hss
  have hquiet : Quiet [s'] := List.forall_mem_singleton.2 hs'
  have hnone : ∀ b : Bool, b = true → ([] : List Variable) = [] := fun _ _ => rfl
  apply (succeeds_bodyItemsFrom_after (hnone _) hss' hr hlength hd).mono
  rintro items e fs ⟨hresult, rfl, he⟩
  exact ⟨hresult.append hquiet, rfl, he⟩

theorem succeeds_bodyItemsFrom_broken_recur {q : Recur}
    (hr : ∀ n ∈ (MethodResult.recurs q).nodes, n.Readable) (seen : Bool)
    (hback : FindsBack ((found :: later).map Token.terminal))
    (hc : c.Lacks [] (Stmt.recur q).yield behind
      ((MethodResult.recurs q).yieldAfter ++ word .rightBrace :: rest) (found :: later))
    (hrounds : c.ahead.length ≤ rounds) :
    ((bodyItemsFrom rounds seen : Reader ε (List BodyItem)) c).Succeeds fun items d fs =>
      BodyBroken (.recurs q) found rest (items.filterMap BodyItem.statement?) d fs := by
  have hrecur : (Stmt.recur q).Readable := List.forall_mem_cons.2 ⟨⟨trivial, id⟩, hr⟩
  apply succeeds_manyFrom_item (atVariableDecl_of_lacks hrecur hc).2 hrounds
    (succeeds_bodyItem_broken_recur hr rfl seen hback hc)
  rintro n _ d fs hlength ⟨⟨span, rfl, htrailing⟩, rfl, hd⟩
  apply succeeds_manyFrom_stop (atBodyEnd_of_yieldAfter (.recurs q) hd)
  exact ⟨⟨[], _, _, rfl, List.forall_mem_nil _, htrailing⟩, rfl, hd⟩

/-- Of the items of a method one is broken, and what is left lets the result be read. -/
theorem succeeds_bodyItems_around {vs : List Variable}
    (hss : ∀ s ∈ ss, s.WellFormed) (hr : ∀ n ∈ r.nodes, n.Readable)
    (hback : FindsBack ((found :: later).map Token.terminal))
    (hc : c.Lacks [] (vs.flatMap Variable.yieldDecl ++ (r.after ss).flatMap Stmt.yield) behind
      (r.yieldAfter ++ word .rightBrace :: rest) (found :: later)) :
    ((bodyItems : Reader ε (List BodyItem)) c).Succeeds fun items d fs =>
      BodyBroken r found rest (items.filterMap BodyItem.statement?) d fs := by
  have hroom := c.length_le_room
  rcases hc.append with ⟨behind', -, hlocals⟩ | hstatements
  · -- a local variable lost the semicolon
    obtain ⟨vs₁, v, vs₂, behind'', rfl, -, ⟨as, hv, hspells⟩, htail⟩ := hlocals.flatMap
    refine succeeds_bodyItems_variables (fun rounds d hd hrounds => ?_) hspells hroom
    exact succeeds_bodyItemsFrom_broken_variable hss hr hback ⟨⟨as, hv, hd⟩, htail⟩ hrounds
  · -- a statement lost it, or a `recur` that is the result
    obtain ⟨ss₁, s, ss₂, behind', hsplit, -, ⟨as, hs, hspells⟩, htail⟩ := hstatements.flatMap
    obtain ⟨hss₁, hcases⟩ := MethodResult.after_eq_append_cons hss hsplit
    rw [List.nil_append, List.append_assoc] at hspells
    refine succeeds_bodyItems_variables (fun rounds d hd hrounds => ?_) hspells hroom
    refine succeeds_bodyItems_statements hss₁ (fun _ _ _ _ hquiet h => h.append hquiet)
      (fun rounds seen d hd hrounds => ?_) hd hrounds
    rcases hcases with ⟨hwell, ss', hss', rfl⟩ | ⟨q, rfl, rfl, rfl⟩
    · exact succeeds_bodyItemsFrom_broken_statement hwell hss' hr seen hback ⟨⟨as, hs, hd⟩, htail⟩
        hrounds
    · exact succeeds_bodyItemsFrom_broken_recur hr seen hback ⟨⟨as, hs, hd⟩, htail⟩ hrounds

end Around

/-! ## Methods -/

theorem succeeds_methodResult_of_leaves {r : MethodResult} {body : List Stmt}
    (hr : ∀ n ∈ r.nodes, n.Readable) (h : LeavesResult body c r)
    (hc : c.Sees (r.yieldAfter ++ word .rightBrace :: rest)) :
    ((methodResult body : Reader ε (List Stmt × MethodResult)) c).Succeeds
      fun br d fs => Quiet br.1 ∧ fs = [] ∧ d.Sees (word .rightBrace :: rest) := by
  cases r with
  | returns s e =>
    apply (succeeds_methodResult_returns (s := s) hr body hc).mono
    rintro ⟨_, r'⟩ d fs ⟨rfl, -, rfl, hd⟩
    exact ⟨h, rfl, hd⟩
  | recurs q =>
    obtain ⟨init, last, r', rfl, hinit, htrailing⟩ := h
    apply (succeeds_methodResult_trailing htrailing hc).mono
    rintro _ d fs ⟨rfl, rfl, hd⟩
    exact ⟨hinit, rfl, hd⟩

/-- A `return` that lacks its semicolon is followed by the end of the method. -/
theorem succeeds_methodResult_broken {e : Expr} {body : List Stmt} (he : e.Readable)
    (hbody : Quiet body) (htail : (found :: later).map Token.terminal = word .rightBrace :: rest)
    (hc : c.Spells (word .returnKw :: e.yield) (found :: later)) :
    ((methodResult body : Reader ε (List Stmt × MethodResult)) c).Succeeds
      fun br d fs => Quiet br.1 ∧ fs = [.missing .semicolon found] ∧
        d.Sees (word .rightBrace :: rest) := by
  have hfound : found.kind = .rightBrace := congrArg Terminal.kind (List.cons.inj htail).1
  have hfails : (returned c).FailsAt (.missing .semicolon found) (found :: later) := by
    apply failsAt_expect_bind rfl hc
    intro _ d hd
    exact failsAt_expression_bind he (by rw [hfound]; rfl) hd
  have hreturned : ((returnedRecovering : Reader ε MethodResult) c).Succeeds fun _ d fs =>
      fs = [.missing .semicolon found] ∧ d.Sees (word .rightBrace :: rest) := by
    rw [returnedRecovering, here_bind]
    apply succeeds_rescue_of_failsAt hfails
    intro d htokens hd
    have hsees := hd.sees
    rw [List.nil_append, htail] at hsees
    have hroom : d.room < c.room := by
      rw [c.room_eq, d.room_eq, hc.sees.length_eq, hd.sees.length_eq]
      simp only [List.nil_append, List.cons_append, List.length_cons, List.length_append]
      omega
    have hlands : d.LandsAt .statements (word .rightBrace :: rest) :=
      landsAt_of_endsAt hsees (.inl rfl)
    apply succeeds_bind (succeeds_recover htokens hroom hlands)
    rintro _ d fs ⟨rfl, -, hd⟩
    rw [spanFrom_bind]
    exact succeeds_pure ⟨rfl, hd⟩
  have hk : c.current.kind = .returnKw := hc.kind_current
  rw [methodResult, isAt_bind, if_pos (decide_eq_true hk)]
  apply succeeds_bind hreturned
  rintro r d fs ⟨rfl, hd⟩
  exact succeeds_pure ⟨hbody, rfl, hd⟩

/-- A method ends as usual once its result is read, and nothing more is reported of it. -/
theorem succeeds_methodBody_of_result {R : Result (List BodyItem)} {gs : List Fault}
    (hitems : ((bodyItems : Reader ε (List BodyItem)) c).Succeeds R)
    (hresult : ∀ items d fs, R items d fs →
      ((methodResult (items.filterMap BodyItem.statement?) :
        Reader ε (List Stmt × MethodResult)) d).Succeeds fun br e fs' =>
          Quiet br.1 ∧ fs ++ fs' = gs ∧ e.Sees (word .rightBrace :: rest)) :
    ((methodBody : Reader ε (List Variable × List Stmt × MethodResult)) c).Succeeds fun _ d fs =>
      fs = gs ∧ d.Sees rest := by
  apply succeeds_bind hitems
  intro items d fs hR
  apply succeeds_bind (hresult items d fs hR)
  rintro ⟨body, r⟩ d fs' ⟨hquiet, rfl, hd⟩
  refine succeeds_afterResult_bind hd (succeeds_expectOrReport_bind hd fun d hd => ?_)
  apply succeeds_bind (succeeds_reportRecurs _ d)
  rintro _ _ _ ⟨rfl, rfl⟩
  rw [hquiet.recursList_eq_nil]
  exact succeeds_pure ⟨by simp [misplacedRecurs], hd⟩

theorem succeeds_methodBody_broken {vs : List Variable} {ss : List Stmt} {r : MethodResult}
    (hss : ∀ s ∈ ss, s.WellFormed) (hr : ∀ n ∈ r.nodes, n.Readable)
    (hback : FindsBack ((found :: later).map Token.terminal))
    (hc : c.Lacks [] (vs.flatMap Variable.yieldDecl ++ (ss.flatMap Stmt.yield ++ r.yield)) behind
      (word .rightBrace :: rest) (found :: later)) :
    ((methodBody : Reader ε (List Variable × List Stmt × MethodResult)) c).Succeeds fun _ d fs =>
      fs = [.missing .semicolon found] ∧ d.Sees rest := by
  rw [← MethodResult.flatMap_after, ← List.append_assoc] at hc
  rcases hc.append with ⟨behind', -, hitems⟩ | hlast
  · apply succeeds_methodBody_of_result (succeeds_bodyItems_around hss hr hback hitems)
    rintro items d fs ⟨hleaves, rfl, hd⟩
    apply (succeeds_methodResult_of_leaves hr hleaves hd).mono
    rintro br e fs ⟨hquiet, rfl, he⟩
    exact ⟨hquiet, rfl, he⟩
  · cases r with
    | recurs q =>
      obtain ⟨⟨as, has, -⟩, -⟩ := hlast
      exact absurd has (by simp [MethodResult.yieldAfter])
    | returns s e =>
      have hclause : c.Lacks (vs.flatMap Variable.yieldDecl ++ ss.flatMap Stmt.yield)
          (word .returnKw :: e.yield ++ [word .semicolon]) behind (word .rightBrace :: rest)
          (found :: later) := hlast
      obtain ⟨rfl, hspells⟩ := hclause.clause (by simpa [word] using e.semicolon_notMem_yield)
      have hsees := hspells.sees
      rw [List.append_assoc, List.append_assoc] at hsees
      have hstop : ∀ d : Cursor, d.Sees (word .returnKw :: e.yield ++
          (found :: later).map Token.terminal) → atBodyEnd d = true := by
        intro d hd
        rw [atBodyEnd, atListEnd, hd.kind_current]
        rfl
      have hitems : ((bodyItems : Reader ε (List BodyItem)) c).Passes
          (fun items => Quiet (items.filterMap BodyItem.statement?)) (word .returnKw :: e.yield)
          (found :: later) := by
        rw [List.append_assoc] at hspells
        apply passes_of_succeeds hspells _ (ensures_bodyItems c)
        apply (succeeds_bodyItems (fun s hs => (hss s hs).readable) hstop hsees).mono
        rintro items d fs ⟨-, hsame, rfl, hd⟩
        exact ⟨rfl, quiet_of_shape hss hsame, hd⟩
      apply succeeds_methodBody_of_result hitems
      rintro items d fs ⟨rfl, hquiet, hd⟩
      exact succeeds_methodResult_broken hr hquiet hlast.tail_eq hd

/-- A method in which a semicolon is lost is read to its end, and one fault is noted. -/
theorem succeeds_method_broken {m : Method} (hm : ∀ n ∈ m.nodes, n.WellFormed)
    (hback : FindsBack ((found :: later).map Token.terminal))
    (hc : c.Lacks [] m.yield behind rest (found :: later)) :
    (method c).Succeeds fun _ d fs => fs = [.missing .semicolon found] ∧ d.Sees rest := by
  obtain ⟨-, hm⟩ := List.forall_mem_cons.1 hm
  obtain ⟨-, hm⟩ := List.forall_mem_append.1 hm
  obtain ⟨-, hm⟩ := List.forall_mem_append.1 hm
  obtain ⟨hss, hr⟩ := List.forall_mem_append.1 hm
  have hsplit : c.Lacks [] (word .publicKw :: (m.returnType.yield ++ ident m.name ::
      word .leftParen :: (commaSeparated Variable.yield m.params ++ [word .rightParen,
        word .leftBrace])) ++ ((m.locals.flatMap Variable.yieldDecl ++
          (m.body.flatMap Stmt.yield ++ m.result.yield)) ++ [word .rightBrace])) behind rest
      (found :: later) := by
    simpa [Method.yield] using hc
  have hhead : word .semicolon ∉ word .publicKw :: (m.returnType.yield ++ ident m.name ::
      word .leftParen :: (commaSeparated Variable.yield m.params ++ [word .rightParen,
        word .leftBrace])) := by
    have htype := m.returnType.semicolon_notMem_yield
    have hparams := semicolon_notMem_parameters m.params
    simp only [List.mem_cons, List.mem_append, not_or]
    exact ⟨by rintro ⟨⟩, htype, by rintro ⟨⟩, by rintro ⟨⟩, hparams, by rintro ⟨⟩, by rintro ⟨⟩, List.not_mem_nil⟩
  obtain ⟨behind', -, hbody⟩ :=
    (hsplit.append_of_notMem hhead).of_append_of_notMem (by simp [word])
  rw [List.nil_append] at hbody
  apply succeeds_expect_bind_of_lacks rfl hbody
  intro _ d hd
  apply succeeds_bind (hd.passes (fun zs hs => succeeds_typeName hs) (ensures_typeName d))
  rintro t d fs ⟨rfl, -, hd⟩
  apply succeeds_expectName_bind_of_lacks hd
  intro d hd
  apply succeeds_expect_bind_of_lacks rfl hd
  intro _ d hd
  apply succeeds_bind (hd.passes (fun zs hs => succeeds_parameters hs) (ensures_parameters d))
  rintro ps d fs ⟨rfl, -, hd⟩
  apply succeeds_expect_bind_of_lacks rfl hd
  intro _ d hd
  apply succeeds_expect_bind_of_lacks rfl hd
  intro _ d hd
  apply succeeds_bind (succeeds_methodBody_broken (List.forall_mem_flatMap.1 hss)
    (fun n hn => (hr n hn).readable) hback hd)
  rintro ⟨vs, ss, r⟩ d fs ⟨rfl, hd⟩
  dsimp only
  rw [spanFrom_bind]
  exact succeeds_pure ⟨rfl, hd⟩

end Parse

end MiniJava
