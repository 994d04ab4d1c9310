import MiniJava.Proofs.Declaration.Sound
import MiniJava.Proofs.Statement.Complete

/-!
# Every declaration is read back

Where the yield of a declaration lies ahead, that declaration is read. The only faults that may be
noted are those of the `recur` statements in it.
-/

namespace MiniJava.Parse

open Reader Reading Terminal

variable {ε : Type} {c : Cursor} {rest : List Terminal}

/-! ## Variables -/

/-- A type is read where a name follows, which cannot be taken for a part of it. -/
theorem succeeds_typeName {t : TypeName} {n : String} (hc : c.Sees (t.yield ++ .ident n :: rest)) :
    (typeName c).Succeeds fun t' d fs => fs = [] ∧ t' = t ∧ d.Sees (.ident n :: rest) := by
  cases t with
  | int =>
    rw [typeName, look_bind, hc.kind_current]
    apply succeeds_advance_bind hc
    intro _ d _ hd
    have hk : d.current.kind ≠ .leftBracket := by simp [hd.kind_current]
    exact succeeds_eat_bind_of_ne hk (succeeds_pure ⟨rfl, rfl, hd⟩)
  | boolean =>
    rw [typeName, look_bind, hc.kind_current]
    exact succeeds_advance_bind hc fun _ d _ hd => succeeds_pure ⟨rfl, rfl, hd⟩
  | intArray =>
    rw [typeName, look_bind, hc.kind_current]
    refine succeeds_advance_bind hc fun _ d _ hd => succeeds_eat_bind hd fun d hd => ?_
    exact succeeds_expect_bind hd fun _ d hd => succeeds_pure ⟨rfl, rfl, hd⟩
  | named m =>
    rw [typeName, look_bind, hc.kind_current, hc.lexeme_current]
    exact succeeds_advance_bind hc fun _ d _ hd => succeeds_pure ⟨rfl, rfl, hd⟩

/-- The variable was read, up to where `rest` lies ahead. -/
def VariableReadAs (v : Variable) (rest : List Terminal) : Result Variable := fun v' d fs =>
  fs = [] ∧ v'.withoutSpans = v.withoutSpans ∧ d.Sees rest

theorem succeeds_parameter {v : Variable} (hc : c.Sees (v.yield ++ rest)) :
    (parameter c).Succeeds (VariableReadAs v rest) := by
  rw [Variable.yield, List.append_assoc] at hc
  rw [parameter, look_bind]
  apply succeeds_bind (succeeds_typeName hc)
  rintro t d fs ⟨rfl, rfl, hd⟩
  apply succeeds_expectName_bind hd
  intro d hd
  rw [spanFrom_bind]
  exact succeeds_pure ⟨rfl, rfl, hd⟩

theorem succeeds_variableDecl {v : Variable} (hc : c.Sees (v.yieldDecl ++ rest)) :
    (variableDecl c).Succeeds (VariableReadAs v rest) := by
  rw [Variable.yieldDecl, Variable.yield, List.append_assoc, List.append_assoc] at hc
  rw [variableDecl, look_bind]
  apply succeeds_bind (succeeds_typeName hc)
  rintro t d fs ⟨rfl, rfl, hd⟩
  refine succeeds_expectName_bind hd fun d hd => succeeds_expect_bind hd fun _ d hd => ?_
  rw [spanFrom_bind]
  exact succeeds_pure ⟨rfl, rfl, hd⟩

/-- A variable starts with its type, which closes no list of parameters. -/
theorem kind_of_variable {v : Variable} (hc : c.Sees (v.yield ++ rest)) :
    c.current.kind ≠ .rightParen := by
  obtain ⟨_, n, t⟩ := v
  cases t <;> (rw [hc.kind_current]; nofun)

theorem succeeds_parameters {vs : List Variable}
    (hc : c.Sees (commaSeparated Variable.yield vs ++ word .rightParen :: rest)) :
    (parameters c).Succeeds fun vs' d fs =>
      fs = [] ∧ vs'.map Variable.withoutSpans = vs.map Variable.withoutSpans ∧
        d.Sees (word .rightParen :: rest) := by
  rw [parameters, isAt_bind]
  cases vs with
  | nil =>
    have hk : c.current.kind = .rightParen := hc.kind_current
    rw [if_pos (decide_eq_true hk)]
    exact succeeds_pure ⟨rfl, rfl, hc⟩
  | cons v vs =>
    have hk : c.current.kind ≠ .rightParen := by
      rw [commaSeparated, List.append_assoc] at hc
      exact kind_of_variable hc
    have hrounds : vs.length ≤ c.room := by
      have h := List.length_le_length_flatMap (fun v => word .comma :: Variable.yield v) vs
        (by simp)
      have hl := hc.length_eq
      simp only [commaSeparated, List.length_append] at hl
      rw [c.room_eq]
      omega
    rw [if_neg (by simpa using hk)]
    exact succeeds_sepByComma (fun v _ d zs hd _ _ => succeeds_parameter hd)
      hrounds c.length_le_room hc

/-! ## Items in order -/

section Items

variable {α β γ β' γ' : Type} {l : Layout α β γ} {shapeEarly : β → β'} {shapeLate : γ → γ'}

/-- The terminals of an item that is to be read. -/
def planYield (l : Layout α β γ) : β ⊕ γ → List Terminal := Sum.elim l.yieldEarly l.yieldLate

/-- An item that is to be read, up to spans. -/
def planShape (shapeEarly : β → β') (shapeLate : γ → γ') : β ⊕ γ → Option β' × Option γ'
  | .inl b => (some (shapeEarly b), none)
  | .inr g => (none, some (shapeLate g))

/-- An item that was read, up to spans. -/
def itemShape (l : Layout α β γ) (shapeEarly : β → β') (shapeLate : γ → γ') (a : α) :
    Option β' × Option γ' :=
  ((l.early? a).map shapeEarly, (l.late? a).map shapeLate)

/-- Items of a plan, of which no early one comes after a late one. -/
structure InOrder (plan : List (β ⊕ γ)) (seen : Bool) (ws : List (β ⊕ γ)) : Prop where
  planned : ∀ w ∈ ws, w ∈ plan
  sorted : ws.Pairwise fun w w' => w.isRight → w'.isRight
  started : seen → ∀ w ∈ ws, w.isRight

theorem InOrder.tail {plan ws : List (β ⊕ γ)} {seen : Bool} {w : β ⊕ γ}
    (h : InOrder plan seen (w :: ws)) : InOrder plan (seen || w.isRight) ws := by
  obtain ⟨hall, hsorted, hseen⟩ := h
  obtain ⟨hw, hsorted⟩ := List.pairwise_cons.1 hsorted
  refine ⟨(List.forall_mem_cons.1 hall).2, hsorted, fun hs => ?_⟩
  rcases Bool.or_eq_true_iff.1 hs with hs | hs
  · exact (List.forall_mem_cons.1 (hseen hs)).2
  · exact fun w' hw' => hw w' hw' hs

variable {bs : List β} {gs : List γ}

theorem inOrder_plan {seen : Bool} (hseen : seen → bs = []) :
    InOrder (bs.map Sum.inl ++ gs.map Sum.inr) seen (bs.map Sum.inl ++ gs.map Sum.inr) := by
  refine ⟨fun _ h => h, List.pairwise_append.2 ⟨?_, ?_, by simp⟩, fun h => by simp [hseen h]⟩ <;>
  · rw [List.pairwise_map]
    exact List.pairwise_of_forall (by simp)

theorem filterMap_planShape (shapeEarly : β → β') (shapeLate : γ → γ') (bs : List β)
    (gs : List γ) :
    ((bs.map Sum.inl ++ gs.map Sum.inr).map (planShape shapeEarly shapeLate)).filterMap Prod.fst =
        bs.map shapeEarly ∧
      ((bs.map Sum.inl ++ gs.map Sum.inr).map (planShape shapeEarly shapeLate)).filterMap Prod.snd =
        gs.map shapeLate := by
  constructor
  · simp [List.filterMap_map, Function.comp_def, planShape]
  · simp [List.filterMap_map, Function.comp_def, planShape]

theorem flatMap_late? (faults : γ → List Fault) (as : List α) :
    (as.flatMap fun a => (l.late? a).elim [] faults) =
      (as.filterMap l.late?).flatMap faults := by
  induction as with
  | nil => rfl
  | cons a as ih => cases h : l.late? a <;> simp [h, ih]

variable (l shapeEarly shapeLate) in
/-- Items of two kinds are read in their order, from any state that allows them. -/
theorem succeeds_items (faults : γ → List Fault) {stop : Cursor → Bool}
    {item : Bool → Reader ε (Option α)} {room rounds : Nat} {seen : Bool} (hseen : seen → bs = [])
    (hearly : ∀ b ∈ bs, l.yieldEarly b ≠ [] ∧ ∀ (d : Cursor) (zs : List Terminal),
      d.Sees (l.yieldEarly b ++ zs) → d.ahead.length ≤ room → stop d = false ∧
      (item false d).Succeeds fun r e fs => ∃ a b', r = some a ∧ l.early? a = some b' ∧
        l.late? a = none ∧ shapeEarly b' = shapeEarly b ∧ fs = [] ∧ e.Sees zs)
    (hlate : ∀ g ∈ gs, l.yieldLate g ≠ [] ∧ ∀ (seen : Bool) (d : Cursor) (zs : List Terminal),
      d.Sees (l.yieldLate g ++ zs) → d.ahead.length ≤ room → stop d = false ∧
      (item seen d).Succeeds fun r e fs => ∃ a g', r = some a ∧ l.early? a = none ∧
        l.late? a = some g' ∧ shapeLate g' = shapeLate g ∧ fs = faults g' ∧ e.Sees zs)
    (hstop : ∀ d : Cursor, d.Sees rest → stop d = true) (hrounds : c.ahead.length ≤ rounds)
    (hroom : c.ahead.length ≤ room)
    (hc : c.Sees (bs.flatMap l.yieldEarly ++ (gs.flatMap l.yieldLate ++ rest))) :
    (manyFrom stop item (fun seen a => seen || (l.late? a).isSome) rounds seen c).Succeeds
      fun as d fs =>
        (as.filterMap l.early?).map shapeEarly = bs.map shapeEarly ∧
        (as.filterMap l.late?).map shapeLate = gs.map shapeLate ∧
        fs = (as.filterMap l.late?).flatMap faults ∧ d.Sees rest := by
  have hplan : (bs.map Sum.inl ++ gs.map Sum.inr).flatMap (planYield l) =
      bs.flatMap l.yieldEarly ++ gs.flatMap l.yieldLate := by
    simp [planYield, List.flatMap_append, List.flatMap_map]
  have hlength : (bs.map Sum.inl ++ gs.map Sum.inr).length ≤ rounds := by
    have hle := List.length_le_length_flatMap (planYield l)
      (bs.map Sum.inl ++ gs.map Sum.inr) ?_
    · have hl := hc.length_eq
      rw [hplan] at hle
      simp only [List.length_append] at hle hl ⊢
      omega
    · rintro (b | g) hw
      · exact (hearly b (by simpa using hw)).1
      · exact (hlate g (by simpa using hw)).1
  rw [← List.append_assoc, ← hplan] at hc
  refine (succeeds_manyFrom (itemShape l shapeEarly shapeLate)
    (planShape shapeEarly shapeLate) (fun a => (l.late? a).elim [] faults)
    (fun seen w => seen || w.isRight) (InOrder (bs.map Sum.inl ++ gs.map Sum.inr))
    (fun _ _ _ h => h.tail) ?_ ?_ hstop
    hlength (inOrder_plan hseen) hroom hc).mono ?_
  · rintro seen (b | g) a ha <;> simp only [itemShape, planShape, Prod.mk.injEq] at ha
    · simp [Option.map_eq_none_iff.1 ha.2]
    · obtain ⟨g', hg, -⟩ := Option.map_eq_some_iff.1 ha.2
      simp [hg]
  · rintro seen (b | g) ws hvalid d zs hd hroom
    · have hseen : seen = false := by
        cases seen with
        | false => rfl
        | true => exact absurd (hvalid.started rfl _ List.mem_cons_self) (by simp)
      subst hseen
      obtain ⟨hnot, hok⟩ := (hearly b (by simpa using hvalid.planned _ List.mem_cons_self)).2
        d zs hd hroom
      refine ⟨hnot, hok.mono ?_⟩
      rintro r e fs ⟨a, b', rfl, he, hl, hb, rfl, hz⟩
      exact ⟨a, rfl, by simp [itemShape, planShape, he, hl, hb], by simp [hl], hz⟩
    · obtain ⟨hnot, hok⟩ := (hlate g (by simpa using hvalid.planned _ List.mem_cons_self)).2
        seen d zs hd hroom
      refine ⟨hnot, hok.mono ?_⟩
      rintro r e fs ⟨a, g', rfl, he, hl, hg, rfl, hz⟩
      exact ⟨a, rfl, by simp [itemShape, planShape, he, hl, hg], by simp [hl], hz⟩
  · rintro as d fs ⟨has, rfl, hd⟩
    obtain ⟨hfst, hsnd⟩ := filterMap_planShape shapeEarly shapeLate bs gs
    rw [← has, List.filterMap_map] at hfst hsnd
    refine ⟨?_, ?_, flatMap_late? faults as, hd⟩
    · rw [List.map_filterMap]
      exact hfst
    · rw [List.map_filterMap]
      exact hsnd

end Items

/-! ## Bodies of methods -/

theorem atVariableDecl_of_variable {v : Variable} (hc : c.Sees (v.yield ++ rest)) :
    atVariableDecl c = true ∧ atBodyEnd c = false := by
  obtain ⟨_, n, t⟩ := v
  rw [atVariableDecl, atBodyEnd, atListEnd, hc.secondKind_eq]
  cases t <;> (rw [hc.kind_current]; exact ⟨rfl, rfl⟩)

theorem atBodyEnd_of_variable {v : Variable} (hc : c.Sees (v.yieldDecl ++ rest)) :
    atBodyEnd c = false := by
  rw [Variable.yieldDecl, List.append_assoc] at hc
  exact (atVariableDecl_of_variable hc).2

theorem atVariableDecl_of_statement {s : Stmt} (hs : s.Readable)
    (hc : c.Sees (s.yield ++ rest)) : atVariableDecl c = false ∧ atBodyEnd c = false := by
  rw [atVariableDecl, atBodyEnd, atListEnd, hc.secondKind_eq]
  cases s with
  | error s => exact absurd hs (Stmt.not_readable_error s)
  | _ =>
    rw [hc.kind_current]
    exact ⟨rfl, rfl⟩

theorem succeeds_localDecl {v : Variable} (hc : c.Sees (v.yieldDecl ++ rest)) :
    (localDecl false c).Succeeds fun item d fs =>
      ∃ v', item = some (.local v') ∧ v'.withoutSpans = v.withoutSpans ∧ fs = [] ∧ d.Sees rest := by
  apply succeeds_bind (succeeds_variableDecl hc)
  rintro v' d fs ⟨rfl, hv, hd⟩
  exact ⟨_, rfl, v', rfl, hv, rfl, hd⟩

theorem succeeds_bodyItem_variable {v : Variable} (hc : c.Sees (v.yieldDecl ++ rest)) :
    ((bodyItem false : Reader ε (Option BodyItem)) c).Succeeds fun item d fs =>
      ∃ v', item = some (.local v') ∧ v'.withoutSpans = v.withoutSpans ∧ fs = [] ∧ d.Sees rest := by
  have hat : atVariableDecl c = true := by
    rw [Variable.yieldDecl, List.append_assoc] at hc
    exact (atVariableDecl_of_variable hc).1
  rw [bodyItem, here_bind, if_pos hat]
  exact succeeds_rescue (succeeds_localDecl hc)

theorem succeeds_bodyItem_statement {s : Stmt} (hs : s.Readable) (seen : Bool)
    (hc : c.Sees (s.yield ++ rest)) :
    ((bodyItem seen : Reader ε (Option BodyItem)) c).Succeeds fun item d fs =>
      ∃ s', item = some (.statement s') ∧ s'.withoutSpans = s.withoutSpans ∧ fs = [] ∧
        d.Sees rest := by
  rw [bodyItem, here_bind, if_neg (by simp [(atVariableDecl_of_statement hs hc).1])]
  apply succeeds_bind (succeeds_recovering (succeeds_statement hs hc))
  rintro s' d fs ⟨rfl, hs', hd⟩
  exact succeeds_pure ⟨s', rfl, hs', rfl, hd⟩

theorem Variable.yieldDecl_ne_nil (v : Variable) : v.yieldDecl ≠ [] := by
  simp [Variable.yieldDecl]

/-- Read what is left of the items of a method body, when a statement was seen or not. -/
abbrev bodyItemsFrom (rounds : Nat) (seen : Bool) : Reader ε (List BodyItem) :=
  manyFrom atBodyEnd bodyItem (fun seen item => seen || item.statement?.isSome) rounds seen

theorem succeeds_bodyItemsFrom {vs : List Variable} {ss : List Stmt} {seen : Bool} {rounds : Nat}
    (hseen : seen → vs = []) (hss : ∀ s ∈ ss, s.Readable)
    (hstop : ∀ d : Cursor, d.Sees rest → atBodyEnd d = true) (hrounds : c.ahead.length ≤ rounds)
    (hc : c.Sees (vs.flatMap Variable.yieldDecl ++ (ss.flatMap Stmt.yield ++ rest))) :
    ((bodyItemsFrom rounds seen : Reader ε (List BodyItem)) c).Succeeds fun items d fs =>
        (items.filterMap BodyItem.local?).map Variable.withoutSpans =
          vs.map Variable.withoutSpans ∧
        (items.filterMap BodyItem.statement?).map Stmt.withoutSpans =
          ss.map Stmt.withoutSpans ∧ fs = [] ∧ d.Sees rest := by
  refine (succeeds_items bodyLayout Variable.withoutSpans Stmt.withoutSpans
    (fun _ => []) hseen (fun v _ => ?_) (fun s hs => ?_) hstop hrounds (Nat.le_refl _) hc).mono ?_
  · refine ⟨Variable.yieldDecl_ne_nil v, fun d zs hd _ => ⟨atBodyEnd_of_variable hd, ?_⟩⟩
    apply (succeeds_bodyItem_variable hd).mono
    rintro _ e fs ⟨v', rfl, hv, rfl, he⟩
    exact ⟨_, v', rfl, rfl, rfl, hv, rfl, he⟩
  · refine ⟨(hss s hs).yield_ne_nil, fun seen d zs hd _ => ?_⟩
    refine ⟨(atVariableDecl_of_statement (hss s hs) hd).2, ?_⟩
    apply (succeeds_bodyItem_statement (hss s hs) seen hd).mono
    rintro _ e fs ⟨s', rfl, hs', rfl, he⟩
    exact ⟨_, s', rfl, rfl, rfl, hs', rfl, he⟩
  · rintro items d fs ⟨hvs, hss', rfl, hd⟩
    exact ⟨hvs, hss', by simp, hd⟩

theorem succeeds_bodyItems {vs : List Variable} {ss : List Stmt} (hss : ∀ s ∈ ss, s.Readable)
    (hstop : ∀ d : Cursor, d.Sees rest → atBodyEnd d = true)
    (hc : c.Sees (vs.flatMap Variable.yieldDecl ++ (ss.flatMap Stmt.yield ++ rest))) :
    ((bodyItems : Reader ε (List BodyItem)) c).Succeeds fun items d fs =>
      (items.filterMap BodyItem.local?).map Variable.withoutSpans =
        vs.map Variable.withoutSpans ∧
      (items.filterMap BodyItem.statement?).map Stmt.withoutSpans =
        ss.map Stmt.withoutSpans ∧ fs = [] ∧ d.Sees rest :=
  succeeds_bodyItemsFrom nofun hss hstop c.length_le_room hc

/-- What holds of the parts of a method that follow its head, when they are read back. -/
def BodyReadAs (vs : List Variable) (ss : List Stmt) (r : MethodResult) (rest : List Terminal) :
    Result (List Variable × List Stmt × MethodResult) := fun b d fs =>
  b.1.map Variable.withoutSpans = vs.map Variable.withoutSpans ∧
    b.2.1.map Stmt.withoutSpans = ss.map Stmt.withoutSpans ∧
    b.2.2.withoutSpans = r.withoutSpans ∧
    fs = misplacedRecurs (Stmt.recursList b.2.1) ∧ d.Sees rest

/-- Where a `return` stands, its value is the result. -/
theorem succeeds_methodResult_returns {s : Span} {e : Expr} (he : e.Readable)
    (body : List Stmt) (hc : c.Sees ((MethodResult.returns s e).yield ++ rest)) :
    ((methodResult body : Reader ε (List Stmt × MethodResult)) c).Succeeds
      fun br d fs => br.1 = body ∧ br.2.withoutSpans = (MethodResult.returns s e).withoutSpans ∧
        fs = [] ∧ d.Sees rest := by
  have hk : c.current.kind = .returnKw := hc.kind_current
  simp only [MethodResult.yield, List.cons_append, List.append_assoc, List.nil_append] at hc
  have hreturned : (returned c).Succeeds fun r d fs =>
      r.withoutSpans = (MethodResult.returns s e).withoutSpans ∧ fs = [] ∧ d.Sees rest := by
    refine succeeds_expect_bind hc fun _ d hd => succeeds_bind (succeeds_expression he rfl hd) ?_
    rintro e' d fs ⟨rfl, he', hd⟩
    apply succeeds_expect_bind hd
    intro _ d hd
    rw [spanFrom_bind]
    exact succeeds_pure ⟨by simp [MethodResult.withoutSpans, he'], rfl, hd⟩
  rw [methodResult, isAt_bind, if_pos (decide_eq_true hk)]
  apply succeeds_bind (succeeds_rescue hreturned)
  rintro r d fs ⟨hr, rfl, hd⟩
  exact succeeds_pure ⟨rfl, hr, rfl, hd⟩

/-- Where a method ends and its last statement becomes the result, that is read. -/
theorem succeeds_methodResult_trailing {init : List Stmt} {s : Stmt} {r : MethodResult}
    (htrailing : trailing? c s = some r) (hc : c.Sees (word .rightBrace :: rest)) :
    ((methodResult (init ++ [s]) : Reader ε (List Stmt × MethodResult)) c).Succeeds
      fun br d fs => br = (init, r) ∧ fs = [] ∧ d.Sees (word .rightBrace :: rest) := by
  have hk : c.current.kind = .rightBrace := hc.kind_current
  rw [methodResult, isAt_bind, if_neg (by simp [hk]), here_bind, List.getLast?_concat,
    Option.bind_some, htrailing, List.dropLast_concat]
  exact succeeds_pure ⟨rfl, rfl, hc⟩

/-- What comes after the result in a method. -/
theorem succeeds_afterResult_bind {β : Type} {f : Unit → Reader ε β} {Q : Result β}
    (hc : c.Sees (word .rightBrace :: rest)) (h : (f () c).Succeeds Q) :
    ((afterResult >>= f) c).Succeeds Q := by
  have hend : atListEnd c = true := by
    rw [atListEnd, hc.kind_current]
    rfl
  rw [afterResult, bind_assoc, here_bind, if_pos hend]
  exact h

theorem succeeds_reportRecurs (rs : List Recur) (c : Cursor) :
    ((reportRecurs rs : Reader ε Unit) c).Succeeds fun _ d fs =>
      d = c ∧ fs = misplacedRecurs rs := by
  refine succeeds_noteAll ⟨rfl, ?_⟩
  simp [misplacedRecurs, Entry.fault?, List.filterMap_map, Function.comp_def]

/-- The result of a method was read, up to where `rest` lies ahead. -/
def ResultReadAs (ss : List Stmt) (r : MethodResult) (rest : List Terminal) :
    Result (List Stmt × MethodResult) := fun br d fs =>
  br.1.map Stmt.withoutSpans = ss.map Stmt.withoutSpans ∧ br.2.withoutSpans = r.withoutSpans ∧ fs = [] ∧
    d.Sees rest

/--
Up to its result, a method is read as statements. These are all statements of the method, with the
result among them if it is a `recur`.
-/
theorem exists_statements_before_result {ss : List Stmt} {r : MethodResult}
    (hss : ∀ s ∈ ss, s.Readable) (hr : ∀ n ∈ r.nodes, n.Readable) (rest : List Terminal) :
    ∃ (ss' : List Stmt) (rest' : List Terminal),
      ss.flatMap Stmt.yield ++ (r.yield ++ word .rightBrace :: rest) =
        ss'.flatMap Stmt.yield ++ rest' ∧
      (∀ s ∈ ss', s.Readable) ∧
      (∀ d : Cursor, d.Sees rest' → atBodyEnd d = true) ∧
      ∀ (body : List Stmt) (d : Cursor),
        body.map Stmt.withoutSpans = ss'.map Stmt.withoutSpans → d.Sees rest' →
        ((methodResult body : Reader ε (List Stmt × MethodResult)) d).Succeeds
          (ResultReadAs ss r (word .rightBrace :: rest)) := by
  cases r with
  | returns s e =>
    refine ⟨ss, _, rfl, hss, fun d hd => ?_, fun body d hbody hd => ?_⟩
    · rw [atBodyEnd, atListEnd, hd.kind_current]
      rfl
    · apply (succeeds_methodResult_returns hr body hd).mono
      rintro ⟨body', r'⟩ e' fs ⟨rfl, hr', rfl, he⟩
      exact ⟨hbody, hr', rfl, he⟩
  | recurs r =>
    -- it is read as the last statement first, and the result takes it back
    refine ⟨ss ++ [.recur r], word .rightBrace :: rest, ?_, ?_, fun d hd => ?_,
      fun body d hbody hd => ?_⟩
    · simp [MethodResult.yield, Stmt.yield]
    · refine List.forall_mem_append.2 ⟨hss, List.forall_mem_singleton.2 ?_⟩
      exact List.forall_mem_cons.2 ⟨⟨trivial, id⟩, hr⟩
    · rw [atBodyEnd, atListEnd, hd.kind_current]
      rfl
    · rw [List.map_append, List.map_eq_append_iff] at hbody
      obtain ⟨init, last, rfl, hinit, hlast⟩ := hbody
      obtain ⟨s, tail, rfl, hs, htail⟩ := List.map_eq_cons_iff.1 hlast
      obtain rfl : tail = [] := List.map_eq_nil_iff.1 htail
      obtain ⟨r', rfl, hr'⟩ : ∃ r', s = .recur r' ∧ r'.withoutSpans = r.withoutSpans := by
        cases s <;> simp_all [Stmt.withoutSpans]
      apply (succeeds_methodResult_trailing (r := .recurs r') rfl hd).mono
      rintro _ e fs ⟨rfl, rfl, he⟩
      exact ⟨hinit, by simp [MethodResult.withoutSpans, hr'], rfl, he⟩

theorem succeeds_methodBody {vs : List Variable} {ss : List Stmt} {r : MethodResult}
    (hss : ∀ s ∈ ss, s.Readable) (hr : ∀ n ∈ r.nodes, n.Readable)
    (hc : c.Sees (vs.flatMap Variable.yieldDecl ++
      (ss.flatMap Stmt.yield ++ (r.yield ++ word .rightBrace :: rest)))) :
    ((methodBody : Reader ε (List Variable × List Stmt × MethodResult)) c).Succeeds
      (BodyReadAs vs ss r rest) := by
  obtain ⟨ss', rest', heq, hss', hstop, hresult⟩ := exists_statements_before_result hss hr rest
  rw [heq] at hc
  apply succeeds_bind (succeeds_bodyItems hss' hstop hc)
  rintro items d fs ⟨hvs, hbody, rfl, hd⟩
  apply succeeds_bind (hresult _ d hbody hd)
  rintro ⟨body, r'⟩ d fs ⟨hbody, hr', rfl, hd⟩
  refine succeeds_afterResult_bind hd (succeeds_expectOrReport_bind hd fun d hd => ?_)
  apply succeeds_bind (succeeds_reportRecurs _ d)
  rintro _ _ _ ⟨rfl, rfl⟩
  exact succeeds_pure ⟨hvs, hbody, hr', by simp, hd⟩

/-! ## Methods and classes -/

theorem succeeds_method {m : Method} (hm : ∀ n ∈ m.nodes, n.Readable)
    (hc : c.Sees (m.yield ++ rest)) : (method c).Succeeds fun m' d fs =>
      m'.withoutSpans = m.withoutSpans ∧ fs = misplacedRecurs m'.recurs ∧ d.Sees rest := by
  obtain ⟨-, hm⟩ := List.forall_mem_cons.1 hm
  obtain ⟨-, hm⟩ := List.forall_mem_append.1 hm
  obtain ⟨-, hm⟩ := List.forall_mem_append.1 hm
  obtain ⟨hss, hr⟩ := List.forall_mem_append.1 hm
  simp only [Method.yield, List.cons_append, List.append_assoc, List.nil_append] at hc
  refine succeeds_expect_bind hc fun _ d hd => succeeds_bind (succeeds_typeName hd) ?_
  rintro t d fs ⟨rfl, rfl, hd⟩
  refine succeeds_expectName_bind hd fun d hd => succeeds_expect_bind hd fun _ d hd => ?_
  apply succeeds_bind (succeeds_parameters hd)
  rintro ps d fs ⟨rfl, hps, hd⟩
  refine succeeds_expect_bind hd fun _ d hd => succeeds_expect_bind hd fun _ d hd => ?_
  apply succeeds_bind (succeeds_methodBody (List.forall_mem_flatMap.1 hss) hr hd)
  rintro ⟨vs, ss, r⟩ d fs ⟨hvs, hss', hr', rfl, hd⟩
  dsimp only
  rw [spanFrom_bind]
  exact succeeds_pure ⟨by simp_all [Method.withoutSpans], by simp [Method.recurs], hd⟩

/-- A variable starts with its type, which is no method and closes no class. -/
theorem atMember_of_variable {v : Variable} (hc : c.Sees (v.yield ++ rest)) :
    atMembersEnd c = false ∧ c.current.kind ≠ .publicKw := by
  obtain ⟨_, n, t⟩ := v
  rw [atMembersEnd]
  cases t <;> (rw [hc.kind_current]; exact ⟨rfl, by simp⟩)

theorem atMember_of_variableDecl {v : Variable} (hc : c.Sees (v.yieldDecl ++ rest)) :
    atMembersEnd c = false ∧ c.current.kind ≠ .publicKw := by
  rw [Variable.yieldDecl, List.append_assoc] at hc
  exact atMember_of_variable hc

theorem succeeds_member_field {v : Variable} (hc : c.Sees (v.yieldDecl ++ rest)) :
    ((member false : Reader ε (Option Member)) c).Succeeds fun item d fs =>
      ∃ v', item = some (.field v') ∧ v'.withoutSpans = v.withoutSpans ∧ fs = [] ∧
        d.Sees rest := by
  rw [member, here_bind, if_neg (atMember_of_variableDecl hc).2]
  refine succeeds_rescue (succeeds_bind (succeeds_variableDecl hc) ?_)
  rintro v' d fs ⟨rfl, hv, hd⟩
  exact ⟨_, rfl, v', rfl, hv, rfl, hd⟩

theorem succeeds_member_method {m : Method} (hm : ∀ n ∈ m.nodes, n.Readable) (seen : Bool)
    (hc : c.Sees (m.yield ++ rest)) :
    ((member seen : Reader ε (Option Member)) c).Succeeds fun item d fs =>
      ∃ m', item = some (.method m') ∧ m'.withoutSpans = m.withoutSpans ∧
        fs = misplacedRecurs m'.recurs ∧ d.Sees rest := by
  have hk : c.current.kind = .publicKw := hc.kind_current
  rw [member, here_bind, if_pos hk]
  refine succeeds_rescue (succeeds_bind (succeeds_method hm hc) ?_)
  rintro m' d fs ⟨hm', rfl, hd⟩
  exact succeeds_pure ⟨m', rfl, hm', by simp, hd⟩

/-- Read what is left of the members of a class, when a method was seen or not. -/
abbrev membersFrom (rounds : Nat) (seen : Bool) : Reader ε (List Member) :=
  manyFrom atMembersEnd member (fun seen item => seen || item.method?.isSome) rounds seen

theorem succeeds_membersFrom {vs : List Variable} {ms : List Method} {seen : Bool} {rounds : Nat}
    (hseen : seen → vs = []) (hms : ∀ m ∈ ms, ∀ n ∈ m.nodes, n.Readable)
    (hrounds : c.ahead.length ≤ rounds)
    (hc : c.Sees (vs.flatMap Variable.yieldDecl ++
      (ms.flatMap Method.yield ++ word .rightBrace :: rest))) :
    ((membersFrom rounds seen : Reader ε (List Member)) c).Succeeds fun items d fs =>
        (items.filterMap Member.field?).map Variable.withoutSpans =
          vs.map Variable.withoutSpans ∧
        (items.filterMap Member.method?).map Method.withoutSpans = ms.map Method.withoutSpans ∧
        fs = (items.filterMap Member.method?).flatMap (fun m => misplacedRecurs m.recurs) ∧
        d.Sees (word .rightBrace :: rest) := by
  refine succeeds_items memberLayout Variable.withoutSpans Method.withoutSpans
    (fun m => misplacedRecurs m.recurs) hseen (fun v _ => ?_) (fun m hm => ?_) (fun d hd => ?_)
    hrounds (Nat.le_refl _) hc
  · refine ⟨Variable.yieldDecl_ne_nil v, fun d zs hd _ => ⟨(atMember_of_variableDecl hd).1, ?_⟩⟩
    apply (succeeds_member_field hd).mono
    rintro _ e fs ⟨v', rfl, hv, rfl, he⟩
    exact ⟨_, v', rfl, rfl, rfl, hv, rfl, he⟩
  · refine ⟨nofun, fun seen d zs hd _ => ⟨?_, ?_⟩⟩
    · rw [atMembersEnd, hd.kind_current]
      rfl
    · apply (succeeds_member_method (hms m hm) seen hd).mono
      rintro _ e fs ⟨m', rfl, hm', rfl, he⟩
      exact ⟨_, m', rfl, rfl, rfl, hm', rfl, he⟩
  · rw [atMembersEnd, hd.kind_current]
    rfl

theorem succeeds_members {vs : List Variable} {ms : List Method}
    (hms : ∀ m ∈ ms, ∀ n ∈ m.nodes, n.Readable)
    (hc : c.Sees (vs.flatMap Variable.yieldDecl ++
      (ms.flatMap Method.yield ++ word .rightBrace :: rest))) :
    ((members : Reader ε (List Member)) c).Succeeds fun items d fs =>
      (items.filterMap Member.field?).map Variable.withoutSpans =
        vs.map Variable.withoutSpans ∧
      (items.filterMap Member.method?).map Method.withoutSpans = ms.map Method.withoutSpans ∧
      fs = (items.filterMap Member.method?).flatMap (fun m => misplacedRecurs m.recurs) ∧
      d.Sees (word .rightBrace :: rest) :=
  succeeds_membersFrom nofun hms c.length_le_room hc

theorem succeeds_superclass {s : Option String}
    (hc : c.Sees (ClassDecl.yieldSuperclass s ++ word .leftBrace :: rest)) :
    (superclass c).Succeeds fun s' d fs =>
      fs = [] ∧ s' = s ∧ d.Sees (word .leftBrace :: rest) := by
  cases s with
  | none =>
    have hk : c.current.kind ≠ .extendsKw := by
      rw [hc.kind_current]
      nofun
    exact succeeds_eat_bind_of_ne hk (succeeds_pure ⟨rfl, rfl, hc⟩)
  | some n =>
    apply succeeds_eat_bind hc
    intro d hd
    exact succeeds_expectName_bind hd fun d hd => succeeds_pure ⟨rfl, rfl, hd⟩

theorem succeeds_classDecl {k : ClassDecl} (hk : ∀ n ∈ k.nodes, n.Readable)
    (hc : c.Sees (k.yield ++ rest)) : (classDecl c).Succeeds fun k' d fs =>
      k'.withoutSpans = k.withoutSpans ∧ fs = misplacedRecurs k'.recurs ∧ d.Sees rest := by
  obtain ⟨-, hk⟩ := List.forall_mem_cons.1 hk
  obtain ⟨-, hms⟩ := List.forall_mem_append.1 hk
  simp only [ClassDecl.yield, List.cons_append, List.append_assoc, List.nil_append] at hc
  refine succeeds_expect_bind hc fun _ d hd => succeeds_expectName_bind hd fun d hd => ?_
  apply succeeds_bind (succeeds_superclass hd)
  rintro s d fs ⟨rfl, rfl, hd⟩
  apply succeeds_expect_bind hd
  intro _ d hd
  apply succeeds_bind (succeeds_members (List.forall_mem_flatMap.1 hms) hd)
  rintro items d fs ⟨hvs, hms', rfl, hd⟩
  apply succeeds_expectOrReport_bind hd
  intro d hd
  rw [spanFrom_bind]
  refine succeeds_pure ⟨by simp_all [ClassDecl.withoutSpans], ?_, hd⟩
  simp [ClassDecl.recurs, misplacedRecurs, List.map_flatMap]

end MiniJava.Parse
