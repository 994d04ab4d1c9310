import MiniJava.Proofs.Recovery.Method

/-!
# Classes that lack a semicolon

A field that lacks its semicolon is left out, and maybe the field after it; a method that lacks one
takes care of it. The other methods of the class are read as usual.
-/

namespace MiniJava

open Terminal

namespace Parse

open Reader Reading

variable {ε : Type} {c : Cursor} {found : Token} {later : List Token} {tail : List Token}
  {behind rest zs : List Terminal}

/-! ## Members -/

theorem misplacedRecurs_methods_eq_nil {ms ms' : List Method}
    (hms : ∀ m ∈ ms, ∀ n ∈ m.nodes, n.WellFormed)
    (hsame : ms'.map Method.withoutSpans = ms.map Method.withoutSpans) :
    ms'.flatMap (fun m => misplacedRecurs m.recurs) = [] := by
  rw [List.flatMap_eq_nil_iff]
  intro m' hm'
  obtain ⟨m, hm, heq⟩ :=
    List.mem_map.1 (hsame ▸ List.mem_map_of_mem (f := Method.withoutSpans) hm')
  rw [Method.recurs_eq_nil (hms m hm) heq.symm]
  rfl

/-- A field that is broken is left out, and the field after it may be. -/
theorem succeeds_member_broken_field {v : Variable} {vs : List Variable}
    (hzs : Region.members.EndsAt (headKind zs)) (hafter : (headKind zs).afterSemicolon)
    (hc : c.Lacks [] v.yieldDecl behind (vs.flatMap Variable.yieldDecl ++ zs) (found :: later)) :
    ((member false : Reader ε (Option Member)) c).Succeeds fun item d fs =>
      d.ahead.length < c.ahead.length ∧ item = none ∧ fs = [.missing .semicolon found] ∧
        ∃ vs' : List Variable, d.Sees (vs'.flatMap Variable.yieldDecl ++ zs) := by
  obtain ⟨hfails, hsees, htail⟩ := variable_broken (afterSemicolon_variables hafter) hc
  rw [member, here_bind, if_neg (atMember_of_variable hsees).2]
  apply succeeds_rescue_of_failsAt (failsAt_bind_of_failsAt hfails)
  intro d htokens hd
  have hd' := hd.sees
  rw [List.nil_append, htail] at hd'
  have hlands : ∃ vs' : List Variable, d.LandsAt .members (vs'.flatMap Variable.yieldDecl ++ zs) := by
    cases vs with
    | nil => exact ⟨[], landsAt_of_endsAt hd' hzs⟩
    | cons w vs =>
      rw [List.flatMap_cons, List.append_assoc] at hd'
      exact ⟨vs, landsAt_variable (by simp) hd'⟩
  obtain ⟨vs', hlands⟩ := hlands
  have hroom : d.room < c.room := hc.room_lt (by
    obtain ⟨_, n, t⟩ := v
    cases t <;> rintro ⟨⟩) hd
  apply succeeds_bind (succeeds_recover htokens hroom hlands)
  rintro _ e fs ⟨rfl, hlength, he⟩
  exact succeeds_pure ⟨hlength, rfl, rfl, vs', he⟩

/-- A method that is broken takes its place among the members. -/
theorem succeeds_member_broken_method {m : Method} (hm : ∀ n ∈ m.nodes, n.WellFormed) (seen : Bool)
    (hback : FindsBack ((found :: later).map Token.terminal))
    (hc : c.Lacks [] m.yield behind rest (found :: later)) :
    ((member seen : Reader ε (Option Member)) c).Succeeds fun item d fs =>
      d.ahead.length < c.ahead.length ∧ (∃ m', item = some (.method m')) ∧
        fs = [.missing .semicolon found] ∧ d.Sees rest := by
  have hk : c.current.kind = .publicKw := hc.kind_current_eq (by rintro ⟨⟩)
  have hlength : rest.length < c.ahead.length := hc.length_rest_lt (by rintro ⟨⟩)
  rw [member, here_bind, if_pos hk]
  apply succeeds_rescue
  apply succeeds_bind (succeeds_method_broken hm hback hc)
  rintro m' d fs ⟨rfl, hd⟩
  rw [← hd.length_eq] at hlength
  exact succeeds_pure ⟨hlength, ⟨m', rfl⟩, rfl, hd⟩

/-- The fields and the methods that some members are, up to spans. -/
structure MembersReadAs (vs : List Variable) (ms : List Method) (items : List Member) : Prop where
  fields : (items.filterMap Member.field?).map Variable.withoutSpans = vs.map Variable.withoutSpans
  methods : (items.filterMap Member.method?).map Method.withoutSpans = ms.map Method.withoutSpans

theorem MembersReadAs.append {vs vs' : List Variable} {ms ms' : List Method}
    {items items' : List Member} (h : MembersReadAs vs ms items)
    (h' : MembersReadAs vs' ms' items') :
    MembersReadAs (vs ++ vs') (ms ++ ms') (items ++ items') := by
  constructor
  · simp [h.fields, h'.fields]
  · simp [h.methods, h'.methods]

section Members

variable {Q : Result (List Member)}

theorem ensures_member_moves (seen : Bool) (d : Cursor) :
    ((member seen : Reader ε (Option Member)) d).Ensures d fun _ _ _ _ => True :=
  (ensures_member seen d).mono fun _ _ _ _ _ => trivial

/-- The fields before the place that matters are read as usual. -/
theorem succeeds_members_fields {vs : List Variable}
    (hrest : ∀ rounds d, d.Spells zs tail → d.ahead.length ≤ rounds →
      ((membersFrom rounds false : Reader ε (List Member)) d).Succeeds Q)
    (hc : c.Spells (vs.flatMap Variable.yieldDecl ++ zs) tail) (hrounds : c.ahead.length ≤ rounds) :
    ((membersFrom rounds false : Reader ε (List Member)) c).Succeeds fun items d fs =>
      ∃ items₁ items₂, items = items₁ ++ items₂ ∧ MembersReadAs vs [] items₁ ∧ Q items₂ d fs := by
  have hfront : ∀ v ∈ vs, ∀ seen, seen = false → ∀ (d : Cursor) (ys : List Terminal),
      d.Sees (v.yieldDecl ++ ys) → d.ahead.length ≤ rounds → atMembersEnd d = false ∧
      ((member seen : Reader ε (Option Member)) d).Succeeds fun r e fs =>
        fs = [] ∧ (∃ a, r = some a ∧ ∃ v', a = .field v' ∧ v'.withoutSpans = v.withoutSpans) ∧
          e.Sees ys := by
    rintro v - _ rfl d ys hd -
    refine ⟨(atMember_of_variableDecl hd).1, ?_⟩
    apply (succeeds_member_field hd).mono
    rintro _ e fs ⟨v', rfl, hv, rfl, he⟩
    exact ⟨rfl, ⟨_, rfl, v', rfl, hv⟩, he⟩
  have hnext : ∀ v ∈ vs, ∀ (seen : Bool) (a : Member), seen = false →
      (∃ v', a = .field v' ∧ v'.withoutSpans = v.withoutSpans) →
      (seen || a.method?.isSome) = false := by
    rintro v - _ _ rfl ⟨v', rfl, -⟩
    rfl
  apply (succeeds_manyFrom_front hfront (fun v _ => Variable.yieldDecl_ne_nil v) hnext
    ensures_member_moves (fun n _ d hs hd hn _ => hs ▸ hrest n d hd hn) rfl hc hrounds hrounds).mono
  rintro _ d fs ⟨items₁, items₂, rfl, hsame, hQ⟩
  have hfields : (items₁.filterMap Member.field?).map Variable.withoutSpans =
      vs.map Variable.withoutSpans := by
    refine map_eq_of_forall₂ (forall₂_filterMap (hsame.imp ?_))
    rintro _ _ ⟨v', rfl, hv⟩
    exact ⟨v', rfl, hv⟩
  have hnone : items₁.filterMap Member.method? = [] := by
    refine filterMap_eq_nil_of_forall₂ (hsame.imp ?_)
    rintro _ _ ⟨v', rfl, -⟩
    rfl
  exact ⟨items₁, items₂, rfl, ⟨hfields, by rw [hnone, List.map_nil]⟩, hQ⟩

/-- The methods before the one that matters are read as usual. -/
theorem succeeds_members_methods {ms : List Method} {seen : Bool}
    (hms : ∀ m ∈ ms, ∀ n ∈ m.nodes, n.WellFormed)
    (hrest : ∀ rounds seen d, d.Spells zs tail → d.ahead.length ≤ rounds →
      ((membersFrom rounds seen : Reader ε (List Member)) d).Succeeds Q)
    (hc : c.Spells (ms.flatMap Method.yield ++ zs) tail) (hrounds : c.ahead.length ≤ rounds) :
    ((membersFrom rounds seen : Reader ε (List Member)) c).Succeeds fun items d fs =>
      ∃ items₁ items₂, items = items₁ ++ items₂ ∧ MembersReadAs [] ms items₁ ∧ Q items₂ d fs := by
  have hfront : ∀ m ∈ ms, ∀ seen, True → ∀ (d : Cursor) (ys : List Terminal),
      d.Sees (m.yield ++ ys) → d.ahead.length ≤ rounds → atMembersEnd d = false ∧
      ((member seen : Reader ε (Option Member)) d).Succeeds fun r e fs =>
        fs = [] ∧ (∃ a, r = some a ∧ ∃ m', a = .method m' ∧ m'.withoutSpans = m.withoutSpans) ∧
          e.Sees ys := by
    intro m hm seen _ d ys hd _
    have hmore : atMembersEnd d = false := by
      rw [atMembersEnd, hd.kind_current]
      rfl
    refine ⟨hmore, ?_⟩
    apply (succeeds_member_method (fun n hn => (hms m hm n hn).readable) seen hd).mono
    rintro _ e fs ⟨m', rfl, hm', rfl, he⟩
    exact ⟨by rw [Method.recurs_eq_nil (hms m hm) hm']; rfl, ⟨_, rfl, m', rfl, hm'⟩, he⟩
  apply (succeeds_manyFrom_front hfront (fun _ _ => by rintro ⟨⟩) (fun _ _ _ _ _ _ => trivial)
    ensures_member_moves (fun n seen d _ hd hn _ => hrest n seen d hd hn) trivial hc hrounds
    hrounds).mono
  rintro _ d fs ⟨items₁, items₂, rfl, hsame, hQ⟩
  have hmethods : (items₁.filterMap Member.method?).map Method.withoutSpans =
      ms.map Method.withoutSpans := by
    refine map_eq_of_forall₂ (forall₂_filterMap (hsame.imp ?_))
    rintro _ _ ⟨m', rfl, hm⟩
    exact ⟨m', rfl, hm⟩
  have hnone : items₁.filterMap Member.field? = [] := by
    refine filterMap_eq_nil_of_forall₂ (hsame.imp ?_)
    rintro _ _ ⟨m', rfl, -⟩
    rfl
  exact ⟨items₁, items₂, rfl, ⟨by rw [hnone, List.map_nil], hmethods⟩, hQ⟩

end Members

/-! ## Members around the broken one -/

/-- The members after the broken one are read as usual. -/
theorem succeeds_membersFrom_after {vs : List Variable} {ms : List Method} {seen : Bool}
    {rounds : Nat} (hseen : seen = true → vs = []) (hms : ∀ m ∈ ms, ∀ n ∈ m.nodes, n.WellFormed)
    (hrounds : c.ahead.length ≤ rounds)
    (hc : c.Sees (vs.flatMap Variable.yieldDecl ++
      (ms.flatMap Method.yield ++ word .rightBrace :: rest))) :
    ((membersFrom rounds seen : Reader ε (List Member)) c).Succeeds fun items d fs =>
      MembersReadAs vs ms items ∧ fs = [] ∧ d.Sees (word .rightBrace :: rest) := by
  apply (succeeds_membersFrom hseen (fun m hm n hn => (hms m hm n hn).readable) hrounds hc).mono
  rintro items d fs ⟨hvs, hms', rfl, hd⟩
  exact ⟨⟨hvs, hms'⟩, misplacedRecurs_methods_eq_nil hms hms', hd⟩

theorem succeeds_membersFrom_broken_field {v : Variable} {vs : List Variable} {ms : List Method}
    {rounds : Nat} (hms : ∀ m ∈ ms, ∀ n ∈ m.nodes, n.WellFormed)
    (hc : c.Lacks [] v.yieldDecl behind (vs.flatMap Variable.yieldDecl ++
      (ms.flatMap Method.yield ++ word .rightBrace :: rest)) (found :: later))
    (hrounds : c.ahead.length ≤ rounds) :
    ((membersFrom rounds false : Reader ε (List Member)) c).Succeeds fun items d fs =>
      (∃ vs', MembersReadAs vs' ms items) ∧ fs = [.missing .semicolon found] ∧
        d.Sees (word .rightBrace :: rest) := by
  have hends : Region.members.EndsAt
      (headKind (ms.flatMap Method.yield ++ word .rightBrace :: rest)) := by
    cases ms with
    | nil => exact .inl rfl
    | cons m ms => exact .inr (.inl rfl)
  have hafter : (headKind (ms.flatMap Method.yield ++ word .rightBrace :: rest)).afterSemicolon := by
    cases ms <;> rfl
  obtain ⟨-, hsees, -⟩ := variable_broken (afterSemicolon_variables hafter) hc
  apply succeeds_manyFrom_item (atMember_of_variable hsees).1 hrounds
    (succeeds_member_broken_field hends hafter hc)
  rintro n _ d fs hlength ⟨rfl, rfl, vs', hd⟩
  apply (succeeds_membersFrom_after (by simp) hms hlength hd).mono
  rintro items e fs ⟨hread, rfl, he⟩
  exact ⟨⟨vs', hread⟩, rfl, he⟩

theorem succeeds_membersFrom_broken_method {m : Method} {ms : List Method} {rounds : Nat}
    (hm : ∀ n ∈ m.nodes, n.WellFormed) (hms : ∀ m ∈ ms, ∀ n ∈ m.nodes, n.WellFormed) (seen : Bool)
    (hback : FindsBack ((found :: later).map Token.terminal))
    (hc : c.Lacks [] m.yield behind (ms.flatMap Method.yield ++ word .rightBrace :: rest)
      (found :: later)) (hrounds : c.ahead.length ≤ rounds) :
    ((membersFrom rounds seen : Reader ε (List Member)) c).Succeeds fun items d fs =>
      (∃ m', MembersReadAs [] (m' :: ms) items) ∧ fs = [.missing .semicolon found] ∧
        d.Sees (word .rightBrace :: rest) := by
  have hmore : atMembersEnd c = false := by
    have hk : c.current.kind = .publicKw := hc.kind_current_eq (by rintro ⟨⟩)
    rw [atMembersEnd, hk]
  apply succeeds_manyFrom_item hmore hrounds (succeeds_member_broken_method hm seen hback hc)
  rintro n _ d fs hlength ⟨⟨m', rfl⟩, rfl, hd⟩
  have hnone : ∀ b : Bool, b = true → ([] : List Variable) = [] := fun _ _ => rfl
  apply (succeeds_membersFrom_after (hnone _) hms hlength hd).mono
  rintro items e fs ⟨hread, rfl, he⟩
  have hfirst : MembersReadAs [] [m'] [.method m'] := ⟨rfl, rfl⟩
  exact ⟨⟨m', hfirst.append hread⟩, rfl, he⟩

/-- Of the members of a class one is broken. -/
inductive MembersBroken (vs : List Variable) (ms : List Method) (behind : List Terminal)
    (items : List Member) : Prop
  | field (vs' : List Variable) (hbehind : ms.flatMap Method.yield <:+ behind)
      (hread : MembersReadAs vs' ms items)
  | method (ms₁ ms₂ : List Method) (m m' : Method) (front inside : List Terminal)
      (hms : ms = ms₁ ++ m :: ms₂) (hm : m.yield = front ++ word .semicolon :: inside)
      (hbehind : behind = inside ++ ms₂.flatMap Method.yield)
      (hread : MembersReadAs vs (ms₁ ++ m' :: ms₂) items)

theorem succeeds_members_around {vs : List Variable} {ms : List Method}
    (hms : ∀ m ∈ ms, ∀ n ∈ m.nodes, n.WellFormed)
    (hback : FindsBack ((found :: later).map Token.terminal))
    (hc : c.Lacks [] (vs.flatMap Variable.yieldDecl ++ ms.flatMap Method.yield) behind
      (word .rightBrace :: rest) (found :: later)) :
    ((members : Reader ε (List Member)) c).Succeeds fun items d fs =>
      MembersBroken vs ms behind items ∧ fs = [.missing .semicolon found] ∧
        d.Sees (word .rightBrace :: rest) := by
  have hroom := c.length_le_room
  rcases hc.append with ⟨behind', rfl, hfields⟩ | hmethods
  · obtain ⟨vs₁, v, vs₂, behind'', rfl, -, ⟨as, hv, hspells⟩, htail⟩ := hfields.flatMap
    apply (succeeds_members_fields (fun rounds d hd hrounds =>
      succeeds_membersFrom_broken_field hms ⟨⟨as, hv, hd⟩, htail⟩ hrounds) hspells hroom).mono
    rintro _ d fs ⟨items₁, items₂, rfl, hread₁, ⟨vs', hread₂⟩, rfl, hd⟩
    exact ⟨.field (vs₁ ++ vs') (List.suffix_append _ _) (hread₁.append hread₂), rfl, hd⟩
  · obtain ⟨ms₁, m, ms₂, inside, rfl, rfl, ⟨as, hm, hspells⟩, htail⟩ := hmethods.flatMap
    obtain ⟨hms₁, hms₂⟩ := List.forall_mem_append.1 hms
    obtain ⟨hwell, hms₂⟩ := List.forall_mem_cons.1 hms₂
    rw [List.nil_append, List.append_assoc] at hspells
    -- The fields come first, then the methods before the broken one.
    apply (succeeds_members_fields (fun rounds d hd hrounds =>
      succeeds_members_methods hms₁ (fun rounds seen e he hrounds =>
        succeeds_membersFrom_broken_method hwell hms₂ seen hback ⟨⟨as, hm, he⟩, htail⟩ hrounds)
        hd hrounds) hspells hroom).mono
    rintro _ d fs ⟨items₁, _, rfl, hread₁, ⟨items₂, items₃, rfl, hread₂, ⟨m', hread₃⟩, rfl, hd⟩⟩
    have hread := hread₁.append (hread₂.append hread₃)
    simp only [List.append_nil, List.nil_append] at hread
    exact ⟨.method ms₁ ms₂ m m' as inside rfl hm rfl hread, rfl, hd⟩

end Parse

/--
A class in which a semicolon was lost, with `behind` of its text to come after it. All is unchanged
but the fields, or but the method that the semicolon was lost from.
-/
inductive ClassDecl.LostFrom (behind : List Terminal) (k k' : ClassDecl) : Prop
  | field (vs : List Variable)
      (hbehind : k.methods.flatMap Method.yield ++ [word .rightBrace] <:+ behind)
      (hsame : k'.withoutSpans = { k with fields := vs }.withoutSpans)
  | method (ms₁ ms₂ : List Method) (m m' : Method) (front inside : List Terminal)
      (hmethods : k.methods = ms₁ ++ m :: ms₂) (hm : m.yield = front ++ word .semicolon :: inside)
      (hbehind : behind = inside ++ (ms₂.flatMap Method.yield ++ [word .rightBrace]))
      (hsame : k'.withoutSpans = { k with methods := ms₁ ++ m' :: ms₂ }.withoutSpans)

namespace Parse

open Reader Reading

variable {ε : Type} {c : Cursor} {found : Token} {later : List Token}
  {behind rest : List Terminal}

/-- A class in which a semicolon is lost is read to its end, and one fault is noted. -/
theorem succeeds_classDecl_broken {k : ClassDecl} (hk : ∀ n ∈ k.nodes, n.WellFormed)
    (hback : FindsBack ((found :: later).map Token.terminal))
    (hc : c.Lacks [] k.yield behind rest (found :: later)) :
    (classDecl c).Succeeds fun k' d fs =>
      k.LostFrom behind k' ∧ fs = [.missing .semicolon found] ∧ d.Sees rest := by
  obtain ⟨-, hk⟩ := List.forall_mem_cons.1 hk
  obtain ⟨-, hms⟩ := List.forall_mem_append.1 hk
  have hsplit : c.Lacks [] (word .classKw :: ident k.name ::
      (ClassDecl.yieldSuperclass k.superclass ++ [word .leftBrace]) ++
        ((k.fields.flatMap Variable.yieldDecl ++ k.methods.flatMap Method.yield) ++
          [word .rightBrace])) behind rest (found :: later) := by
    simpa [ClassDecl.yield] using hc
  have hhead : word .semicolon ∉ word .classKw :: ident k.name ::
      (ClassDecl.yieldSuperclass k.superclass ++ [word .leftBrace]) := by
    cases k.superclass <;> simp [ClassDecl.yieldSuperclass, word, ident]
  obtain ⟨behind', rfl, hmembers⟩ :=
    (hsplit.append_of_notMem hhead).of_append_of_notMem (by simp [word])
  rw [List.nil_append] at hmembers
  apply succeeds_expect_bind_of_lacks rfl hmembers
  intro _ d hd
  apply succeeds_expectName_bind_of_lacks hd
  intro d hd
  apply succeeds_bind (hd.passes (fun zs hs => succeeds_superclass hs) (ensures_superclass d))
  rintro _ d fs ⟨rfl, rfl, hd⟩
  apply succeeds_expect_bind_of_lacks rfl hd
  intro _ d hd
  apply succeeds_bind (succeeds_members_around (List.forall_mem_flatMap.1 hms) hback hd)
  rintro items d fs ⟨hbroken, rfl, hd⟩
  apply succeeds_expectOrReport_bind hd
  intro d hd
  rw [spanFrom_bind]
  refine succeeds_pure ⟨?_, rfl, hd⟩
  rcases hbroken with ⟨vs, ⟨before, hbefore⟩, hread⟩ |
    ⟨ms₁, ms₂, m, m', front, inside, hmethods, hm, rfl, hread⟩
  · refine .field vs ⟨before, by rw [← hbefore, List.append_assoc]⟩ ?_
    simp [ClassDecl.withoutSpans, hread.fields, hread.methods]
  · refine .method ms₁ ms₂ m m' front inside hmethods hm (List.append_assoc _ _ _) ?_
    simp [ClassDecl.withoutSpans, hread.fields, hread.methods]

end Parse

end MiniJava
