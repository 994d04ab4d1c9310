import MiniJava.Proofs.Recovery.Lost

/-!
# Clauses

A clause is what stands up to the next semicolon or brace. A reader of an expression, of a variable
or of an assignment takes no semicolon and no brace before it is done with its clause. So if it
fails, whatever the tokens of the clause are, it fails in the clause or at the token that ends it.
-/

namespace MiniJava

open Terminal

variable {ε α β : Type}

/-- Whether a clause ends at tokens of this kind. -/
def TokenKind.endsClause : TokenKind → Bool
  | leftBrace | rightBrace | semicolon => true
  | _ => false

/-- Kinds that a test tells apart differ. -/
theorem TokenKind.ne_of_test {test : TokenKind → Bool} {kind kind' : TokenKind}
    (h : test kind = false) (h' : test kind' = true) : kind ≠ kind' := by
  rintro rfl
  cases h.symm.trans h'

namespace Reading

/-- Reading takes tokens of one clause only, and if it fails, then because of the next token. -/
structure WithinClause (r : Reading Fault α) (c : Cursor) : Prop where
  reaches : ∃ ys, c.Reaches ys r.cursor ∧ ∀ y ∈ ys, y.kind.endsClause = false
  faults : r.faults = []
  unexpected : ∀ fault, r.outcome = .error fault →
    ∃ expected, fault = .unexpected r.cursor.current expected none

/-- If reading fails, it has taken tokens of one clause only. -/
def FailsWithinClause (r : Reading Fault α) (c : Cursor) : Prop :=
  c.Regular → ∀ fault, r.outcome = .error fault → r.WithinClause c

theorem WithinClause.after {r : Reading Fault α} {c d : Cursor} {ys : List Terminal}
    (hd : c.Reaches ys d) (hys : ∀ y ∈ ys, y.kind.endsClause = false) (h : r.WithinClause d) :
    r.WithinClause c := by
  obtain ⟨⟨zs, he, hzs⟩, hfaults, hfault⟩ := h
  exact ⟨⟨ys ++ zs, hd.trans he, List.forall_mem_append.2 ⟨hys, hzs⟩⟩, hfaults, hfault⟩

end Reading

namespace Reader

open Reading

variable {p : Reader Fault α} {f : α → Reader Fault β} {c : Cursor} {kind : TokenKind}

/-! ## Rules -/

theorem within_pure (a : α) (c : Cursor) : ((pure a : Reader Fault α) c).WithinClause c :=
  ⟨⟨[], .refl c, List.forall_mem_nil _⟩, rfl, nofun⟩

theorem within_fail (expected : List Expectation) (c : Cursor) :
    (⟨.error (.unexpected c.current expected none), c, []⟩ : Reading Fault α).WithinClause c := by
  refine ⟨⟨[], .refl c, List.forall_mem_nil _⟩, rfl, ?_⟩
  rintro _ ⟨rfl⟩
  exact ⟨expected, rfl⟩

theorem within_failUnexpected (expected : List Expectation) (c : Cursor) :
    ((failUnexpected expected : Reader Fault α) c).WithinClause c :=
  within_fail expected c

/-- That a bound was reached is no fault. -/
theorem within_exhaustIf_bind {reached : Bool} {f : Unit → Reader Fault α}
    (h : (f () c).WithinClause c) : ((exhaustIf reached >>= f) c).WithinClause c := by
  cases reached <;> exact ⟨h.reaches, h.faults, h.unexpected⟩

/-- What was read first, and the place from which reading goes on. -/
theorem within_bind_of_ok {a : α} {d : Cursor} {journal : List Entry}
    (hp : (p c).WithinClause c) (hr : p c = ⟨.ok a, d, journal⟩) (hf : (f a d).WithinClause d) :
    ((p >>= f) c).WithinClause c := by
  obtain ⟨⟨ys, hd, hys⟩, hnone, -⟩ := hp
  rw [hr] at hd hnone
  have hfaults : journal.filterMap Entry.fault? = [] := hnone
  obtain ⟨hreaches, hfaults', hfault⟩ := hf.after hd hys
  rw [bind_apply_of_ok hr]
  refine ⟨hreaches, ?_, hfault⟩
  rw [faults, List.filterMap_append, hfaults]
  exact hfaults'

theorem within_bind (hp : (p c).WithinClause c) (hf : ∀ a d, (f a d).WithinClause d) :
    ((p >>= f) c).WithinClause c := by
  rcases hr : p c with ⟨e | a, d, journal⟩
  · rw [bind_apply_of_error hr]
    rw [hr] at hp
    exact ⟨hp.reaches, hp.faults, by rintro _ ⟨rfl⟩; exact hp.unexpected e rfl⟩
  · exact within_bind_of_ok hp hr (hf a d)

theorem failsWithin_bind (hp : (p c).WithinClause c) (hf : ∀ a d, (f a d).FailsWithinClause d) :
    ((p >>= f) c).FailsWithinClause c := by
  intro hc fault hfault
  rcases hr : p c with ⟨e | a, d, journal⟩
  · rw [bind_apply_of_error hr]
    rw [hr] at hp
    exact ⟨hp.reaches, hp.faults, by rintro _ ⟨rfl⟩; exact hp.unexpected e rfl⟩
  · obtain ⟨ys, hreach, -⟩ := hp.reaches
    rw [hr] at hreach
    rw [bind_apply_of_ok hr] at hfault
    exact within_bind_of_ok hp hr (hf a d (hreach.regular hc) fault hfault)

theorem within_map (g : α → β) (hp : (p c).WithinClause c) : ((g <$> p) c).WithinClause c := by
  rw [map_eq_pure_bind]
  exact within_bind hp fun a d => within_pure (g a) d

/-! ## Tokens -/

theorem within_advance (hk : c.current.kind.endsClause = false) :
    ((advance : Reader Fault Token) c).WithinClause c := by
  refine ⟨⟨_, c.reaches_drop 1, ?_⟩, rfl, nofun⟩
  cases hahead : c.ahead with
  | nil => exact List.forall_mem_nil _
  | cons t ts =>
    rw [Cursor.current_eq, hahead, List.headD_cons] at hk
    exact List.forall_mem_singleton.2 hk

theorem within_expect (hk : kind.endsClause = false) (c : Cursor) :
    (expect kind c).WithinClause c := by
  by_cases h : c.current.kind = kind
  · rw [expect_of_kind h]
    exact within_advance (h ▸ hk)
  · rw [expect_of_ne h]
    exact within_fail _ c

theorem within_expectName (c : Cursor) : (expectName c).WithinClause c :=
  within_bind (within_expect rfl c) fun _ d => within_pure _ d

theorem within_eat (hk : kind.endsClause = false) (c : Cursor) :
    ((eat kind : Reader Fault Bool) c).WithinClause c := by
  rw [eat, isAt_bind]
  split
  next h =>
    have hcurrent : c.current.kind = kind := of_decide_eq_true h
    exact within_bind (within_advance (hcurrent ▸ hk)) fun _ d => within_pure _ d
  next => exact within_pure _ c

theorem within_sepByComma (hp : ∀ d, (p d).WithinClause d) (rounds : Nat) (c : Cursor) :
    (sepByComma p rounds c).WithinClause c := by
  induction rounds generalizing c with
  | zero =>
    refine within_bind (hp c) fun _ d => ?_
    rw [isAt_bind]
    exact within_exhaustIf_bind (within_pure _ d)
  | succ rounds ih =>
    refine within_bind (hp c) fun a d => within_bind (within_eat rfl d) fun more d => ?_
    cases more with
    | true => exact within_map _ (ih d)
    | false => exact within_pure _ d

/-- What comes after the end of the clause never fails. -/
theorem failsWithin_expect_bind {f : Token → Reader Fault β}
    (hf : ∀ t d, d.Regular → ∃ b, (f t d).outcome = .ok b) (c : Cursor) :
    ((expect kind >>= f) c).FailsWithinClause c := by
  intro hc fault hfault
  by_cases h : c.current.kind = kind
  · obtain ⟨b, hb⟩ := hf c.current (c.drop 1) ((c.reaches_drop 1).regular hc)
    rw [bind_apply_of_ok (expect_of_kind h)] at hfault
    cases hb.symm.trans hfault
  · rw [bind_apply_of_error (expect_of_ne h)]
    exact within_fail _ c

end Reader

namespace Parse

open Reader Reading

variable {c : Cursor}

/-! ## Expressions -/

theorem within_argumentsOf {item : Reader Fault Expr} (hitem : ∀ d, (item d).WithinClause d)
    (room : Nat) (c : Cursor) : (argumentsOf item room c).WithinClause c := by
  rw [argumentsOf, isAt_bind]
  split
  · exact within_pure _ c
  · exact within_sepByComma hitem room c

section Stages

variable {read : StageReader} (hread : ∀ stage d, (read stage d).WithinClause d)
include hread

theorem within_above (floor : Nat) (c : Cursor) : (above read floor c).WithinClause c :=
  within_bind (hread .operand c) fun left d => hread (.after floor left) d

theorem within_grouping (hk : c.current.kind = .leftParen) :
    (grouping read c).WithinClause c := by
  refine within_bind (within_advance (hk ▸ rfl)) fun _ d => ?_
  refine within_bind (within_above hread 0 d) fun _ d => ?_
  exact within_bind (within_expect rfl d) fun _ d => within_pure _ d

theorem within_creationFrom (start : Nat) (c : Cursor) :
    (creationFrom read start c).WithinClause c := by
  rw [creationFrom, look_bind]
  generalize hk : c.current.kind = kind
  split
  next =>
    refine within_bind (within_advance (hk ▸ rfl)) fun _ d => ?_
    refine within_bind (within_expect rfl d) fun _ d => ?_
    refine within_bind (within_above hread 0 d) fun _ d => ?_
    exact within_bind (within_expect rfl d) fun _ d => within_pure _ d
  next =>
    refine within_bind (within_advance (hk ▸ rfl)) fun _ d => ?_
    refine within_bind (within_expect rfl d) fun _ d => ?_
    exact within_bind (within_expect rfl d) fun _ d => within_pure _ d
  next => exact within_failUnexpected _ c

theorem within_operandFrom (c : Cursor) : (operandFrom read c).WithinClause c := by
  rw [operandFrom, look_bind]
  cases hk : c.current.kind with
  | integer | trueKw | falseKw | identifier | thisKw =>
    exact within_bind (within_advance (hk ▸ rfl)) fun _ d => within_pure _ d
  | bang =>
    refine within_bind (within_advance (hk ▸ rfl)) fun _ d => ?_
    exact within_bind (hread .operand d) fun _ d => within_pure _ d
  | leftParen => exact within_grouping hread hk
  | newKw =>
    exact within_bind (within_advance (hk ▸ rfl)) fun _ d => within_creationFrom hread _ d
  | _ => exact within_failUnexpected _ c

theorem within_takeOperator (room : Nat) (left : Expr) {op : Operator}
    (hop : c.operator? = some op) : (takeOperator read room left op c).WithinClause c := by
  cases op with
  | binary sign =>
    have hk : c.current.kind.endsClause = false := by
      rw [Operator.kind_of_at? hop]
      cases sign <;> rfl
    refine within_bind (within_advance hk) fun _ d => ?_
    exact within_bind (within_above hread _ d) fun _ d => within_pure _ d
  | index =>
    refine within_bind (within_advance (Operator.kind_of_at?_index hop ▸ rfl)) fun _ d => ?_
    refine within_bind (within_above hread 0 d) fun _ d => ?_
    exact within_bind (within_expect rfl d) fun _ d => within_pure _ d
  | length =>
    obtain ⟨hk, hk'⟩ := Operator.kind_of_at?_length hop
    have hsecond : (c.drop 1).current.kind.endsClause = false := by
      rw [Cursor.kind_current_drop_one hk' (by nofun)]
      rfl
    refine within_bind_of_ok (within_advance (hk ▸ rfl)) rfl ?_
    exact within_bind (within_advance hsecond) fun _ d => within_pure _ d
  | call =>
    refine within_bind (within_advance (Operator.kind_of_at?_call hop ▸ rfl)) fun _ d => ?_
    refine within_bind (within_expectName d) fun _ d => ?_
    refine within_bind (within_expect rfl d) fun _ d => ?_
    refine within_bind (within_argumentsOf (within_above hread 0) room d) fun _ d => ?_
    exact within_bind (within_expect rfl d) fun _ d => within_pure _ d

theorem within_operatorsFrom (room floor : Nat) (left : Expr) (c : Cursor) :
    (operatorsFrom read room floor left c).WithinClause c := by
  rw [operatorsFrom, here_bind]
  cases hop : c.operator? with
  | none =>
    rw [show Operator.at? c.current.kind c.secondKind = none from hop]
    exact within_pure left c
  | some op =>
    rw [show Operator.at? c.current.kind c.secondKind = some op from hop]
    dsimp only
    split
    · exact within_pure left c
    · exact within_bind (within_takeOperator hread room left hop) fun folded d =>
        hread (.after floor folded) d

end Stages

theorem within_stageWithin (room : Nat) (stage : Stage) (c : Cursor) :
    (stageWithin room stage c).WithinClause c := by
  induction room generalizing stage c with
  | zero =>
    have hout (_ : Stage) (d : Cursor) :
        ((outOfRoom operandStart : Reader Fault Expr) d).WithinClause d :=
      within_exhaustIf_bind (within_failUnexpected _ d)
    cases stage with
    | operand => exact within_operandFrom hout c
    | after floor left => exact within_operatorsFrom hout 0 floor left c
  | succ room ih =>
    cases stage with
    | operand => exact within_operandFrom ih c
    | after floor left => exact within_operatorsFrom ih room floor left c

theorem within_expression (c : Cursor) : (expression c).WithinClause c :=
  within_above (within_stageWithin c.room) 0 c

theorem within_arguments (c : Cursor) : (arguments c).WithinClause c :=
  within_argumentsOf within_expression c.room c

theorem within_parenthesized (c : Cursor) : (parenthesized c).WithinClause c := by
  refine within_bind (within_expect rfl c) fun _ d => within_bind (within_expression d) ?_
  exact fun _ d => within_bind (within_expect rfl d) fun _ d => within_pure _ d

/-! ## Assignments, variables and parameters -/

theorem failsWithin_assignmentTo (start : Nat) (name : String) (c : Cursor) :
    (assignmentTo start name c).FailsWithinClause c := by
  have hend : ∀ (f : Span → Stmt) (d : Cursor),
      ((do let _ ← expect .semicolon; return f (← spanFrom start) : Reader Fault Stmt)
        d).FailsWithinClause d := fun f d => failsWithin_expect_bind (fun _ _ _ => ⟨_, rfl⟩) d
  rw [assignmentTo, look_bind]
  generalize hk : c.current.kind = kind
  split
  next =>
    refine failsWithin_bind (within_advance (hk ▸ rfl)) fun _ d => ?_
    exact failsWithin_bind (within_expression d) fun value d => hend (.assign · name value) d
  next =>
    refine failsWithin_bind (within_advance (hk ▸ rfl)) fun _ d => ?_
    refine failsWithin_bind (within_expression d) fun index d => ?_
    refine failsWithin_bind (within_expect rfl d) fun _ d => ?_
    refine failsWithin_bind (within_expect rfl d) fun _ d => ?_
    exact failsWithin_bind (within_expression d) fun value d =>
      hend (.assignElement · name index value) d
  next => exact fun _ _ _ => within_failUnexpected _ c

theorem failsWithin_assignment (c : Cursor) : (assignment c).FailsWithinClause c :=
  failsWithin_bind (within_expect rfl c) fun first d => failsWithin_assignmentTo _ first.lexeme d

theorem within_typeName (c : Cursor) : (typeName c).WithinClause c := by
  rw [typeName, look_bind]
  generalize hk : c.current.kind = kind
  split
  next =>
    refine within_bind (within_advance (hk ▸ rfl)) fun _ d => ?_
    refine within_bind (within_eat rfl d) fun bracket d => ?_
    cases bracket with
    | true => exact within_bind (within_expect rfl d) fun _ d => within_pure _ d
    | false => exact within_pure _ d
  next => exact within_bind (within_advance (hk ▸ rfl)) fun _ d => within_pure _ d
  next => exact within_bind (within_advance (hk ▸ rfl)) fun _ d => within_pure _ d
  next => exact within_failUnexpected _ c

theorem failsWithin_variableDecl (c : Cursor) : (variableDecl c).FailsWithinClause c := by
  rw [variableDecl, look_bind]
  refine failsWithin_bind (within_typeName c) fun type d => ?_
  refine failsWithin_bind (within_expectName d) fun name d => ?_
  exact failsWithin_expect_bind (fun _ _ _ => ⟨_, rfl⟩) d

theorem within_parameter (c : Cursor) : (parameter c).WithinClause c := by
  rw [parameter, look_bind]
  refine within_bind (within_typeName c) fun type d => ?_
  exact within_bind (within_expectName d) fun name d => within_pure _ d

theorem within_parameters (c : Cursor) : (parameters c).WithinClause c := by
  rw [parameters, isAt_bind]
  split
  · exact within_pure _ c
  · exact within_sepByComma within_parameter c.room c

end Parse

/-! ## The end of a clause -/

section Ends

open Reader Reading

variable {c d : Cursor} {w after : List Token} {stop : Token} {region : Region}

theorem Cursor.Spells.ahead_eq (h : c.Spells [] after) : c.ahead = after := by
  obtain ⟨-, ts, hahead, hts⟩ := h
  rwa [List.map_eq_nil_iff.1 hts, List.nil_append] at hahead

theorem Cursor.Regular.spells_ahead (h : c.Regular) : c.Spells [] c.ahead :=
  ⟨h, [], rfl, rfl⟩

/-- Reading of a clause fails in the clause or at its end. -/
theorem Reading.FailsWithinClause.exists_failsAt {r : Reading Fault α} {fault : Fault}
    (h : r.FailsWithinClause c) (hr : r.outcome = .error fault)
    (hc : c.Spells [] (w ++ stop :: after)) (hstop : stop.kind.endsClause) :
    ∃ w₁ w₂ t expected, w = w₁ ++ w₂ ∧ r.FailsAt fault (w₂ ++ stop :: after) ∧
      t ∈ w₂ ++ [stop] ∧ fault = .unexpected t expected none := by
  obtain ⟨⟨ys, hreach, hys⟩, hfaults, hfault⟩ := h hc.regular fault hr
  obtain ⟨expected, hfault⟩ := hfault fault hr
  obtain ⟨taken, htaken, rfl, -⟩ := id hreach
  have hregular := hreach.regular hc.regular
  rw [hc.ahead_eq] at htaken
  rcases append_eq_append_cons htaken.symm with ⟨_, rfl, -⟩ | ⟨w₂, rfl, hahead⟩
  · have hno := hys stop.terminal (by simp)
    rw [Token.kind_terminal, hstop] at hno
    cases hno
  · refine ⟨taken, w₂, r.cursor.current, expected, rfl, ⟨hr, ?_, hfaults⟩, ?_, hfault⟩
    · rw [← hahead]
      exact hregular.spells_ahead
    · rw [Cursor.current_eq, hahead]
      cases w₂ <;> simp

theorem Cursor.Spells.current_of_clause (h : c.Spells [] (w ++ stop :: after)) :
    c.current = w.headD stop := by
  cases w <;> exact h.current_eq

theorem Cursor.Spells.map_terminal (h : c.Spells [] (w ++ after)) :
    c.Spells (w.map Token.terminal) after :=
  ⟨h.regular, w, h.ahead_eq, rfl⟩

/-- If only the last token that is taken passes a test, all up to the first that does are taken. -/
theorem Cursor.Reaches.eq_of_test {test : TokenKind → Bool} {xs : List Terminal} {y : Terminal}
    (hd : c.Reaches (xs ++ [y]) d) (hxs : ∀ x ∈ xs, test x.kind = false) (hy : test y.kind)
    (hc : c.Spells [] (w ++ stop :: after)) (hw : ∀ t ∈ w, test t.kind = false)
    (hstop : test stop.kind) :
    xs ++ [y] = (w ++ [stop]).map Token.terminal ∧ d.ahead = after := by
  obtain ⟨taken, htaken, hterminals, -⟩ := hd
  obtain ⟨us, last, rfl, rfl, hlast⟩ := List.map_eq_append_iff.1 hterminals
  obtain ⟨t, rest, rfl, rfl, hrest⟩ := List.map_eq_cons_iff.1 hlast
  obtain rfl := List.map_eq_nil_iff.1 hrest
  rw [List.append_assoc, List.singleton_append] at htaken
  rcases append_eq_append_cons (htaken.symm.trans hc.ahead_eq) with ⟨vs, rfl, -⟩ | ⟨vs, rfl, hvs⟩
  · -- the end of the clause would stand among the tokens before the last one
    have hno := hxs stop.terminal (List.mem_map.2 ⟨stop, by simp, rfl⟩)
    exact absurd (hno.symm.trans hstop) (by simp)
  · cases vs with
    | nil =>
      obtain ⟨rfl, hahead⟩ := List.cons.inj hvs
      exact ⟨by simp, hahead⟩
    | cons v vs =>
      obtain ⟨rfl, -⟩ := List.cons.inj hvs
      exact absurd ((hw t (by simp)).symm.trans hy) (by simp)

/-- If only the last token that is taken is of some kind, all up to one of this kind are taken. -/
theorem Cursor.Reaches.eq_of_clause {kind : TokenKind} {xs : List Terminal}
    (hd : c.Reaches (xs ++ [word kind]) d) (hxs : word kind ∉ xs)
    (hc : c.Spells [] (w ++ stop :: after)) (hw : ∀ t ∈ w, t.kind ≠ kind) (hstop : stop.kind = kind)
    (hspelled : kind.spelling?.isSome) :
    xs ++ [word kind] = (w ++ [stop]).map Token.terminal ∧ d.ahead = after := by
  let test : TokenKind → Bool := fun other => other = kind
  have hother : ∀ x ∈ xs, test x.kind = false := by
    intro x hx
    apply decide_eq_false
    intro hkind
    obtain ⟨taken, htaken, hterminals, -⟩ := id hd
    obtain ⟨us, vs, rfl, rfl, -⟩ := List.map_eq_append_iff.1 hterminals
    obtain ⟨t, ht, rfl⟩ := List.mem_map.1 hx
    have hmem : t ∈ c.ahead := by simp [htaken, ht]
    rw [(hc.regular.ahead t hmem).terminal_word hkind hspelled] at hx
    exact hxs hx
  have hw' : ∀ t ∈ w, test t.kind = false := fun t ht => decide_eq_false (hw t ht)
  exact hd.eq_of_test hother (decide_eq_true rfl) hc hw' (decide_eq_true hstop)

/-- Skipping takes a clause with its semicolon, even if no token of it was taken before. -/
theorem Region.skip_clause (hregion : region ≠ .toplevel) (hw : ∀ t ∈ w, region.Passes t.kind)
    (hstop : stop.kind = .semicolon) (moved : Bool) :
    region.skip moved ((w ++ [stop]) ++ after) = (w ++ [stop]).length := by
  induction w generalizing moved with
  | nil => exact skip_of_semicolon hregion hstop moved after
  | cons t w ih =>
    obtain ⟨ht, hw⟩ := List.forall_mem_cons.1 hw
    rw [List.cons_append, List.cons_append, skip_of_passes ht, ih hw true, List.length_cons]

/-- Skipping stops before a closing brace, even if no token was taken before. -/
theorem Region.skip_to_brace (hregion : region ≠ .toplevel) (hw : ∀ t ∈ w, region.Passes t.kind)
    (hstop : stop.kind = .rightBrace) (moved : Bool) :
    region.skip moved (w ++ stop :: after) = w.length := by
  induction w generalizing moved with
  | nil =>
    cases region with
    | statements => simp [skip, skipStatement, hstop]
    | members => simp [skip, skipMember, hstop]
    | toplevel => exact absurd rfl hregion
  | cons t w ih =>
    obtain ⟨ht, hw⟩ := List.forall_mem_cons.1 hw
    rw [List.cons_append, skip_of_passes ht, ih hw true, List.length_cons]

/-- After a fault, reading goes on behind the tokens that are skipped. -/
theorem succeeds_recover_behind {origin : Cursor} (fault : Fault)
    (hskip : ∀ moved, region.skip moved (w ++ after) = w.length) (hc : c.Spells [] (w ++ after)) :
    ((Parse.recover region origin fault : Reader ε Unit) c).Succeeds fun _ d fs =>
      fs = [fault] ∧ d = c.drop w.length ∧ d.Spells [] after := by
  have hahead : (c.drop w.length).ahead = after := by simp [hc.ahead_eq]
  have hcursor : c.drop (region.skip (origin.pos < c.pos) c.ahead) = c.drop w.length := by
    rw [hc.ahead_eq, hskip]
  refine ⟨(), rfl, rfl, hcursor, ?_⟩
  show (c.drop (region.skip (origin.pos < c.pos) c.ahead)).Spells [] after
  rw [hcursor]
  exact hahead ▸ ((c.reaches_drop _).regular hc.regular).spells_ahead

/-- A construct that fails in tokens that are skipped is left, and reading goes on behind them. -/
theorem succeeds_rescue_recover {p : Reader Fault α} [Taking p] {k : Unit → Reader ε α} {Q : Result α}
    {origin : Cursor} {fault : Fault} (hfails : (p c).FailsAt fault (w ++ after))
    (hskip : ∀ moved, region.skip moved (w ++ after) = w.length)
    (hk : ∀ d, d.Spells [] after → (k () d).Succeeds fun a e fs => Q a e (fault :: fs)) :
    ((rescue p fun fault => Parse.recover region origin fault >>= k) c).Succeeds Q := by
  apply succeeds_rescue_of_failsAt hfails
  intro d _ hd
  apply succeeds_bind (succeeds_recover_behind fault hskip hd)
  rintro _ e _ ⟨rfl, -, he⟩
  exact hk e he

/-- After a fault in a clause, reading goes on behind its semicolon. -/
theorem succeeds_recover_clause {origin : Cursor} (fault : Fault) (hregion : region ≠ .toplevel)
    (hw : ∀ t ∈ w, region.Passes t.kind) (hstop : stop.kind = .semicolon)
    (hc : c.Spells [] (w ++ stop :: after)) :
    ((Parse.recover region origin fault : Reader ε Unit) c).Succeeds fun _ d fs =>
      fs = [fault] ∧ d.Spells [] after ∧ d.lastStop = stop.span.stop := by
  rw [List.append_cons] at hc
  apply (succeeds_recover_behind fault (Region.skip_clause hregion hw hstop) hc).mono
  rintro _ _ fs ⟨rfl, rfl, hd⟩
  exact ⟨rfl, hd, by simp [Cursor.lastStop_drop, hc.ahead_eq, List.take_append]⟩

end Ends

end MiniJava
