import MiniJava.Proofs.Grammar.Recurs
import MiniJava.Proofs.Recovery.Lost

/-!
# Statements that lack a semicolon

A statement without others inside fails where its semicolon is missing, and so do the statements
around it up to the next block. There the missing semicolon is reported, and reading goes on after
what skipping takes.
-/

namespace MiniJava

open Terminal

/-! ## Correct statements -/

theorem Stmt.WellFormed.readable {s : Stmt} (h : s.WellFormed) : s.Readable := fun n hn =>
  (h n hn).readable

theorem Stmt.Readable.atListEnd_kind {s : Stmt} (h : s.Readable) {c : Cursor}
    (hc : c.current.kind = headKind s.yield) : Parse.atListEnd c = false := by
  rw [Parse.atListEnd, hc]
  cases s with
  | error s => exact absurd h (Stmt.not_readable_error s)
  | _ => rfl

theorem Stmt.Readable.headKind_ne {s : Stmt} (h : s.Readable) :
    headKind s.yield ≠ .semicolon := by
  cases s with
  | error s => exact absurd h (Stmt.not_readable_error s)
  | _ => rintro ⟨⟩

/-! ## Broken statements -/

/-- The second branches of some `if` statements, each after its keyword. -/
def ElseBranches (ys : List Terminal) (us : List Stmt) : Prop :=
  (∀ u ∈ us, u.WellFormed) ∧ ys = us.flatMap Stmt.yieldElse

theorem ElseBranches.nil : ElseBranches [] [] := ⟨List.forall_mem_nil _, rfl⟩

theorem ElseBranches.append {ys : List Terminal} {us : List Stmt} {u : Stmt}
    (h : ElseBranches ys us) (hu : u.WellFormed) :
    ElseBranches (ys ++ u.yieldElse) (us ++ [u]) := by
  obtain ⟨hus, rfl⟩ := h
  exact ⟨List.forall_mem_append.2 ⟨hus, List.forall_mem_singleton.2 hu⟩, by simp⟩

/-- What reading a statement comes to that lacks a semicolon. -/
inductive Reading.Breaks (found : Token) (later : List Token) (behind rest : List Terminal)
    (r : Reading Fault Stmt) : Prop
  /-- It fails, and the second branches of the statements that fail with it are left over. -/
  | fails (us : List Stmt) (hbehind : ElseBranches behind us)
      (h : r.FailsAt (.missing .semicolon found) (found :: later))
  /-- A block inside takes care of it. -/
  | mends (h : r.Succeeds fun s d fs =>
      fs = [.missing .semicolon found] ∧ s.recurs = [] ∧ d.Sees rest)

/-- What is left of the statements `ss` when one before them, with `behind` to come, was broken. -/
inductive LeftOver (behind : List Terminal) (ss : List Stmt) : List Stmt → Prop
  | all : LeftOver behind ss ss
  | skipped (us : List Stmt) (hbehind : ElseBranches behind us) :
      LeftOver behind ss (Stmt.afterSkip (us ++ ss))

theorem LeftOver.forall_mem {behind : List Terminal} {ss left : List Stmt}
    (h : LeftOver behind ss left) {P : Stmt → Prop} (hss : ∀ s ∈ ss, P s)
    (hP : ∀ s : Stmt, s.WellFormed → P s) : ∀ s ∈ left, P s := by
  cases h with
  | all => exact hss
  | skipped us hbehind =>
    intro s hs
    rcases List.mem_append.1 (Stmt.mem_of_mem_afterSkip hs) with hs | hs
    · exact hP s (hbehind.1 s hs)
    · exact hss s hs

/-- The terminals of a `recur` but for its semicolon. -/
def Recur.yieldClause (r : Recur) : List Terminal :=
  word .recurKw :: word .leftParen :: (r.condition.yield ++
    word .rightParen :: word .question :: word .leftParen :: (Expr.yieldList r.args ++
      word .rightParen :: word .colon :: r.fallback.yield))

namespace Parse

open Reader Reading

variable {ε α : Type} {c : Cursor} {found : Token} {later : List Token}
  {behind behind' rest rest' ys : List Terminal} {room : Nat}

/-- However a statement is broken, the damage is bounded. -/
def BreaksStatement (s : Stmt) : Prop :=
  ∀ {found : Token} {later : List Token} {behind rest : List Terminal} {room : Nat} {c : Cursor},
    c.Lacks [] s.yield behind rest (found :: later) → (headKind rest).afterSemicolon →
    FindsBack ((found :: later).map Token.terminal) → c.ahead.length ≤ room →
    (statementWithin room c).Breaks found later behind rest

/-! ### Rules -/

/-- What comes first is read as usual. -/
theorem breaks_bind {p : Reader Fault α} {f : α → Reader Fault Stmt} {P : Cursor → Prop}
    {A : α → Prop} (hp : (p c).Succeeds fun a d fs => fs = [] ∧ A a ∧ P d)
    (hf : ∀ a d, A a → P d → (f a d).Breaks found later behind rest) :
    ((p >>= f) c).Breaks found later behind rest := by
  obtain ⟨a, ha, hnone, hA, hd⟩ := hp
  rcases hr : p c with ⟨o, d, journal⟩
  rw [hr] at ha hnone hd
  cases ha
  have hfaults : ((p >>= f) c).faults = (f a d).faults := by
    have hnil : journal.filterMap Entry.fault? = [] := hnone
    rw [bind_apply_of_ok hr, faults, List.filterMap_append, hnil, List.nil_append]
    rfl
  rcases hf a d hA hd with ⟨us, hbehind, houtcome, hcursor, hfs⟩ | ⟨s, hs, hmends⟩
  · refine .fails us hbehind ⟨?_, ?_, hfaults.trans hfs⟩
    · rw [bind_apply_of_ok hr, houtcome]
    · rw [bind_apply_of_ok hr]
      exact hcursor
  · refine .mends ⟨s, ?_, ?_⟩
    · rw [bind_apply_of_ok hr, hs]
    · rw [hfaults, bind_apply_of_ok hr]
      exact hmends

/-- A part is broken, and what comes after it is read as usual if it was mended. -/
theorem breaks_bind_of_breaks {p : Reader Fault Stmt} {f : Stmt → Reader Fault Stmt}
    (hp : (p c).Breaks found later behind' rest')
    (hbehind : ∀ us, ElseBranches behind' us → ∃ us', ElseBranches behind us')
    (hf : ∀ s d, s.recurs = [] → d.Sees rest' →
      (f s d).Succeeds fun s' e fs => fs = [] ∧ s'.recurs = [] ∧ e.Sees rest) :
    ((p >>= f) c).Breaks found later behind rest := by
  cases hp with
  | fails us hus h =>
    obtain ⟨us', hus'⟩ := hbehind us hus
    exact .fails us' hus' (failsAt_bind_of_failsAt h)
  | mends h =>
    apply Breaks.mends
    apply succeeds_bind h
    rintro s d fs ⟨rfl, hs, hd⟩
    apply (hf s d hs hd).mono
    rintro s' e fs ⟨rfl, hs', he⟩
    exact ⟨rfl, hs', he⟩

theorem exists_statementOf (hc : c.ahead ≠ []) (hroom : c.ahead.length ≤ room) :
    ∃ n, statementWithin room c = statementOf (statementWithin n) n c ∧ c.ahead.length ≤ n + 1 := by
  have hpos := List.length_pos_iff.2 hc
  cases room with
  | zero => omega
  | succ n => exact ⟨n, rfl, hroom⟩

/-! ### Statements without others inside -/

/-- A statement fails where its semicolon is missing. -/
def FailsStatement (s : Stmt) : Prop :=
  ∀ {found : Token} {later : List Token} {behind rest : List Terminal} {room : Nat} {c : Cursor},
    c.Lacks [] s.yield behind rest (found :: later) → (headKind rest).afterSemicolon →
    c.ahead.length ≤ room → behind = [] ∧
      (statementWithin room c).FailsAt (.missing .semicolon found) (found :: later)

theorem FailsStatement.breaks {s : Stmt} (h : FailsStatement s) : BreaksStatement s := by
  intro found later behind rest room c hc hrest _ hroom
  obtain ⟨rfl, hfails⟩ := h hc hrest hroom
  exact .fails [] .nil hfails

theorem fails_of_clause {xs : List Terminal} {y : Terminal} {s : Stmt}
    (hyield : s.yield = y :: xs ++ [word .semicolon]) (hxs : word .semicolon ∉ y :: xs)
    (h : ∀ (found : Token) (later : List Token) (inner : Reader Fault Stmt) (room : Nat) (c : Cursor),
      found.kind.afterSemicolon → c.Spells (y :: xs) (found :: later) →
      (statementOf inner room c).FailsAt (.missing .semicolon found) (found :: later)) :
    FailsStatement s := by
  intro found later behind rest room c hc hrest hroom
  rw [hyield] at hc
  obtain ⟨rfl, hspells⟩ := hc.clause hxs
  have hfound : found.kind.afterSemicolon := by
    have hhead := hc.headKind_tail
    rwa [← hhead] at hrest
  have hmore : c.ahead ≠ [] := by
    rw [← List.length_pos_iff, hspells.sees.length_eq]
    simp
  obtain ⟨n, hstatement, -⟩ := exists_statementOf hmore hroom
  rw [hstatement]
  exact ⟨rfl, h found later _ _ c hfound hspells⟩

theorem failsStatement_println (s : Span) {e : Expr} (he : e.Readable) :
    FailsStatement (.println s e) := by
  apply fails_of_clause (y := word .printlnKw)
    (show _ = word .printlnKw :: (word .leftParen :: (e.yield ++ [word .rightParen])) ++ _ by
      simp [Stmt.yield])
  · simpa [word] using e.semicolon_notMem_yield
  · intro found later inner room c hfound hc
    rw [statementOf, look_bind, hc.kind_current]
    apply failsAt_expect_bind rfl hc
    intro _ d hd
    apply failsAt_bind (passes_parenthesized he hd)
    intro _ d _ hd
    exact failsAt_missing_bind hd (Token.ne_semicolon hfound)

theorem failsStatement_assign (s : Span) (name : String) {e : Expr} (he : e.Readable) :
    FailsStatement (.assign s name e) := by
  apply fails_of_clause (y := ident name)
    (show _ = ident name :: (word .assign :: e.yield) ++ _ by simp [Stmt.yield])
  · simpa [word, ident] using e.semicolon_notMem_yield
  · intro found later inner room c hfound hc
    rw [statementOf, look_bind, hc.kind_current]
    apply failsAt_expect_bind rfl hc
    intro _ d hd
    rw [assignmentTo, look_bind, hd.kind_current]
    exact failsAt_expression_bind he hfound hd.drop_one

theorem failsStatement_assignElement (s : Span) (name : String) {i e : Expr} (hi : i.Readable)
    (he : e.Readable) : FailsStatement (.assignElement s name i e) := by
  apply fails_of_clause (y := ident name)
    (show _ = ident name :: (word .leftBracket ::
      (i.yield ++ word .rightBracket :: word .assign :: e.yield)) ++ _ by simp [Stmt.yield])
  · simpa [word, ident] using ⟨i.semicolon_notMem_yield, e.semicolon_notMem_yield⟩
  · intro found later inner room c hfound hc
    rw [statementOf, look_bind, hc.kind_current]
    apply failsAt_expect_bind rfl hc
    intro _ d hd
    rw [assignmentTo, look_bind, hd.kind_current]
    apply failsAt_bind (passes_expression hi rfl hd.drop_one)
    intro _ d _ hd
    apply failsAt_expect_bind rfl hd
    intro _ d hd
    apply failsAt_expect_bind rfl hd
    intro _ d hd
    exact failsAt_expression_bind he hfound hd

theorem failsAt_recur {r : Recur} (hr : r.Readable) (hfound : found.kind.afterSemicolon)
    (hc : c.Spells r.yieldClause (found :: later)) :
    (recur c).FailsAt (.missing .semicolon found) (found :: later) := by
  obtain ⟨-, hr⟩ := List.forall_mem_cons.1 hr
  obtain ⟨hcond, hr⟩ := List.forall_mem_append.1 hr
  obtain ⟨hargs, hfallback⟩ := List.forall_mem_append.1 hr
  apply failsAt_expect_bind rfl hc
  intro _ d hd
  apply failsAt_bind (passes_parenthesized hcond hd)
  intro _ d _ hd
  apply failsAt_expect_bind rfl hd
  intro _ d hd
  apply failsAt_expect_bind rfl hd
  intro _ d hd
  apply failsAt_bind (passes_arguments (List.forall_mem_flatMap.1 hargs) hd)
  intro _ d _ hd
  apply failsAt_expect_bind rfl hd
  intro _ d hd
  apply failsAt_expect_bind rfl hd
  intro _ d hd
  exact failsAt_expression_bind hfallback hfound hd

theorem failsStatement_recur {r : Recur} (hr : r.Readable) : FailsStatement (.recur r) := by
  apply fails_of_clause (y := word .recurKw)
    (show _ = r.yieldClause ++ _ by simp [Stmt.yield, Recur.yield, Recur.yieldClause])
  · simpa [word] using ⟨r.condition.semicolon_notMem_yield,
      Expr.semicolon_notMem_yieldList r.args, r.fallback.semicolon_notMem_yield⟩
  · intro found later inner room c hfound hc
    rw [statementOf, look_bind, hc.kind_current]
    exact failsAt_bind_of_failsAt (failsAt_recur hr hfound hc)

/-! ### Recovery -/

theorem succeeds_recover {region : Region} {origin : Cursor} {fault : Fault}
    (htokens : c.tokens = origin.tokens) (horigin : c.room < origin.room)
    (h : c.LandsAt region rest) :
    ((recover region origin fault : Reader ε Unit) c).Succeeds fun _ d fs =>
      fs = [fault] ∧ d.ahead.length < origin.ahead.length ∧ d.Sees rest := by
  have hmoved : decide (origin.pos < c.pos) = true :=
    decide_eq_true (Cursor.pos_lt_pos htokens horigin)
  have hlands : (c.drop (region.skip (origin.pos < c.pos) c.ahead)).Sees rest := by
    rwa [hmoved]
  refine ⟨(), rfl, rfl, ?_, hlands⟩
  have hle : (c.drop (region.skip (origin.pos < c.pos) c.ahead)).ahead.length ≤
      c.ahead.length := by
    rw [Cursor.ahead_drop, List.length_drop]
    exact Nat.sub_le _ _
  rw [c.room_eq, origin.room_eq] at horigin
  exact Nat.lt_of_le_of_lt hle horigin

/-- A statement that fails is reported, and an error stands in for it. -/
theorem succeeds_recovering_of_failsAt {inner : Reader Fault Stmt} [Taking inner]
    {us ss : List Stmt}
    (hys : headKind ys ≠ .semicolon) (hss : ∀ s ∈ ss, s.Readable)
    (hrest : Region.statements.EndsAt (headKind rest))
    (hback : FindsBack ((found :: later).map Token.terminal))
    (hc : c.Lacks [] ys behind (ss.flatMap Stmt.yield ++ rest) (found :: later))
    (hus : ElseBranches behind us)
    (h : (inner c).FailsAt (.missing .semicolon found) (found :: later)) :
    ((recovering inner : Reader ε Stmt) c).Succeeds fun s d fs =>
      fs = [.missing .semicolon found] ∧ (∃ span, s = .error span) ∧
        d.ahead.length < c.ahead.length ∧
        d.Sees ((Stmt.afterSkip (us ++ ss)).flatMap Stmt.yield ++ rest) := by
  rw [recovering, here_bind]
  apply succeeds_rescue_of_failsAt h
  intro d htokens hd
  have hsees := hd.sees
  have htail := hc.tail_eq
  rw [hus.2] at htail
  rw [List.nil_append, htail] at hsees
  rw [htail] at hback
  have hlands := FindsBack.landsAt (fun u hu => (hus.1 u hu).readable) hss hrest hsees hback
  apply succeeds_bind (succeeds_recover htokens (hc.room_lt hys hd) hlands)
  rintro _ e fs ⟨rfl, hlength, he⟩
  rw [spanFrom_bind]
  exact succeeds_pure ⟨rfl, ⟨_, rfl⟩, hlength, he⟩

/-- A broken statement is reported once, and reading goes on with what is left. -/
theorem succeeds_recovering_of_breaks {inner : Reader Fault Stmt} [Taking inner] {ss : List Stmt}
    (hys : headKind ys ≠ .semicolon) (hss : ∀ s ∈ ss, s.Readable)
    (hrest : Region.statements.EndsAt (headKind rest))
    (hback : FindsBack ((found :: later).map Token.terminal))
    (hc : c.Lacks [] ys behind (ss.flatMap Stmt.yield ++ rest) (found :: later))
    (h : (inner c).Breaks found later behind (ss.flatMap Stmt.yield ++ rest)) :
    ((recovering inner : Reader ε Stmt) c).Succeeds fun s d fs =>
      fs = [.missing .semicolon found] ∧ s.recurs = [] ∧ d.ahead.length < c.ahead.length ∧
        ∃ left, LeftOver behind ss left ∧ d.Sees (left.flatMap Stmt.yield ++ rest) := by
  cases h with
  | mends h =>
    apply (succeeds_recovering h).mono
    rintro s d fs ⟨rfl, hs, hd⟩
    have hlength := hc.length_rest_lt hys
    rw [← hd.length_eq] at hlength
    exact ⟨rfl, hs, hlength, ss, .all, hd⟩
  | fails us hus h =>
    apply (succeeds_recovering_of_failsAt hys hss hrest hback hc hus h).mono
    rintro _ d fs ⟨rfl, ⟨span, rfl⟩, hlength, hd⟩
    exact ⟨rfl, rfl, hlength, _, .skipped us hus, hd⟩

/-! ### Statements with others inside -/

theorem breaks_condition_bind {f : Token → Expr → Reader Fault Stmt} {kind : TokenKind}
    {front : List Terminal} {e : Expr} (he : e.Readable)
    (hc : c.Lacks (word kind :: word .leftParen :: (e.yield ++ word .rightParen :: front)) ys
      behind' rest' (found :: later))
    (h : ∀ t e' d, d.Lacks front ys behind' rest' (found :: later) →
      d.ahead.length < c.ahead.length → (f t e' d).Breaks found later behind rest) :
    ((advance >>= fun t => parenthesized >>= f t) c).Breaks found later behind rest := by
  have hd : (c.drop 1).Lacks (word .leftParen :: (e.yield ++ [word .rightParen]) ++ front) ys
      behind' rest' (found :: later) := by
    simpa using hc.drop_one
  have hpasses := hd.passes (A := fun _ => True) (fun zs hs => ?_) (ensures_parenthesized _)
  · rw [advance_bind]
    apply breaks_bind hpasses
    intro e' d _ hd'
    have hlength := hc.length_eq
    have hlength' := hd'.length_eq
    simp only [List.length_cons, List.length_append] at hlength hlength'
    exact h _ e' d hd' (by omega)
  · have hsees : (c.drop 1).Sees (word .leftParen ::
        (e.yield ++ word .rightParen :: (front ++ zs))) := by
      simpa using hs
    apply (succeeds_parenthesized he hsees).mono
    rintro _ d fs ⟨rfl, -, hd⟩
    exact ⟨rfl, trivial, hd⟩

/-- The condition of a statement does not lack the semicolon. -/
theorem lacks_after_condition (kind : TokenKind) (hkind : kind ≠ .semicolon) {e : Expr}
    {tail : List Token}
    (hc : c.Lacks [] (word kind :: word .leftParen :: (e.yield ++ word .rightParen :: ys)) behind
      rest tail) :
    c.Lacks (word kind :: word .leftParen :: (e.yield ++ [word .rightParen])) ys behind rest
      tail := by
  have hhead : word .semicolon ∉ word kind :: word .leftParen :: (e.yield ++ [word .rightParen]) := by
    have hne : word .semicolon ≠ word kind := fun h => hkind (congrArg Terminal.kind h).symm
    have hparen : word .semicolon ≠ word .leftParen ∧ word .semicolon ≠ word .rightParen :=
      ⟨by rintro ⟨⟩, by rintro ⟨⟩⟩
    simpa only [List.mem_cons, List.mem_append, hne, hparen, List.not_mem_nil, false_or,
      or_false] using e.semicolon_notMem_yield
  have hsplit : c.Lacks [] (word kind :: word .leftParen :: (e.yield ++ [word .rightParen]) ++ ys)
      behind rest tail := by
    simpa using hc
  exact hsplit.append_of_notMem hhead

theorem breaksStatement_whileLoop (s : Span) {e : Expr} {t : Stmt} (he : e.Readable)
    (ht : BreaksStatement t) : BreaksStatement (.whileLoop s e t) := by
  intro found later behind rest room c hc hrest hback hroom
  have hkind : c.current.kind = .whileKw := hc.kind_current_eq (by rintro ⟨⟩)
  obtain ⟨n, hstatement, hn⟩ := exists_statementOf (hc.ahead_ne_nil (by rintro ⟨⟩)) hroom
  rw [hstatement, statementOf, look_bind, hkind]
  apply breaks_condition_bind he (lacks_after_condition .whileKw (by rintro ⟨⟩) hc)
  intro _ _ d hd hlength
  apply breaks_bind_of_breaks (ht hd hrest hback (by omega)) fun us hus => ⟨us, hus⟩
  intro t' d' ht' hd'
  rw [spanFrom_bind]
  exact succeeds_pure ⟨rfl, ht', hd'⟩

theorem elseBranchOf_apply {inner : Reader Fault Stmt} (hc : c.current.kind = .elseKw) :
    elseBranchOf inner c = inner (c.drop 1) := by
  rw [elseBranchOf, eat, bind_assoc, isAt_bind, if_pos (decide_eq_true hc), bind_assoc]
  rfl

section Branches

variable {f : Stmt → Stmt → Reader Fault Stmt} {t u : Stmt} {n : Nat}

/-- The first branch is broken: the second is left over with it, or it is read. -/
theorem breaks_first_branch (ht : BreaksStatement t) (hu : u.WellFormed)
    (hback : FindsBack ((found :: later).map Token.terminal)) (hn : c.ahead.length ≤ n)
    (hf : ∀ t' u' d, t'.recurs = [] → u'.recurs = [] → d.Sees rest →
      (f t' u' d).Succeeds fun s e fs => fs = [] ∧ s.recurs = [] ∧ e.Sees rest)
    (hc : c.Lacks [] t.yield behind (u.yieldElse ++ rest) (found :: later)) :
    ((statementWithin n >>= fun t' => elseBranchOf (statementWithin n) >>= f t') c).Breaks found
      later (behind ++ u.yieldElse) rest := by
  have hafter : ∀ us, ElseBranches behind us → ∃ us', ElseBranches (behind ++ u.yieldElse) us' :=
    fun us hus => ⟨_, hus.append hu⟩
  apply breaks_bind_of_breaks (ht hc rfl hback hn) hafter
  intro t' d ht' hd
  have hroom : (d.drop 1).ahead.length ≤ n := by
    have hle := hc.length_rest_le
    rw [← hd.length_eq] at hle
    rw [Cursor.ahead_drop, List.length_drop]
    omega
  have hread : (elseBranchOf (statementWithin n) d).Succeeds (StatementReadAs u rest) := by
    rw [elseBranchOf_apply hd.kind_current]
    exact readsStatement u hu.readable n _ _ hd.drop_one hroom
  apply succeeds_bind hread
  rintro u' e fs ⟨rfl, hu', he⟩
  apply (hf t' u' e ht' (hu.recurs_eq_nil hu') he).mono
  rintro s e' fs ⟨rfl, hs, he'⟩
  exact ⟨rfl, hs, he'⟩

/-- The first branch is read, and the second is broken. -/
theorem breaks_second_branch (ht : t.WellFormed) (hu : BreaksStatement u)
    (hrest : (headKind rest).afterSemicolon)
    (hback : FindsBack ((found :: later).map Token.terminal)) (hn : c.ahead.length ≤ n)
    (hf : ∀ t' u' d, t'.recurs = [] → u'.recurs = [] → d.Sees rest →
      (f t' u' d).Succeeds fun s e fs => fs = [] ∧ s.recurs = [] ∧ e.Sees rest)
    (hc : c.Lacks (t.yield ++ [word .elseKw]) u.yield behind rest (found :: later)) :
    ((statementWithin n >>= fun t' => elseBranchOf (statementWithin n) >>= f t') c).Breaks found
      later behind rest := by
  have hpasses := hc.passes (A := fun t' => t'.recurs = []) (fun zs hs => ?_)
    (ensures_statementWithin n c)
  · apply breaks_bind hpasses
    intro t' d ht' hd
    have hroom : (d.drop 1).ahead.length ≤ n := by
      have heq := hc.length_eq
      have heq' := hd.drop_one.length_eq
      simp only [List.length_append, List.length_cons, List.length_nil] at heq heq'
      omega
    have helse : (elseBranchOf (statementWithin n) d).Breaks found later behind rest := by
      rw [elseBranchOf_apply hd.kind_current]
      exact hu hd.drop_one hrest hback hroom
    exact breaks_bind_of_breaks helse (fun us hus => ⟨us, hus⟩) fun u' e hu' he =>
      hf t' u' e ht' hu' he
  · apply (readsStatement t ht.readable n c _ hs hn).mono
    rintro t' d fs ⟨rfl, ht', hd⟩
    exact ⟨rfl, ht.recurs_eq_nil ht', hd⟩

end Branches

theorem breaksStatement_ifElse (s : Span) {e : Expr} {t u : Stmt} (he : e.Readable)
    (htwell : t.WellFormed) (huwell : u.WellFormed) (ht : BreaksStatement t)
    (hu : BreaksStatement u) : BreaksStatement (.ifElse s e t u) := by
  intro found later behind rest room c hc hrest hback hroom
  have hkind : c.current.kind = .ifKw := hc.kind_current_eq (by rintro ⟨⟩)
  obtain ⟨n, hstatement, hn⟩ := exists_statementOf (hc.ahead_ne_nil (by rintro ⟨⟩)) hroom
  have hquiet : ∀ (start : Token) (e' : Expr) (t' u' : Stmt) (d : Cursor), t'.recurs = [] →
      u'.recurs = [] → d.Sees rest →
      ((spanFrom start.span.start >>= fun span => pure (Stmt.ifElse span e' t' u') :
        Reader Fault Stmt) d).Succeeds fun s d fs => fs = [] ∧ s.recurs = [] ∧ d.Sees rest := by
    intro start e' t' u' d ht' hu' hd
    rw [spanFrom_bind]
    exact succeeds_pure ⟨rfl, by rw [Stmt.recurs, ht', hu']; rfl, hd⟩
  rw [hstatement, statementOf, look_bind, hkind]
  -- the condition has no semicolon, so that one of the branches lacks it
  rcases (lacks_after_condition .ifKw (by rintro ⟨⟩) hc).append with ⟨behind', rfl, hthen⟩ | helse
  · apply breaks_condition_bind he hthen
    intro start e' d hd hlength
    exact breaks_first_branch ht huwell hback (by omega) (hquiet start e') hd
  · have hsplit : c.Lacks (word .ifKw :: word .leftParen ::
        (e.yield ++ [word .rightParen]) ++ t.yield) ([word .elseKw] ++ u.yield) behind rest
        (found :: later) := helse
    have hbranch : c.Lacks (word .ifKw :: word .leftParen :: (e.yield ++
        word .rightParen :: (t.yield ++ [word .elseKw]))) u.yield behind rest (found :: later) := by
      simpa using hsplit.append_of_notMem (by simp [word])
    apply breaks_condition_bind he hbranch
    intro start e' d hd hlength
    exact breaks_second_branch htwell hu hrest hback (by omega) (hquiet start e') hd

/-! ### Statements one after the other -/

section Many

variable {inner : Reader Fault Stmt} [Taking inner] {rounds : Nat}

/-- A statement that is broken is followed by what is left of the others. -/
theorem succeeds_manyStatements_broken {ss : List Stmt} (hys : headKind ys ≠ .semicolon)
    (hss : ∀ s ∈ ss, s.WellFormed)
    (hreads : ∀ s : Stmt, s.WellFormed → ∀ (d : Cursor) (zs : List Terminal),
      d.Sees (s.yield ++ zs) → d.ahead.length ≤ room → (inner d).Succeeds (StatementReadAs s zs))
    (hback : FindsBack ((found :: later).map Token.terminal))
    (hmore : atListEnd c = false) (hrest : headKind rest = .rightBrace)
    (hc : c.Lacks [] ys behind (ss.flatMap Stmt.yield ++ rest) (found :: later))
    (hbreaks : (inner c).Breaks found later behind (ss.flatMap Stmt.yield ++ rest))
    (hrounds : c.ahead.length ≤ rounds) (hroom : c.ahead.length ≤ room) :
    ((manyUntil atListEnd (recovering inner) rounds : Reader ε (List Stmt)) c).Succeeds
      fun ss' d fs => fs = [.missing .semicolon found] ∧ d.Sees rest ∧
        ∃ s' left left', ss' = s' :: left' ∧ s'.recurs = [] ∧ LeftOver behind ss left ∧
          left'.map Stmt.withoutSpans = left.map Stmt.withoutSpans := by
  cases rounds with
  | zero =>
    have hlength := hc.length_rest_lt hys
    omega
  | succ rounds =>
    rw [manyUntil, here_bind, hmore]
    have hends : Region.statements.EndsAt (headKind rest) := .inl hrest
    apply succeeds_bind (succeeds_recovering_of_breaks hys (fun s hs => (hss s hs).readable) hends
      hback hc hbreaks)
    rintro s' d fs ⟨rfl, hs', hlength, left, hleft, hd⟩
    have hwell : ∀ s ∈ left, s.WellFormed := hleft.forall_mem hss fun _ h => h
    have hstop : ∀ e : Cursor, e.Sees rest → atListEnd e = true := by
      intro e he
      rw [atListEnd, he.kind_current_eq, hrest]
    have hrounds' : d.ahead.length ≤ rounds := by omega
    have hroom' : d.ahead.length ≤ room := by omega
    apply succeeds_map
    apply (succeeds_manyStatements (fun s hs => (hwell s hs).readable)
      (fun s hs => hreads s (hwell s hs)) hstop hd hrounds' hroom').mono
    rintro left' e fs ⟨rfl, hleft', he⟩
    exact ⟨rfl, he, s', left, left', rfl, hs', hleft, hleft'⟩

/-- Where statements are followed by what may follow a semicolon, each of them is. -/
theorem afterSemicolon_statements {ss : List Stmt} (hss : ∀ s ∈ ss, s.Readable)
    (hrest : (headKind rest).afterSemicolon) :
    (headKind (ss.flatMap Stmt.yield ++ rest)).afterSemicolon := by
  cases ss with
  | nil => exact hrest
  | cons s ss =>
    have hs : s.Readable := hss s List.mem_cons_self
    rw [List.flatMap_cons, List.append_assoc, headKind_append hs.yield_ne_nil]
    cases s with
    | error s => exact absurd hs (Stmt.not_readable_error s)
    | _ => rfl

/-- Reading on from the broken statement of a block. -/
theorem succeeds_block_from_broken {s : Stmt} {ss : List Stmt} (hs : s.WellFormed)
    (hss : ∀ t ∈ ss, t.WellFormed) (hbreaks : BreaksStatement s)
    (hback : FindsBack ((found :: later).map Token.terminal))
    (hc : c.Lacks [] s.yield behind (ss.flatMap Stmt.yield ++ word .rightBrace :: rest)
      (found :: later)) (hrounds : c.ahead.length ≤ rounds) (hroom : c.ahead.length ≤ room) :
    ((manyUntil atListEnd (recovering (statementWithin room)) rounds :
      Reader ε (List Stmt)) c).Succeeds fun ss' d fs =>
        fs = [.missing .semicolon found] ∧ Stmt.recursList ss' = [] ∧
          d.Sees (word .rightBrace :: rest) := by
  have hreads : ∀ t : Stmt, t.WellFormed → ∀ (d : Cursor) (zs : List Terminal),
      d.Sees (t.yield ++ zs) → d.ahead.length ≤ room →
      (statementWithin room d).Succeeds (StatementReadAs t zs) :=
    fun t ht d zs hd hlength => readsStatement t ht.readable room d zs hd hlength
  have hkind := hs.readable.headKind_ne
  have hmore := hs.readable.atListEnd_kind (hc.kind_current_eq hkind)
  have hafter : (headKind (ss.flatMap Stmt.yield ++ word .rightBrace :: rest)).afterSemicolon :=
    afterSemicolon_statements (fun t ht => (hss t ht).readable) rfl
  apply (succeeds_manyStatements_broken hkind hss hreads hback hmore rfl hc
    (hbreaks hc hafter hback hroom) hrounds hroom).mono
  rintro _ d fs ⟨rfl, hd, s', left, left', rfl, hs', hleft, hsame⟩
  have hnone := Stmt.WellFormed.recursList_eq_nil (hleft.forall_mem hss fun _ h => h) hsame
  exact ⟨rfl, by rw [Stmt.recursList, hs', hnone]; rfl, hd⟩

/-- Of the statements in a block one is broken. -/
theorem succeeds_manyStatements_around {ss : List Stmt}
    (hss : ∀ s ∈ ss, s.WellFormed ∧ BreaksStatement s)
    (hback : FindsBack ((found :: later).map Token.terminal))
    (hc : c.Lacks [] (ss.flatMap Stmt.yield) behind (word .rightBrace :: rest) (found :: later))
    (hroom : c.ahead.length ≤ room) :
    ((manyUntil atListEnd (recovering (statementWithin room)) room : Reader ε (List Stmt)) c).Succeeds
      fun ss' d fs => fs = [.missing .semicolon found] ∧ Stmt.recursList ss' = [] ∧
        d.Sees (word .rightBrace :: rest) := by
  obtain ⟨ss₁, s, ss₂, behind', rfl, -, ⟨as, hs, hspells⟩, htail⟩ := hc.flatMap
  have hwell : ∀ t ∈ ss₁ ++ s :: ss₂, t.WellFormed := fun t ht => (hss t ht).1
  obtain ⟨hwell₁, hwell₂⟩ := List.forall_mem_append.1 hwell
  obtain ⟨hswell, hwell₂⟩ := List.forall_mem_cons.1 hwell₂
  have hbreaks : BreaksStatement s := (hss s (by simp)).2
  have hfront : ∀ t ∈ ss₁, ∀ (d : Cursor) (zs : List Terminal),
      d.Sees (t.yield ++ zs) → d.ahead.length ≤ room → atListEnd d = false ∧
      ((recovering (statementWithin room) : Reader ε Stmt) d).Succeeds fun t' e fs =>
        fs = [] ∧ t'.withoutSpans = t.withoutSpans ∧ e.Sees zs := fun t ht d zs hd hlength =>
    ⟨atListEnd_of_statement (hwell₁ t ht).readable hd,
      succeeds_recovering (readsStatement t (hwell₁ t ht).readable room d zs hd hlength)⟩
  have hreach : ∀ d : Cursor, ((recovering (statementWithin room) : Reader ε Stmt) d).Ensures d
      fun _ _ _ _ => True := fun d =>
    (ensures_recovering (ensures_statementWithin room) d).mono fun _ _ _ _ _ => trivial
  apply (succeeds_manyUntil_front hfront (fun t ht => (hwell₁ t ht).readable.yield_ne_nil) hreach
    (fun rounds d hd hrounds hlength => succeeds_block_from_broken hswell hwell₂ hbreaks hback
      ⟨⟨as, hs, hd⟩, htail⟩ hrounds hlength) hspells hroom hroom).mono
  rintro _ d fs ⟨ss₁', ss₂', rfl, hsame, rfl, hnone, hd⟩
  have hnone₁ := Stmt.WellFormed.recursList_eq_nil hwell₁ (map_eq_of_forall₂ hsame)
  rw [Stmt.recursList_eq] at hnone hnone₁ ⊢
  exact ⟨rfl, by rw [List.flatMap_append, hnone, hnone₁]; rfl, hd⟩

end Many

theorem breaksStatement_block (s : Span) {ss : List Stmt}
    (hss : ∀ t ∈ ss, t.WellFormed ∧ BreaksStatement t) : BreaksStatement (.block s ss) := by
  intro found later behind rest room c hc hrest hback hroom
  have hkind : c.current.kind = .leftBrace := hc.kind_current_eq (by rintro ⟨⟩)
  obtain ⟨n, hstatement, hn⟩ := exists_statementOf (hc.ahead_ne_nil (by rintro ⟨⟩)) hroom
  have hopen : c.Lacks [word .leftBrace] (ss.flatMap Stmt.yield ++ [word .rightBrace]) behind rest
      (found :: later) := by
    have hsplit : c.Lacks [] ([word .leftBrace] ++ (Stmt.yieldList ss ++ [word .rightBrace])) behind
        rest (found :: later) := hc
    rw [Stmt.yieldList_eq] at hsplit
    exact hsplit.append_of_notMem (by simp [word])
  obtain ⟨behind', -, hinside⟩ := hopen.drop_one.of_append_of_notMem (by simp [word])
  have hroom' : (c.drop 1).ahead.length ≤ n := by
    rw [Cursor.ahead_drop, List.length_drop]
    omega
  rw [hstatement, statementOf, look_bind, hkind]
  apply Breaks.mends
  show (blockOf (statementWithin n) n c).Succeeds _
  rw [blockOf, advance_bind]
  apply succeeds_bind (succeeds_manyStatements_around hss hback hinside hroom')
  rintro ss' d fs ⟨rfl, hnone, hd⟩
  apply succeeds_expect_bind hd
  intro _ d hd
  rw [spanFrom_bind]
  exact succeeds_pure ⟨rfl, hnone, hd⟩

/-! ### All statements -/

mutual

/-- Every correct statement is broken with bounded damage, one case for each form. -/
theorem breaksStatement : ∀ s : Stmt, s.WellFormed → BreaksStatement s
  | .println s e, h => by
    obtain ⟨-, he⟩ := List.forall_mem_cons.1 h.readable
    exact FailsStatement.breaks (failsStatement_println s he)
  | .assign s n e, h => by
    obtain ⟨-, he⟩ := List.forall_mem_cons.1 h.readable
    exact FailsStatement.breaks (failsStatement_assign s n he)
  | .assignElement s n i e, h => by
    obtain ⟨-, h⟩ := List.forall_mem_cons.1 h.readable
    obtain ⟨hi, he⟩ := List.forall_mem_append.1 h
    exact FailsStatement.breaks (failsStatement_assignElement s n hi he)
  | .recur r, h => by
    obtain ⟨-, hr⟩ := List.forall_mem_cons.1 h.readable
    exact FailsStatement.breaks (failsStatement_recur hr)
  | .block s ss, h => by
    obtain ⟨-, hss⟩ := List.forall_mem_cons.1 h
    exact breaksStatement_block s (breaksStatementList ss hss)
  | .whileLoop s e t, h => by
    obtain ⟨-, h⟩ := List.forall_mem_cons.1 h
    obtain ⟨he, ht⟩ := List.forall_mem_append.1 h
    exact breaksStatement_whileLoop s (fun n hn => (he n hn).readable) (breaksStatement t ht)
  | .ifElse s e t u, h => by
    obtain ⟨-, h⟩ := List.forall_mem_cons.1 h
    obtain ⟨he, h⟩ := List.forall_mem_append.1 h
    obtain ⟨ht, hu⟩ := List.forall_mem_append.1 h
    exact breaksStatement_ifElse s (fun n hn => (he n hn).readable) ht hu (breaksStatement t ht)
      (breaksStatement u hu)
  | .error s, h => absurd h.readable (Stmt.not_readable_error s)

theorem breaksStatementList : ∀ ss : List Stmt, (∀ n ∈ Stmt.nodesList ss, n.WellFormed) →
    ∀ s ∈ ss, s.WellFormed ∧ BreaksStatement s
  | [], _ => List.forall_mem_nil _
  | s :: ss, h => by
    obtain ⟨hs, hss⟩ := List.forall_mem_append.1 h
    exact List.forall_mem_cons.2 ⟨⟨hs, breaksStatement s hs⟩, breaksStatementList ss hss⟩

end

end Parse

end MiniJava
