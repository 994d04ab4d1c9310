import MiniJava.Proofs.FirstError.Expression

/-!
# Two readings of statements of texts that begin alike

Of two statements read up to the cut without objection, all that matters later is whether they are
`recur`s. A list of statements may end at the cut of the first text only. Then the second text goes
on with a statement, or what stands there is not the brace that the first one lacks.
-/

namespace MiniJava

/-- Whether a statement is, or stands in for, one that may end a method. -/
def Stmt.mayEndMethod : Stmt → Bool
  | .recur _ | .error _ => true
  | _ => false

/-- Two statements of which both are `recur`s, or neither may end a method. -/
inductive Stmt.Alike : Stmt → Stmt → Prop
  | recur (r r' : Recur) : Alike (.recur r) (.recur r')
  | other {s s' : Stmt} (h : s.mayEndMethod = false) (h' : s'.mayEndMethod = false) : Alike s s'

namespace Parse

open Reader Reading

variable {ε : Type} [Failure ε] {k k' : Cut} {n start : Nat} {c d : Cursor}

/-- Two readings of statements of which neither stops where the other one goes on. -/
abbrev JointStmt (k k' : Cut) (n : Nat) (r s : Reading ε Stmt) : Prop :=
  r.Joint k k' False False n Stmt.Alike s

/-! ## Statements without others inside -/

theorem opens_assignmentTo (first : Nat) (name : String) :
    Opens (assignmentTo first name) [.token .assign, .token .leftBracket] := by
  refine ⟨fun c h => ⟨fun hk => ?_, ?_⟩, fun c h => ?_, List.cons_ne_nil _ _⟩
  · simp [Expectation.Admits, hk] at h
  · rw [assignmentTo, look_bind]
    generalize hk : c.current.kind = kind
    split
    case h_3 => simp_all [Expectation.Admits]
    all_goals exact from_advance_bind c
  · rw [assignmentTo, look_bind]
    generalize hk : c.current.kind = kind
    split
    case h_3 => rfl
    all_goals simp_all [Expectation.Admits]

theorem joint_assignmentTo (first first' : Nat) (name name' : String) (h : k.Places k' n c d) :
    JointStmt k k' n (assignmentTo first name c) (assignmentTo first' name' d) := by
  refine joint_of_opens (opens_assignmentTo first name) (opens_assignmentTo first' name') h
    fun hn => ?_
  rw [assignmentTo, assignmentTo, look_bind, look_bind, ← h.kind_eq hn]
  generalize hk : c.current.kind = kind
  split
  next =>
    refine joint_advance_bind h hn fun _ _ h' => ?_
    refine joint_bind (joint_expression h') fun e e' i c' d' h' hle _ => ?_
    refine joint_expect_bind (by decide) h' fun _ _ h' => ?_
    apply joint_spanFrom_bind
    intro s s'
    exact joint_pure h' (by omega) (.other rfl rfl)
  next =>
    refine joint_advance_bind h hn fun _ _ h' => ?_
    refine joint_bind (joint_expression h') fun e e' i c' d' h' hle _ => ?_
    refine joint_expect_bind (by decide) h' fun _ _ h' => ?_
    refine joint_expect_bind (by decide) h' fun _ _ h' => ?_
    refine joint_bind (joint_expression h') fun v v' j c' d' h' hle' _ => ?_
    refine joint_expect_bind (by decide) h' fun _ _ h' => ?_
    apply joint_spanFrom_bind
    intro s s'
    exact joint_pure h' (by omega) (.other rfl rfl)
  next => exact joint_failUnexpected h hn _

theorem joint_assignment (h : k.Places k' n c d) :
    JointStmt k k' (n + 1) (assignment c) (assignment d) :=
  joint_expect_bind (by decide) h fun t u h' =>
    joint_assignmentTo t.span.start u.span.start t.lexeme u.lexeme h'

theorem joint_printStatement (h : k.Places k' n c d) :
    JointStmt k k' (n + 1) (printStatement c) (printStatement d) := by
  refine joint_expect_bind (by decide) h fun t u h' => ?_
  refine joint_bind (joint_parenthesized h') fun e e' i c' d' h' hle _ => ?_
  refine joint_expect_bind (by decide) h' fun _ _ h' => ?_
  apply joint_spanFrom_bind
  intro s s'
  exact joint_pure h' (by omega) (.other rfl rfl)

theorem opens_recur : Opens recur [.token .recurKw] := (opens_expect (by decide)).bind

theorem joint_recur (h : k.Places k' n c d) : (recur c).JointAny k k' (n + 1) (recur d) := by
  refine joint_expect_bind (by decide) h fun t u h' => ?_
  refine joint_bind (joint_parenthesized h') fun e e' i c' d' h' hle _ => ?_
  refine joint_expect_bind (by decide) h' fun _ _ h' => ?_
  refine joint_expect_bind (by decide) h' fun _ _ h' => ?_
  refine joint_bind_of_settled (joint_arguments h')
    (fun hk as c' hc' => (meets_expect_bind (by decide) hc' hk).settled trivial) False.elim
    fun as as' j c' d' h' hle' _ => ?_
  refine joint_expect_bind (by decide) h' fun _ _ h' => ?_
  refine joint_expect_bind (by decide) h' fun _ _ h' => ?_
  refine joint_bind (joint_expression h') fun f f' l c' d' h' hle'' _ => ?_
  refine joint_expect_bind (by decide) h' fun _ _ h' => ?_
  apply joint_spanFrom_bind
  intro s s'
  exact joint_pure h' (by omega) trivial

theorem joint_recurStatement (h : k.Places k' n c d) :
    JointStmt k k' (n + 1) (recurStatement c) (recurStatement d) := by
  refine joint_bind (joint_recur h) fun r r' i c' d' h' hle _ => ?_
  exact joint_pure h' hle (.recur r r')

/-! ## Statements with others inside -/

/-- What is asked of the two readers of the statements inside, after the first `start` tokens. -/
structure JointInner (k k' : Cut) (start : Nat) (inner inner' : Reader Fault Stmt) : Prop where
  answers : ∀ c, start ≤ k.size → c.In k k.size → (inner c).Answers k statementStart none
  joint : ∀ n c d, start ≤ n → k.Places k' n c d → JointStmt k k' (n + 1) (inner c) (inner' d)

theorem JointInner.later {inner inner' : Reader Fault Stmt} {later : Nat}
    (h : JointInner k k' start inner inner') (hle : start ≤ later) :
    JointInner k k' later inner inner' :=
  ⟨fun c hc => h.answers c (hle.trans hc), fun n c d hn => h.joint n c d (hle.trans hn)⟩

/-- The kinds of tokens before which no statement can stand. -/
def endsList : TokenKind → Bool
  | .rightBrace | .endOfInput | .classKw | .publicKw => true
  | _ => false

theorem not_admits_of_endsList {t : Token} (h : endsList t.kind = true) :
    ∀ x ∈ statementStart, ¬ x.Admits t := by
  intro x hx hadmits
  simp only [statementStart, List.mem_cons, List.not_mem_nil, or_false] at hx
  rcases hx with rfl | rfl | rfl | rfl | rfl | rfl <;>
    simp_all [Expectation.Admits, endsList]

section Inner

variable {inner inner' : Reader Fault Stmt}

theorem answers_recovering (hc : (inner c).Answers k statementStart none) :
    ((recovering inner : Reader ε Stmt) c).Answers k statementStart none := by
  rw [recovering, here_bind]
  exact hc.mono (extends_rescue (extends_recover .statements c _) c)

theorem joint_recovering (hinner : JointInner k k' start inner inner') (hstart : start ≤ n)
    (h : k.Places k' n c d) :
    JointStmt k k' (n + 1) ((recovering inner : Reader ε Stmt) c) (recovering inner' d) := by
  rw [recovering, recovering, here_bind, here_bind]
  exact joint_rescue (extends_recover .statements c _) (extends_recover .statements d _)
    (hinner.joint n c d hstart h)

variable [Built AnyRule Fault.ObjectsAt inner] [Built AnyRule Fault.ObjectsAt inner']

/-- If a list of statements ends at one of the cuts only, it lacks its brace there, or goes on. -/
theorem joint_manyStatements {rounds rounds' : Nat} (hinner : JointInner k k' start inner inner')
    (hstart : start ≤ n) (h : k.Places k' n c d) (hrounds : c.ahead.length ≤ rounds)
    (hrounds' : d.ahead.length ≤ rounds') :
    ((manyUntil atListEnd (recovering inner) rounds : Reader ε (List Stmt)) c).Joint k k'
      (k'.next.kind ≠ .rightBrace) False n (List.Forall₂ Stmt.Alike)
      (manyUntil atListEnd (recovering inner') rounds' d) := by
  have hitems : JointItems k k' start endsList (k'.next.kind ≠ .rightBrace) False Stmt.Alike
      (fun _ : Unit => some <$> (recovering inner : Reader ε Stmt))
      (fun _ => some <$> recovering inner') := by
    refine ⟨fun _ n c d hstart h _ _ => ?_, fun _ c hstart hc _ hu => ?_, fun _ d _ hd _ hu => ?_⟩
    · exact joint_map ((joint_recovering hinner hstart h).mono (Nat.le_refl _)
        fun _ _ hv => .some hv)
    · obtain ⟨v, hv, hexcused⟩ := (answers_recovering (ε := ε) (hinner.answers c hstart hc)).excused
        (not_admits_of_endsList hu)
      exact .inr ⟨v, hv.mono (extends_map _ _ c), hexcused⟩
    · refine .inl fun hk => ?_
      rw [hk] at hu
      cases hu
  exact joint_manyUntil (fun _ => rfl) rfl hitems hstart h hrounds hrounds'

theorem joint_blockOf {room room' : Nat} (hinner : JointInner k k' (n + 1) inner inner')
    (h : k.Places k' n c d) (hn : n < k.size) (hroom : c.ahead.length ≤ room + 1)
    (hroom' : d.ahead.length ≤ room' + 1) :
    JointStmt k k' (n + 1) (blockOf inner room c) (blockOf inner' room' d) := by
  refine joint_advance_bind h hn fun t u h' => ?_
  have hless := Nat.le_of_lt_succ ((h.left.length_lt h'.left (Nat.lt_succ_self n)).trans_le hroom)
  have hless' :=
    Nat.le_of_lt_succ ((h.right.length_lt h'.right (Nat.lt_succ_self n)).trans_le hroom')
  refine joint_bind_of_settled (joint_manyStatements hinner (Nat.le_refl _) h' hless hless')
    (fun hu ss c' hc' => ?_) False.elim fun ss ss' i c' d' h' hle _ => ?_
  · refine .inl (((opens_expect (by decide)).bind.answers hc').excused ?_)
    rw [List.forall_mem_singleton, Exact.admits_iff (by decide)]
    exact hu
  · refine joint_expect_bind (by decide) h' fun _ _ h' => ?_
    apply joint_spanFrom_bind
    intro s s'
    exact joint_pure h' (by omega) (.other rfl rfl)

theorem answers_elseBranchOf (hc : c.In k k.size) :
    (elseBranchOf inner c).Answers k [.token .elseKw] (some .bothBranches) := by
  have hnext := congrArg Token.kind hc.current_at
  refine ⟨fun h => ?_, fun h => ?_⟩
  · obtain ⟨x, hx, hadmits⟩ := h
    obtain rfl := List.mem_singleton.1 hx
    have hk : k.next.kind = .elseKw := (Exact.admits_iff (by decide)).1 hadmits
    rw [elseBranchOf, eat_bind_of_kind (hnext.trans hk)]
    exact meets_passes hc (by rw [hk]; decide) (Onward.from_start (p := inner) _)
  · rw [List.forall_mem_singleton, Exact.admits_iff (by decide), ← hnext] at h
    rw [elseBranchOf, eat_bind_of_ne h, if_neg Bool.false_ne_true, missingElse, look_bind]
    exact meets_report_bind hc (List.cons_ne_nil _ _) _

theorem joint_elseBranchOf (hinner : JointInner k k' (n + 1) inner inner')
    (h : k.Places k' n c d) :
    (elseBranchOf inner c).JointAny k k' n (elseBranchOf inner' d) := by
  rcases h.left.lt_or_eq with hn | rfl
  · by_cases hk : c.current.kind = .elseKw
    · rw [elseBranchOf, elseBranchOf, eat_bind_of_kind hk, eat_bind_of_kind (h.kind_eq hn ▸ hk)]
      exact (hinner.joint _ _ _ (Nat.le_refl _) (h.drop_one hn)).mono (by omega)
        fun _ _ _ => trivial
    · rw [elseBranchOf, elseBranchOf, eat_bind_of_ne hk, eat_bind_of_ne (h.kind_eq hn ▸ hk),
        if_neg Bool.false_ne_true, if_neg Bool.false_ne_true, missingElse, look_bind, look_bind]
      exact .of_early (early_report_bind h.left hn _ _)
        (early_report_bind h.right (h.lt_right hn) _ _)
  · exact .of_answers (answers_elseBranchOf h.left) (answers_elseBranchOf h.right_at)

theorem joint_ifElseOf (hinner : JointInner k k' (n + 1) inner inner') (h : k.Places k' n c d)
    (hn : n < k.size) : JointStmt k k' (n + 1) (ifElseOf inner c) (ifElseOf inner' d) := by
  refine joint_advance_bind h hn fun t u h' => ?_
  refine joint_bind (joint_parenthesized h') fun e e' i c' d' h' hle _ => ?_
  refine joint_bind (hinner.joint _ _ _ (by omega) h') fun b b' j c' d' h' hle' _ => ?_
  have hlater : JointInner k k' (j + 1) inner inner' := hinner.later (by omega)
  refine joint_bind (joint_elseBranchOf hlater h') fun o o' l c' d' h' hle'' _ => ?_
  apply joint_spanFrom_bind
  intro s s'
  exact joint_pure h' (by omega) (.other rfl rfl)

theorem joint_whileLoopOf (hinner : JointInner k k' (n + 1) inner inner') (h : k.Places k' n c d)
    (hn : n < k.size) : JointStmt k k' (n + 1) (whileLoopOf inner c) (whileLoopOf inner' d) := by
  refine joint_advance_bind h hn fun t u h' => ?_
  refine joint_bind (joint_parenthesized h') fun e e' i c' d' h' hle _ => ?_
  refine joint_bind (hinner.joint _ _ _ (by omega) h') fun b b' j c' d' h' hle' _ => ?_
  apply joint_spanFrom_bind
  intro s s'
  exact joint_pure h' (by omega) (.other rfl rfl)

theorem opens_statementOf (room : Nat) : Opens (statementOf inner room) statementStart := by
  refine ⟨fun c h => ⟨fun hk => ?_, ?_⟩, fun c h => ?_, List.cons_ne_nil _ _⟩
  · simp [statementStart, Expectation.Admits, hk] at h
  · rw [statementOf, look_bind]
    generalize hk : c.current.kind = kind
    split
    case h_4 => exact ((opens_expect (by decide)).bind.takes c ⟨_, .head _, .inl hk⟩).2
    case h_5 => exact ((opens_expect (by decide)).bind.takes c ⟨_, .head _, .inl hk⟩).2
    case h_6 => exact (opens_recur.bind.takes c ⟨_, .head _, .inl hk⟩).2
    case h_7 => simp_all [statementStart, Expectation.Admits]
    all_goals exact from_advance_bind c
  · rw [statementOf, look_bind]
    generalize hk : c.current.kind = kind
    split
    case h_7 => rfl
    all_goals simp_all [statementStart, Expectation.Admits]

theorem joint_statementOf {room room' : Nat} (hinner : JointInner k k' (n + 1) inner inner')
    (h : k.Places k' n c d) (hn : n < k.size) (hroom : c.ahead.length ≤ room + 1)
    (hroom' : d.ahead.length ≤ room' + 1) :
    JointStmt k k' (n + 1) (statementOf inner room c) (statementOf inner' room' d) := by
  rw [statementOf, statementOf, look_bind, look_bind, ← h.kind_eq hn]
  generalize c.current.kind = kind
  split
  next => exact joint_blockOf hinner h hn hroom hroom'
  next => exact joint_ifElseOf hinner h hn
  next => exact joint_whileLoopOf hinner h hn
  next => exact joint_printStatement h
  next => exact joint_assignment h
  next => exact joint_recurStatement h
  next => exact joint_failUnexpected h hn _

end Inner

/-! ## Whole statements -/

theorem opens_statementWithin (room : Nat) : Opens (statementWithin room) statementStart := by
  cases room <;> exact opens_statementOf _

theorem opens_statement : Opens statement statementStart where
  takes c := (opens_statementWithin c.room).takes c
  refuses c := (opens_statementWithin c.room).refuses c
  named := List.cons_ne_nil _ _

theorem jointInner (k k' : Cut) (room room' start : Nat) (hroom : k.room start ≤ room)
    (hroom' : k'.room start ≤ room') :
    JointInner k k' start (statementWithin room) (statementWithin room') := by
  induction room using Nat.strong_induction_on generalizing room' start with
  | _ room ih =>
  refine ⟨fun c hstart hc => ?_, fun n c d hstart h => ?_⟩
  · exact (opens_statementWithin room).answers hc
  · have hle := h.left.length_le hstart hroom
    have hle' := h.right.length_le hstart hroom'
    rcases h.left.lt_or_eq with hn | rfl
    · obtain ⟨r, r', rfl, rfl, hr, hr'⟩ := h.smaller hstart hn hroom hroom'
      exact joint_statementOf (ih r (Nat.lt_succ_self r) r' (n + 1) hr hr') h hn hle hle'
    · exact .of_answers ((opens_statementWithin room).answers h.left)
        ((opens_statementWithin room').answers h.right_at)

theorem jointInner_statement (k k' : Cut) (start : Nat) :
    JointInner k k' start statement statement := by
  refine ⟨fun c _ hc => opens_statement.answers hc, fun n c d _ h => ?_⟩
  exact joint_withRoom ((jointInner k k' _ _ n (h.left.length_eq ▸ Nat.le_refl _)
    (h.right.length_eq ▸ Nat.le_refl _)).joint n c d (Nat.le_refl n) h)

theorem joint_statements (h : k.Places k' n c d) :
    ((statements : Reader ε (List Stmt)) c).Joint k k' (k'.next.kind ≠ .rightBrace) False n
      (List.Forall₂ Stmt.Alike) (statements d) :=
  joint_withRoom (joint_manyStatements (jointInner_statement k k' n) (Nat.le_refl n) h
    (Nat.le_refl _) (Nat.le_refl _))

end Parse

end MiniJava
