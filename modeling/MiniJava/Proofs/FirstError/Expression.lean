import MiniJava.Proofs.Expression.Sound
import MiniJava.Proofs.FirstError.Rules

/-!
# Two readings of expressions of texts that begin alike

What may start an operand is what reading an operand expects. Operators are told from the next token
alone: those that a dot may start bind tightly enough to be taken wherever a dot is met, so that the
token after the dot decides no more than what is expected there.
-/

namespace MiniJava.Parse

open Reader Reading

variable {k k' : Cut} {n start : Nat} {c d : Cursor} {read read' : StageReader}

/-! ## Operands -/

section Opening

variable [∀ stage, Built AnyRule Fault.ObjectsAt (read stage)]

theorem opens_operandFrom : Opens (operandFrom read) operandStart := by
  refine ⟨fun c h => ⟨fun hk => ?_, ?_⟩, fun c h => ?_, List.cons_ne_nil _ _⟩
  · simp [operandStart, Expectation.Admits, hk] at h
  · rw [operandFrom, look_bind]
    cases hk : c.current.kind with
    | integer | trueKw | falseKw | identifier | thisKw | bang | leftParen | newKw =>
      exact from_advance_bind c
    | _ => simp [operandStart, Expectation.Admits, hk] at h
  · rw [operandFrom, look_bind]
    cases hk : c.current.kind with
    | integer | trueKw | falseKw | identifier | thisKw | bang | leftParen | newKw =>
      simp [operandStart, Expectation.Admits, hk] at h
    | _ => rfl

theorem opens_creationFrom (first : Nat) :
    Opens (creationFrom read first) [.token .intKw, .token .identifier] := by
  refine ⟨fun c h => ⟨fun hk => ?_, ?_⟩, fun c h => ?_, List.cons_ne_nil _ _⟩
  · simp [Expectation.Admits, hk] at h
  · rw [creationFrom, look_bind]
    generalize hk : c.current.kind = kind
    split
    case h_3 => simp_all [Expectation.Admits]
    all_goals exact from_advance_bind c
  · rw [creationFrom, look_bind]
    generalize hk : c.current.kind = kind
    split
    case h_3 => rfl
    all_goals simp_all [Expectation.Admits]

end Opening

/-- What is asked of the two readers of smaller parts, after the first `start` tokens. -/
structure JointStages (k k' : Cut) (start : Nat) (read read' : StageReader) : Prop where
  answers : ∀ c, start ≤ k.size → c.In k k.size →
    (read .operand c).Answers k operandStart none
  operand : ∀ n c d, start ≤ n → k.Places k' n c d →
    (read .operand c).JointAny k k' (n + 1) (read' .operand d)
  after : ∀ floor e e' n c d, floor ≤ Operator.length.leftPower → start ≤ n →
    k.Places k' n c d →
      (read (.after floor e) c).JointAny k k' n (read' (.after floor e') d)

section Operand

variable [∀ stage, Built AnyRule Fault.ObjectsAt (read stage)]
  [∀ stage, Built AnyRule Fault.ObjectsAt (read' stage)]

theorem joint_above (hread : JointStages k k' start read read') {floor : Nat}
    (hfloor : floor ≤ Operator.length.leftPower) (hstart : start ≤ n) (h : k.Places k' n c d) :
    (above read floor c).JointAny k k' (n + 1) (above read' floor d) := by
  refine joint_bind (hread.operand n c d hstart h) fun e e' i c' d' h' hle _ => ?_
  exact (hread.after floor e e' i c' d' hfloor (by omega) h').mono hle fun _ _ h => h

omit [∀ stage, Built AnyRule Fault.ObjectsAt (read' stage)] in
theorem answers_above (hread : JointStages k k' start read read') (floor : Nat)
    (hstart : start ≤ k.size) (hc : c.In k k.size) :
    (above read floor c).Answers k operandStart none :=
  (hread.answers c hstart hc).mono (extends_bind _ _ c)

theorem joint_leaf {build build' : Span → Expr} (h : k.Places k' n c d) (hn : n < k.size) :
    (leaf build c).JointAny k k' (n + 1) (leaf build' d) := by
  refine joint_advance_bind h hn fun t u h' => ?_
  apply joint_spanFrom_bind
  intro s s'
  exact joint_pure h' (Nat.le_refl _) trivial

omit [∀ stage, Built AnyRule Fault.ObjectsAt (read stage)]
  [∀ stage, Built AnyRule Fault.ObjectsAt (read' stage)] in
theorem joint_negation (hread : JointStages k k' (n + 1) read read') (h : k.Places k' n c d)
    (hn : n < k.size) : (negation read c).JointAny k k' (n + 1) (negation read' d) := by
  refine joint_advance_bind h hn fun t u h' => ?_
  refine joint_bind (hread.operand _ _ _ (Nat.le_refl _) h') fun e e' i c' d' h' hle _ => ?_
  apply joint_spanFrom_bind
  intro s s'
  exact joint_pure h' (by omega) trivial

theorem joint_grouping (hread : JointStages k k' (n + 1) read read') (h : k.Places k' n c d)
    (hn : n < k.size) : (grouping read c).JointAny k k' (n + 1) (grouping read' d) := by
  refine joint_advance_bind h hn fun t u h' => ?_
  refine joint_bind (joint_above hread (Nat.zero_le _) (Nat.le_refl _) h')
    fun e e' i c' d' h' hle _ => ?_
  refine joint_expect_bind (by decide) h' fun _ _ h' => ?_
  apply joint_spanFrom_bind
  intro s s'
  exact joint_pure h' (by omega) trivial

theorem joint_creationFrom (first first' : Nat) (hread : JointStages k k' n read read')
    (h : k.Places k' n c d) :
    (creationFrom read first c).JointAny k k' n (creationFrom read' first' d) := by
  refine joint_of_opens (opens_creationFrom first) (opens_creationFrom first') h fun hn => ?_
  rw [creationFrom, creationFrom, look_bind, look_bind, ← h.kind_eq hn]
  generalize hk : c.current.kind = kind
  split
  next =>
    refine joint_advance_bind h hn fun _ _ h' => ?_
    refine joint_expect_bind (by decide) h' fun _ _ h' => ?_
    refine joint_bind (joint_above hread (Nat.zero_le _) (by omega) h')
      fun e e' i c' d' h' hle _ => ?_
    refine joint_expect_bind (by decide) h' fun _ _ h' => ?_
    apply joint_spanFrom_bind
    intro s s'
    exact joint_pure h' (by omega) trivial
  next =>
    refine joint_advance_bind h hn fun _ _ h' => ?_
    refine joint_expect_bind (by decide) h' fun _ _ h' => ?_
    refine joint_expect_bind (by decide) h' fun _ _ h' => ?_
    apply joint_spanFrom_bind
    intro s s'
    exact joint_pure h' (by omega) trivial
  next => exact joint_failUnexpected h hn _

theorem joint_creation (hread : JointStages k k' (n + 1) read read') (h : k.Places k' n c d)
    (hn : n < k.size) : (creation read c).JointAny k k' (n + 1) (creation read' d) :=
  joint_advance_bind h hn fun t u h' => joint_creationFrom t.span.start u.span.start hread h'

theorem joint_operandFrom (hread : JointStages k k' (n + 1) read read') (h : k.Places k' n c d)
    (hn : n < k.size) : (operandFrom read c).JointAny k k' (n + 1) (operandFrom read' d) := by
  rw [operandFrom, operandFrom, look_bind, look_bind, ← h.kind_eq hn]
  cases c.current.kind with
  | integer | trueKw | falseKw | identifier | thisKw => exact joint_leaf h hn
  | bang => exact joint_negation hread h hn
  | leftParen => exact joint_grouping hread h hn
  | newKw => exact joint_creation hread h hn
  | _ => exact joint_failUnexpected h hn _

/-! ## Operators -/

theorem joint_argumentsOf (item item' : Reader Fault Expr) [Onward item] [Onward item']
    {room room' : Nat}
    (hitem : ∀ n c d, start ≤ n → k.Places k' n c d → (item c).JointAny k k' (n + 1) (item' d))
    (hanswers : ∀ c, start ≤ k.size → c.In k k.size → (item c).Answers k operandStart none)
    (hstart : start ≤ n) (h : k.Places k' n c d) (hroom : c.ahead.length ≤ room)
    (hroom' : d.ahead.length ≤ room') :
    (argumentsOf item room c).Joint k k' (k.next.kind = .rightParen) False n (fun _ _ => True)
      (argumentsOf item' room' d) := by
  have hitems := joint_sepByComma hitem hstart h hroom hroom'
  have hopening : c.In k k.size → (sepByComma item room c).Answers k operandStart none := by
    intro hc
    rw [sepByComma_eq]
    exact (hanswers c (hstart.trans h.left.le) hc).mono (extends_bind _ _ c)
  refine joint_unlessClosed h (hitems.mono (Nat.le_succ n) fun _ _ h => h) hopening ?_
  simp +contextual [operandStart, Expectation.Admits]

theorem joint_takeBinary (room room' : Nat) (hread : JointStages k k' (n + 1) read read')
    (e e' : Expr) (sign : BinaryOp) (h : k.Places k' n c d) (hn : n < k.size) :
    (takeOperator read room e (.binary sign) c).JointAny k k' (n + 1)
      (takeOperator read' room' e' (.binary sign) d) := by
  refine joint_advance_bind h hn fun _ _ h' => ?_
  have hfloor : (Operator.binary sign).rightPower ≤ Operator.length.leftPower := by
    cases sign <;> decide
  refine joint_bind (joint_above hread hfloor (Nat.le_refl _) h') fun r r' i c' d' h' hle _ => ?_
  apply joint_spanFrom_bind
  intro s s'
  exact joint_pure h' (by omega) trivial

theorem joint_takeIndex (room room' : Nat) (hread : JointStages k k' (n + 1) read read')
    (e e' : Expr) (h : k.Places k' n c d) (hn : n < k.size) :
    (takeOperator read room e .index c).JointAny k k' (n + 1)
      (takeOperator read' room' e' .index d) := by
  refine joint_advance_bind h hn fun _ _ h' => ?_
  refine joint_bind (joint_above hread (Nat.zero_le _) (Nat.le_refl _) h')
    fun r r' i c' d' h' hle _ => ?_
  refine joint_expect_bind (by decide) h' fun _ _ h' => ?_
  apply joint_spanFrom_bind
  intro s s'
  exact joint_pure h' (by omega) trivial

theorem joint_takeCall {room room' : Nat} (hread : JointStages k k' (n + 1) read read')
    (e e' : Expr) (h : k.Places k' n c d) (hn : n < k.size) (hroom : c.ahead.length ≤ room + 1)
    (hroom' : d.ahead.length ≤ room' + 1) :
    (takeOperator read room e .call c).JointAny k k' (n + 1)
      (takeOperator read' room' e' .call d) := by
  refine joint_advance_bind h hn fun _ _ h₁ => ?_
  refine joint_expectName_bind h₁ fun _ _ h₂ => ?_
  refine joint_expect_bind (by decide) h₂ fun _ _ h₃ => ?_
  have hless := Nat.le_of_lt_succ ((h.left.length_lt h₃.left (by omega)).trans_le hroom)
  have hless' := Nat.le_of_lt_succ ((h.right.length_lt h₃.right (by omega)).trans_le hroom')
  have hargs := joint_argumentsOf (above read 0) (above read' 0)
    (fun n c d hstart h => joint_above hread (Nat.zero_le _) hstart h)
    (fun c hstart hc => answers_above hread 0 hstart hc) (by omega) h₃ hless hless'
  refine joint_bind_of_settled hargs
    (fun hk as c' hc' => (meets_expect_bind (by decide) hc' hk).settled trivial) False.elim
    fun as as' i c' d' h' hle _ => ?_
  refine joint_expect_bind (by decide) h' fun _ _ h' => ?_
  apply joint_spanFrom_bind
  intro s s'
  exact joint_pure h' (by omega) trivial

/-- The operator that a dot starts, by the token after it. -/
def dotted (c : Cursor) : Operator :=
  if (c.drop 1).current.kind = .lengthKw then .length else .call

/-- The token after a dot may be the one at the cut. -/
theorem joint_takeDotted {room room' : Nat} (hread : JointStages k k' (n + 1) read read')
    (e e' : Expr) (h : k.Places k' n c d) (hn : n < k.size) (hroom : c.ahead.length ≤ room + 1)
    (hroom' : d.ahead.length ≤ room' + 1) :
    (takeOperator read room e (dotted c) c).JointAny k k' (n + 1)
      (takeOperator read' room' e' (dotted d) d) := by
  have hnext := h.drop_one hn
  have hlength : ∀ (c : Cursor), (c.drop 1).current.kind = .lengthKw → dotted c = .length :=
    fun c hk => if_pos hk
  have hcall : ∀ (c : Cursor), (c.drop 1).current.kind ≠ .lengthKw → dotted c = .call :=
    fun c hk => if_neg hk
  rcases hnext.left.lt_or_eq with hlt | heq
  · by_cases hk : (c.drop 1).current.kind = .lengthKw
    · rw [hlength c hk, hlength d (hnext.kind_eq hlt ▸ hk)]
      refine joint_advance_bind h hn fun _ _ h' => ?_
      refine joint_advance_bind h' hlt fun _ _ h' => ?_
      apply joint_spanFrom_bind
      intro s s'
      exact joint_pure h' (by omega) trivial
    · rw [hcall c hk, hcall d (hnext.kind_eq hlt ▸ hk)]
      exact joint_takeCall hread e e' h hn hroom hroom'
  · have hc : (c.drop 1).In k k.size := heq ▸ hnext.left
    have hd : (d.drop 1).In k' k'.size := h.size_eq ▸ heq ▸ hnext.right
    refine .of_choice (A := (· = .lengthKw)) (fun ht => ?_) (fun hu => ?_) fun ht hu => ?_
    · rw [hlength c (hc.current_at ▸ ht), takeOperator, advance_bind]
      exact meets_advance_bind hc (by rw [ht]; decide)
    · rw [hlength d (hd.current_at ▸ hu), takeOperator, advance_bind]
      exact meets_advance_bind hd (by rw [hu]; decide)
    · rw [hcall c (hc.current_at ▸ ht), hcall d (hd.current_at ▸ hu)]
      exact joint_takeCall hread e e' h hn hroom hroom'

end Operand

/-- Whether a token of some kind starts an operator that binds at least as tightly as `floor`. -/
def Binds (floor : Nat) (kind : TokenKind) : Prop :=
  ∃ op, Operator.at? kind .endOfInput = some op ∧ floor ≤ op.leftPower

theorem at?_of_ne_dot {kind : TokenKind} (hdot : kind ≠ .dot) (second : TokenKind) :
    Operator.at? kind second = Operator.at? kind .endOfInput := by
  cases kind <;> first | rfl | exact absurd rfl hdot

/-- The token after the next one does not decide whether there is an operator. -/
theorem at?_binds_iff {floor : Nat} (hfloor : floor ≤ Operator.length.leftPower)
    (kind second : TokenKind) :
    (∃ op, Operator.at? kind second = some op ∧ floor ≤ op.leftPower) ↔ Binds floor kind := by
  by_cases hdot : kind = .dot
  · have hcall : floor ≤ Operator.call.leftPower := hfloor.trans (by decide)
    by_cases hsecond : second = .lengthKw <;>
      simp [Binds, Operator.at?, hdot, hsecond, hfloor, hcall]
  · rw [Binds, at?_of_ne_dot hdot]

theorem operatorsFrom_of_at? {room floor : Nat} {e : Expr} {op : Operator}
    (hop : Operator.at? c.current.kind c.secondKind = some op) (hfloor : floor ≤ op.leftPower) :
    operatorsFrom read room floor e c =
      (takeOperator read room e op >>= fun folded => read (.after floor folded)) c := by
  rw [operatorsFrom, here_bind, hop]
  exact congrFun (if_neg (Nat.not_lt.2 hfloor)) c

theorem operatorsFrom_of_not_binds {room floor : Nat} {e : Expr}
    (hfloor : floor ≤ Operator.length.leftPower) (h : ¬ Binds floor c.current.kind) :
    operatorsFrom read room floor e c = (pure e : Reader Fault Expr) c := by
  rw [← at?_binds_iff hfloor _ c.secondKind] at h
  rw [operatorsFrom, here_bind]
  cases hop : Operator.at? c.current.kind c.secondKind with
  | none => rfl
  | some op => exact congrFun (if_pos (Nat.lt_of_not_le fun hle => h ⟨op, hop, hle⟩)) c

section Operators

variable [∀ stage, Built AnyRule Fault.ObjectsAt (read stage)]
  [∀ stage, Built AnyRule Fault.ObjectsAt (read' stage)]

/-- The operator after an operand is the same in both texts, but for one that starts with a dot. -/
theorem joint_takeOperator {room room' floor : Nat} (hread : JointStages k k' (n + 1) read read')
    (hfloor : floor ≤ Operator.length.leftPower) (e e' : Expr) (h : k.Places k' n c d)
    (hn : n < k.size) (hb : Binds floor c.current.kind) (hroom : c.ahead.length ≤ room + 1)
    (hroom' : d.ahead.length ≤ room' + 1) :
    ∃ op op', (Operator.at? c.current.kind c.secondKind = some op ∧ floor ≤ op.leftPower) ∧
      (Operator.at? d.current.kind d.secondKind = some op' ∧ floor ≤ op'.leftPower) ∧
        (takeOperator read room e op c).JointAny k k' (n + 1)
          (takeOperator read' room' e' op' d) := by
  rw [← h.kind_eq hn]
  by_cases hdot : c.current.kind = .dot
  · have hlow : ∀ c : Cursor, floor ≤ (dotted c).leftPower := by
      intro c
      unfold dotted
      split
      · exact hfloor
      · exact hfloor.trans (by decide)
    rw [hdot, h.left.secondKind_eq hn, h.right.secondKind_eq (h.lt_right hn)]
    refine ⟨dotted c, dotted d, ⟨?_, hlow c⟩, ⟨?_, hlow d⟩,
      joint_takeDotted hread e e' h hn hroom hroom'⟩ <;>
      exact (apply_ite some _ _ _).symm
  · rw [at?_of_ne_dot hdot c.secondKind, at?_of_ne_dot hdot d.secondKind]
    obtain ⟨op, hop, hle⟩ := hb
    refine ⟨op, op, ⟨hop, hle⟩, ⟨hop, hle⟩, ?_⟩
    cases op with
    | binary sign => exact joint_takeBinary room room' hread e e' sign h hn
    | index => exact joint_takeIndex room room' hread e e' h hn
    | length => exact absurd (Operator.kind_of_at?_length hop).1 hdot
    | call => exact absurd (Operator.kind_of_at?_call hop) hdot

theorem joint_operatorsFrom {room room' floor : Nat}
    (hread : JointStages k k' (n + 1) read read') (hfloor : floor ≤ Operator.length.leftPower)
    (e e' : Expr) (h : k.Places k' n c d) (hn : n < k.size) (hroom : c.ahead.length ≤ room + 1)
    (hroom' : d.ahead.length ≤ room' + 1) :
    (operatorsFrom read room floor e c).JointAny k k' n
      (operatorsFrom read' room' floor e' d) := by
  by_cases hb : Binds floor c.current.kind
  · obtain ⟨op, op', ⟨hop, hle⟩, ⟨hop', hle'⟩, htake⟩ :=
      joint_takeOperator hread hfloor e e' h hn hb hroom hroom'
    rw [operatorsFrom_of_at? hop hle, operatorsFrom_of_at? hop' hle']
    refine joint_bind htake fun f f' i c' d' h' hi _ => ?_
    exact (hread.after floor f f' i c' d' hfloor hi h').mono (by omega) fun _ _ h => h
  · rw [operatorsFrom_of_not_binds hfloor hb,
      operatorsFrom_of_not_binds hfloor (h.kind_eq hn ▸ hb)]
    exact joint_pure h (Nat.le_refl n) trivial

end Operators

/-! ## Whole expressions -/

theorem opens_stageWithin (room : Nat) : Opens (stageWithin room .operand) operandStart := by
  cases room <;> exact opens_operandFrom

/-- An expression starts with an operand. -/
theorem opens_expression : Opens expression operandStart where
  takes c := (opens_stageWithin c.room).bind.takes c
  refuses c := (opens_stageWithin c.room).bind.refuses c
  named := List.cons_ne_nil _ _

theorem passes_stageWithin_after {room floor : Nat} (hfloor : floor ≤ Operator.length.leftPower)
    (e : Expr) (hc : c.In k k.size) (hroom : c.ahead.length ≤ room) (hb : Binds floor k.next.kind) :
    (stageWithin room (.after floor e) c).Meets k .passes := by
  have hne : k.next.kind ≠ .endOfInput := by
    obtain ⟨op, hop, -⟩ := hb
    intro hk
    rw [hk] at hop
    cases hop
  cases room with
  | zero =>
    refine absurd ?_ (k.after_ne_nil hne)
    rw [← hc.ahead_at, List.length_eq_zero_iff.1 (Nat.le_zero.1 hroom)]
  | succ room =>
    rw [← hc.current_at, ← at?_binds_iff hfloor _ c.secondKind] at hb
    obtain ⟨op, hop, hle⟩ := hb
    rw [stageWithin, operatorsFrom_of_at? hop hle]
    refine meets_passes hc hne ((extends_bind _ _ c).from_start ?_)
    cases op <;> exact from_advance_bind c

theorem stageWithin_after_of_not_binds {floor : Nat} (hfloor : floor ≤ Operator.length.leftPower)
    (room : Nat) (e : Expr) (hb : ¬ Binds floor c.current.kind) :
    stageWithin room (.after floor e) c = (pure e : Reader Fault Expr) c := by
  cases room <;> exact operatorsFrom_of_not_binds hfloor hb

/-- At the cut an operator is told by its first token alone. -/
theorem joint_stageWithin_after_at {room room' floor : Nat}
    (hfloor : floor ≤ Operator.length.leftPower) (e e' : Expr) (h : k.Places k' k.size c d)
    (hroom : c.ahead.length ≤ room) (hroom' : d.ahead.length ≤ room') :
    (stageWithin room (.after floor e) c).JointAny k k' k.size
      (stageWithin room' (.after floor e') d) := by
  refine .of_choice (A := Binds floor) (passes_stageWithin_after hfloor e h.left hroom)
    (passes_stageWithin_after hfloor e' h.right_at hroom') fun ht hu => ?_
  rw [← h.left.current_at] at ht
  rw [← h.right_at.current_at] at hu
  rw [stageWithin_after_of_not_binds hfloor room e ht,
    stageWithin_after_of_not_binds hfloor room' e' hu]
  exact joint_pure h (Nat.le_refl _) trivial

/-- Before the cut, parts of expressions take a token before they go on with a smaller bound. -/
theorem jointStages (k k' : Cut) (room room' start : Nat) (hroom : k.room start ≤ room)
    (hroom' : k'.room start ≤ room') :
    JointStages k k' start (stageWithin room) (stageWithin room') := by
  induction room using Nat.strong_induction_on generalizing room' start with
  | _ room ih =>
  refine ⟨fun c hstart hc => ?_, fun n c d hstart h => ?_,
    fun floor e e' n c d hfloor hstart h => ?_⟩
  · exact (opens_stageWithin room).answers hc
  · have hle := h.left.length_le hstart hroom
    have hle' := h.right.length_le hstart hroom'
    rcases h.left.lt_or_eq with hn | rfl
    · obtain ⟨r, r', rfl, rfl, hr, hr'⟩ := h.smaller hstart hn hroom hroom'
      exact joint_operandFrom (ih r (Nat.lt_succ_self r) r' (n + 1) hr hr') h hn
    · exact .of_answers ((opens_stageWithin room).answers h.left)
        ((opens_stageWithin room').answers h.right_at)
  · have hle := h.left.length_le hstart hroom
    have hle' := h.right.length_le hstart hroom'
    rcases h.left.lt_or_eq with hn | rfl
    · obtain ⟨r, r', rfl, rfl, hr, hr'⟩ := h.smaller hstart hn hroom hroom'
      have hread := ih r (Nat.lt_succ_self r) r' (n + 1) hr hr'
      exact joint_operatorsFrom hread hfloor e e' h hn hle hle'
    · exact joint_stageWithin_after_at hfloor e e' h hle hle'

theorem jointStages_of_places (h : k.Places k' n c d) :
    JointStages k k' n (stageWithin c.ahead.length) (stageWithin d.ahead.length) :=
  jointStages k k' _ _ n (h.left.length_eq ▸ Nat.le_refl _) (h.right.length_eq ▸ Nat.le_refl _)

theorem joint_expression (h : k.Places k' n c d) :
    (expression c).JointAny k k' (n + 1) (expression d) :=
  joint_withRoom (joint_above (jointStages_of_places h) (Nat.zero_le _) (Nat.le_refl n) h)

theorem joint_parenthesized (h : k.Places k' n c d) :
    (parenthesized c).JointAny k k' (n + 1) (parenthesized d) := by
  refine joint_expect_bind (by decide) h fun _ _ h' => ?_
  refine joint_bind (joint_expression h') fun e e' i c' d' h' hle _ => ?_
  refine joint_expect_bind (by decide) h' fun _ _ h' => ?_
  exact joint_pure h' (by omega) trivial

theorem joint_arguments (h : k.Places k' n c d) :
    (arguments c).Joint k k' (k.next.kind = .rightParen) False n (fun _ _ => True)
      (arguments d) :=
  joint_withRoom (joint_argumentsOf expression expression (fun _ _ _ _ h => joint_expression h)
    (fun _ _ hc => opens_expression.answers hc) (Nat.le_refl n) h (Nat.le_refl _) (Nat.le_refl _))

end MiniJava.Parse
