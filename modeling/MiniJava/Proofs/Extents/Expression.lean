import MiniJava.Proofs.Expression.Sound
import MiniJava.Proofs.Extents.Nodes
import MiniJava.Proofs.Reading.Advances

/-!
# Where expressions stand

An expression that is read goes from the first to the last token that was taken, and so do all its
parts. The left operand of an operator was read from an earlier place, at which the whole starts.
-/

namespace MiniJava

/-! ## Expressions between two places -/

/-- The expression stands between two places of the text, and what is below it has its place. -/
structure Expr.At (source : String) (c : Cursor) (e : Expr) (d : Cursor) : Prop where
  passage : Passage source c e.yield d
  yield_ne_nil : e.yield ≠ []
  span_eq : e.span = ⟨c.nextStart, d.lastStop⟩
  extents : Extents source e.nodes []

namespace Expr.At

variable {source : String} {c d : Cursor} {e : Expr} {ns : List Node}

theorem stretch (h : e.At source c d) : Stretch source c [e.span] d := by
  rw [h.span_eq]
  exact h.passage.stretch_span h.yield_ne_nil

theorem of_parts (hp : Passage source c e.yield d) (hne : e.yield ≠ [])
    (hspan : e.span = ⟨c.nextStart, d.lastStop⟩) (hnodes : e.nodes = .expr e :: ns)
    (hnested : (Node.expr e).Nested) (hns : Extents source ns []) : e.At source c d := by
  refine ⟨hp, hne, hspan, ?_⟩
  rw [hnodes]
  exact hns.cons_of_passage hp hne (by rw [Node.extents, hspan]) (fun _ => rfl) hnested

end Expr.At

namespace Parse

open Reader Reading Terminal

/-- A span from an earlier place of the text up to here. -/
theorem advances_spanFrom_bind {ε β : Type} {source : String} {E : ε → Prop} {Q : Post β}
    {f : Span → Reader ε β} {start : Nat} {origin c : Cursor} {ys : List Terminal}
    (hp : Passage source origin ys c) (hys : ys ≠ []) (hstart : start = origin.nextStart)
    (h : (f ⟨origin.nextStart, c.lastStop⟩ c).Advances source E c Q) :
    ((spanFrom start >>= f) c).Advances source E c Q := by
  have hlt := hp.lt hys
  rw [spanFrom_bind, hstart, Nat.max_eq_right (Nat.le_of_lt hlt)]
  exact h

/-- What holds of an expression that was read from `c` on. -/
def ExpressionAt (source : String) (c : Cursor) : Post Expr := fun ys e d fs =>
  fs = [] ∧ ys = e.yield ∧ e.At source c d

/-- A reader of stages that finds the places of what it reads within `room` tokens. -/
structure PlacedStages (source : String) (read : StageReader) (room : Nat) : Prop where
  operand : ∀ c : Cursor, c.ahead.length ≤ room →
    (read .operand c).Advances source (Fault.Holds source) c (ExpressionAt source c)
  after : ∀ (floor : Nat) (left : Expr) (origin c : Cursor), left.At source origin c →
    c.ahead.length ≤ room → (read (.after floor left) c).Advances source (Fault.Holds source) c
      fun _ e d fs => fs = [] ∧ e.At source origin d

variable {source : String} {read : StageReader} {room floor : Nat} {origin c d : Cursor}

theorem advances_above (hread : PlacedStages source read room) (floor : Nat)
    (hc : c.ahead.length ≤ room) :
    (above read floor c).Advances source (Fault.Holds source) c (ExpressionAt source c) := by
  refine .passage (advances_bind (hread.operand c hc) ?_)
  rintro ys e d fs hd ⟨rfl, rfl, he⟩
  apply (hread.after floor e c d he (hd.reaches.length_ahead_le hc)).mono
  rintro zs e' d' fs ⟨rfl, he'⟩ hp
  exact ⟨rfl, hp.reaches.unique he'.passage.reaches, he'⟩

/-! ## Operands -/

theorem advances_leaf {build : Span → Expr} (hk : c.current.kind ≠ .endOfInput)
    (h : c.Of source → ∀ s, (build s).yield = [c.current.terminal] ∧ (build s).span = s ∧
      (build s).nodes = [.expr (build s)] ∧ (Node.expr (build s)).Nested) :
    (leaf build c).Advances source (Fault.Holds source) c (ExpressionAt source c) := by
  refine advances_advance_bind hk fun hd => ?_
  apply advances_spanFrom_bind hd (List.cons_ne_nil _ _) rfl
  obtain ⟨hyield, hspan, hnodes, hnested⟩ := h hd.origin ⟨c.nextStart, (c.drop 1).lastStop⟩
  exact advances_pure ⟨rfl, hyield.symm,
    .of_parts (hyield ▸ hd) (by simp [hyield]) hspan hnodes hnested .nil⟩

theorem advances_negation (hread : PlacedStages source read room) (hk : c.current.kind = .bang)
    (hc : c.ahead.length ≤ room + 1) :
    (negation read c).Advances source (Fault.Holds source) c (ExpressionAt source c) := by
  refine advances_advance_word_bind hk rfl fun hd => ?_
  apply advances_bind (hread.operand _ (hd.reaches.length_ahead_lt (by simp) hc))
  rintro ys e d fs - ⟨rfl, rfl, he⟩
  have hp := hd.trans he.passage
  refine advances_spanFrom_bind hp (by simp) rfl (advances_pure ⟨rfl, by simp [Expr.yield], ?_⟩)
  exact .of_parts hp (by simp [Expr.yield]) rfl rfl (hd.stretch.trans he.stretch).row he.extents

theorem advances_grouping (hread : PlacedStages source read room)
    (hk : c.current.kind = .leftParen) (hc : c.ahead.length ≤ room + 1) :
    (grouping read c).Advances source (Fault.Holds source) c (ExpressionAt source c) := by
  refine advances_advance_word_bind hk rfl fun hd => ?_
  apply advances_bind (advances_above hread 0 (hd.reaches.length_ahead_lt (by simp) hc))
  rintro ys e d fs - ⟨rfl, rfl, he⟩
  refine advances_expect_bind rfl fun d' hd' => ?_
  have hp := hd.trans (he.passage.trans hd')
  refine advances_spanFrom_bind hp (by simp) rfl (advances_pure ⟨rfl, by simp [Expr.yield], ?_⟩)
  exact .of_parts hp (by simp [Expr.yield]) rfl rfl
    (hd.stretch.trans (he.stretch.trans hd'.stretch)).row he.extents

/-- What holds of what is read after `new`, at which the expression starts. -/
theorem advances_creationFrom (hread : PlacedStages source read room)
    (hnew : Passage source origin [word .newKw] c) (hc : c.ahead.length ≤ room) :
    (creationFrom read origin.nextStart c).Advances source (Fault.Holds source) c
      fun ys e d fs => ExpressionAt source origin (word .newKw :: ys) e d fs := by
  rw [creationFrom, look_bind]
  generalize hk : c.current.kind = kind
  split
  next =>
    refine advances_advance_word_bind hk rfl fun hd => ?_
    refine advances_expect_bind rfl fun d' hd' => ?_
    apply advances_bind (advances_above hread 0 ((hd.trans hd').reaches.length_ahead_le hc))
    rintro ys e d'' fs - ⟨rfl, rfl, he⟩
    refine advances_expect_bind rfl fun d''' hclose => ?_
    have hopen := hnew.trans (hd.trans hd')
    have hp := hopen.trans (he.passage.trans hclose)
    refine advances_spanFrom_bind hp (by simp) rfl (advances_pure ⟨rfl, by simp [Expr.yield], ?_⟩)
    exact .of_parts hp (by simp [Expr.yield]) rfl rfl
      (hopen.stretch.trans (he.stretch.trans hclose.stretch)).row he.extents
  next =>
    refine advances_advance_bind (by simp [hk]) ?_
    rw [Token.terminal_ident hk]
    intro hd
    refine advances_expect_bind rfl fun d' hd' => advances_expect_bind rfl fun d'' hd'' => ?_
    have hp := hnew.trans (hd.trans (hd'.trans hd''))
    refine advances_spanFrom_bind hp (by simp) rfl (advances_pure ⟨rfl, by simp [Expr.yield], ?_⟩)
    exact .of_parts hp (by simp [Expr.yield]) rfl rfl trivial .nil
  next hint hident =>
    refine advances_failUnexpected (fun _ => ?_) _
    simpa [Expectation.Admits, hk] using ⟨hint, hident⟩

theorem advances_creation (hread : PlacedStages source read room) (hk : c.current.kind = .newKw)
    (hc : c.ahead.length ≤ room + 1) :
    (creation read c).Advances source (Fault.Holds source) c (ExpressionAt source c) :=
  advances_advance_word_bind hk rfl fun hd =>
    advances_creationFrom hread hd (hd.reaches.length_ahead_lt (List.cons_ne_nil _ _) hc)

theorem advances_operandFrom (hread : PlacedStages source read room)
    (hc : c.ahead.length ≤ room + 1) :
    (operandFrom read c).Advances source (Fault.Holds source) c (ExpressionAt source c) := by
  rw [operandFrom, look_bind]
  cases hk : c.current.kind with
  | integer value =>
    refine advances_leaf (by simp [hk]) fun _ s => ?_
    rw [Token.terminal_number hk]
    exact ⟨rfl, rfl, rfl, trivial⟩
  | trueKw | falseKw | thisKw =>
    refine advances_leaf (by simp [hk]) fun hof s => ?_
    rw [(hof.regular.current (by simp [hk])).terminal_word hk rfl]
    exact ⟨rfl, rfl, rfl, trivial⟩
  | identifier =>
    refine advances_leaf (by simp [hk]) fun _ s => ?_
    rw [Token.terminal_ident hk]
    exact ⟨rfl, rfl, rfl, trivial⟩
  | bang => exact advances_negation hread hk hc
  | leftParen => exact advances_grouping hread hk hc
  | newKw => exact advances_creation hread hk hc
  | _ => exact advances_failUnexpected (fun _ => by simp [operandStart, Expectation.Admits, hk]) _

/-! ## Operators -/

/-- What holds of arguments that were read from `c` on. -/
def ArgumentsAt (source : String) (c : Cursor) : Post (List Expr) := fun ys es d fs =>
  fs = [] ∧ ys = Expr.yieldList es ∧ Stretch source c (es.map Expr.span) d ∧
    Extents source (es.flatMap Expr.nodes) []

theorem advances_argumentsOf {item : Reader Fault Expr} (hc : c.ahead.length ≤ room)
    (hitem : ∀ d : Cursor, d.ahead.length ≤ room →
      (item d).Advances source (Fault.Holds source) d (ExpressionAt source d)) :
    (argumentsOf item room c).Advances source (Fault.Holds source) c (ArgumentsAt source c) := by
  rw [argumentsOf, isAt_bind]
  split
  · exact .of_place fun hof => advances_pure ⟨rfl, rfl, (Passage.refl hof).stretch, .nil⟩
  refine (advances_sepByComma
    (J := fun c ys es d fs => es ≠ [] ∧ ArgumentsAt source c ys es d fs) ?_ ?_ hitem hc hc).mono
      fun _ _ _ _ h => h.2
  · rintro c ys e d fs - ⟨rfl, rfl, he⟩
    exact ⟨by simp, rfl, by simp [Expr.yieldList, Expr.yieldMore], he.stretch,
      by simpa using he.extents⟩
  · rintro c ys e d fs d' zs es d'' gs - hcomma - ⟨rfl, rfl, he⟩ ⟨hne, rfl, rfl, hes, hns⟩
    refine ⟨by simp, rfl, ?_, he.stretch.trans (hcomma.stretch.trans hes), he.extents.append hns⟩
    rw [Expr.yieldList_eq, Expr.yieldList_eq, commaSeparated_cons e hne]

variable {left : Expr}

theorem advances_takeOperator (hread : PlacedStages source read room)
    (hc : c.ahead.length ≤ room + 1) (hleft : left.At source origin c) {op : Operator}
    (hop : c.operator? = some op) :
    (takeOperator read room left op c).Advances source (Fault.Holds source) c
      fun ys e d fs => fs = [] ∧ ys ≠ [] ∧ e.At source origin d := by
  have hstart : left.span.start = origin.nextStart := by rw [hleft.span_eq]
  cases op with
  | binary sign =>
    refine advances_advance_word_bind (Operator.kind_of_at? hop)
      sign.isSome_spelling_tokenKind fun hd => ?_
    apply advances_bind (advances_above hread _ (hd.reaches.length_ahead_lt (by simp) hc))
    rintro ys e d fs - ⟨rfl, rfl, he⟩
    have hp := hleft.passage.trans (hd.trans he.passage)
    refine advances_spanFrom_bind hp (by simp) hstart (advances_pure ⟨rfl, by simp, ?_⟩)
    exact .of_parts hp (by simp [Expr.yield]) rfl rfl
      (hleft.stretch.trans (hd.stretch.trans he.stretch)).row (hleft.extents.append he.extents)
  | index =>
    refine advances_advance_word_bind (Operator.kind_of_at?_index hop) rfl fun hd => ?_
    apply advances_bind (advances_above hread 0 (hd.reaches.length_ahead_lt (by simp) hc))
    rintro ys e d fs - ⟨rfl, rfl, he⟩
    refine advances_expect_bind rfl fun d' hd' => ?_
    have hp := hleft.passage.trans (hd.trans (he.passage.trans hd'))
    refine advances_spanFrom_bind hp (by simp) hstart (advances_pure ⟨rfl, by simp, ?_⟩)
    exact .of_parts hp (by simp [Expr.yield]) rfl rfl
      (hleft.stretch.trans (hd.stretch.trans (he.stretch.trans hd'.stretch))).row
      (hleft.extents.append he.extents)
  | length =>
    obtain ⟨hk, hk'⟩ := Operator.kind_of_at?_length hop
    refine advances_advance_word_bind hk rfl fun hd => ?_
    refine advances_advance_word_bind (Cursor.kind_current_drop_one hk' (by simp)) rfl
      fun hd' => ?_
    have hp := hleft.passage.trans (hd.trans hd')
    refine advances_spanFrom_bind hp (by simp) hstart (advances_pure ⟨rfl, by simp, ?_⟩)
    exact .of_parts hp (by simp [Expr.yield]) rfl rfl
      (hleft.stretch.trans (hd.trans hd').stretch).row hleft.extents
  | call =>
    refine advances_advance_word_bind (Operator.kind_of_at?_call hop) rfl fun hd => ?_
    refine advances_expectName_bind fun m d' hd' => advances_expect_bind rfl fun d'' hd'' => ?_
    have hopen := hd.trans (hd'.trans hd'')
    have hlen := hopen.reaches.length_ahead_lt (by simp) hc
    apply advances_bind (advances_argumentsOf hlen fun _ => advances_above hread 0)
    rintro ys es d fs hargs ⟨rfl, rfl, hes, hns⟩
    refine advances_expect_bind rfl fun d''' hclose => ?_
    have hp := hleft.passage.trans (hopen.trans (hargs.trans hclose))
    refine advances_spanFrom_bind hp (by simp) hstart (advances_pure ⟨rfl, by simp, ?_⟩)
    have hrow := (hleft.stretch.trans (hopen.stretch.trans (hes.trans hclose.stretch))).row
    refine .of_parts hp (by simp [Expr.yield]) rfl rfl ?_ ?_
    · simpa [Node.Nested] using hrow
    · rw [Expr.nodesList_eq]
      exact hleft.extents.append hns

theorem advances_operatorsFrom (hread : PlacedStages source read room)
    (hleft : left.At source origin c) (hc : c.ahead.length ≤ room + 1) :
    (operatorsFrom read room floor left c).Advances source (Fault.Holds source) c
      fun _ e d fs => fs = [] ∧ e.At source origin d := by
  rw [operatorsFrom, here_bind]
  cases hop : c.operator? with
  | none =>
    rw [show Operator.at? c.current.kind c.secondKind = none from hop]
    exact advances_pure ⟨rfl, hleft⟩
  | some op =>
    rw [show Operator.at? c.current.kind c.secondKind = some op from hop]
    dsimp only
    split
    next => exact advances_pure ⟨rfl, hleft⟩
    next =>
      apply advances_bind (advances_takeOperator hread hc hleft hop)
      rintro ys e d fs hd ⟨rfl, hys, he⟩
      exact hread.after floor e origin d he (hd.reaches.length_ahead_lt hys hc)

/-- Each bound is enough for as many tokens. -/
theorem placedStages (source : String) (room : Nat) :
    PlacedStages source (stageWithin room) room := by
  induction room with
  | zero =>
    -- no token is left, so that nothing is read further on
    have hend {c : Cursor} (hc : c.ahead.length ≤ 0) : c.current.kind = .endOfInput :=
      Cursor.kind_current_of_ahead_eq_nil (List.length_eq_zero_iff.1 (Nat.le_zero.1 hc))
    refine ⟨fun c hc => ?_, fun floor left origin c hleft hc => ?_⟩
    · rw [stageWithin_operand_of_endOfInput (hend hc)]
      exact advances_failUnexpected
        (fun _ => by simp [operandStart, Expectation.Admits, hend hc]) _
    · rw [stageWithin_after_of_endOfInput (hend hc)]
      exact advances_pure ⟨rfl, hleft⟩
  | succ room ih =>
    exact ⟨fun c hc => advances_operandFrom ih hc,
      fun floor left origin c hleft hc => advances_operatorsFrom ih hleft hc⟩

/-! ## Whole expressions -/

theorem advances_expression (source : String) (c : Cursor) :
    (expression c).Advances source (Fault.Holds source) c (ExpressionAt source c) :=
  advances_above (placedStages source c.room) 0 c.length_le_room

theorem advances_arguments (source : String) (c : Cursor) :
    (arguments c).Advances source (Fault.Holds source) c (ArgumentsAt source c) :=
  advances_argumentsOf c.length_le_room fun d _ => advances_expression source d

/-- The parentheses around an expression are no part of it. -/
theorem advances_parenthesized (source : String) (c : Cursor) :
    (parenthesized c).Advances source (Fault.Holds source) c fun ys e d fs =>
      fs = [] ∧ ys = word .leftParen :: (e.yield ++ [word .rightParen]) ∧
        Stretch source c [e.span] d ∧ Extents source e.nodes [] := by
  refine advances_expect_bind rfl fun d hd => advances_bind (advances_expression source d) ?_
  rintro ys e d' fs - ⟨rfl, rfl, he⟩
  refine advances_expect_bind rfl fun d'' hd' => advances_pure ⟨rfl, rfl, ?_, he.extents⟩
  exact hd.stretch.trans (he.stretch.trans hd'.stretch)

end Parse

end MiniJava
