import MiniJava.Proofs.Extents.Program
import MiniJava.Proofs.FirstError.Expression

/-!
# Where an expression stands that takes up a text

The node that stands in for an expression goes from the first token of the text to the last one that
was read. It is a span of the text as soon as one token was read, so only a text of which the first
token starts no operand can lack one: there the node ends at the start of the text.
-/

namespace MiniJava

/-- Where the first token of a text starts; in a text without any, the mark of its end. -/
def firstStart (source : String) : Nat := (startOf source).nextStart

/-- An operand may start with the first token of the text. -/
def StartsOperand (source : String) : Prop :=
  ∃ x ∈ Parse.operandStart, x.Admits (startOf source).current

namespace Parse

open Reader Reading

/-! ## The first token of an expression -/

section

variable {c : Cursor}

/-- If an operand may start here, a token is taken, whatever comes of the expression. -/
theorem length_ahead_lt_of_admits (h : ∃ x ∈ operandStart, x.Admits c.current) :
    (expression c).cursor.ahead.length < c.ahead.length := by
  obtain ⟨hk, hfrom⟩ := opens_expression.takes c h
  obtain ⟨ts, hahead⟩ := Cursor.exists_ahead_eq hk
  obtain ⟨n, hn⟩ := hfrom.cursor
  rw [hn, Cursor.drop_drop, Cursor.ahead_drop, List.length_drop, hahead, List.length_cons]
  omega

/-- If no operand starts here, nothing is taken. -/
theorem expression_of_not_admits (h : ∀ x ∈ operandStart, ¬ x.Admits c.current) :
    expression c = failUnexpected operandStart c :=
  opens_expression.refuses c h

end

/-! ## What stands in for an expression -/

variable {source : String} {F : Empty → Prop} {c : Cursor}

/-- If a token is taken, what stands in for an expression has a place in the text. -/
theorem advances_wholeExpression_of_admits (h : ∃ x ∈ operandStart, x.Admits c.current) :
    (wholeExpression c).Advances source F c fun _ e _ _ => ∀ n ∈ e.nodes, n.Placed source := by
  rw [wholeExpression, look_bind]
  refine .of_place fun hc => advances_bind (R := fun _ e _ _ => ∀ n ∈ e.nodes, n.Placed source)
    (advances_rescue_at ((advances_expression source c).mono ?_) ?_) ?_
  · rintro ys e d fs ⟨-, -, he⟩
    exact he.extents.placed
  · intro fault ys fs hfault hp
    have hlength := length_ahead_lt_of_admits h
    have hys : ys ≠ [] := by
      rintro rfl
      rw [hp.reaches.length_eq, List.length_nil] at hlength
      omega
    refine advances_report_bind (fun _ => hfault) ?_
    rw [here_bind]
    exact advances_pure (List.forall_mem_singleton.2
      ⟨List.forall_mem_singleton.2 (hp.valid_span hys), trivial⟩)
  · intro ys e d fs hp he
    exact advances_bind (advances_expectEnd source d) fun _ _ _ _ _ _ => advances_pure he

/-- If no token is taken, what stands in for an expression ends where reading started. -/
theorem advances_wholeExpression_of_not_admits (h : ∀ x ∈ operandStart, ¬ x.Admits c.current) :
    (wholeExpression c).Advances source F c fun _ e _ _ =>
      e = .error ⟨c.nextStart, c.lastStop⟩ := by
  have hexpression := expression_of_not_admits h
  rw [wholeExpression, look_bind]
  refine advances_bind (R := fun _ e _ _ => e = .error ⟨c.nextStart, c.lastStop⟩)
    (advances_rescue_at (E := Fault.Holds source) ?_ ?_) ?_
  · rw [hexpression]
    exact advances_failUnexpected (fun _ => h) _
  · rw [hexpression]
    intro fault ys fs hfault hp
    refine advances_report_bind (fun _ => hfault) ?_
    rw [here_bind]
    exact advances_pure rfl
  · rintro ys e d fs - rfl
    exact advances_bind (advances_expectEnd source d) fun _ _ _ _ _ _ => advances_pure rfl

end Parse

/-! ## Whole texts -/

/-- A text of which the first token starts no operand gives an error node that ends at 0. -/
theorem tree_parseExpression_of_not_startsOperand {source : String} (h : ¬ StartsOperand source) :
    (parseExpression source).tree = .error ⟨firstStart source, 0⟩ := by
  have hnone : ∀ x ∈ Parse.operandStart, ¬ x.Admits (startOf source).current :=
    fun x hx hadmits => h ⟨x, hx, hadmits⟩
  have hread : (Parse.wholeExpression (startOf source)).Advances source (fun _ => True)
      (startOf source) _ := Parse.advances_wholeExpression_of_not_admits hnone
  obtain ⟨-, htree⟩ := exists_post_of_advances hread
  exact htree

/--
Every span in the expression of a text is one of the text, unless the first token starts no operand
and does not start the text either. Then the expression is an error node of which the span ends at
the start of the text, before it begins.
-/
theorem parseExpression_placed_iff (source : String) :
    ((∀ n ∈ (parseExpression source).tree.nodes, n.Placed source) ↔
      StartsOperand source ∨ firstStart source = 0) ∧
    (StartsOperand source ∨ (parseExpression source).tree = .error ⟨firstStart source, 0⟩) := by
  by_cases h : StartsOperand source
  · have hread : (Parse.wholeExpression (startOf source)).Advances source (fun _ => True)
        (startOf source) _ := Parse.advances_wholeExpression_of_admits h
    obtain ⟨-, hplaced⟩ := exists_post_of_advances hread
    exact ⟨iff_of_true hplaced (.inl h), .inl h⟩
  have htree := tree_parseExpression_of_not_startsOperand h
  refine ⟨?_, .inr htree⟩
  rw [htree, Expr.nodes, List.forall_mem_singleton]
  constructor
  · intro hplaced
    have hvalid := List.forall_mem_singleton.1 hplaced.valid
    exact .inr (Nat.le_zero.1 hvalid.ordered)
  · rintro (hstarts | hzero)
    · exact absurd hstarts h
    · rw [hzero]
      refine ⟨List.forall_mem_singleton.2 ?_, trivial⟩
      have hpoint := (Cursor.of_startOf source).valid_point
      rwa [show (startOf source).nextStart = 0 from hzero] at hpoint

/-- After two blanks, a text that starts no operand gives a span from 2 back to 0. -/
theorem reversed_span_after_blanks :
    (parseExpression "  )").tree = .error ⟨2, 0⟩ ∧
      ¬ ∀ n ∈ (parseExpression "  )").tree.nodes, n.Placed "  )" := by
  have htree : (parseExpression "  )").tree = .error ⟨2, 0⟩ := by decide +kernel
  refine ⟨htree, fun hplaced => ?_⟩
  rw [htree] at hplaced
  have hvalid := List.forall_mem_singleton.1 (List.forall_mem_singleton.1 hplaced).valid
  exact absurd hvalid.ordered (by decide)

end MiniJava
