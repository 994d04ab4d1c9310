import MiniJava.Proofs.Expression.Regrouping
import MiniJava.Proofs.Extents.Reparsing
import MiniJava.Proofs.Printing.AddedPairs
import MiniJava.Proofs.Printing.Ruled
import MiniJava.Proofs.Printing.Spans
import MiniJava.Proofs.Printing.Spelling

/-!
# No parentheses too many

A text that lacks one pair of the parentheses that were put in is read as well, but as another
expression. Trees that were read need no parentheses to be put in.
-/

namespace MiniJava

/-! ## Text on one line -/

namespace Piece

variable {level : Nat} {ps qs : List Piece}

/-- The text of a row of pieces. -/
def row (ps : List Piece) : String := (Printer.empty.putAll ps).text

theorem toList_row (ps : List Piece) : (row ps).toList = render 0 ps := by
  rw [row, toList_text_putAll]
  rfl

theorem render_append (h : ∀ p ∈ ps, p.isInline) :
    render level (ps ++ qs) = render level ps ++ render level qs := by
  induction ps with
  | nil => rfl
  | cons p ps ih =>
    obtain ⟨hp, hps⟩ := List.forall_mem_cons.1 h
    have hlevel : p.levelAfter level = level := by cases p <;> first | rfl | cases hp
    rw [List.cons_append, render, render, hlevel, ih hps, List.append_assoc]

theorem row_append (h : ∀ p ∈ ps, p.isInline) : row (ps ++ qs) = row ps ++ row qs := by
  rw [← String.toList_inj, String.toList_append, toList_row, toList_row, toList_row,
    render_append h]

end Piece

open Piece

namespace Pair

variable {p : Pair} {e e' : Expr}

/-- The text with the pair of parentheses. -/
def closedText (p : Pair) : String := row p.before ++ "(" ++ row p.inside ++ ")" ++ row p.after

/-- The text without the pair of parentheses. -/
def openedText (p : Pair) : String := row p.before ++ row p.inside ++ row p.after

theorem Opens.inline (h : p.Opens e e') :
    (∀ q ∈ p.before, q.isInline) ∧ (∀ q ∈ p.inside, q.isInline) := by
  have hall := e'.isInline_spell
  rw [← h.opened, Pair.opened] at hall
  obtain ⟨hall, -⟩ := List.forall_mem_append.1 hall
  exact List.forall_mem_append.1 hall

theorem Opens.closedText_eq (h : p.Opens e e') : p.closedText = e.print := by
  obtain ⟨hbefore, hinside⟩ := h.inline
  have hprint : e.print = row p.closed := by rw [h.closed]; rfl
  have hleft : ∀ q ∈ [word .leftParen], q.isInline := by decide
  have hpair : ∀ q ∈ [word .leftParen] ++ p.inside ++ [word .rightParen], q.isInline :=
    List.forall_mem_append.2 ⟨List.forall_mem_append.2 ⟨hleft, hinside⟩, by decide⟩
  rw [hprint, Pair.closed, row_append (List.forall_mem_append.2 ⟨hbefore, hpair⟩),
    row_append hbefore, row_append (List.forall_mem_append.2 ⟨hleft, hinside⟩), row_append hleft,
    ← String.append_assoc, ← String.append_assoc]
  rfl

theorem Opens.openedText_eq (h : p.Opens e e') : p.openedText = row e'.spell := by
  obtain ⟨hbefore, hinside⟩ := h.inline
  rw [← h.opened, Pair.opened, row_append (List.forall_mem_append.2 ⟨hbefore, hinside⟩),
    row_append hbefore, openedText]

end Pair

/-! ## Reading a row of pieces -/

theorem Expr.scans_spell {e : Expr} (he : ∀ n ∈ e.nodes, n.Spellable) :
    Scans (row e.spell).toList e.yield := by
  have hj : Joined (e.spell ++ []) := e.joined_spell he .nil trivial
  rw [List.append_nil] at hj
  rw [toList_row, ← e.terminals_spell]
  exact scans_render hj 0

/-- A tree that can be printed is read back as it is spelled, in some grouping. -/
theorem Expr.parseExpression_row_spell {e : Expr} (he : ∀ n ∈ e.nodes, n.Spellable) :
    (parseExpression (row e.spell)).diagnostics = [] ∧
      (parseExpression (row e.spell)).tree.Readable ∧
      (parseExpression (row e.spell)).tree.yield = e.yield := by
  have hscans := Expr.scans_spell he
  have hterms : terminalsOf (row e.spell) = e.yield := by
    rw [terminalsOf, terminals_tokenize]
    exact hscans.terminals
  obtain ⟨d, hd, hy⟩ := e.formExpression_yield fun n hn => (he n hn).noError
  have hfaults := (tree_parseExpression hd (hy.trans hterms.symm)).2
  refine ⟨diagnostics_analyze_eq_nil_iff.2 ⟨?_, hfaults⟩, ?_⟩
  · exact (errors_tokenize _).2 hscans.noFault
  · rw [← hterms]
    exact yield_parseExpression hfaults

/-! ## Nodes up to spans -/

theorem Node.grouped_withoutSpans (e : Expr) :
    (Node.expr e.withoutSpans).Grouped ↔ (Node.expr e).Grouped := by
  cases e <;> simp [Expr.withoutSpans, Node.Grouped, Expr.strength_withoutSpans]

mutual

/-- Whether a tree is grouped does not depend on where it stands. -/
theorem Expr.grouped_nodes_withoutSpans : ∀ e : Expr,
    (∀ n ∈ e.withoutSpans.nodes, n.Grouped) ↔ ∀ n ∈ e.nodes, n.Grouped
  | .integer .. | .boolean .. | .identifier .. | .this _ | .newObject .. | .error _ =>
    iff_of_true (List.forall_mem_singleton.2 trivial) (List.forall_mem_singleton.2 trivial)
  | .newArray s e | .length s e | .not s e | .paren s e => by
    rw [Expr.nodes, List.forall_mem_cons, ← Node.grouped_withoutSpans, Expr.withoutSpans,
      Expr.nodes, List.forall_mem_cons, e.grouped_nodes_withoutSpans]
  | .index _ a i | .binary _ a _ i => by
    rw [Expr.nodes, List.forall_mem_cons, ← Node.grouped_withoutSpans, Expr.withoutSpans,
      Expr.nodes, List.forall_mem_cons, List.forall_mem_append, List.forall_mem_append,
      a.grouped_nodes_withoutSpans, i.grouped_nodes_withoutSpans]
  | .call _ r _ as => by
    rw [Expr.nodes, List.forall_mem_cons, ← Node.grouped_withoutSpans, Expr.withoutSpans,
      Expr.nodes, List.forall_mem_cons, List.forall_mem_append, List.forall_mem_append,
      r.grouped_nodes_withoutSpans, Expr.grouped_nodesList_withoutSpansList as]

theorem Expr.grouped_nodesList_withoutSpansList : ∀ es : List Expr,
    (∀ n ∈ Expr.nodesList (Expr.withoutSpansList es), n.Grouped) ↔
      ∀ n ∈ Expr.nodesList es, n.Grouped
  | [] => Iff.rfl
  | e :: es => by
    rw [Expr.withoutSpansList, Expr.nodesList, Expr.nodesList, List.forall_mem_append,
      List.forall_mem_append, e.grouped_nodes_withoutSpans,
      Expr.grouped_nodesList_withoutSpansList es]

end

/-- Without one of its pairs of parentheses a tree is read as another one. -/
theorem Pair.Opens.bare_tree_ne {p : Pair} {e e' : Expr} (h : p.Opens e e')
    (he : ∀ n ∈ e.nodes, n.Spellable) :
    (parseExpression p.openedText).tree.bare ≠ e.bare := by
  intro hbare
  obtain ⟨-, hread, hyield⟩ := Expr.parseExpression_row_spell (h.spellable he)
  rw [← h.openedText_eq] at hread hyield
  have hsame := Expr.withoutSpans_eq_of_yield_eq _ e' (hbare.trans h.bare.symm) hyield
  obtain ⟨n, hn, hloose⟩ := h.loose
  refine hloose ((e'.grouped_nodes_withoutSpans.1 ?_) n hn)
  rw [← hsame]
  exact (Expr.grouped_nodes_withoutSpans _).2 fun n hn => (hread n hn).grouped

/-! ## Trees that were read -/

namespace Parse

open Reader Reading

theorem ensures_program_grouped {ε : Type} (c : Cursor) :
    ((program : Reader ε Program) c).Ensures c fun _ p _ _ => ∀ n ∈ p.nodes, n.Grouped := by
  rw [program, look_bind]
  refine ensures_bind (ensures_mainClassRecovering c) fun _ m d _ _ hm => ?_
  refine ensures_bind (ensures_classes d) fun _ ks _ _ _ hks => ?_
  rw [spanFrom_bind]
  refine ensures_pure (List.forall_mem_cons.2 ⟨trivial, List.forall_mem_append.2 ⟨?_, ?_⟩⟩)
  · exact fun n hn => (hm.1.proper n hn).grouped
  · exact fun n hn => (hks.1.proper n hn).grouped

theorem ensures_wholeStatement_grouped (c : Cursor) :
    (wholeStatement c).Ensures c fun _ s _ _ => ∀ n ∈ s.nodes, n.Grouped := by
  refine ensures_bind (ensures_recovering ensures_statement c) fun _ s d _ _ hs => ?_
  refine ensures_bind (ensures_expectEnd d) fun _ _ _ _ _ _ => ensures_pure fun n hn => ?_
  exact (hs.proper n hn).grouped

theorem ensures_wholeExpression_grouped (c : Cursor) :
    (wholeExpression c).Ensures c fun _ e _ _ => ∀ n ∈ e.nodes, n.Grouped := by
  rw [wholeExpression, look_bind]
  refine ensures_bind (R := fun _ e _ _ => ∀ n ∈ e.nodes, n.Grouped)
    (ensures_rescue ((ensures_expression c).mono ?_) fun fault _ d _ _ => ?_) ?_
  · rintro _ _ _ _ ⟨-, -, he⟩ n hn
    exact (he n hn).grouped
  · refine ensures_bind (R := fun _ _ _ _ => True) (ensures_report trivial) ?_
    intro _ _ _ _ _ _
    rw [here_bind]
    exact ensures_pure (List.forall_mem_singleton.2 trivial)
  · intro _ e d _ _ he
    exact ensures_bind (ensures_expectEnd d) fun _ _ _ _ _ _ => ensures_pure he

end Parse

/-- Where every operand holds together tightly enough, no pairs are put in. -/
theorem Expr.addedPairs_eq_nil {e : Expr} (h : ∀ n ∈ e.nodes, n.Grouped) : e.addedPairs = [] := by
  have hcount := e.parens_grouped
  rw [e.grouped_eq_self h] at hcount
  exact List.length_eq_zero_iff.1 (by omega)

theorem Expr.print_eq_row {e : Expr} (h : ∀ n ∈ e.nodes, n.Grouped) : e.print = row e.spell := by
  have hprint : e.print = row e.grouped.spell := rfl
  rw [hprint, e.grouped_eq_self h]

theorem Expr.mem_nodes_self (e : Expr) : .expr e ∈ e.nodes := by
  cases e <;> exact List.mem_cons_self

/-- The expressions among the nodes that are read are grouped through and through. -/
theorem grouped_of_read {source : String} {e : Expr}
    (h : .expr e ∈ (parse source).tree.nodes ∨ .expr e ∈ (parseStatement source).tree.nodes ∨
      .expr e ∈ (parseExpression source).tree.nodes) : ∀ n ∈ e.nodes, n.Grouped := by
  intro n hn
  rcases h with h | h | h
  · exact (Parse.ensures_program_grouped _).tree n (Program.closed_nodes _ _ h hn)
  · exact (Parse.ensures_wholeStatement_grouped _).tree n (Stmt.closed_nodes _ _ h hn)
  · exact (Parse.ensures_wholeExpression_grouped _).tree n (Expr.closed_nodes _ _ h hn)

/--
An expression that can be printed gets the pairs of parentheses that are listed and no others. Each
of them is needed: the text without it is read without a diagnostic, but as an expression that is
another one even if no parentheses are looked at. An expression that was read, whatever was
reported of the text, is printed just as it is.
-/
theorem print_minimal :
    (∀ e : Expr, (∀ n ∈ e.nodes, n.Spellable) →
      e.grouped.parens = e.parens + e.addedPairs.length ∧ Pair.Ordered e.addedPairs ∧
      ∀ p ∈ e.addedPairs, p.closedText = e.print ∧
        (parseExpression p.openedText).diagnostics = [] ∧
        (parseExpression p.openedText).tree.bare ≠ e.bare) ∧
    ∀ (source : String) (e : Expr),
      .expr e ∈ (parse source).tree.nodes ∨ .expr e ∈ (parseStatement source).tree.nodes ∨
        .expr e ∈ (parseExpression source).tree.nodes →
      e.addedPairs = [] ∧ e.print = row e.spell := by
  refine ⟨fun e he => ⟨e.parens_grouped, e.ordered_addedPairs, fun p hp => ?_⟩, ?_⟩
  · obtain ⟨e', hopens⟩ := e.exists_opens p hp
    have hclean := (Expr.parseExpression_row_spell (hopens.spellable he)).1
    rw [← hopens.openedText_eq] at hclean
    exact ⟨hopens.closedText_eq, hclean, hopens.bare_tree_ne he⟩
  · intro source e he
    have hgrouped := grouped_of_read he
    exact ⟨Expr.addedPairs_eq_nil hgrouped, Expr.print_eq_row hgrouped⟩

/-- A negated length times a sum. -/
def negatedTimesSum : Expr :=
  let at0 := Span.nowhere
  let negated := Expr.not at0 (.length at0 (.identifier at0 "a"))
  .binary at0 negated .times (.binary at0 (.integer at0 1) .plus (.identifier at0 "b"))

theorem print_minimal_negatedTimesSum :
    (∀ n ∈ negatedTimesSum.nodes, n.Spellable) ∧
    negatedTimesSum.print = "!(a.length) * (1 + b)" ∧
    negatedTimesSum.addedPairs.map Pair.openedText =
      ["!a.length * (1 + b)", "!(a.length) * 1 + b"] ∧
    (∀ p ∈ negatedTimesSum.addedPairs,
      (parseExpression p.openedText).tree.bare ≠ negatedTimesSum.bare) ∧
    (parseExpression "(1 + b) * 2").tree.addedPairs = [] :=
  have hspell : ∀ n ∈ negatedTimesSum.nodes, n.Spellable := by decide +kernel
  have ⟨_, _, hpairs⟩ := print_minimal.1 negatedTimesSum hspell
  have hread := (parseExpression "(1 + b) * 2").tree.mem_nodes_self
  have hnone := print_minimal.2 "(1 + b) * 2" _ (.inr (.inr hread))
  ⟨hspell, by decide +kernel, by decide +kernel, fun p hp => (hpairs p hp).2.2, hnone.1⟩

end MiniJava
