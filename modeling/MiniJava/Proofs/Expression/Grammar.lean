import MiniJava.Proofs.Expression.Derivation
import MiniJava.Proofs.Reading.Analysis

/-!
# The grammar of expressions

Reading by binding powers accepts the texts that the stratified grammar derives, and gives the tree
of the one derivation that there is.
-/

namespace MiniJava

namespace Parse

open Reader Reading

variable {c : Cursor}

theorem ensures_expectEnd (c : Cursor) :
    (expectEnd c).Ensures c fun ys _ d fs => fs = [] → ys = [] ∧ d.ahead = [] := by
  intro hreg
  rw [expectEnd, here_bind]
  cases hend : atEnd c with
  | true =>
    have hnil : c.ahead = [] := hreg.ahead_eq_nil (of_decide_eq_true hend)
    exact ensures_pure (R := fun ys _ d fs => fs = [] → ys = [] ∧ d.ahead = [])
      (fun _ => ⟨rfl, hnil⟩) hreg
  | false =>
    rw [if_neg Bool.false_ne_true, look_bind]
    exact ensures_report (R := fun ys _ d fs => fs = [] → ys = [] ∧ d.ahead = []) nofun hreg

theorem ensures_wholeExpression (c : Cursor) :
    (wholeExpression c).Ensures c fun ys e d fs =>
      fs = [] → ys = e.yield ∧ e.Readable ∧ d.ahead = [] := by
  rw [wholeExpression, look_bind]
  refine ensures_bind (R := fun ys e _ fs => fs = [] → ys = e.yield ∧ e.Readable)
    (ensures_rescue ((ensures_expression c).mono ?_) fun fault ys d fs _ => ?_) ?_
  · rintro ys e d fs ⟨-, rfl, he⟩ -
    exact ⟨rfl, fun n hn => (he n hn).readable⟩
  · refine ensures_bind (R := fun _ _ _ fs => fs ≠ []) (ensures_report (by simp)) ?_
    intro _ _ d gs _ hgs
    rw [here_bind]
    exact ensures_pure (by simp [hgs])
  · intro ys e d fs _ he
    refine ensures_bind (ensures_expectEnd d) fun zs _ d' gs _ hend => ensures_pure fun hnil => ?_
    obtain ⟨hf, hnil⟩ := List.append_eq_nil_iff.1 hnil
    obtain ⟨hg, -⟩ := List.append_eq_nil_iff.1 hnil
    obtain ⟨rfl, hreadable⟩ := he hf
    obtain ⟨rfl, hahead⟩ := hend hg
    exact ⟨by simp, hreadable, hahead⟩

theorem succeeds_wholeExpression {e : Expr} (he : e.Readable) (hc : c.Sees e.yield) :
    (wholeExpression c).Succeeds fun e' _ fs => e'.withoutSpans = e.withoutSpans ∧ fs = [] := by
  rw [← List.append_nil e.yield] at hc
  rw [wholeExpression, look_bind]
  apply succeeds_bind (succeeds_rescue (succeeds_expression he rfl hc))
  rintro e' d fs ⟨rfl, he', hd⟩
  have hend : atEnd d = true := decide_eq_true hd.kind_current_eq
  rw [expectEnd, bind_assoc, here_bind, if_pos hend]
  exact succeeds_pure ⟨he', rfl⟩

end Parse

/-- A text that derives an expression is read as its tree, without faults. -/
theorem tree_parseExpression {source : String} {e : Expr} (he : e.Readable)
    (hy : e.yield = terminalsOf source) :
    (parseExpression source).tree.withoutSpans = e.withoutSpans ∧
      (Parse.wholeExpression (startOf source)).faults = [] := by
  have hsees := startOf_sees source
  rw [← hy] at hsees
  obtain ⟨e', hok, hspans, hfaults⟩ := Parse.succeeds_wholeExpression he hsees
  obtain rfl : (parseExpression source).tree = e' := by
    rw [Reading.outcome_eq_ok] at hok
    exact Except.ok.inj hok
  exact ⟨hspans, hfaults⟩

/-- An expression that is read without faults is grouped, and no token is lost. -/
theorem yield_parseExpression {source : String}
    (h : (Parse.wholeExpression (startOf source)).faults = []) :
    (parseExpression source).tree.Readable ∧
      (parseExpression source).tree.yield = terminalsOf source := by
  obtain ⟨ys, hreach, hread⟩ :=
    Parse.ensures_wholeExpression (startOf source) (startOf_regular source)
  obtain ⟨rfl, he, hend⟩ := hread _ (Reading.outcome_eq_ok _) h
  exact ⟨he, terminalsOf_of_reaches hreach hend⟩

namespace Derivation

mutual

theorem withoutSpans_tree : ∀ {l : Level} (d : Derivation l), d.tree.withoutSpans = d.tree
  | _, and l r | _, less l r | _, plus l r | _, minus l r | _, times l r => by
    rw [tree, Expr.withoutSpans, withoutSpans_tree l, withoutSpans_tree r]
  | _, ofLess d | _, ofSum d | _, ofProd d | _, ofPost d | _, ofPrim d => withoutSpans_tree d
  | _, index a i => by
    rw [tree, Expr.withoutSpans, withoutSpans_tree a, withoutSpans_tree i]
  | _, call r m as => by
    rw [tree, Expr.withoutSpans, withoutSpans_tree r, withoutSpansList_treeList as]
  | _, length d | _, not d | _, newArray d | _, paren d => by
    rw [tree, Expr.withoutSpans, withoutSpans_tree d]
  | _, boolean _ | _, integer _ | _, identifier _ | _, this | _, newObject _ => rfl

theorem withoutSpansList_treeList :
    ∀ ds : List (Derivation .and), Expr.withoutSpansList (treeList ds) = treeList ds
  | [] => rfl
  | d :: ds => by
    rw [treeList, Expr.withoutSpansList, withoutSpans_tree d, withoutSpansList_treeList ds]

end

end Derivation

/--
Reading an expression by binding powers accepts the texts that the stratified grammar derives. An
accepted text has one derivation, and its tree is what is read.
-/
theorem parseExpression_accepts_iff (source : String) :
    ((parseExpression source).diagnostics = [] ↔ (tokenize source).errors = [] ∧
      ∃ d : Derivation .and, d.yield = terminalsOf source) ∧
    ((parseExpression source).diagnostics = [] → ∃ d : Derivation .and,
      d.yield = terminalsOf source ∧
      (∀ d' : Derivation .and, d'.yield = terminalsOf source → d' = d) ∧
      (parseExpression source).tree.withoutSpans = d.tree) := by
  have hread : ∀ d : Derivation .and, d.yield = terminalsOf source →
      (parseExpression source).tree.withoutSpans = d.tree ∧
        (Parse.wholeExpression (startOf source)).faults = [] := by
    intro d hd
    rw [← d.yield_tree] at hd
    rw [← d.withoutSpans_tree]
    exact tree_parseExpression d.readable_tree hd
  have hderived : (Parse.wholeExpression (startOf source)).faults = [] →
      ∃ d : Derivation .and, d.yield = terminalsOf source := by
    intro hf
    obtain ⟨he, hy⟩ := yield_parseExpression hf
    obtain ⟨d, hd⟩ := Derivation.derived _ he .and (Derivation.floor_and_le _)
    refine ⟨d, ?_⟩
    rw [← d.yield_tree, hd, Expr.yield_withoutSpans, hy]
  rw [parseExpression, diagnostics_analyze_eq_nil_iff]
  refine ⟨⟨fun ⟨hlex, hf⟩ => ⟨hlex, hderived hf⟩, fun ⟨hlex, d, hd⟩ => ⟨hlex, (hread d hd).2⟩⟩,
    fun ⟨_, hf⟩ => ?_⟩
  obtain ⟨d, hd⟩ := hderived hf
  refine ⟨d, hd, fun d' hd' => ?_, (hread d hd).1⟩
  exact d'.tree_injective d ((hread d' hd').1.symm.trans (hread d hd).1)

end MiniJava
