import MiniJava.Proofs.Expression.Grammar
import MiniJava.Proofs.Extents.Program
import MiniJava.Proofs.Lexing.Cutting
import MiniJava.Proofs.Program.Grammar

/-!
# Parts that are read by themselves

In a correct text the span of a node takes in what the node was read from, neither more nor less. So
the text at an expression or a statement is read by itself as the same expression or statement.
-/

namespace MiniJava

/-! ## The nodes below a node -/

namespace Node

/-- With each of the nodes, those below it are there. -/
def Closed (ns : List Node) : Prop := ∀ n ∈ ns, n.nodes ⊆ ns

namespace Closed

variable {α : Type} {n : Node} {ns ns' : List Node}

theorem nil : Closed [] := nofun

theorem cons (hn : n.nodes = n :: ns) (h : Closed ns) : Closed (n :: ns) := by
  refine List.forall_mem_cons.2 ⟨?_, fun m hm => ?_⟩
  · rw [hn]
    exact List.Subset.refl _
  · exact List.subset_cons_of_subset n (h m hm)

theorem append (h : Closed ns) (h' : Closed ns') : Closed (ns ++ ns') :=
  List.forall_mem_append.2 ⟨fun n hn => List.subset_append_of_subset_left ns' (h n hn),
    fun n hn => List.subset_append_of_subset_right ns (h' n hn)⟩

theorem flatMap {as : List α} {f : α → List Node} (h : ∀ a ∈ as, Closed (f a)) :
    Closed (as.flatMap f) := by
  intro n hn m hm
  obtain ⟨a, ha, hna⟩ := List.mem_flatMap.1 hn
  exact List.mem_flatMap.2 ⟨a, ha, h a ha n hna hm⟩

/-- Nodes with none below them. -/
theorem map {as : List α} {f : α → Node} (h : ∀ a, (f a).nodes = [f a]) : Closed (as.map f) := by
  refine List.forall_mem_map.2 fun a ha => ?_
  rw [h a, List.cons_subset]
  exact ⟨List.mem_map_of_mem ha, List.nil_subset _⟩

end Closed

end Node

open Node

mutual

theorem Expr.closed_nodes : ∀ e : Expr, Closed e.nodes
  | .integer .. | .boolean .. | .identifier .. | .this _ | .newObject .. | .error _ =>
    .cons rfl .nil
  | .newArray _ e | .length _ e | .not _ e | .paren _ e => .cons rfl e.closed_nodes
  | .index _ a i | .binary _ a _ i => .cons rfl (a.closed_nodes.append i.closed_nodes)
  | .call _ r _ es => .cons rfl (r.closed_nodes.append (Expr.closed_nodesList es))

theorem Expr.closed_nodesList : ∀ es : List Expr, Closed (Expr.nodesList es)
  | [] => .nil
  | e :: es => e.closed_nodes.append (Expr.closed_nodesList es)

end

theorem Recur.closed_nodes (r : Recur) : Closed r.nodes :=
  .cons rfl (r.condition.closed_nodes.append
    (.append (.flatMap fun e _ => e.closed_nodes) r.fallback.closed_nodes))

mutual

theorem Stmt.closed_nodes : ∀ s : Stmt, Closed s.nodes
  | .block _ ss => .cons rfl (Stmt.closed_nodesList ss)
  | .ifElse _ c t e =>
    .cons rfl (c.closed_nodes.append (t.closed_nodes.append e.closed_nodes))
  | .whileLoop _ c b => .cons rfl (c.closed_nodes.append b.closed_nodes)
  | .println _ v | .assign _ _ v => .cons rfl v.closed_nodes
  | .assignElement _ _ i v => .cons rfl (i.closed_nodes.append v.closed_nodes)
  | .recur r => .cons rfl r.closed_nodes
  | .error _ => .cons rfl .nil

theorem Stmt.closed_nodesList : ∀ ss : List Stmt, Closed (Stmt.nodesList ss)
  | [] => .nil
  | s :: ss => s.closed_nodes.append (Stmt.closed_nodesList ss)

end

theorem MethodResult.closed_nodes (r : MethodResult) : Closed r.nodes := by
  cases r with
  | returns s e => exact e.closed_nodes
  | recurs r => exact r.closed_nodes

theorem Method.closed_nodes (m : Method) : Closed m.nodes :=
  .cons rfl (.append (.map fun _ => rfl) (.append (.map fun _ => rfl)
    (.append (.flatMap fun s _ => s.closed_nodes) m.result.closed_nodes)))

theorem ClassDecl.closed_nodes (k : ClassDecl) : Closed k.nodes :=
  .cons rfl (.append (.map fun _ => rfl) (.flatMap fun m _ => m.closed_nodes))

theorem Program.closed_nodes (p : Program) : Closed p.nodes :=
  .cons rfl (p.main.body.closed_nodes.append (.flatMap fun k _ => k.closed_nodes))

/-! ## Reading a part -/

namespace Parse

open Reader Reading

theorem succeeds_wholeStatement {c : Cursor} {s : Stmt} (hs : s.Readable)
    (hc : c.Sees s.yield) :
    (wholeStatement c).Succeeds fun s' _ fs => s'.withoutSpans = s.withoutSpans ∧ fs = [] := by
  rw [← List.append_nil s.yield] at hc
  apply succeeds_bind (succeeds_recovering (succeeds_statement hs hc))
  rintro s' d fs ⟨rfl, hs', hd⟩
  have hend : atEnd d = true := decide_eq_true hd.kind_current_eq
  rw [expectEnd, bind_assoc, here_bind, if_pos hend]
  exact succeeds_pure ⟨hs', rfl⟩

end Parse

/-- A text that spells a statement is read as this statement, without faults. -/
theorem tree_parseStatement {source : String} {s : Stmt} (hs : s.Readable)
    (hy : s.yield = terminalsOf source) :
    (parseStatement source).tree.withoutSpans = s.withoutSpans ∧
      (Parse.wholeStatement (startOf source)).faults = [] := by
  have hsees := startOf_sees source
  rw [← hy] at hsees
  obtain ⟨s', hok, hspans, hfaults⟩ := Parse.succeeds_wholeStatement hs hsees
  obtain rfl : (parseStatement source).tree = s' := by
    rw [Reading.outcome_eq_ok] at hok
    exact Except.ok.inj hok
  exact ⟨hspans, hfaults⟩

/-- Cut out of a text without lexical errors, what a span goes over has the same tokens there. -/
theorem Span.Spells.slice {s : Span} {source : String} {ys : List Terminal}
    (h : s.Spells source ys) (hlexed : (tokenize source).errors = []) :
    (tokenize (s.slice source)).errors = [] ∧ terminalsOf (s.slice source) = ys := by
  obtain ⟨before, ts, after, first, last, htokens, hys, hfirst, hlast, rfl⟩ := h
  obtain ⟨hterminals, herrors⟩ := tokenize_slice htokens hfirst hlast rfl
  exact ⟨herrors hlexed, hterminals.trans hys⟩

section

variable {s : Span} {source : String}

theorem parseExpression_slice {e : Expr} (h : s.Spells source e.yield) (he : e.Readable)
    (hlexed : (tokenize source).errors = []) :
    (parseExpression (s.slice source)).diagnostics = [] ∧
      (parseExpression (s.slice source)).tree.withoutSpans = e.withoutSpans := by
  obtain ⟨herrors, hyield⟩ := h.slice hlexed
  obtain ⟨htree, hfaults⟩ := tree_parseExpression he hyield.symm
  exact ⟨diagnostics_analyze_eq_nil_iff.2 ⟨herrors, hfaults⟩, htree⟩

theorem parseStatement_slice {t : Stmt} (h : s.Spells source t.yield) (ht : t.Readable)
    (hlexed : (tokenize source).errors = []) :
    (parseStatement (s.slice source)).diagnostics = [] ∧
      (parseStatement (s.slice source)).tree.withoutSpans = t.withoutSpans := by
  obtain ⟨herrors, hyield⟩ := h.slice hlexed
  obtain ⟨htree, hfaults⟩ := tree_parseStatement ht hyield.symm
  exact ⟨diagnostics_analyze_eq_nil_iff.2 ⟨herrors, hfaults⟩, htree⟩

end

/-! ## All parts of a text -/

/-- The text at the node, read by itself, is the same expression or statement up to spans. -/
def Node.ReadsBack (source : String) : Node → Prop
  | expr e => (parseExpression (e.span.slice source)).diagnostics = [] ∧
      (parseExpression (e.span.slice source)).tree.withoutSpans = e.withoutSpans
  | stmt s => (parseStatement (s.span.slice source)).diagnostics = [] ∧
      (parseStatement (s.span.slice source)).tree.withoutSpans = s.withoutSpans
  | recur r => (parseStatement (r.span.slice source)).diagnostics = [] ∧
      (parseStatement (r.span.slice source)).tree.withoutSpans = (Stmt.recur r).withoutSpans
  | program _ | classDecl _ | method _ | var _ | param _ => True

theorem Node.readsBack_of_exact {n : Node} {source : String} (h : n.Exact source)
    (hread : ∀ m ∈ n.nodes, m.Readable) (hlexed : (tokenize source).errors = []) :
    n.ReadsBack source := by
  cases n with
  | expr e =>
    exact parseExpression_slice (h (e.span, e.yield) List.mem_cons_self) hread hlexed
  | stmt s =>
    exact parseStatement_slice (h (s.span, s.yield) List.mem_cons_self) hread hlexed
  | recur r =>
    have hrecur : (Stmt.recur r).Readable := List.forall_mem_cons.2 ⟨⟨trivial, id⟩, hread⟩
    exact parseStatement_slice (h (r.span, r.yield) List.mem_cons_self) hrecur hlexed
  | program _ | classDecl _ | method _ | var _ | param _ => trivial

/--
If nothing is wrong with a text, then the spans at each node go from the first to the last token of
what stands there, the text cut out there has these tokens again, and every expression and every
statement is read from it by itself.
-/
theorem parse_nodes_read_back {source : String} (h : (parse source).diagnostics = []) :
    ∀ n ∈ (parse source).tree.nodes, n.Exact source ∧
      (∀ x ∈ n.extents, (tokenize (x.1.slice source)).errors = [] ∧
        terminalsOf (x.1.slice source) = x.2) ∧
      n.ReadsBack source := by
  obtain ⟨hlexed, hfaults⟩ := diagnostics_analyze_eq_nil_iff.1 h
  obtain ⟨-, hextents⟩ := exists_post_of_advances
    (Parse.advances_program (ε := Empty) (E := fun _ => True) source (startOf source))
  obtain ⟨hwell, -⟩ := wellFormed_of_faults_program hfaults
  intro n hn
  have hexact := hextents.exact hfaults n hn
  refine ⟨hexact, fun x hx => (hexact x hx).slice hlexed,
    Node.readsBack_of_exact hexact (fun m hm => ?_) hlexed⟩
  exact (hwell m ((parse source).tree.closed_nodes n hn hm)).readable

/-- A comment between the operands belongs to the text of an expression. -/
theorem parse_nodes_read_back_commented :
    let source := "class M \x7b public static void main(String[] a) \x7b " ++
      "System.out.println(a /* one */ + 1 * 2); \x7d \x7d"
    ∃ n ∈ (parse source).tree.nodes, ∃ x ∈ n.extents, x.1.slice source = "a /* one */ + 1 * 2" ∧
      n.Exact source ∧ terminalsOf (x.1.slice source) = x.2 ∧ n.ReadsBack source := by
  intro source
  have hclean : (parse source).diagnostics = [] :=
    diagnostics_analyze_eq_nil_iff.2 (by decide +kernel)
  obtain ⟨n, hn, x, hx, hslice⟩ : ∃ n ∈ (parse source).tree.nodes, ∃ x ∈ n.extents,
      x.1.slice source = "a /* one */ + 1 * 2" := by
    decide +kernel
  obtain ⟨hexact, hscanned, hread⟩ := parse_nodes_read_back hclean n hn
  exact ⟨n, hn, x, hx, hslice, hexact, (hscanned x hx).2, hread⟩

end MiniJava
