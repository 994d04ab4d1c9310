import MiniJava.Proofs.Grammar.Nodes
import MiniJava.Parsing.Statement
import MiniJava.Tree.Replace
import MiniJava.Tree.Spans

/-!
# The `recur` statements of a tree

The parser gathers them method by method. They are the nodes of the tree that are statements of
this form, in the order of the text.
-/

namespace MiniJava

/-- The `recur` that stands as a statement at a node. -/
def Node.recurStatement? : Node → Option Recur
  | stmt (.recur r) => some r
  | _ => none

theorem Node.recurStatement?_eq_none_iff (n : Node) :
    n.recurStatement? = none ↔ ¬ n.IsRecurStatement := by
  cases n with
  | stmt s => cases s <;> simp [recurStatement?, IsRecurStatement]
  | _ => simp [recurStatement?, IsRecurStatement]

/-- The `recur` statements among some nodes. -/
def recurStatements (ns : List Node) : List Recur := ns.filterMap Node.recurStatement?

theorem recurStatements_append (ns ns' : List Node) :
    recurStatements (ns ++ ns') = recurStatements ns ++ recurStatements ns' :=
  List.filterMap_append

theorem recurStatements_eq_nil_iff (ns : List Node) :
    recurStatements ns = [] ↔ ∀ n ∈ ns, ¬ n.IsRecurStatement := by
  simp [recurStatements, Node.recurStatement?_eq_none_iff]

theorem recurStatements_map {α : Type} {f : α → Node} (h : ∀ a, (f a).recurStatement? = none)
    (as : List α) : recurStatements (as.map f) = [] := by
  simp [recurStatements, h]

theorem recurStatements_flatMap {α : Type} (nodes : α → List Node) (as : List α) :
    recurStatements (as.flatMap nodes) = as.flatMap fun a => recurStatements (nodes a) := by
  induction as with
  | nil => rfl
  | cons a as ih => rw [List.flatMap_cons, recurStatements_append, ih, List.flatMap_cons]

mutual

/-- No part of an expression is a statement. -/
theorem Expr.recurStatements_nodes : ∀ e : Expr, recurStatements e.nodes = []
  | .integer .. | .boolean .. | .identifier .. | .this .. | .newObject .. | .error .. => rfl
  | .newArray _ e | .length _ e | .not _ e | .paren _ e => e.recurStatements_nodes
  | .index _ a i => by
    rw [Expr.nodes, ← List.singleton_append, recurStatements_append, recurStatements_append,
      a.recurStatements_nodes, i.recurStatements_nodes]
    rfl
  | .call _ r _ as => by
    rw [Expr.nodes, ← List.singleton_append, recurStatements_append, recurStatements_append,
      r.recurStatements_nodes, Expr.recurStatements_nodesList as]
    rfl
  | .binary _ l _ r => by
    rw [Expr.nodes, ← List.singleton_append, recurStatements_append, recurStatements_append,
      l.recurStatements_nodes, r.recurStatements_nodes]
    rfl

theorem Expr.recurStatements_nodesList :
    ∀ es : List Expr, recurStatements (Expr.nodesList es) = []
  | [] => rfl
  | e :: es => by
    rw [Expr.nodesList, recurStatements_append, e.recurStatements_nodes,
      Expr.recurStatements_nodesList es]
    rfl

end

theorem Recur.recurStatements_nodes (r : Recur) : recurStatements r.nodes = [] := by
  rw [Recur.nodes, ← Expr.nodesList_eq, ← List.singleton_append, recurStatements_append,
    recurStatements_append, recurStatements_append, r.condition.recurStatements_nodes,
    Expr.recurStatements_nodesList, r.fallback.recurStatements_nodes]
  rfl

mutual

theorem Stmt.recurStatements_nodes : ∀ s : Stmt, recurStatements s.nodes = s.recurs
  | .block _ ss => Stmt.recurStatements_nodesList ss
  | .ifElse _ c t e => by
    rw [Stmt.nodes, ← List.singleton_append, recurStatements_append, recurStatements_append,
      recurStatements_append, c.recurStatements_nodes, t.recurStatements_nodes,
      e.recurStatements_nodes]
    rfl
  | .whileLoop _ c b => by
    rw [Stmt.nodes, ← List.singleton_append, recurStatements_append, recurStatements_append,
      c.recurStatements_nodes, b.recurStatements_nodes]
    rfl
  | .println _ e | .assign _ _ e => e.recurStatements_nodes
  | .assignElement _ _ i e => by
    rw [Stmt.nodes, ← List.singleton_append, recurStatements_append, recurStatements_append,
      i.recurStatements_nodes, e.recurStatements_nodes]
    rfl
  | .recur r => by
    rw [Stmt.nodes, ← List.singleton_append, recurStatements_append, r.recurStatements_nodes]
    rfl
  | .error _ => rfl

theorem Stmt.recurStatements_nodesList :
    ∀ ss : List Stmt, recurStatements (Stmt.nodesList ss) = Stmt.recursList ss
  | [] => rfl
  | s :: ss => by
    rw [Stmt.nodesList, recurStatements_append, s.recurStatements_nodes,
      Stmt.recurStatements_nodesList ss]
    rfl

end

/-- The `recur` statements of a method. -/
def Method.recurs (m : Method) : List Recur := Stmt.recursList m.body

/-- The `recur` statements of a class. -/
def ClassDecl.recurs (c : ClassDecl) : List Recur := c.methods.flatMap Method.recurs

/-- The `recur` statements of a program. -/
def Program.recurs (p : Program) : List Recur :=
  p.main.body.recurs ++ p.classes.flatMap ClassDecl.recurs

theorem MethodResult.recurStatements_nodes (r : MethodResult) : recurStatements r.nodes = [] := by
  cases r with
  | returns _ e => exact e.recurStatements_nodes
  | recurs r => exact r.recurStatements_nodes

theorem Method.recurStatements_nodes (m : Method) : recurStatements m.nodes = m.recurs := by
  rw [Method.nodes, ← List.singleton_append, recurStatements_append, recurStatements_append,
    recurStatements_append, recurStatements_append, recurStatements_map fun _ => rfl,
    recurStatements_map fun _ => rfl, ← Stmt.nodesList_eq, Stmt.recurStatements_nodesList,
    m.result.recurStatements_nodes, List.append_nil]
  rfl

theorem ClassDecl.recurStatements_nodes (c : ClassDecl) : recurStatements c.nodes = c.recurs := by
  rw [ClassDecl.nodes, ← List.singleton_append, recurStatements_append, recurStatements_append,
    recurStatements_map fun _ => rfl, recurStatements_flatMap]
  simp only [Method.recurStatements_nodes]
  rfl

theorem Program.recurStatements_nodes (p : Program) : recurStatements p.nodes = p.recurs := by
  rw [Program.nodes, ← List.singleton_append, recurStatements_append, recurStatements_append,
    p.main.body.recurStatements_nodes, recurStatements_flatMap]
  simp only [ClassDecl.recurStatements_nodes]
  rfl

/-! ## Replaced expressions -/

section Replacing

variable (f : Expr → Expr)

mutual

theorem Stmt.recurs_mapExprs :
    ∀ s : Stmt, (s.mapExprs f).recurs = s.recurs.map (Recur.mapExprs f)
  | .block _ ss => Stmt.recursList_mapExprsList ss
  | .ifElse _ _ t e => by
    rw [Stmt.mapExprs, Stmt.recurs, t.recurs_mapExprs, e.recurs_mapExprs, Stmt.recurs,
      List.map_append]
  | .whileLoop _ _ b => b.recurs_mapExprs
  | .println .. | .assign .. | .assignElement .. | .recur .. | .error .. => rfl

theorem Stmt.recursList_mapExprsList : ∀ ss : List Stmt,
    Stmt.recursList (Stmt.mapExprsList f ss) = (Stmt.recursList ss).map (Recur.mapExprs f)
  | [] => rfl
  | s :: ss => by
    rw [Stmt.mapExprsList, Stmt.recursList, s.recurs_mapExprs, Stmt.recursList_mapExprsList ss,
      Stmt.recursList, List.map_append]

end

theorem Method.recurs_mapExprs (m : Method) :
    (m.mapExprs f).recurs = m.recurs.map (Recur.mapExprs f) := by
  rw [Method.recurs, Method.mapExprs, ← Stmt.mapExprsList_eq]
  exact Stmt.recursList_mapExprsList f m.body

theorem ClassDecl.recurs_mapExprs (c : ClassDecl) :
    (c.mapExprs f).recurs = c.recurs.map (Recur.mapExprs f) := by
  simp [ClassDecl.recurs, ClassDecl.mapExprs, List.flatMap_map, List.map_flatMap,
    Method.recurs_mapExprs]

theorem Program.recurs_mapExprs (p : Program) :
    (p.mapExprs f).recurs = p.recurs.map (Recur.mapExprs f) := by
  simp [Program.recurs, Program.mapExprs, MainClass.mapExprs, List.flatMap_map, List.map_flatMap,
    Stmt.recurs_mapExprs, ClassDecl.recurs_mapExprs]

end Replacing

/-! ## Up to spans -/

mutual

theorem Stmt.recurs_withoutSpans :
    ∀ s : Stmt, s.withoutSpans.recurs = s.recurs.map Recur.withoutSpans
  | .block _ ss => Stmt.recursList_withoutSpansList ss
  | .ifElse _ _ t e => by
    rw [Stmt.withoutSpans, Stmt.recurs, t.recurs_withoutSpans, e.recurs_withoutSpans,
      Stmt.recurs, List.map_append]
  | .whileLoop _ _ b => b.recurs_withoutSpans
  | .println .. | .assign .. | .assignElement .. | .recur .. | .error .. => rfl

theorem Stmt.recursList_withoutSpansList : ∀ ss : List Stmt,
    Stmt.recursList (Stmt.withoutSpansList ss) = (Stmt.recursList ss).map Recur.withoutSpans
  | [] => rfl
  | s :: ss => by
    rw [Stmt.withoutSpansList, Stmt.recursList, s.recurs_withoutSpans,
      Stmt.recursList_withoutSpansList ss, Stmt.recursList, List.map_append]

end

theorem Method.recurs_withoutSpans (m : Method) :
    m.withoutSpans.recurs = m.recurs.map Recur.withoutSpans := by
  rw [Method.recurs, Method.withoutSpans, ← Stmt.withoutSpansList_eq]
  exact Stmt.recursList_withoutSpansList m.body

theorem ClassDecl.recurs_withoutSpans (c : ClassDecl) :
    c.withoutSpans.recurs = c.recurs.map Recur.withoutSpans := by
  simp [ClassDecl.recurs, ClassDecl.withoutSpans, List.flatMap_map, List.map_flatMap,
    Method.recurs_withoutSpans]

theorem Program.recurs_withoutSpans (p : Program) :
    p.withoutSpans.recurs = p.recurs.map Recur.withoutSpans := by
  simp [Program.recurs, Program.withoutSpans, MainClass.withoutSpans, List.flatMap_map,
    List.map_flatMap, Stmt.recurs_withoutSpans, ClassDecl.recurs_withoutSpans]

/-- Programs that are equal up to spans have `recur` statements that are equal up to spans. -/
theorem Program.map_recurs_congr {p q : Program} (h : p.withoutSpans = q.withoutSpans) :
    p.recurs.map Recur.withoutSpans = q.recurs.map Recur.withoutSpans := by
  rw [← p.recurs_withoutSpans, h, q.recurs_withoutSpans]

/-! ## Correct trees -/

/-- A statement that a correct program may hold. -/
def Stmt.WellFormed (s : Stmt) : Prop := ∀ n ∈ s.nodes, n.WellFormed

theorem recurStatements_eq_nil_of_wellFormed {ns : List Node} (h : ∀ n ∈ ns, n.WellFormed) :
    recurStatements ns = [] :=
  (recurStatements_eq_nil_iff ns).2 fun n hn => (h n hn).noRecur

/-- No `recur` is among such a statement and those inside, wherever they stand. -/
theorem Stmt.WellFormed.recurs_eq_nil {s s' : Stmt} (h : s.WellFormed)
    (hsame : s'.withoutSpans = s.withoutSpans) : s'.recurs = [] := by
  have hnone : s.recurs = [] := by
    rw [← s.recurStatements_nodes]
    exact recurStatements_eq_nil_of_wellFormed h
  have hrecurs := congrArg Stmt.recurs hsame
  rwa [Stmt.recurs_withoutSpans, Stmt.recurs_withoutSpans, hnone, List.map_nil,
    List.map_eq_nil_iff] at hrecurs

theorem Stmt.WellFormed.recursList_eq_nil {ss ss' : List Stmt} (h : ∀ s ∈ ss, s.WellFormed)
    (hsame : ss'.map Stmt.withoutSpans = ss.map Stmt.withoutSpans) :
    Stmt.recursList ss' = [] := by
  rw [Stmt.recursList_eq, List.flatMap_eq_nil_iff]
  intro s' hs'
  obtain ⟨s, hs, heq⟩ := List.mem_map.1 (hsame ▸ List.mem_map_of_mem (f := Stmt.withoutSpans) hs')
  exact (h s hs).recurs_eq_nil heq.symm

theorem Method.recurs_eq_nil {m m' : Method} (h : ∀ n ∈ m.nodes, n.WellFormed)
    (hsame : m'.withoutSpans = m.withoutSpans) : m'.recurs = [] := by
  have hnone : m.recurs = [] := by
    rw [← m.recurStatements_nodes]
    exact recurStatements_eq_nil_of_wellFormed h
  have hrecurs := congrArg Method.recurs hsame
  rwa [Method.recurs_withoutSpans, Method.recurs_withoutSpans, hnone, List.map_nil,
    List.map_eq_nil_iff] at hrecurs

theorem ClassDecl.recurs_eq_nil {k k' : ClassDecl} (h : ∀ n ∈ k.nodes, n.WellFormed)
    (hsame : k'.withoutSpans = k.withoutSpans) : k'.recurs = [] := by
  have hnone : k.recurs = [] := by
    rw [← k.recurStatements_nodes]
    exact recurStatements_eq_nil_of_wellFormed h
  have hrecurs := congrArg ClassDecl.recurs hsame
  rwa [ClassDecl.recurs_withoutSpans, ClassDecl.recurs_withoutSpans, hnone, List.map_nil,
    List.map_eq_nil_iff] at hrecurs

end MiniJava
