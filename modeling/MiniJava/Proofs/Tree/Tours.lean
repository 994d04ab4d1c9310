import MiniJava.Proofs.Tree.Parts

/-!
# Walks that only look

A walk that changes nothing, though it may end early, is a tour: it goes to a node and then to its
parts, one after the other.
-/

namespace MiniJava

variable {m : Type → Type} [Monad m]

/-! ## Tours -/

/-- Do one thing after the other. -/
def inTurn : List (m Unit) → m Unit
  | [] => pure ()
  | x :: xs => do x; inTurn xs

theorem inTurn_append [LawfulMonad m] (xs ys : List (m Unit)) :
    inTurn (xs ++ ys) = (do inTurn xs; inTurn ys) := by
  induction xs with
  | nil => simp [inTurn]
  | cons x xs ih => simp [inTurn, ih]

namespace Node

variable (look : Node → m Unit → m Unit)

/-- Go to a node and, as far as `look` does so, to its parts. -/
def tour : Node → m Unit := fold fun n below => look n (inTurn below)

/-- Go to some nodes, one after the other. -/
def tourAll (ns : List Node) : m Unit := inTurn (ns.map (tour look))

theorem tour_eq (n : Node) : n.tour look = look n (tourAll look n.parts) := n.fold_eq _

theorem tourAll_nil : tourAll look [] = pure () := rfl

theorem tourAll_cons (n : Node) (ns : List Node) :
    tourAll look (n :: ns) = (do n.tour look; tourAll look ns) := rfl

theorem tourAll_append [LawfulMonad m] (ns ns' : List Node) :
    tourAll look (ns ++ ns') = (do tourAll look ns; tourAll look ns') := by
  rw [tourAll, List.map_append, inTurn_append]
  rfl

end Node

/-! ## Walks as tours -/

/-- What is done at the nodes is to look at them, and they stay as they are. -/
structure Visits.Looks (v : Visits m) (look : Node → m Unit → m Unit) : Prop where
  program p below : v.program p (do below; return p) = do look (.program p) below; return p
  classDecl c below : v.classDecl c (do below; return c) = do look (.classDecl c) below; return c
  method d below : v.method d (do below; return d) = do look (.method d) below; return d
  var x below : v.var x (do below; return x) = do look (.var x) below; return x
  param x below : v.param x (do below; return x) = do look (.param x) below; return x
  stmt s below : v.stmt s (do below; return s) = do look (.stmt s) below; return s
  recur r below : v.recur r (do below; return r) = do look (.recur r) below; return r
  expr e below : v.expr e (do below; return e) = do look (.expr e) below; return e

open Node

variable {v : Visits m} {look : Node → m Unit → m Unit}

theorem Expr.visit_of_parts (h : v.Looks look) {e : Expr}
    (he : e.visitParts v = do tourAll look e.parts; return e) :
    v.expr e (e.visitParts v) = do tour look (.expr e); return e := by
  rw [he, h.expr, tour_eq]
  rfl

theorem Stmt.visit_of_parts (h : v.Looks look) {s : Stmt}
    (hs : s.visitParts v = do tourAll look s.parts; return s) :
    v.stmt s (s.visitParts v) = do tour look (.stmt s); return s := by
  rw [hs, h.stmt, tour_eq]
  rfl

variable [LawfulMonad m]

mutual

theorem Expr.visitParts_of_looks (h : v.Looks look) : ∀ e : Expr,
    e.visitParts v = do tourAll look e.parts; return e
  | .integer .. | .boolean .. | .identifier .. | .this _ | .newObject .. | .error _ => by
    simp [Expr.visitParts, Expr.parts, tourAll_nil]
  | .newArray _ e | .length _ e | .not _ e | .paren _ e => by
    simp [Expr.visitParts, Expr.parts, tourAll_nil, tourAll_cons,
      Expr.visit_of_parts h (e.visitParts_of_looks h)]
  | .index _ a i | .binary _ a _ i => by
    simp [Expr.visitParts, Expr.parts, tourAll_nil, tourAll_cons,
      Expr.visit_of_parts h (a.visitParts_of_looks h),
      Expr.visit_of_parts h (i.visitParts_of_looks h)]
  | .call _ r _ es => by
    simp [Expr.visitParts, Expr.parts, tourAll_cons,
      Expr.visit_of_parts h (r.visitParts_of_looks h), Expr.visitList_of_looks h es]

theorem Expr.visitList_of_looks (h : v.Looks look) : ∀ es : List Expr,
    Expr.visitList v es = do tourAll look (es.map .expr); return es
  | [] => by simp [Expr.visitList, tourAll_nil]
  | e :: es => by
    simp [Expr.visitList, tourAll_cons, Expr.visit_of_parts h (e.visitParts_of_looks h),
      Expr.visitList_of_looks h es]

end

theorem Expr.visit_of_looks (h : v.Looks look) (e : Expr) :
    e.visit v = do tour look (.expr e); return e :=
  Expr.visit_of_parts h (e.visitParts_of_looks h)

theorem Recur.visit_of_looks (h : v.Looks look) (r : Recur) :
    r.visit v = do tour look (.recur r); return r := by
  have hparts : r.visitParts v = do tourAll look (Node.recur r).parts; return r := by
    simp [Recur.visitParts, Node.parts, tourAll_nil, tourAll_cons, tourAll_append,
      Expr.visit_of_looks h, Expr.visitList_of_looks h]
  rw [Recur.visit, hparts, h.recur, tour_eq]

mutual

theorem Stmt.visitParts_of_looks (h : v.Looks look) : ∀ s : Stmt,
    s.visitParts v = do tourAll look s.parts; return s
  | .block _ ss => by
    simp [Stmt.visitParts, Stmt.parts, Stmt.visitList_of_looks h ss]
  | .ifElse _ c t e => by
    simp [Stmt.visitParts, Stmt.parts, tourAll_nil, tourAll_cons, c.visit_of_looks h,
      Stmt.visit_of_parts h (t.visitParts_of_looks h),
      Stmt.visit_of_parts h (e.visitParts_of_looks h)]
  | .whileLoop _ c b => by
    simp [Stmt.visitParts, Stmt.parts, tourAll_nil, tourAll_cons, c.visit_of_looks h,
      Stmt.visit_of_parts h (b.visitParts_of_looks h)]
  | .println _ v | .assign _ _ v => by
    simp [Stmt.visitParts, Stmt.parts, tourAll_nil, tourAll_cons, v.visit_of_looks h]
  | .assignElement _ _ i v => by
    simp [Stmt.visitParts, Stmt.parts, tourAll_nil, tourAll_cons, i.visit_of_looks h,
      v.visit_of_looks h]
  | .recur r => by
    simp [Stmt.visitParts, Stmt.parts, tourAll_nil, tourAll_cons, r.visit_of_looks h]
  | .error _ => by simp [Stmt.visitParts, Stmt.parts, tourAll_nil]

theorem Stmt.visitList_of_looks (h : v.Looks look) : ∀ ss : List Stmt,
    Stmt.visitList v ss = do tourAll look (ss.map .stmt); return ss
  | [] => by simp [Stmt.visitList, tourAll_nil]
  | s :: ss => by
    simp [Stmt.visitList, tourAll_cons, Stmt.visit_of_parts h (s.visitParts_of_looks h),
      Stmt.visitList_of_looks h ss]

end

theorem Stmt.visit_of_looks (h : v.Looks look) (s : Stmt) :
    s.visit v = do tour look (.stmt s); return s :=
  Stmt.visit_of_parts h (s.visitParts_of_looks h)

theorem MethodResult.visit_of_looks (h : v.Looks look) (r : MethodResult) :
    r.visit v = do tour look r.node; return r := by
  cases r with
  | returns s e => simp [MethodResult.visit, MethodResult.node, e.visit_of_looks h]
  | recurs r => simp [MethodResult.visit, MethodResult.node, r.visit_of_looks h]

/-- To visit all members of a list is to go to them in turn. -/
theorem mapM_of_looks {α : Type} {node : α → Node} {visit : α → m α}
    (h : ∀ a, visit a = do tour look (node a); return a) (as : List α) :
    as.mapM visit = do tourAll look (as.map node); return as := by
  induction as with
  | nil => simp [tourAll_nil]
  | cons a as ih => simp [tourAll_cons, h a, ih]

theorem Variable.visit_of_looks (h : v.Looks look) (x : Variable) :
    x.visit v = do tour look (.var x); return x := by
  have hbelow := h.var x (pure ())
  rw [pure_bind] at hbelow
  rw [Variable.visit, hbelow, tour_eq]
  rfl

theorem Variable.visitParam_of_looks (h : v.Looks look) (x : Variable) :
    x.visitParam v = do tour look (.param x); return x := by
  have hbelow := h.param x (pure ())
  rw [pure_bind] at hbelow
  rw [Variable.visitParam, hbelow, tour_eq]
  rfl

theorem Method.visit_of_looks (h : v.Looks look) (d : Method) :
    d.visit v = do tour look (.method d); return d := by
  have hparts : d.visitParts v = do tourAll look (Node.method d).parts; return d := by
    simp [Method.visitParts, Node.parts, tourAll_nil, tourAll_cons, tourAll_append,
      mapM_of_looks (Variable.visitParam_of_looks h), mapM_of_looks (Variable.visit_of_looks h),
      Stmt.visitList_of_looks h, MethodResult.visit_of_looks h]
  rw [Method.visit, hparts, h.method, tour_eq]

theorem ClassDecl.visit_of_looks (h : v.Looks look) (c : ClassDecl) :
    c.visit v = do tour look (.classDecl c); return c := by
  have hparts : c.visitParts v = do tourAll look (Node.classDecl c).parts; return c := by
    simp [ClassDecl.visitParts, Node.parts, tourAll_append,
      mapM_of_looks (Variable.visit_of_looks h), mapM_of_looks (Method.visit_of_looks h)]
  rw [ClassDecl.visit, hparts, h.classDecl, tour_eq]

/-- A walk that only looks is a tour of the program, which stays as it is. -/
theorem Program.visit_of_looks (h : v.Looks look) (p : Program) :
    p.visit v = do tour look (.program p); return p := by
  have hparts : p.visitParts v = do tourAll look (Node.program p).parts; return p := by
    simp [Program.visitParts, Node.parts, tourAll_cons, Stmt.visit_of_looks h,
      mapM_of_looks (ClassDecl.visit_of_looks h)]
  rw [Program.visit, hparts, h.program, tour_eq]

end MiniJava
