import MiniJava.Tree.Basic

/-!
# Equality of trees

Whether two trees are the same is decided by comparing them node by node: `Expr.same_iff` and
`Stmt.same_iff` say that the comparison is equality.
-/

namespace MiniJava

mutual

/-- Compare two expressions node by node. -/
def Expr.same : Expr → Expr → Bool
  | .integer s v, .integer s' v' => s = s' && v = v'
  | .boolean s v, .boolean s' v' => s = s' && v = v'
  | .identifier s n, .identifier s' n' => s = s' && n = n'
  | .this s, .this s' => s = s'
  | .newArray s e, .newArray s' e' => s = s' && e.same e'
  | .newObject s n, .newObject s' n' => s = s' && n = n'
  | .index s a i, .index s' a' i' => s = s' && a.same a' && i.same i'
  | .length s a, .length s' a' => s = s' && a.same a'
  | .call s r m as, .call s' r' m' as' => s = s' && r.same r' && m = m' && Expr.sameList as as'
  | .not s e, .not s' e' => s = s' && e.same e'
  | .binary s l o r, .binary s' l' o' r' => s = s' && l.same l' && o = o' && r.same r'
  | .paren s e, .paren s' e' => s = s' && e.same e'
  | .error s, .error s' => s = s'
  | _, _ => false

/-- Compare two lists of expressions. -/
def Expr.sameList : List Expr → List Expr → Bool
  | [], [] => true
  | e :: es, e' :: es' => e.same e' && Expr.sameList es es'
  | _, _ => false

end

mutual

theorem Expr.same_iff : ∀ e e' : Expr, e.same e' ↔ e = e'
  | .integer .., e' => by cases e' <;> simp [Expr.same]
  | .boolean .., e' => by cases e' <;> simp [Expr.same]
  | .identifier .., e' => by cases e' <;> simp [Expr.same]
  | .this .., e' => by cases e' <;> simp [Expr.same]
  | .newArray _ e, e' => by cases e' <;> simp [Expr.same, Expr.same_iff e]
  | .newObject .., e' => by cases e' <;> simp [Expr.same]
  | .index _ a i, e' => by
    cases e' <;> simp [Expr.same, Expr.same_iff a, Expr.same_iff i, and_assoc]
  | .length _ a, e' => by cases e' <;> simp [Expr.same, Expr.same_iff a]
  | .call _ r _ as, e' => by
    cases e' <;> simp [Expr.same, Expr.same_iff r, Expr.sameList_iff as, and_assoc]
  | .not _ e, e' => by cases e' <;> simp [Expr.same, Expr.same_iff e]
  | .binary _ l _ r, e' => by
    cases e' <;> simp [Expr.same, Expr.same_iff l, Expr.same_iff r, and_assoc]
  | .paren _ e, e' => by cases e' <;> simp [Expr.same, Expr.same_iff e]
  | .error .., e' => by cases e' <;> simp [Expr.same]

theorem Expr.sameList_iff : ∀ es es' : List Expr, Expr.sameList es es' ↔ es = es'
  | [], es' => by cases es' <;> simp [Expr.sameList]
  | e :: es, es' => by
    cases es' <;> simp [Expr.sameList, Expr.same_iff e, Expr.sameList_iff es]

end

instance : DecidableEq Expr := fun e e' => decidable_of_iff (e.same e') (Expr.same_iff e e')

deriving instance DecidableEq for Recur

mutual

/-- Compare two statements node by node. -/
def Stmt.same : Stmt → Stmt → Bool
  | .block s ss, .block s' ss' => s = s' && Stmt.sameList ss ss'
  | .ifElse s c t e, .ifElse s' c' t' e' => s = s' && c = c' && t.same t' && e.same e'
  | .whileLoop s c b, .whileLoop s' c' b' => s = s' && c = c' && b.same b'
  | .println s v, .println s' v' => s = s' && v = v'
  | .assign s n v, .assign s' n' v' => s = s' && n = n' && v = v'
  | .assignElement s n i v, .assignElement s' n' i' v' => s = s' && n = n' && i = i' && v = v'
  | .recur r, .recur r' => r = r'
  | .error s, .error s' => s = s'
  | _, _ => false

/-- Compare two lists of statements. -/
def Stmt.sameList : List Stmt → List Stmt → Bool
  | [], [] => true
  | s :: ss, s' :: ss' => s.same s' && Stmt.sameList ss ss'
  | _, _ => false

end

mutual

theorem Stmt.same_iff : ∀ s s' : Stmt, s.same s' ↔ s = s'
  | .block _ ss, s' => by cases s' <;> simp [Stmt.same, Stmt.sameList_iff ss]
  | .ifElse _ _ t e, s' => by
    cases s' <;> simp [Stmt.same, Stmt.same_iff t, Stmt.same_iff e, and_assoc]
  | .whileLoop _ _ b, s' => by cases s' <;> simp [Stmt.same, Stmt.same_iff b, and_assoc]
  | .println .., s' => by cases s' <;> simp [Stmt.same]
  | .assign .., s' => by cases s' <;> simp [Stmt.same, and_assoc]
  | .assignElement .., s' => by cases s' <;> simp [Stmt.same, and_assoc]
  | .recur .., s' => by cases s' <;> simp [Stmt.same]
  | .error .., s' => by cases s' <;> simp [Stmt.same]

theorem Stmt.sameList_iff : ∀ ss ss' : List Stmt, Stmt.sameList ss ss' ↔ ss = ss'
  | [], ss' => by cases ss' <;> simp [Stmt.sameList]
  | s :: ss, ss' => by
    cases ss' <;> simp [Stmt.sameList, Stmt.same_iff s, Stmt.sameList_iff ss]

end

instance : DecidableEq Stmt := fun s s' => decidable_of_iff (s.same s') (Stmt.same_iff s s')

deriving instance DecidableEq for MethodResult, Method, ClassDecl, MainClass, Program

end MiniJava
