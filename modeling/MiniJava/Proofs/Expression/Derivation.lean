import MiniJava.Proofs.Expression.Complete

/-!
# The stratified grammar of expressions

The grammar has one nonterminal for each level of precedence and is left-recursive. A derivation
from a level has a yield and a tree. The trees of derivations are the grouped expressions, and no
tree has two derivations from one level.
-/

namespace MiniJava

open Terminal

/-- The nonterminals of the grammar, from the loosest to the tightest. -/
inductive Level where
  | and | less | sum | prod | post | prim
deriving DecidableEq, Inhabited

/-- How tightly what is derived from a nonterminal holds together. -/
def Level.floor : Level → Nat
  | and => BinaryOp.precedence .and
  | less => BinaryOp.precedence .lessThan
  | sum => BinaryOp.precedence .plus
  | prod => BinaryOp.precedence .times
  | post => Operator.postfixLevel
  | prim => Expr.atomic

/-- A derivation from a nonterminal, with one constructor for each production. -/
inductive Derivation : Level → Type
  | and (left : Derivation .and) (right : Derivation .less) : Derivation .and
  | ofLess (d : Derivation .less) : Derivation .and
  | less (left : Derivation .less) (right : Derivation .sum) : Derivation .less
  | ofSum (d : Derivation .sum) : Derivation .less
  | plus (left : Derivation .sum) (right : Derivation .prod) : Derivation .sum
  | minus (left : Derivation .sum) (right : Derivation .prod) : Derivation .sum
  | ofProd (d : Derivation .prod) : Derivation .sum
  | times (left : Derivation .prod) (right : Derivation .post) : Derivation .prod
  | ofPost (d : Derivation .post) : Derivation .prod
  | index (array : Derivation .post) (position : Derivation .and) : Derivation .post
  | length (array : Derivation .post) : Derivation .post
  | call (receiver : Derivation .post) (method : String) (args : List (Derivation .and)) :
      Derivation .post
  | ofPrim (d : Derivation .prim) : Derivation .post
  | not (operand : Derivation .prim) : Derivation .prim
  | integer (value : Int32) : Derivation .prim
  | boolean (value : Bool) : Derivation .prim
  | identifier (name : String) : Derivation .prim
  | this : Derivation .prim
  | newArray (size : Derivation .and) : Derivation .prim
  | newObject (name : String) : Derivation .prim
  | paren (inner : Derivation .and) : Derivation .prim

namespace Derivation

mutual

/-- The terminals that are derived. -/
def yield : {l : Level} → Derivation l → List Terminal
  | _, and l r => l.yield ++ word .andAnd :: r.yield
  | _, less l r => l.yield ++ word .lessThan :: r.yield
  | _, plus l r => l.yield ++ word .plus :: r.yield
  | _, minus l r => l.yield ++ word .minus :: r.yield
  | _, times l r => l.yield ++ word .star :: r.yield
  | _, ofLess d | _, ofSum d | _, ofProd d | _, ofPost d | _, ofPrim d => d.yield
  | _, index a i => a.yield ++ word .leftBracket :: (i.yield ++ [word .rightBracket])
  | _, length a => a.yield ++ [word .dot, word .lengthKw]
  | _, call r m as =>
    r.yield ++ word .dot :: ident m :: word .leftParen :: (yieldList as ++ [word .rightParen])
  | _, not d => word .bang :: d.yield
  | _, integer v => [number v]
  | _, boolean true => [word .trueKw]
  | _, boolean false => [word .falseKw]
  | _, identifier n => [ident n]
  | _, this => [word .thisKw]
  | _, newArray d =>
    word .newKw :: word .intKw :: word .leftBracket :: (d.yield ++ [word .rightBracket])
  | _, newObject n => [word .newKw, ident n, word .leftParen, word .rightParen]
  | _, paren d => word .leftParen :: (d.yield ++ [word .rightParen])

/-- The terminals of a list of arguments. -/
def yieldList : List (Derivation .and) → List Terminal
  | [] => []
  | d :: ds => d.yield ++ yieldMore ds

/-- The terminals of arguments with a comma before each. -/
def yieldMore : List (Derivation .and) → List Terminal
  | [] => []
  | d :: ds => word .comma :: (d.yield ++ yieldMore ds)

end

mutual

/-- The tree of a derivation, in which the levels do not show. -/
def tree : {l : Level} → Derivation l → Expr
  | _, and l r => .binary Span.nowhere l.tree .and r.tree
  | _, less l r => .binary Span.nowhere l.tree .lessThan r.tree
  | _, plus l r => .binary Span.nowhere l.tree .plus r.tree
  | _, minus l r => .binary Span.nowhere l.tree .minus r.tree
  | _, times l r => .binary Span.nowhere l.tree .times r.tree
  | _, ofLess d | _, ofSum d | _, ofProd d | _, ofPost d | _, ofPrim d => d.tree
  | _, index a i => .index Span.nowhere a.tree i.tree
  | _, length a => .length Span.nowhere a.tree
  | _, call r m as => .call Span.nowhere r.tree m (treeList as)
  | _, not d => .not Span.nowhere d.tree
  | _, integer v => .integer Span.nowhere v
  | _, boolean v => .boolean Span.nowhere v
  | _, identifier n => .identifier Span.nowhere n
  | _, this => .this Span.nowhere
  | _, newArray d => .newArray Span.nowhere d.tree
  | _, newObject n => .newObject Span.nowhere n
  | _, paren d => .paren Span.nowhere d.tree

/-- The trees of some derivations. -/
def treeList : List (Derivation .and) → List Expr
  | [] => []
  | d :: ds => d.tree :: treeList ds

end

/-! ## Yields and trees -/

mutual

/-- A derivation derives what its tree yields. -/
theorem yield_tree : ∀ {l : Level} (d : Derivation l), d.tree.yield = d.yield
  | _, and l r | _, less l r | _, plus l r | _, minus l r | _, times l r => by
    rw [tree, Expr.yield, yield_tree l, yield_tree r]
    rfl
  | _, ofLess d | _, ofSum d | _, ofProd d | _, ofPost d | _, ofPrim d => yield_tree d
  | _, index a i => by
    rw [tree, Expr.yield, yield_tree a, yield_tree i]
    rfl
  | _, length a => by
    rw [tree, Expr.yield, yield_tree a]
    rfl
  | _, call r m as => by
    rw [tree, Expr.yield, yield_tree r, yieldList_treeList as]
    rfl
  | _, not d | _, newArray d | _, paren d => by
    rw [tree, Expr.yield, yield_tree d]
    rfl
  | _, boolean true | _, boolean false | _, integer _ | _, identifier _ | _, this
  | _, newObject _ => rfl

theorem yieldList_treeList :
    ∀ ds : List (Derivation .and), Expr.yieldList (treeList ds) = yieldList ds
  | [] => rfl
  | d :: ds => by
    rw [treeList, Expr.yieldList, yield_tree d, yieldMore_treeList ds]
    rfl

theorem yieldMore_treeList :
    ∀ ds : List (Derivation .and), Expr.yieldMore (treeList ds) = yieldMore ds
  | [] => rfl
  | d :: ds => by
    rw [treeList, Expr.yieldMore, yield_tree d, yieldMore_treeList ds]
    rfl

end

/-- Trees hold together at least as tightly as their level asks. -/
theorem floor_le : ∀ {l : Level} (d : Derivation l), l.floor ≤ d.tree.strength
  | _, and .. | _, less .. | _, plus .. | _, minus .. | _, times .. | _, index .. | _, length ..
  | _, call .. | _, not .. | _, integer .. | _, boolean .. | _, identifier .. | _, this
  | _, newArray .. | _, newObject .. | _, paren .. => Nat.le_refl _
  | _, ofLess d | _, ofSum d | _, ofProd d | _, ofPost d | _, ofPrim d =>
    Nat.le_trans (by decide) (floor_le d)

mutual

theorem readable_tree : ∀ {l : Level} (d : Derivation l), d.tree.Readable
  | _, and l r | _, less l r | _, plus l r | _, minus l r | _, times l r =>
    List.forall_mem_cons.2 ⟨⟨⟨floor_le l, Nat.lt_of_lt_of_le (by decide) (floor_le r)⟩, id⟩,
      List.forall_mem_append.2 ⟨readable_tree l, readable_tree r⟩⟩
  | _, ofLess d | _, ofSum d | _, ofProd d | _, ofPost d | _, ofPrim d => readable_tree d
  | _, index a i =>
    List.forall_mem_cons.2 ⟨⟨floor_le a, id⟩,
      List.forall_mem_append.2 ⟨readable_tree a, readable_tree i⟩⟩
  | _, length a => List.forall_mem_cons.2 ⟨⟨floor_le a, id⟩, readable_tree a⟩
  | _, call r m as =>
    List.forall_mem_cons.2 ⟨⟨floor_le r, id⟩,
      List.forall_mem_append.2 ⟨readable_tree r, readable_treeList as⟩⟩
  | _, not d => List.forall_mem_cons.2 ⟨⟨floor_le d, id⟩, readable_tree d⟩
  | _, newArray d | _, paren d => List.forall_mem_cons.2 ⟨⟨trivial, id⟩, readable_tree d⟩
  | _, boolean _ | _, integer _ | _, identifier _ | _, this | _, newObject _ =>
    List.forall_mem_singleton.2 ⟨trivial, id⟩

theorem readable_treeList :
    ∀ ds : List (Derivation .and), ∀ n ∈ Expr.nodesList (treeList ds), n.Readable
  | [] => nofun
  | d :: ds => List.forall_mem_append.2 ⟨readable_tree d, readable_treeList ds⟩

end

/-! ## Every grouped tree has a derivation -/

section Loosen

variable {l : Level} (d : Derivation l)

theorem exists_post (h : Level.post.floor ≤ l.floor) :
    ∃ d' : Derivation .post, d'.tree = d.tree := by
  cases l with
  | prim => exact ⟨ofPrim d, rfl⟩
  | post => exact ⟨d, rfl⟩
  | _ => exact absurd h (by decide)

theorem exists_prod (h : Level.prod.floor ≤ l.floor) :
    ∃ d' : Derivation .prod, d'.tree = d.tree := by
  cases l with
  | prim | post =>
    obtain ⟨d', hd⟩ := exists_post d (by decide)
    exact ⟨ofPost d', hd⟩
  | prod => exact ⟨d, rfl⟩
  | _ => exact absurd h (by decide)

theorem exists_sum (h : Level.sum.floor ≤ l.floor) :
    ∃ d' : Derivation .sum, d'.tree = d.tree := by
  cases l with
  | prim | post | prod =>
    obtain ⟨d', hd⟩ := exists_prod d (by decide)
    exact ⟨ofProd d', hd⟩
  | sum => exact ⟨d, rfl⟩
  | _ => exact absurd h (by decide)

theorem exists_less (h : Level.less.floor ≤ l.floor) :
    ∃ d' : Derivation .less, d'.tree = d.tree := by
  cases l with
  | prim | post | prod | sum =>
    obtain ⟨d', hd⟩ := exists_sum d (by decide)
    exact ⟨ofSum d', hd⟩
  | less => exact ⟨d, rfl⟩
  | and => exact absurd h (by decide)

theorem exists_and : ∃ d' : Derivation .and, d'.tree = d.tree := by
  cases l with
  | prim | post | prod | sum | less =>
    obtain ⟨d', hd⟩ := exists_less d (by decide)
    exact ⟨ofLess d', hd⟩
  | and => exact ⟨d, rfl⟩

/-- What is derived from a level is derived from each looser one too, by unit productions. -/
theorem exists_looser (l' : Level) (h : l'.floor ≤ l.floor) :
    ∃ d' : Derivation l', d'.tree = d.tree := by
  cases l' with
  | and => exact exists_and d
  | less => exact exists_less d h
  | sum => exact exists_sum d h
  | prod => exact exists_prod d h
  | post => exact exists_post d h
  | prim =>
    cases l with
    | prim => exact ⟨d, rfl⟩
    | _ => exact absurd h (by decide)

end Loosen

/-- The expression is derived, up to spans, from each level that asks for no more. -/
def Derived (e : Expr) : Prop :=
  ∀ l : Level, l.floor ≤ e.strength → ∃ d : Derivation l, d.tree = e.withoutSpans

theorem Derived.of_tree {e : Expr} {l : Level} (d : Derivation l) (hd : d.tree = e.withoutSpans)
    (hl : e.strength = l.floor) : Derived e := by
  intro l' h
  rw [← hd]
  exact exists_looser d l' (hl ▸ h)

/-- Between the floors of two levels next to each other there is no expression. -/
theorem exists_floor_eq (e : Expr) : ∃ l : Level, e.strength = l.floor := by
  cases e with
  | binary s l op r =>
    cases op with
    | and => exact ⟨.and, rfl⟩
    | lessThan => exact ⟨.less, rfl⟩
    | plus | minus => exact ⟨.sum, rfl⟩
    | times => exact ⟨.prod, rfl⟩
  | index | length | call => exact ⟨.post, rfl⟩
  | _ => exact ⟨.prim, rfl⟩

theorem floor_and_le (e : Expr) : Level.and.floor ≤ e.strength := by
  obtain ⟨l, hl⟩ := exists_floor_eq e
  rw [hl]
  cases l <;> decide

/-- The level from which the right operand of an operator is derived. -/
def rightLevel : BinaryOp → Level
  | .and => .less
  | .lessThan => .sum
  | .plus | .minus => .prod
  | .times => .post

theorem floor_rightLevel_le {op : BinaryOp} {e : Expr} (h : op.precedence < e.strength) :
    (rightLevel op).floor ≤ e.strength := by
  obtain ⟨l, hl⟩ := exists_floor_eq e
  rw [hl] at h ⊢
  cases op <;> cases l <;> first | decide | exact absurd h (by decide)

theorem derived_binary {s : Span} {l r : Expr} {op : BinaryOp} (hl : Derived l) (hr : Derived r)
    (hsl : op.precedence ≤ l.strength) (hsr : op.precedence < r.strength) :
    Derived (.binary s l op r) := by
  have hright := floor_rightLevel_le hsr
  cases op with
  | and =>
    obtain ⟨d, hd⟩ := hl .and hsl
    obtain ⟨d', hd'⟩ := hr .less hright
    exact .of_tree (and d d') (by rw [tree, hd, hd']; rfl) rfl
  | lessThan =>
    obtain ⟨d, hd⟩ := hl .less hsl
    obtain ⟨d', hd'⟩ := hr .sum hright
    exact .of_tree (less d d') (by rw [tree, hd, hd']; rfl) rfl
  | plus =>
    obtain ⟨d, hd⟩ := hl .sum hsl
    obtain ⟨d', hd'⟩ := hr .prod hright
    exact .of_tree (plus d d') (by rw [tree, hd, hd']; rfl) rfl
  | minus =>
    obtain ⟨d, hd⟩ := hl .sum hsl
    obtain ⟨d', hd'⟩ := hr .prod hright
    exact .of_tree (minus d d') (by rw [tree, hd, hd']; rfl) rfl
  | times =>
    obtain ⟨d, hd⟩ := hl .prod hsl
    obtain ⟨d', hd'⟩ := hr .post hright
    exact .of_tree (times d d') (by rw [tree, hd, hd']; rfl) rfl

mutual

/-- Every grouped expression is derived. -/
theorem derived : ∀ e : Expr, e.Readable → Derived e
  | .integer _ v, _ => .of_tree (integer v) rfl rfl
  | .boolean _ v, _ => .of_tree (boolean v) rfl rfl
  | .identifier _ n, _ => .of_tree (identifier n) rfl rfl
  | .this _, _ => .of_tree this rfl rfl
  | .newObject _ n, _ => .of_tree (newObject n) rfl rfl
  | .newArray _ e, h => by
    obtain ⟨-, he⟩ := List.forall_mem_cons.1 h
    obtain ⟨d, hd⟩ := derived e he .and (floor_and_le e)
    exact .of_tree (newArray d) (by rw [tree, hd]; rfl) rfl
  | .paren _ e, h => by
    obtain ⟨-, he⟩ := List.forall_mem_cons.1 h
    obtain ⟨d, hd⟩ := derived e he .and (floor_and_le e)
    exact .of_tree (paren d) (by rw [tree, hd]; rfl) rfl
  | .not _ e, h => by
    obtain ⟨hn, he⟩ := List.forall_mem_cons.1 h
    obtain ⟨d, hd⟩ := derived e he .prim hn.grouped
    exact .of_tree (not d) (by rw [tree, hd]; rfl) rfl
  | .index _ a i, h => by
    obtain ⟨hn, h⟩ := List.forall_mem_cons.1 h
    obtain ⟨ha, hi⟩ := List.forall_mem_append.1 h
    obtain ⟨d, hd⟩ := derived a ha .post hn.grouped
    obtain ⟨d', hd'⟩ := derived i hi .and (floor_and_le i)
    exact .of_tree (index d d') (by rw [tree, hd, hd']; rfl) rfl
  | .length _ a, h => by
    obtain ⟨hn, ha⟩ := List.forall_mem_cons.1 h
    obtain ⟨d, hd⟩ := derived a ha .post hn.grouped
    exact .of_tree (length d) (by rw [tree, hd]; rfl) rfl
  | .call _ r m es, h => by
    obtain ⟨hn, h⟩ := List.forall_mem_cons.1 h
    obtain ⟨hr, hes⟩ := List.forall_mem_append.1 h
    obtain ⟨d, hd⟩ := derived r hr .post hn.grouped
    obtain ⟨ds, hds⟩ := derivedList es hes
    exact .of_tree (call d m ds) (by rw [tree, hd, hds]; rfl) rfl
  | .binary _ l op r, h => by
    obtain ⟨hn, h⟩ := List.forall_mem_cons.1 h
    obtain ⟨hl, hr⟩ := List.forall_mem_append.1 h
    obtain ⟨hsl, hsr⟩ : op.precedence ≤ l.strength ∧ op.precedence < r.strength := hn.grouped
    exact derived_binary (derived l hl) (derived r hr) hsl hsr
  | .error s, h => absurd trivial (h (.expr (.error s)) List.mem_cons_self).noError

theorem derivedList : ∀ es : List Expr, (∀ n ∈ Expr.nodesList es, n.Readable) →
    ∃ ds : List (Derivation .and), treeList ds = Expr.withoutSpansList es
  | [], _ => ⟨[], rfl⟩
  | e :: es, h => by
    obtain ⟨he, hes⟩ := List.forall_mem_append.1 h
    obtain ⟨d, hd⟩ := derived e he .and (floor_and_le e)
    obtain ⟨ds, hds⟩ := derivedList es hes
    exact ⟨d :: ds, by rw [treeList, hd, hds]; rfl⟩

end

/-! ## No tree has two derivations from one level -/

/-- A tree is not derived from a level that asks for more. -/
theorem ne_tree {l : Level} {e : Expr} (d : Derivation l)
    (h : decide (e.strength < l.floor) = true) : e ≠ d.tree := by
  rintro rfl
  exact absurd (floor_le d) (Nat.not_le.2 (of_decide_eq_true h))

mutual

theorem tree_injective : ∀ {l : Level} (d d' : Derivation l), d.tree = d'.tree → d = d'
  | _, and l r, d', h => by
    cases d' with
    | and l' r' =>
      simp only [tree, Expr.binary.injEq, true_and] at h
      rw [tree_injective l l' h.1, tree_injective r r' h.2]
    | ofLess d' => exact absurd h (ne_tree d' rfl)
  | _, ofLess d, d', h => by
    cases d' with
    | and l r => exact absurd h.symm (ne_tree d rfl)
    | ofLess d' => rw [tree_injective d d' h]
  | _, less l r, d', h => by
    cases d' with
    | less l' r' =>
      simp only [tree, Expr.binary.injEq, true_and] at h
      rw [tree_injective l l' h.1, tree_injective r r' h.2]
    | ofSum d' => exact absurd h (ne_tree d' rfl)
  | _, ofSum d, d', h => by
    cases d' with
    | less l r => exact absurd h.symm (ne_tree d rfl)
    | ofSum d' => rw [tree_injective d d' h]
  | _, plus l r, d', h => by
    cases d' with
    | plus l' r' =>
      simp only [tree, Expr.binary.injEq, true_and] at h
      rw [tree_injective l l' h.1, tree_injective r r' h.2]
    | minus l' r' => simp [tree] at h
    | ofProd d' => exact absurd h (ne_tree d' rfl)
  | _, minus l r, d', h => by
    cases d' with
    | minus l' r' =>
      simp only [tree, Expr.binary.injEq, true_and] at h
      rw [tree_injective l l' h.1, tree_injective r r' h.2]
    | plus l' r' => simp [tree] at h
    | ofProd d' => exact absurd h (ne_tree d' rfl)
  | _, ofProd d, d', h => by
    cases d' with
    | plus l r | minus l r => exact absurd h.symm (ne_tree d rfl)
    | ofProd d' => rw [tree_injective d d' h]
  | _, times l r, d', h => by
    cases d' with
    | times l' r' =>
      simp only [tree, Expr.binary.injEq, true_and] at h
      rw [tree_injective l l' h.1, tree_injective r r' h.2]
    | ofPost d' => exact absurd h (ne_tree d' rfl)
  | _, ofPost d, d', h => by
    cases d' with
    | times l r => exact absurd h.symm (ne_tree d rfl)
    | ofPost d' => rw [tree_injective d d' h]
  | _, index a i, d', h => by
    cases d' with
    | index a' i' =>
      simp only [tree, Expr.index.injEq, true_and] at h
      rw [tree_injective a a' h.1, tree_injective i i' h.2]
    | ofPrim d' => exact absurd h (ne_tree d' rfl)
    | _ => simp [tree] at h
  | _, length a, d', h => by
    cases d' with
    | length a' =>
      simp only [tree, Expr.length.injEq, true_and] at h
      rw [tree_injective a a' h]
    | ofPrim d' => exact absurd h (ne_tree d' rfl)
    | _ => simp [tree] at h
  | _, call r m as, d', h => by
    cases d' with
    | call r' m' as' =>
      simp only [tree, Expr.call.injEq, true_and] at h
      rw [tree_injective r r' h.1, h.2.1, treeList_injective as as' h.2.2]
    | ofPrim d' => exact absurd h (ne_tree d' rfl)
    | _ => simp [tree] at h
  | _, ofPrim d, d', h => by
    cases d' with
    | ofPrim d' => rw [tree_injective d d' h]
    | _ => exact absurd h.symm (ne_tree d rfl)
  | _, not d, d', h => by
    cases d' with
    | not d' =>
      simp only [tree, Expr.not.injEq, true_and] at h
      rw [tree_injective d d' h]
    | _ => simp [tree] at h
  | _, newArray d, d', h => by
    cases d' with
    | newArray d' =>
      simp only [tree, Expr.newArray.injEq, true_and] at h
      rw [tree_injective d d' h]
    | _ => simp [tree] at h
  | _, paren d, d', h => by
    cases d' with
    | paren d' =>
      simp only [tree, Expr.paren.injEq, true_and] at h
      rw [tree_injective d d' h]
    | _ => simp [tree] at h
  | _, integer _, d', h | _, boolean _, d', h | _, identifier _, d', h | _, this, d', h
  | _, newObject _, d', h => by
    cases d' <;> simp_all [tree]

theorem treeList_injective :
    ∀ ds ds' : List (Derivation .and), treeList ds = treeList ds' → ds = ds'
  | [], [], _ => rfl
  | d :: ds, d' :: ds', h => by
    simp only [treeList, List.cons.injEq] at h
    rw [tree_injective d d' h.1, treeList_injective ds ds' h.2]
  | [], _ :: _, h | _ :: _, [], h => by simp [treeList] at h

end

end Derivation

end MiniJava
