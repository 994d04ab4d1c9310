import MiniJava.Proofs.Grammar.Nodes
import MiniJava.Proofs.Grammar.Yield

/-!
# Where the parentheses of a tree stand

Without its parentheses a tree keeps its terminals but for these, and each operator still stands
after as many of them. So the places of the parentheses can be told from the terminals: two trees
that yield the same and differ at most in their parentheses do not differ in them either.
-/

namespace MiniJava

open Terminal

/-! ## Counting -/

namespace Terminal

variable {ts us : List Terminal}

/-- How many parentheses a terminal opens. -/
def turn (t : Terminal) : Int :=
  match t.kind with
  | .leftParen => 1
  | .rightParen => -1
  | _ => 0

/-- How many parentheses are open after the terminals. -/
def depth : List Terminal → Int
  | [] => 0
  | t :: ts => t.turn + depth ts

/-- How many of the terminals are no parentheses. -/
def solids (ts : List Terminal) : Nat := ts.countP fun t => t.turn = 0

@[simp] theorem turn_ident (n : String) : (ident n).turn = 0 := rfl

@[simp] theorem turn_operator (op : BinaryOp) : (word op.tokenKind).turn = 0 := by
  cases op <;> rfl

@[simp] theorem depth_nil : depth [] = 0 := rfl

@[simp] theorem depth_cons (t : Terminal) (ts : List Terminal) :
    depth (t :: ts) = t.turn + depth ts := rfl

@[simp] theorem depth_append (ts us : List Terminal) : depth (ts ++ us) = depth ts + depth us := by
  induction ts with
  | nil => simp
  | cons t ts ih => simp [ih, Int.add_assoc]

@[simp] theorem solids_nil : solids [] = 0 := rfl

@[simp] theorem solids_append (ts us : List Terminal) :
    solids (ts ++ us) = solids ts + solids us :=
  List.countP_append

@[simp] theorem solids_cons (t : Terminal) (ts : List Terminal) :
    solids (t :: ts) = solids ts + if t.turn = 0 then 1 else 0 := by
  simp [solids, List.countP_cons]

theorem depth_replicate (k : Nat) : depth (List.replicate k (word .leftParen)) = k := by
  induction k with
  | zero => rfl
  | succ k ih => simp [List.replicate_succ, ih, turn, Int.add_comm]

theorem solids_replicate (k : Nat) : solids (List.replicate k (word .leftParen)) = 0 := by
  simp [solids, List.countP_replicate, turn]

/-- A terminal that is no parenthesis is found by how many such terminals stand before it. -/
theorem eq_of_append_cons_eq {t u : Terminal} (ht : t.turn = 0) (hu : u.turn = 0) :
    ∀ {xs ys : List Terminal}, solids xs = solids ys → xs ++ t :: ts = ys ++ u :: us →
      xs = ys ∧ ts = us
  | [], [], _, h => ⟨rfl, List.tail_eq_of_cons_eq h⟩
  | [], y :: ys, hs, h => by
    obtain rfl : t = y := List.head_eq_of_cons_eq h
    simp [ht, solids] at hs
  | x :: xs, [], hs, h => by
    obtain rfl : x = u := List.head_eq_of_cons_eq h
    simp [hu, solids] at hs
  | x :: xs, y :: ys, hs, h => by
    rw [List.cons_append, List.cons_append] at h
    obtain ⟨rfl, htail⟩ := List.cons_eq_cons.1 h
    have hsolids : solids xs = solids ys := by simpa using hs
    obtain ⟨rfl, rfl⟩ := eq_of_append_cons_eq ht hu hsolids htail
    exact ⟨rfl, rfl⟩

end Terminal

/-! ## Trees without parentheses -/

mutual

/-- The expression with its parentheses and every span forgotten. -/
def Expr.bare : Expr → Expr
  | .integer _ v => .integer Span.nowhere v
  | .boolean _ v => .boolean Span.nowhere v
  | .identifier _ n => .identifier Span.nowhere n
  | .this _ => .this Span.nowhere
  | .newArray _ e => .newArray Span.nowhere e.bare
  | .newObject _ n => .newObject Span.nowhere n
  | .index _ a i => .index Span.nowhere a.bare i.bare
  | .length _ a => .length Span.nowhere a.bare
  | .call _ r m as => .call Span.nowhere r.bare m (Expr.bareList as)
  | .not _ e => .not Span.nowhere e.bare
  | .binary _ l o r => .binary Span.nowhere l.bare o r.bare
  | .paren _ e => e.bare
  | .error _ => .error Span.nowhere

/-- The expressions of a list with their parentheses and every span forgotten. -/
def Expr.bareList : List Expr → List Expr
  | [] => []
  | e :: es => e.bare :: Expr.bareList es

end

namespace Expr

theorem bareList_eq (es : List Expr) : bareList es = es.map bare := by
  induction es with
  | nil => rfl
  | cons e es ih => rw [bareList, ih, List.map_cons]

mutual

/-- As many parentheses are closed as were opened. -/
theorem depth_yield : ∀ e : Expr, depth e.yield = 0
  | integer .. | boolean _ true | boolean _ false | identifier .. | this _ | newObject ..
  | error _ => rfl
  | newArray _ e | length _ e | not _ e | paren _ e => by
    simp [yield, e.depth_yield, turn]
  | index _ a i => by simp [yield, a.depth_yield, i.depth_yield, turn]
  | call _ r _ as => by simp [yield, r.depth_yield, depth_yieldList as, turn]
  | binary _ l _ r => by simp [yield, l.depth_yield, r.depth_yield]

theorem depth_yieldList : ∀ es : List Expr, depth (yieldList es) = 0
  | [] => rfl
  | e :: es => by simp [yieldList, e.depth_yield, depth_yieldMore es]

theorem depth_yieldMore : ∀ es : List Expr, depth (yieldMore es) = 0
  | [] => rfl
  | e :: es => by simp [yieldMore, e.depth_yield, depth_yieldMore es, turn]

end

mutual

theorem solids_yield_bare : ∀ e : Expr, solids e.bare.yield = solids e.yield
  | integer .. | boolean _ true | boolean _ false | identifier .. | this _ | newObject ..
  | error _ => rfl
  | newArray _ e | length _ e | not _ e | paren _ e => by
    simp [bare, yield, e.solids_yield_bare, turn]
  | index _ a i => by simp [bare, yield, a.solids_yield_bare, i.solids_yield_bare]
  | call _ r _ as => by simp [bare, yield, r.solids_yield_bare, solids_yieldList_bareList as]
  | binary _ l _ r => by simp [bare, yield, l.solids_yield_bare, r.solids_yield_bare]

theorem solids_yieldList_bareList :
    ∀ es : List Expr, solids (yieldList (bareList es)) = solids (yieldList es)
  | [] => rfl
  | e :: es => by
    simp [bareList, yieldList, e.solids_yield_bare, solids_yieldMore_bareList es]

theorem solids_yieldMore_bareList :
    ∀ es : List Expr, solids (yieldMore (bareList es)) = solids (yieldMore es)
  | [] => rfl
  | e :: es => by
    simp [bareList, yieldMore, e.solids_yield_bare, solids_yieldMore_bareList es]

end

theorem solids_yield_congr {e e' : Expr} (h : e.bare = e'.bare) :
    solids e.yield = solids e'.yield := by
  rw [← e.solids_yield_bare, h, e'.solids_yield_bare]

/-! ## Parentheses around a tree -/

/-- How many pairs of parentheses stand around an expression. -/
def wraps : Expr → Nat
  | paren _ e => e.wraps + 1
  | integer .. | boolean .. | identifier .. | this _ | newArray .. | newObject .. | index ..
  | length .. | call .. | not .. | binary .. | error _ => 0

/--
The terminal that shows what an expression is, and what stands before it. Parentheses around the
expression are passed over, and an error node has no terminals.
-/
def sign? : Expr → Option (List Terminal × Terminal)
  | integer _ v => some ([], number v)
  | boolean _ true => some ([], word .trueKw)
  | boolean _ false => some ([], word .falseKw)
  | identifier _ n => some ([], ident n)
  | this _ => some ([], word .thisKw)
  | newArray .. | newObject .. => some ([], word .newKw)
  | index _ a _ => some (a.yield, word .leftBracket)
  | length _ a | call _ a _ _ => some (a.yield, word .dot)
  | not .. => some ([], word .bang)
  | binary _ l op _ => some (l.yield, word op.tokenKind)
  | paren _ e => e.sign?
  | error _ => none

theorem solids_sign?_bare : ∀ e : Expr,
    e.bare.sign?.map (fun p => solids p.1) = e.sign?.map fun p => solids p.1
  | integer .. | boolean _ true | boolean _ false | identifier .. | this _ | newArray ..
  | newObject .. | not .. | error _ => rfl
  | index _ a _ | length _ a | call _ a _ _ | binary _ a _ _ =>
    congrArg some a.solids_yield_bare
  | paren _ e => e.solids_sign?_bare

theorem depth_of_sign? {ts : List Terminal} {t : Terminal} :
    ∀ {e : Expr}, e.sign? = some (ts, t) → depth ts = 0 ∧ t.turn = 0
  | integer .., rfl | boolean _ true, rfl | boolean _ false, rfl | identifier .., rfl
  | this _, rfl | newArray .., rfl | newObject .., rfl | not .., rfl => ⟨rfl, rfl⟩
  | index _ a _, rfl | length _ a, rfl | call _ a _ _, rfl => ⟨a.depth_yield, rfl⟩
  | binary _ l op _, rfl => ⟨l.depth_yield, turn_operator op⟩
  | paren _ e, h => depth_of_sign? (show e.sign? = some (ts, t) from h)

theorem yield_of_sign? {ts : List Terminal} {t : Terminal} :
    ∀ {e : Expr}, e.sign? = some (ts, t) →
      ∃ us, e.yield = (List.replicate e.wraps (word .leftParen) ++ ts) ++ t :: us
  | integer .., rfl | boolean _ true, rfl | boolean _ false, rfl | identifier .., rfl
  | this _, rfl | newArray .., rfl | newObject .., rfl | not .., rfl | index .., rfl
  | length .., rfl | call .., rfl | binary .., rfl => ⟨_, rfl⟩
  | paren _ e, h => by
    obtain ⟨us, hy⟩ := yield_of_sign? (show e.sign? = some (ts, t) from h)
    refine ⟨us ++ [word .rightParen], ?_⟩
    simp [yield, hy, wraps, List.replicate_succ]

/-- All that an error node in parentheses yields are these. -/
theorem length_yield_of_sign?_eq_none : ∀ {e : Expr}, e.sign? = none →
    e.yield.length = 2 * e.wraps
  | error _, _ => rfl
  | paren _ e, h => by
    have hlen := length_yield_of_sign?_eq_none (show e.sign? = none from h)
    simp only [yield, wraps, List.length_cons, List.length_append, List.length_nil, hlen]
    omega

variable {e e' : Expr} {es es' : List Expr}

/-- The number of parentheses around an expression can be told from its terminals. -/
theorem wraps_eq_of_yield_eq (hbare : e.bare = e'.bare) (hyield : e.yield = e'.yield) :
    e.wraps = e'.wraps := by
  have hsigns := e.solids_sign?_bare.symm.trans (hbare ▸ e'.solids_sign?_bare)
  cases hsign : e.sign? with
  | none =>
    cases hsign' : e'.sign? with
    | none =>
      have hlen := length_yield_of_sign?_eq_none hsign
      have hlen' := length_yield_of_sign?_eq_none hsign'
      rw [hyield] at hlen
      omega
    | some p => simp [hsign, hsign'] at hsigns
  | some p =>
    cases hsign' : e'.sign? with
    | none => simp [hsign, hsign'] at hsigns
    | some p' =>
      obtain ⟨hd, ht⟩ := depth_of_sign? hsign
      obtain ⟨hd', ht'⟩ := depth_of_sign? hsign'
      obtain ⟨us, hy⟩ := yield_of_sign? hsign
      obtain ⟨us', hy'⟩ := yield_of_sign? hsign'
      have hsolids : solids (List.replicate e.wraps (word .leftParen) ++ p.1) =
          solids (List.replicate e'.wraps (word .leftParen) ++ p'.1) := by
        simpa [solids_replicate, hsign, hsign'] using hsigns
      rw [hy, hy'] at hyield
      obtain ⟨hbefore, -⟩ := eq_of_append_cons_eq ht ht' hsolids hyield
      have hdepth := congrArg depth hbefore
      simp only [depth_append, depth_replicate, hd, hd'] at hdepth
      omega

/-! ## Equal yields -/

theorem exists_of_wraps_eq_succ {k : Nat} (h : e.wraps = k + 1) : ∃ s e', e = paren s e' := by
  cases e with
  | paren s e' => exact ⟨s, e', rfl⟩
  | _ => exact absurd h (by simp [wraps])

/-- Operands in front of an operator are the same if they may differ in parentheses only. -/
theorem yield_eq_of_append_cons_eq {t t' : Terminal} {us us' : List Terminal} (ht : t.turn = 0)
    (ht' : t'.turn = 0) (hbare : e.bare = e'.bare)
    (h : e.yield ++ t :: us = e'.yield ++ t' :: us') :
    e.yield = e'.yield ∧ us = us' :=
  eq_of_append_cons_eq ht ht' (solids_yield_congr hbare) h

theorem yieldMore_eq_of_yieldList_eq (hbare : bareList es = bareList es')
    (h : yieldList es = yieldList es') : yieldMore es = yieldMore es' := by
  cases es with
  | nil =>
    cases es' with
    | nil => rfl
    | cons e' es' => cases hbare
  | cons e es =>
    cases es' with
    | nil => cases hbare
    | cons e' es' => exact congrArg (word .comma :: ·) h

theorem yield_eq_of_yieldMore_eq (hbare : e.bare = e'.bare) (hbares : bareList es = bareList es')
    (h : e.yield ++ yieldMore es = e'.yield ++ yieldMore es') :
    e.yield = e'.yield ∧ yieldMore es = yieldMore es' := by
  cases es with
  | nil =>
    cases es' with
    | nil => simpa [yieldMore] using h
    | cons d' es' => cases hbares
  | cons d es =>
    cases es' with
    | nil => cases hbares
    | cons d' es' =>
      obtain ⟨he, hes⟩ := yield_eq_of_append_cons_eq rfl rfl hbare h
      exact ⟨he, congrArg (word .comma :: ·) hes⟩

mutual

/-- Trees that differ at most in parentheses are the same up to spans if they yield the same. -/
theorem withoutSpans_eq_of_yield_eq : ∀ e e' : Expr, e.bare = e'.bare → e.yield = e'.yield →
    e.withoutSpans = e'.withoutSpans
  | paren s e, e', hb, hy => by
    obtain ⟨s', e', rfl⟩ := exists_of_wraps_eq_succ (wraps_eq_of_yield_eq hb hy).symm
    have hinner : e.yield = e'.yield := by simpa [yield] using hy
    rw [withoutSpans, withoutSpans, withoutSpans_eq_of_yield_eq e e' hb hinner]
  | integer .., e', hb, hy | boolean .., e', hb, hy | identifier .., e', hb, hy
  | this _, e', hb, hy | newObject .., e', hb, hy | error _, e', hb, hy => by
    have hw := wraps_eq_of_yield_eq hb hy
    cases e' with
    | paren => cases hw
    | _ => cases hb <;> rfl
  | newArray _ e, e', hb, hy => by
    have hw := wraps_eq_of_yield_eq hb hy
    cases e' with
    | paren => cases hw
    | newArray s' e' =>
      have hbe : e.bare = e'.bare := by simpa only [bare, newArray.injEq, true_and] using hb
      have he : e.yield = e'.yield := by simpa [yield] using hy
      rw [withoutSpans, withoutSpans, withoutSpans_eq_of_yield_eq e e' hbe he]
    | _ => cases hb
  | not _ e, e', hb, hy => by
    have hw := wraps_eq_of_yield_eq hb hy
    cases e' with
    | paren => cases hw
    | not s' e' =>
      have hbe : e.bare = e'.bare := by simpa only [bare, not.injEq, true_and] using hb
      have he : e.yield = e'.yield := List.tail_eq_of_cons_eq hy
      rw [withoutSpans, withoutSpans, withoutSpans_eq_of_yield_eq e e' hbe he]
    | _ => cases hb
  | index _ a i, e', hb, hy => by
    have hw := wraps_eq_of_yield_eq hb hy
    cases e' with
    | paren => cases hw
    | index s' a' i' =>
      obtain ⟨hba, hbi⟩ : a.bare = a'.bare ∧ i.bare = i'.bare := by simpa [bare] using hb
      obtain ⟨ha, hrest⟩ := yield_eq_of_append_cons_eq rfl rfl hba hy
      have hi : i.yield = i'.yield := List.append_cancel_right hrest
      rw [withoutSpans, withoutSpans, withoutSpans_eq_of_yield_eq a a' hba ha,
        withoutSpans_eq_of_yield_eq i i' hbi hi]
    | _ => cases hb
  | length _ a, e', hb, hy => by
    have hw := wraps_eq_of_yield_eq hb hy
    cases e' with
    | paren => cases hw
    | length s' a' =>
      have hba : a.bare = a'.bare := by simpa [bare] using hb
      have ha : a.yield = a'.yield := List.append_cancel_right hy
      rw [withoutSpans, withoutSpans, withoutSpans_eq_of_yield_eq a a' hba ha]
    | _ => cases hb
  | call _ r m es, e', hb, hy => by
    have hw := wraps_eq_of_yield_eq hb hy
    cases e' with
    | paren => cases hw
    | call s' r' m' es' =>
      obtain ⟨hbr, rfl, hbs⟩ : r.bare = r'.bare ∧ m = m' ∧ bareList es = bareList es' := by
        simpa [bare] using hb
      obtain ⟨hr, hrest⟩ := yield_eq_of_append_cons_eq rfl rfl hbr hy
      have hes : yieldList es = yieldList es' := by simpa using hrest
      have hmore := yieldMore_eq_of_yieldList_eq hbs hes
      rw [withoutSpans, withoutSpans, withoutSpans_eq_of_yield_eq r r' hbr hr,
        withoutSpansList_eq_of_yieldMore_eq es es' hbs hmore]
    | _ => cases hb
  | binary _ l op r, e', hb, hy => by
    have hw := wraps_eq_of_yield_eq hb hy
    cases e' with
    | paren => cases hw
    | binary s' l' op' r' =>
      obtain ⟨hbl, rfl, hbr⟩ : l.bare = l'.bare ∧ op = op' ∧ r.bare = r'.bare := by
        simpa [bare] using hb
      have hop := turn_operator op
      obtain ⟨hl, hr⟩ := yield_eq_of_append_cons_eq hop hop hbl hy
      rw [withoutSpans, withoutSpans, withoutSpans_eq_of_yield_eq l l' hbl hl,
        withoutSpans_eq_of_yield_eq r r' hbr hr]
    | _ => cases hb

theorem withoutSpansList_eq_of_yieldMore_eq : ∀ es es' : List Expr,
    bareList es = bareList es' → yieldMore es = yieldMore es' →
      withoutSpansList es = withoutSpansList es'
  | [], [], _, _ => rfl
  | [], _ :: _, hb, _ | _ :: _, [], hb, _ => nomatch hb
  | e :: es, e' :: es', hb, hy => by
    obtain ⟨hbe, hbs⟩ := List.cons_eq_cons.1 hb
    obtain ⟨he, hes⟩ := yield_eq_of_yieldMore_eq hbe hbs (List.tail_eq_of_cons_eq hy)
    rw [withoutSpansList, withoutSpansList, withoutSpans_eq_of_yield_eq e e' hbe he,
      withoutSpansList_eq_of_yieldMore_eq es es' hbs hes]

end

end Expr

end MiniJava
