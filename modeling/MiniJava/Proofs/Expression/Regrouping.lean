import MiniJava.Proofs.Expression.Complete

/-!
# Any operands make an expression

Terminals that spell operands with operators around them are read, however tightly the operands
hold together: reading groups them in its own way. So the terminals of a tree are those of a
grouped tree, although that may be another one.
-/

namespace MiniJava

open Terminal

/-- The terminals of an expression that is read. -/
def Terminal.FormExpression (ts : List Terminal) : Prop := ∃ e : Expr, e.Readable ∧ e.yield = ts

namespace Expr

variable {s : Span} {a i l r : Expr} {op : BinaryOp} {es : List Expr}

/-! ## Readable trees from readable operands -/

theorem Readable.binary (hl : l.Readable) (hr : r.Readable) (hsl : op.precedence ≤ l.strength)
    (hsr : op.precedence < r.strength) : (Expr.binary s l op r).Readable :=
  List.forall_mem_cons.2 ⟨⟨⟨hsl, hsr⟩, id⟩, List.forall_mem_append.2 ⟨hl, hr⟩⟩

theorem Readable.of_binary (h : (Expr.binary s l op r).Readable) :
    (l.Readable ∧ r.Readable) ∧ op.precedence ≤ l.strength ∧ op.precedence < r.strength := by
  obtain ⟨hn, h⟩ := List.forall_mem_cons.1 h
  exact ⟨List.forall_mem_append.1 h, hn.grouped⟩

theorem Readable.index (ha : a.Readable) (hi : i.Readable)
    (hs : Operator.postfixLevel ≤ a.strength) : (Expr.index s a i).Readable :=
  List.forall_mem_cons.2 ⟨⟨hs, id⟩, List.forall_mem_append.2 ⟨ha, hi⟩⟩

theorem Readable.length (ha : a.Readable) (hs : Operator.postfixLevel ≤ a.strength) :
    (Expr.length s a).Readable :=
  List.forall_mem_cons.2 ⟨⟨hs, id⟩, ha⟩

theorem Readable.call {m : String} (hr : r.Readable) (hes : ∀ n ∈ nodesList es, n.Readable)
    (hs : Operator.postfixLevel ≤ r.strength) : (Expr.call s r m es).Readable :=
  List.forall_mem_cons.2 ⟨⟨hs, id⟩, List.forall_mem_append.2 ⟨hr, hes⟩⟩

theorem Readable.not (ha : a.Readable) (hs : atomic ≤ a.strength) : (Expr.not s a).Readable :=
  List.forall_mem_cons.2 ⟨⟨hs, id⟩, ha⟩

/-- Only an operator between two operands holds together less tightly than what follows one. -/
theorem postfixLevel_le_strength_or_binary (e : Expr) :
    Operator.postfixLevel ≤ e.strength ∨ ∃ s l op r, e = binary s l op r := by
  cases e with
  | binary s l op r => exact .inr ⟨s, l, op, r, rfl⟩
  | index | length | call => exact .inl (Nat.le_refl _)
  | _ => exact .inl (show Operator.postfixLevel ≤ atomic by decide)

/-! ## One more operator -/

/--
An operator and a right operand that is tight enough for it, after any expression: they go to the
last operand on the left that the operator does not break up.
-/
theorem Readable.exists_hang (hr : r.Readable) (hsr : op.precedence < r.strength) :
    ∀ l : Expr, l.Readable → ∃ e : Expr, e.Readable ∧
      min l.strength op.precedence ≤ e.strength ∧
      e.yield = l.yield ++ word op.tokenKind :: r.yield
  | l, hl => by
    by_cases hsl : op.precedence ≤ l.strength
    · exact ⟨.binary .nowhere l op r, hl.binary hr hsl hsr, Nat.min_le_right .., rfl⟩
    obtain htight | ⟨s, a, op', b, rfl⟩ := l.postfixLevel_le_strength_or_binary
    · exact absurd (Nat.le_trans (Nat.le_of_lt (Operator.precedence_lt op)) htight) hsl
    obtain ⟨⟨ha, hb⟩, hsa, hsb⟩ := hl.of_binary
    obtain ⟨e, he, hmin, hy⟩ := exists_hang hr hsr b hb
    have hlt : op'.precedence < op.precedence := Nat.lt_of_not_le hsl
    refine ⟨.binary s a op' e, ha.binary he hsa ?_, Nat.min_le_left .., ?_⟩
    · exact Nat.lt_of_lt_of_le (Nat.lt_min.2 ⟨hsb, hlt⟩) hmin
    · simp [yield, hy]

end Expr

namespace Terminal.FormExpression

open MiniJava.Expr

variable {ts us : List Terminal} {op : BinaryOp}

/-- An operator between any two expressions: the left one goes to the first operand on the right. -/
theorem binary_of_readable {l : Expr} (hl : l.Readable) (op : BinaryOp) :
    ∀ r : Expr, r.Readable → FormExpression (l.yield ++ word op.tokenKind :: r.yield)
  | r, hr => by
    by_cases hsr : op.precedence < r.strength
    · obtain ⟨e, he, -, hy⟩ := hr.exists_hang hsr l hl
      exact ⟨e, he, hy⟩
    obtain htight | ⟨s, a, op', b, rfl⟩ := r.postfixLevel_le_strength_or_binary
    · exact absurd (Nat.lt_of_lt_of_le (Operator.precedence_lt op) htight) hsr
    obtain ⟨⟨ha, hb⟩, -, hsb⟩ := hr.of_binary
    obtain ⟨e, he, hy⟩ := binary_of_readable hl op a ha
    obtain ⟨e', he', -, hy'⟩ := hb.exists_hang hsb e he
    exact ⟨e', he', by simp [hy', hy, yield]⟩

theorem binary (hl : FormExpression ts) (hr : FormExpression us) :
    FormExpression (ts ++ word op.tokenKind :: us) := by
  obtain ⟨l, hl, rfl⟩ := hl
  obtain ⟨r, hr, rfl⟩ := hr
  exact binary_of_readable hl op r hr

/-! ## One more form after an operand -/

/-- What follows an operand goes to the last operand of an expression. -/
theorem append_of_readable (build : Expr → Expr)
    (hbuild : ∀ a : Expr, a.Readable → Operator.postfixLevel ≤ a.strength → (build a).Readable)
    (hyield : ∀ a : Expr, (build a).yield = a.yield ++ us) :
    ∀ a : Expr, a.Readable → FormExpression (a.yield ++ us)
  | a, ha => by
    obtain hs | ⟨s, l, op, r, rfl⟩ := a.postfixLevel_le_strength_or_binary
    · exact ⟨build a, hbuild a ha hs, hyield a⟩
    obtain ⟨⟨hl, hr⟩, -, -⟩ := ha.of_binary
    have hright := append_of_readable build hbuild hyield r hr
    rw [yield, List.append_assoc, List.cons_append]
    exact binary ⟨l, hl, rfl⟩ hright

theorem index {i : Expr} (ha : FormExpression ts) (hi : i.Readable) :
    FormExpression (ts ++ word .leftBracket :: (i.yield ++ [word .rightBracket])) := by
  obtain ⟨a, ha, rfl⟩ := ha
  exact append_of_readable (fun a => .index .nowhere a i)
    (fun _ ha hs => ha.index hi hs) (fun _ => rfl) a ha

theorem length (ha : FormExpression ts) :
    FormExpression (ts ++ [word .dot, word .lengthKw]) := by
  obtain ⟨a, ha, rfl⟩ := ha
  exact append_of_readable (.length .nowhere)
    (fun _ ha hs => ha.length hs) (fun _ => rfl) a ha

theorem call {es : List Expr} (m : String) (hr : FormExpression ts)
    (hes : ∀ n ∈ nodesList es, n.Readable) :
    FormExpression (ts ++ word .dot :: ident m :: word .leftParen ::
      (yieldList es ++ [word .rightParen])) := by
  obtain ⟨r, hr, rfl⟩ := hr
  exact append_of_readable (fun r => .call .nowhere r m es)
    (fun _ hr hs => hr.call hes hs) (fun _ => rfl) r hr

/-! ## A negation -/

/-- A negation goes to the first operand of an expression. -/
theorem not_of_readable : ∀ e : Expr, e.Readable → FormExpression (word .bang :: e.yield)
  | .binary _ l op r, h => by
    obtain ⟨⟨hl, hr⟩, -, -⟩ := h.of_binary
    exact binary (not_of_readable l hl) ⟨r, hr, rfl⟩
  | .index _ a i, h => by
    obtain ⟨ha, hi⟩ := List.forall_mem_append.1 (List.forall_mem_cons.1 h).2
    exact index (not_of_readable a ha) hi
  | .length _ a, h => length (not_of_readable a (List.forall_mem_cons.1 h).2)
  | .call _ r m es, h => by
    obtain ⟨hr, hes⟩ := List.forall_mem_append.1 (List.forall_mem_cons.1 h).2
    exact call m (not_of_readable r hr) hes
  | .integer .., h | .boolean .., h | .identifier .., h | .this _, h | .newArray .., h
  | .newObject .., h | .not .., h | .paren .., h | .error _, h =>
    ⟨.not .nowhere _, h.not (Nat.le_refl _), rfl⟩

theorem not (h : FormExpression ts) : FormExpression (word .bang :: ts) := by
  obtain ⟨e, he, rfl⟩ := h
  exact not_of_readable e he

end Terminal.FormExpression

/-! ## Any tree -/

mutual

/-- The terminals of a tree without error nodes are those of an expression that is read. -/
theorem Expr.formExpression_yield :
    ∀ e : Expr, (∀ n ∈ e.nodes, ¬ n.IsError) → FormExpression e.yield
  | .integer s v, _ => ⟨.integer s v, List.forall_mem_singleton.2 ⟨trivial, id⟩, rfl⟩
  | .boolean s v, _ => ⟨.boolean s v, List.forall_mem_singleton.2 ⟨trivial, id⟩, rfl⟩
  | .identifier s n, _ => ⟨.identifier s n, List.forall_mem_singleton.2 ⟨trivial, id⟩, rfl⟩
  | .this s, _ => ⟨.this s, List.forall_mem_singleton.2 ⟨trivial, id⟩, rfl⟩
  | .newObject s n, _ => ⟨.newObject s n, List.forall_mem_singleton.2 ⟨trivial, id⟩, rfl⟩
  | .newArray s e, h => by
    obtain ⟨e', he, hy⟩ := e.formExpression_yield (List.forall_mem_cons.1 h).2
    refine ⟨.newArray s e', List.forall_mem_cons.2 ⟨⟨trivial, id⟩, he⟩, ?_⟩
    rw [Expr.yield, hy, Expr.yield]
  | .paren s e, h => by
    obtain ⟨e', he, hy⟩ := e.formExpression_yield (List.forall_mem_cons.1 h).2
    refine ⟨.paren s e', List.forall_mem_cons.2 ⟨⟨trivial, id⟩, he⟩, ?_⟩
    rw [Expr.yield, hy, Expr.yield]
  | .index _ a i, h => by
    obtain ⟨ha, hi⟩ := List.forall_mem_append.1 (List.forall_mem_cons.1 h).2
    obtain ⟨i', hi', hy⟩ := i.formExpression_yield hi
    rw [Expr.yield, ← hy]
    exact (a.formExpression_yield ha).index hi'
  | .length _ a, h => (a.formExpression_yield (List.forall_mem_cons.1 h).2).length
  | .call _ r m es, h => by
    obtain ⟨hr, hes⟩ := List.forall_mem_append.1 (List.forall_mem_cons.1 h).2
    obtain ⟨es', hes', hy, -⟩ := Expr.exists_readableList es hes
    rw [Expr.yield, ← hy]
    exact (r.formExpression_yield hr).call m hes'
  | .not _ e, h => (e.formExpression_yield (List.forall_mem_cons.1 h).2).not
  | .binary _ l _ r, h => by
    obtain ⟨hl, hr⟩ := List.forall_mem_append.1 (List.forall_mem_cons.1 h).2
    exact (l.formExpression_yield hl).binary (r.formExpression_yield hr)
  | .error s, h => absurd trivial (h (.expr (.error s)) List.mem_cons_self)

theorem Expr.exists_readableList :
    ∀ es : List Expr, (∀ n ∈ Expr.nodesList es, ¬ n.IsError) →
      ∃ es' : List Expr, (∀ n ∈ Expr.nodesList es', n.Readable) ∧
        Expr.yieldList es' = Expr.yieldList es ∧ Expr.yieldMore es' = Expr.yieldMore es
  | [], _ => ⟨[], nofun, rfl, rfl⟩
  | e :: es, h => by
    obtain ⟨he, hes⟩ := List.forall_mem_append.1 h
    obtain ⟨e', he', hy⟩ := e.formExpression_yield he
    obtain ⟨es', hes', -, hmore⟩ := Expr.exists_readableList es hes
    refine ⟨e' :: es', List.forall_mem_append.2 ⟨he', hes'⟩, ?_, ?_⟩
    · rw [Expr.yieldList, Expr.yieldList, hy, hmore]
    · rw [Expr.yieldMore, Expr.yieldMore, hy, hmore]

end

end MiniJava
