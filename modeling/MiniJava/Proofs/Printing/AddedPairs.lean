import MiniJava.Printing.Spelling
import MiniJava.Proofs.Expression.Parentheses
import MiniJava.Proofs.Printing.Grouping

/-!
# The parentheses that are put in

An operand is printed in parentheses where it does not hold together tightly enough. All these
pairs are listed with what is printed around them, and for each of them there is the tree that is
printed if this one pair is left out.
-/

namespace MiniJava

open Piece

/-! ## Expressions around an operand -/

/-- An expression with one operand missing. -/
inductive Expr.Frame where
  | newArray (span : Span)
  | array (span : Span) (position : Expr)
  | position (span : Span) (array : Expr)
  | length (span : Span)
  | receiver (span : Span) (method : String) (args : List Expr)
  | argument (span : Span) (receiver : Expr) (method : String) (before after : List Expr)
  | not (span : Span)
  | left (span : Span) (op : BinaryOp) (right : Expr)
  | right (span : Span) (left : Expr) (op : BinaryOp)
  | paren (span : Span)

namespace Expr.Frame

/-- The expression with the operand that was missing. -/
def fill : Frame → Expr → Expr
  | newArray s, e => .newArray s e
  | array s i, e => .index s e i
  | position s a, e => .index s a e
  | length s, e => .length s e
  | receiver s m as, e => .call s e m as
  | argument s r m before after, e => .call s r m (before ++ e :: after)
  | not s, e => .not s e
  | left s op r, e => .binary s e op r
  | right s l op, e => .binary s l op e
  | paren s, e => .paren s e

/-- How tightly the operand must hold together to be printed as it is. -/
def level : Frame → Nat
  | newArray _ | position .. | argument .. | paren _ => 0
  | array .. | length _ | receiver .. => Operator.postfixLevel
  | not _ => atomic
  | left _ op _ => op.precedence
  | right _ _ op => op.precedence + 1

/-- The pieces before the operand. -/
def before : Frame → List Piece
  | newArray _ => [word .newKw, space, word .intKw, word .leftBracket]
  | position _ a => a.spell ++ [word .leftBracket]
  | argument _ r m before _ =>
    r.spell ++ [word .dot, ident m, word .leftParen] ++
      before.flatMap fun e => e.spell ++ [word .comma, space]
  | not _ => [word .bang]
  | right _ l op => l.spell ++ [space, word op.tokenKind, space]
  | paren _ => [word .leftParen]
  | array .. | length _ | receiver .. | left .. => []

/-- The pieces after the operand. -/
def after : Frame → List Piece
  | newArray _ | position .. => [word .rightBracket]
  | array _ i => [word .leftBracket] ++ i.spell ++ [word .rightBracket]
  | length _ => [word .dot, word .lengthKw]
  | receiver _ m as => [word .dot, ident m, word .leftParen] ++ spellList as ++ [word .rightParen]
  | argument _ _ _ _ after => spellMore after ++ [word .rightParen]
  | left _ op r => [space, word op.tokenKind, space] ++ r.spell
  | paren _ => [word .rightParen]
  | not _ | right .. => []

/-- The other operands. -/
def others : Frame → List Expr
  | array _ e | position _ e | left _ _ e | right _ e _ => [e]
  | receiver _ _ as => as
  | argument _ r _ before after => r :: (before ++ after)
  | newArray _ | length _ | not _ | paren _ => []

/-- The other operands with the parentheses that their structure asks for. -/
def grouped : Frame → Frame
  | newArray s => newArray s
  | array s i => array s i.grouped
  | position s a => position s (a.grouped.guarded Operator.postfixLevel)
  | length s => length s
  | receiver s m as => receiver s m (groupedList as)
  | argument s r m before after =>
    argument s (r.grouped.guarded Operator.postfixLevel) m (groupedList before) (groupedList after)
  | not s => not s
  | left s op r => left s op (r.grouped.guarded (op.precedence + 1))
  | right s l op => right s (l.grouped.guarded op.precedence) op
  | paren s => paren s

end Expr.Frame

/-! ## Pairs -/

/-- A pair of parentheses in a row of pieces: what is before it, in it and after it. -/
structure Pair where
  before : List Piece
  inside : List Piece
  after : List Piece
deriving DecidableEq, Inhabited

namespace Pair

/-- The row with the pair. -/
def closed (p : Pair) : List Piece :=
  p.before ++ ([word .leftParen] ++ p.inside ++ [word .rightParen]) ++ p.after

/-- The row without the pair. -/
def opened (p : Pair) : List Piece := p.before ++ p.inside ++ p.after

/-- The pair in a longer row. -/
def within (before after : List Piece) (p : Pair) : Pair :=
  ⟨before ++ p.before, p.inside, p.after ++ after⟩

/-- The pair in an operand that may itself be in parentheses. -/
def under (level : Nat) (operand : Expr) (p : Pair) : Pair :=
  if operand.strength < level then p.within [word .leftParen] [word .rightParen] else p

/-- The pairs are in the order in which they open, and no two open at one place. -/
def Ordered (ps : List Pair) : Prop := ps.Pairwise fun p q => p.before.length < q.before.length

end Pair

namespace Expr

/-- The pair around an operand, if one is put in, and then those in the operand. -/
def Frame.pairs (f : Frame) (operand : Expr) (inner : List Pair) : List Pair :=
  (if operand.strength < f.level then
    [⟨f.grouped.before, operand.grouped.spell, f.grouped.after⟩] else []) ++
  inner.map fun p => (p.under f.level operand).within f.grouped.before f.grouped.after

mutual

/-- The pairs of parentheses that are put in when an expression is printed. -/
def addedPairs : Expr → List Pair
  | newArray s e => (Frame.newArray s).pairs e e.addedPairs
  | index s a i =>
    (Frame.array s i).pairs a a.addedPairs ++ (Frame.position s a).pairs i i.addedPairs
  | length s a => (Frame.length s).pairs a a.addedPairs
  | call s r m as => (Frame.receiver s m as).pairs r r.addedPairs ++ addedPairsList s r m as []
  | not s e => (Frame.not s).pairs e e.addedPairs
  | binary s l op r =>
    (Frame.left s op r).pairs l l.addedPairs ++ (Frame.right s l op).pairs r r.addedPairs
  | paren s e => (Frame.paren s).pairs e e.addedPairs
  | integer .. | boolean .. | identifier .. | this _ | newObject .. | error _ => []

/-- The pairs that are put into the arguments of a call that come after some others. -/
def addedPairsList (s : Span) (r : Expr) (m : String) : List Expr → List Expr → List Pair
  | [], _ => []
  | a :: as, before =>
    (Frame.argument s r m before as).pairs a a.addedPairs ++
      addedPairsList s r m as (before ++ [a])

end

/-! ## What is printed -/

theorem spellMore_eq_of_ne_nil {es : List Expr} (h : es ≠ []) :
    spellMore es = [word .comma, space] ++ spellList es := by
  cases es with
  | nil => exact absurd rfl h
  | cons e es => rw [spellMore, spellList, List.append_assoc]

theorem spellList_append_cons (before : List Expr) (e : Expr) (es : List Expr) :
    spellList (before ++ e :: es) =
      (before.flatMap fun e => e.spell ++ [word .comma, space]) ++ (e.spell ++ spellMore es) := by
  induction before with
  | nil => rfl
  | cons b before ih =>
    have hne : before ++ e :: es ≠ [] := List.append_ne_nil_of_right_ne_nil _ (List.cons_ne_nil _ _)
    rw [List.cons_append, spellList, spellMore_eq_of_ne_nil hne, ih, List.flatMap_cons]
    simp only [List.append_assoc]

namespace Frame

theorem spell_fill (f : Frame) (e : Expr) : (f.fill e).spell = f.before ++ e.spell ++ f.after := by
  cases f with
  | argument s r m before after => simp [fill, Expr.spell, Frame.before, Frame.after,
      spellList_append_cons]
  | _ => simp [fill, Expr.spell, before, after]

theorem grouped_fill (f : Frame) (e : Expr) :
    (f.fill e).grouped = f.grouped.fill (e.grouped.guarded f.level) := by
  cases f with
  | newArray | position | paren =>
    rw [level, guarded_eq_self (Nat.zero_le _)]
    rfl
  | argument s r m before after =>
    rw [level, guarded_eq_self (Nat.zero_le _)]
    simp [fill, grouped, Expr.grouped, groupedList_eq]
  | array | length | receiver | not | left | right => rfl

theorem level_grouped (f : Frame) : f.grouped.level = f.level := by
  cases f <;> rfl

theorem strength_fill (f : Frame) (e e' : Expr) : (f.fill e).strength = (f.fill e').strength := by
  cases f <;> rfl

theorem bare_fill_congr (f : Frame) {e e' : Expr} (h : e.bare = e'.bare) :
    (f.fill e).bare = (f.fill e').bare := by
  cases f <;> simp [fill, bare, bareList_eq, h]

theorem mem_nodes_fill (f : Frame) {e : Expr} {n : Node} :
    n ∈ (f.fill e).nodes ↔ n = .expr (f.fill e) ∨ n ∈ e.nodes ∨ ∃ d ∈ f.others, n ∈ d.nodes := by
  cases f <;>
    simp [fill, nodes, nodesList_eq, others, or_and_right, exists_or, or_comm, or_left_comm]

theorem nodes_subset_fill (f : Frame) (e : Expr) : e.nodes ⊆ (f.fill e).nodes := fun _ hn =>
  (mem_nodes_fill f).2 (.inr (.inl hn))

/-- What a node is printed with does not depend on the operands below it. -/
theorem spellable_node_fill (f : Frame) {e e' : Expr} (h : (Node.expr (f.fill e)).Spellable) :
    (Node.expr (f.fill e')).Spellable := by
  cases f <;> exact ⟨h.named, h.inRange, h.noError⟩

theorem spellable_fill (f : Frame) {e e' : Expr} (h : ∀ n ∈ (f.fill e).nodes, n.Spellable)
    (h' : ∀ n ∈ e'.nodes, n.Spellable) : ∀ n ∈ (f.fill e').nodes, n.Spellable := by
  intro n hn
  rcases (mem_nodes_fill f).1 hn with rfl | hn | ⟨d, hd, hn⟩
  · exact spellable_node_fill f (h _ ((mem_nodes_fill f).2 (.inl rfl)))
  · exact h' n hn
  · exact h n ((mem_nodes_fill f).2 (.inr (.inr ⟨d, hd, hn⟩)))

/-- An operand that does not hold together tightly enough is no operand of a grouped tree. -/
theorem not_grouped_fill (f : Frame) {e : Expr} (h : e.strength < f.level) :
    ¬ (Node.expr (f.fill e)).Grouped := by
  cases f with
  | newArray | position | argument | paren => exact absurd h (Nat.not_lt_zero _)
  | array | length | receiver | not => exact Nat.not_le.2 h
  | left => exact fun hn => Nat.not_le.2 h hn.1
  | right => exact fun hn => Nat.not_lt.2 (Nat.le_of_lt_succ h) hn.2

end Frame

theorem spellable_grouped {e : Expr} (he : ∀ n ∈ e.nodes, n.Spellable) :
    ∀ n ∈ e.grouped.nodes, n.Spellable := by
  intro n hn
  have hlegal := e.legal_grouped he n hn
  exact hlegal.spellable hlegal.noError

theorem bare_guarded (e : Expr) (level : Nat) : (e.guarded level).bare = e.bare := by
  unfold guarded
  split <;> rfl

mutual

/-- Grouping changes parentheses only. -/
theorem bare_grouped : ∀ e : Expr, e.grouped.bare = e.bare
  | integer .. | boolean .. | identifier .. | this _ | newObject .. | error _ => rfl
  | newArray _ e | length _ e | not _ e | paren _ e => by
    simp [grouped, bare, bare_guarded, e.bare_grouped]
  | index _ a i => by simp [grouped, bare, bare_guarded, a.bare_grouped, i.bare_grouped]
  | call _ r _ as => by
    simp [grouped, bare, bare_guarded, r.bare_grouped, bareList_groupedList as]
  | binary _ l _ r => by simp [grouped, bare, bare_guarded, l.bare_grouped, r.bare_grouped]

theorem bareList_groupedList : ∀ es : List Expr, bareList (groupedList es) = bareList es
  | [] => rfl
  | e :: es => by rw [groupedList, bareList, bareList, e.bare_grouped, bareList_groupedList es]

end

namespace Frame

variable {f : Frame} {a b : Expr}

/-! ### Another operand in the grouped tree -/

theorem bare_fill_grouped (h : b.bare = a.bare) : (f.grouped.fill b).bare = (f.fill a).bare := by
  rw [← bare_grouped (f.fill a), grouped_fill]
  exact bare_fill_congr f.grouped (by rw [h, bare_guarded, bare_grouped])

theorem strength_fill_grouped (f : Frame) (a b : Expr) :
    (f.grouped.fill b).strength = (f.fill a).strength := by
  rw [← strength_grouped (f.fill a), grouped_fill]
  exact strength_fill ..

theorem spellable_fill_grouped (h : ∀ n ∈ (f.fill a).nodes, n.Spellable)
    (hb : ∀ n ∈ b.nodes, n.Spellable) : ∀ n ∈ (f.grouped.fill b).nodes, n.Spellable := by
  refine spellable_fill f.grouped (e := a.grouped.guarded f.level) ?_ hb
  rw [← grouped_fill]
  exact spellable_grouped h

end Frame

theorem spell_guarded (e : Expr) (level : Nat) : (e.guarded level).spell =
    if e.strength < level then [word .leftParen] ++ e.spell ++ [word .rightParen] else e.spell := by
  unfold guarded
  split
  · simp [spell]
  · rfl

theorem spellable_guarded {e : Expr} (level : Nat) (h : ∀ n ∈ e.nodes, n.Spellable) :
    ∀ n ∈ (e.guarded level).nodes, n.Spellable := by
  unfold guarded
  split
  · exact List.forall_mem_cons.2 ⟨⟨nofun, trivial, id⟩, h⟩
  · exact h

end Expr

/-! ## Leaving one pair out -/

namespace Pair

open MiniJava.Expr

variable {p : Pair} {a a' : Expr}

/-- The second tree is printed as it is when the first is printed without the pair. -/
structure Opens (p : Pair) (e e' : Expr) : Prop where
  closed : p.closed = e.grouped.spell
  opened : p.opened = e'.spell
  bare : e'.bare = e.bare
  strength : e'.strength = e.strength
  spellable : (∀ n ∈ e.nodes, n.Spellable) → ∀ n ∈ e'.nodes, n.Spellable
  /-- The operand that was in the pair does not hold together tightly enough without it. -/
  loose : ∃ n ∈ e'.nodes, ¬ n.Grouped

theorem closed_within (before after : List Piece) (p : Pair) :
    (p.within before after).closed = before ++ p.closed ++ after := by
  simp [closed, within]

theorem opened_within (before after : List Piece) (p : Pair) :
    (p.within before after).opened = before ++ p.opened ++ after := by
  simp [opened, within]

theorem Opens.closed_under (h : p.Opens a a') (level : Nat) :
    (p.under level a).closed = (a.grouped.guarded level).spell := by
  rw [spell_guarded, strength_grouped, under, ← h.closed]
  split
  · exact closed_within ..
  · rfl

theorem Opens.opened_under (h : p.Opens a a') (level : Nat) :
    (p.under level a).opened = (a'.guarded level).spell := by
  rw [spell_guarded, h.strength, under, ← h.opened]
  split
  · exact opened_within ..
  · rfl

/-- The pair around an operand. -/
theorem opens_operand (f : Frame) (h : a.strength < f.level) :
    Opens ⟨f.grouped.before, a.grouped.spell, f.grouped.after⟩ (f.fill a)
      (f.grouped.fill a.grouped) where
  closed := by
    rw [Frame.grouped_fill, Frame.spell_fill, spell_guarded, strength_grouped, if_pos h]
    rfl
  opened := (Frame.spell_fill ..).symm
  bare := Frame.bare_fill_grouped a.bare_grouped
  strength := Frame.strength_fill_grouped ..
  spellable hs := by
    have ha : ∀ n ∈ a.nodes, n.Spellable := fun n hn => hs n (f.nodes_subset_fill a hn)
    exact Frame.spellable_fill_grouped hs (spellable_grouped ha)
  loose := by
    refine ⟨_, (Frame.mem_nodes_fill _).2 (.inl rfl), Frame.not_grouped_fill f.grouped ?_⟩
    rw [strength_grouped, Frame.level_grouped]
    exact h

/-- A pair in an operand. -/
theorem Opens.fill (f : Frame) (h : p.Opens a a') :
    ((p.under f.level a).within f.grouped.before f.grouped.after).Opens (f.fill a)
      (f.grouped.fill (a'.guarded f.level)) where
  closed := by rw [Frame.grouped_fill, Frame.spell_fill, closed_within, h.closed_under]
  opened := by rw [Frame.spell_fill, opened_within, h.opened_under]
  bare := Frame.bare_fill_grouped (by rw [bare_guarded, h.bare])
  strength := Frame.strength_fill_grouped ..
  spellable hs := by
    have ha : ∀ n ∈ a.nodes, n.Spellable := fun n hn => hs n (f.nodes_subset_fill a hn)
    exact Frame.spellable_fill_grouped hs (spellable_guarded _ (h.spellable ha))
  loose := by
    obtain ⟨n, hn, hloose⟩ := h.loose
    refine ⟨n, Frame.nodes_subset_fill _ _ ?_, hloose⟩
    unfold guarded
    split
    · exact List.mem_cons_of_mem _ hn
    · exact hn

end Pair

namespace Expr

theorem Frame.exists_opens (f : Frame) {a : Expr} {inner : List Pair}
    (h : ∀ p ∈ inner, ∃ a' : Expr, p.Opens a a') :
    ∀ p ∈ f.pairs a inner, ∃ e' : Expr, p.Opens (f.fill a) e' := by
  refine List.forall_mem_append.2 ⟨?_, List.forall_mem_map.2 fun p hp => ?_⟩
  · split
    next hlt => exact List.forall_mem_singleton.2 ⟨_, Pair.opens_operand f hlt⟩
    next => exact nofun
  · obtain ⟨a', ha⟩ := h p hp
    exact ⟨_, ha.fill f⟩

mutual

/-- For each pair that is put in there is the tree that is printed without it. -/
theorem exists_opens : ∀ e : Expr, ∀ p ∈ e.addedPairs, ∃ e' : Expr, p.Opens e e'
  | integer .. | boolean .. | identifier .. | this _ | newObject .. | error _ => nofun
  | newArray s e => (Frame.newArray s).exists_opens e.exists_opens
  | length s e => (Frame.length s).exists_opens e.exists_opens
  | not s e => (Frame.not s).exists_opens e.exists_opens
  | paren s e => (Frame.paren s).exists_opens e.exists_opens
  | index s a i =>
    List.forall_mem_append.2 ⟨(Frame.array s i).exists_opens a.exists_opens,
      (Frame.position s a).exists_opens i.exists_opens⟩
  | call s r m as =>
    List.forall_mem_append.2 ⟨(Frame.receiver s m as).exists_opens r.exists_opens,
      exists_opens_list s r m as []⟩
  | binary s l op r =>
    List.forall_mem_append.2 ⟨(Frame.left s op r).exists_opens l.exists_opens,
      (Frame.right s l op).exists_opens r.exists_opens⟩

theorem exists_opens_list (s : Span) (r : Expr) (m : String) : ∀ as before : List Expr,
    ∀ p ∈ addedPairsList s r m as before, ∃ e' : Expr, p.Opens (call s r m (before ++ as)) e'
  | [], _ => nofun
  | a :: as, before => by
    refine List.forall_mem_append.2
      ⟨(Frame.argument s r m before as).exists_opens a.exists_opens, ?_⟩
    have hmore := exists_opens_list s r m as (before ++ [a])
    rwa [List.append_assoc] at hmore

end

/-! ## Each pair once -/

mutual

/-- How many `paren` nodes an expression has. -/
def parens : Expr → Nat
  | newArray _ e | length _ e | not _ e => e.parens
  | index _ a i => a.parens + i.parens
  | call _ r _ as => r.parens + parensList as
  | binary _ l _ r => l.parens + r.parens
  | paren _ e => e.parens + 1
  | integer .. | boolean .. | identifier .. | this _ | newObject .. | error _ => 0

/-- How many `paren` nodes some expressions have. -/
def parensList : List Expr → Nat
  | [] => 0
  | e :: es => e.parens + parensList es

end

/-- How many pairs are put in around an operand. -/
def pairsAround (level : Nat) (e : Expr) : Nat := if e.strength < level then 1 else 0

theorem pairsAround_zero (e : Expr) : e.pairsAround 0 = 0 := rfl

theorem parens_guarded (e : Expr) (level : Nat) :
    (e.guarded level).parens = e.parens + e.pairsAround level := by
  unfold guarded pairsAround
  split <;> rfl

theorem pairsAround_grouped (e : Expr) (level : Nat) :
    e.grouped.pairsAround level = e.pairsAround level := by
  rw [pairsAround, strength_grouped, pairsAround]

theorem Frame.length_pairs (f : Frame) (a : Expr) (inner : List Pair) :
    (f.pairs a inner).length = inner.length + a.pairsAround f.level := by
  unfold Frame.pairs pairsAround
  split <;> simp

mutual

/-- As many pairs are put in as are listed. -/
theorem parens_grouped : ∀ e : Expr, e.grouped.parens = e.parens + e.addedPairs.length
  | integer .. | boolean .. | identifier .. | this _ | newObject .. | error _ => rfl
  | newArray _ e | paren _ e => by
    simp only [grouped, parens, addedPairs, Frame.length_pairs, Frame.level, pairsAround_zero,
      e.parens_grouped]
    omega
  | length _ e | not _ e => by
    simp only [grouped, parens, parens_guarded, pairsAround_grouped, addedPairs,
      Frame.length_pairs, Frame.level, e.parens_grouped]
    omega
  | index _ a i => by
    simp only [grouped, parens, parens_guarded, pairsAround_grouped, addedPairs,
      List.length_append, Frame.length_pairs, Frame.level, pairsAround_zero, a.parens_grouped,
      i.parens_grouped]
    omega
  | call s r m as => by
    simp only [grouped, parens, parens_guarded, pairsAround_grouped, addedPairs,
      List.length_append, Frame.length_pairs, Frame.level, r.parens_grouped,
      parensList_groupedList s r m as []]
    omega
  | binary _ l op r => by
    simp only [grouped, parens, parens_guarded, pairsAround_grouped, addedPairs,
      List.length_append, Frame.length_pairs, Frame.level, l.parens_grouped, r.parens_grouped]
    omega

theorem parensList_groupedList (s : Span) (r : Expr) (m : String) : ∀ as before : List Expr,
    parensList (groupedList as) = parensList as + (addedPairsList s r m as before).length
  | [], _ => rfl
  | a :: as, before => by
    simp only [groupedList, parensList, addedPairsList, List.length_append, Frame.length_pairs,
      Frame.level, pairsAround_zero, a.parens_grouped,
      parensList_groupedList s r m as (before ++ [a])]
    omega

end

theorem Frame.le_length_before {f : Frame} {a : Expr} {inner : List Pair} {p : Pair}
    (hp : p ∈ f.pairs a inner) : f.grouped.before.length ≤ p.before.length := by
  rcases List.mem_append.1 hp with hp | hp
  · split at hp
    next =>
      obtain rfl := List.mem_singleton.1 hp
      exact Nat.le_refl _
    next => exact absurd hp List.not_mem_nil
  · obtain ⟨q, -, rfl⟩ := List.mem_map.1 hp
    simp [Pair.within]

theorem Frame.length_before_lt {f : Frame} {a : Expr} {p : Pair}
    (hp : p ∈ f.pairs a a.addedPairs) : p.before.length <
      f.grouped.before.length + (a.grouped.guarded f.level).spell.length := by
  rcases List.mem_append.1 hp with hp | hp
  · split at hp
    next hlt =>
      obtain rfl := List.mem_singleton.1 hp
      rw [spell_guarded, strength_grouped, if_pos hlt]
      simp
    next => exact absurd hp List.not_mem_nil
  · obtain ⟨q, hq, rfl⟩ := List.mem_map.1 hp
    obtain ⟨a', ha⟩ := a.exists_opens q hq
    rw [← ha.closed_under]
    simp only [Pair.within, Pair.closed, List.length_append, List.length_cons]
    omega

theorem Frame.ordered_pairs (f : Frame) {a : Expr} (h : Pair.Ordered a.addedPairs) :
    Pair.Ordered (f.pairs a a.addedPairs) := by
  refine List.pairwise_append.2 ⟨?_, ?_, ?_⟩
  · split <;> simp
  · refine List.pairwise_map.2 (h.imp fun hlt => ?_)
    unfold Pair.under
    split <;> simpa [Pair.within] using hlt
  · intro p hp q hq
    split at hp
    next hlt =>
      obtain ⟨q, -, rfl⟩ := List.mem_map.1 hq
      rw [List.mem_singleton.1 hp, Pair.under, if_pos hlt]
      simp [Pair.within]
    next => exact absurd hp List.not_mem_nil

theorem Frame.ordered_append (f : Frame) {a : Expr} {ps : List Pair}
    (ha : Pair.Ordered a.addedPairs) (hps : Pair.Ordered ps)
    (h : ∀ p ∈ ps, f.grouped.before.length + (a.grouped.guarded f.level).spell.length ≤
      p.before.length) : Pair.Ordered (f.pairs a a.addedPairs ++ ps) := by
  refine List.pairwise_append.2 ⟨f.ordered_pairs ha, hps, fun p hp q hq => ?_⟩
  exact Nat.lt_of_lt_of_le (Frame.length_before_lt hp) (h q hq)

/-- Each argument and the comma after it come before the next one. -/
theorem Frame.length_before_argument (s : Span) (r : Expr) (m : String)
    (before after after' : List Expr) (a : Expr) :
    (argument s r m (before ++ [a]) after').grouped.before.length =
      (argument s r m before after).grouped.before.length + (a.grouped.spell.length + 2) := by
  simp only [grouped, Frame.before, groupedList_eq, List.map_append, List.flatMap_append,
    List.map_cons, List.map_nil, List.flatMap_cons, List.flatMap_nil, List.length_append,
    List.length_cons, List.length_nil]
  omega

theorem length_before_of_mem_addedPairsList {s : Span} {r : Expr} {m : String} {p : Pair} :
    ∀ {as before : List Expr}, p ∈ addedPairsList s r m as before →
      (Frame.argument s r m before []).grouped.before.length ≤ p.before.length
  | a :: as, before, hp => by
    rcases List.mem_append.1 hp with hp | hp
    · have hle := Frame.le_length_before hp
      exact hle
    · refine Nat.le_trans ?_ (length_before_of_mem_addedPairsList hp)
      rw [Frame.length_before_argument s r m before [] [] a]
      exact Nat.le_add_right ..

mutual

theorem ordered_addedPairs : ∀ e : Expr, Pair.Ordered e.addedPairs
  | integer .. | boolean .. | identifier .. | this _ | newObject .. | error _ => .nil
  | newArray s e => (Frame.newArray s).ordered_pairs e.ordered_addedPairs
  | length s e => (Frame.length s).ordered_pairs e.ordered_addedPairs
  | not s e => (Frame.not s).ordered_pairs e.ordered_addedPairs
  | paren s e => (Frame.paren s).ordered_pairs e.ordered_addedPairs
  | index s a i => by
    have hi := (Frame.position s a).ordered_pairs i.ordered_addedPairs
    refine (Frame.array s i).ordered_append a.ordered_addedPairs hi fun p hp => ?_
    refine Nat.le_trans ?_ (Frame.le_length_before hp)
    simp [Frame.grouped, Frame.before, Frame.level]
  | call s r m as => by
    have has := ordered_addedPairsList s r m as []
    refine (Frame.receiver s m as).ordered_append r.ordered_addedPairs has fun p hp => ?_
    refine Nat.le_trans ?_ (length_before_of_mem_addedPairsList hp)
    simp [Frame.grouped, Frame.before, Frame.level]
  | binary s l op r => by
    have hr := (Frame.right s l op).ordered_pairs r.ordered_addedPairs
    refine (Frame.left s op r).ordered_append l.ordered_addedPairs hr fun p hp => ?_
    refine Nat.le_trans ?_ (Frame.le_length_before hp)
    simp [Frame.grouped, Frame.before, Frame.level]

theorem ordered_addedPairsList (s : Span) (r : Expr) (m : String) :
    ∀ as before : List Expr, Pair.Ordered (addedPairsList s r m as before)
  | [], _ => .nil
  | a :: as, before => by
    have has := ordered_addedPairsList s r m as (before ++ [a])
    refine (Frame.argument s r m before as).ordered_append a.ordered_addedPairs has fun p hp => ?_
    refine Nat.le_trans ?_ (length_before_of_mem_addedPairsList hp)
    rw [Frame.level, guarded_eq_self (Nat.zero_le _),
      Frame.length_before_argument s r m before as [] a]
    omega

end

end Expr

end MiniJava
