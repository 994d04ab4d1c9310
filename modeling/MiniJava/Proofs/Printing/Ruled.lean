import MiniJava.Printing.Spelling
import MiniJava.Proofs.Grammar.Nodes

/-!
# The lines of a printed statement

A printed statement takes up whole lines, each with a margin in front, and it goes one level back
for each level that it goes in. `Ruled` says so of its pieces. What the names of the statement are
like is a parameter, since a name may hold anything.
-/

namespace MiniJava

namespace Piece

variable {Q : String → Prop} {depth : Nat} {ps qs : List Piece}

/-- The piece may stand inside a line. -/
def isInline : Piece → Bool
  | word _ | ident _ | number _ | placeholder | space => true
  | newline | margin | indent | dedent => false

/-- The piece may stand inside a line, and `Q` holds of it if it is a name. -/
def Inline (Q : String → Prop) : Piece → Prop
  | ident n => Q n
  | word _ | number _ | placeholder | space => True
  | newline | margin | indent | dedent => False

@[simp] theorem inline_word (kind : TokenKind) : (word kind).Inline Q := trivial

@[simp] theorem inline_ident_iff (n : String) : (ident n).Inline Q ↔ Q n := Iff.rfl

@[simp] theorem inline_space : space.Inline Q := trivial

theorem Inline.isInline {p : Piece} (hp : p.Inline Q) : p.isInline := by
  cases p <;> first | rfl | cases hp

/--
Pieces that end the line that is `begun`, if one is, and then take up whole lines, each with a
margin in front. At their start the level is `depth` higher than at their end.
-/
inductive Ruled (Q : String → Prop) : (depth : Nat) → (begun : Bool) → List Piece → Prop
  | nil : Ruled Q 0 false []
  | margin {depth : Nat} {ps : List Piece} (h : Ruled Q depth true ps) :
      Ruled Q depth false (margin :: ps)
  | inline {depth : Nat} {p : Piece} {ps : List Piece} (hp : p.Inline Q)
      (h : Ruled Q depth true ps) : Ruled Q depth true (p :: ps)
  | newline {depth : Nat} {ps : List Piece} (h : Ruled Q depth false ps) :
      Ruled Q depth true (newline :: ps)
  | indent {depth : Nat} {ps : List Piece} (h : Ruled Q (depth + 1) false ps) :
      Ruled Q depth false (indent :: ps)
  | dedent {depth : Nat} {ps : List Piece} (h : Ruled Q depth false ps) :
      Ruled Q (depth + 1) false (dedent :: ps)

namespace Ruled

theorem inlines (hps : ∀ p ∈ ps, p.Inline Q) (h : Ruled Q depth true qs) :
    Ruled Q depth true (ps ++ qs) := by
  induction ps with
  | nil => exact h
  | cons p ps ih =>
    obtain ⟨hp, hps⟩ := List.forall_mem_cons.1 hps
    exact .inline hp (ih hps)

/-- What comes before `else` goes on with the line of a block, and starts a line otherwise. -/
theorem joint (attached : Bool) (h : Ruled Q depth true ps) :
    Ruled Q depth attached ((if attached then space else Piece.margin) :: ps) := by
  cases attached with
  | false => exact .margin h
  | true => exact .inline trivial h

/-- What comes last ends the line of a block. -/
theorem close (attached : Bool) (h : Ruled Q depth false ps) :
    Ruled Q depth attached ((if attached then [Piece.newline] else []) ++ ps) := by
  cases attached with
  | false => exact h
  | true => exact .newline h

/-- A body may follow on a head whose line is begun. -/
theorem body {b : Stmt} (hb : ∀ {depth : Nat} {ps : List Piece},
      Ruled Q depth (b.isBlock && true) ps →
        Ruled Q depth (b.isBlock && true) (b.spell true ++ ps))
    (h : Ruled Q depth b.isBlock ps) :
    Ruled Q depth true (b.openBody ++ (b.spell true ++ (b.closeBody ++ ps))) := by
  unfold Stmt.openBody Stmt.closeBody
  simp only [Bool.and_true] at hb
  cases hblock : b.isBlock with
  | false =>
    -- lines of its own, one level further in
    rw [hblock] at h hb
    exact .newline (.indent (hb (.dedent h)))
  | true =>
    rw [hblock] at h hb
    exact .inline trivial (hb h)

end Ruled

end Piece

open Piece

variable {Q : String → Prop}

/-! ## Expressions -/

namespace Expr

mutual

/-- The pieces of an expression may stand inside a line. -/
theorem inline_spell : ∀ e : Expr, (∀ n ∈ e.nodes, ∀ x ∈ n.names, Q x) → ∀ p ∈ e.spell, p.Inline Q
  | .integer .., _ | .boolean _ true, _ | .boolean _ false, _ | .this _, _ | .error _, _ =>
    List.forall_mem_singleton.2 trivial
  | .identifier _ n, he => by
    have hn : Q n := List.forall_mem_singleton.1 (List.forall_mem_singleton.1 he)
    exact List.forall_mem_singleton.2 hn
  | .newObject _ n, he => by
    have hn : Q n := List.forall_mem_singleton.1 (List.forall_mem_singleton.1 he)
    simp [spell, hn]
  | .newArray _ e, he | .length _ e, he | .not _ e, he | .paren _ e, he => by
    have h := e.inline_spell (List.forall_mem_cons.1 he).2
    simpa [spell, or_imp, forall_and] using h
  | .index _ l r, he | .binary _ l _ r, he => by
    obtain ⟨hl, hr⟩ := List.forall_mem_append.1 (List.forall_mem_cons.1 he).2
    simpa [spell, or_imp, forall_and] using ⟨l.inline_spell hl, r.inline_spell hr⟩
  | .call _ r m as, he => by
    obtain ⟨hm, he⟩ := List.forall_mem_cons.1 he
    obtain ⟨hr, has⟩ := List.forall_mem_append.1 he
    have hm : Q m := List.forall_mem_singleton.1 hm
    simpa [spell, or_imp, forall_and] using ⟨r.inline_spell hr, hm, inline_spellList as has⟩

theorem inline_spellList : ∀ es : List Expr, (∀ n ∈ nodesList es, ∀ x ∈ n.names, Q x) →
    ∀ p ∈ spellList es, p.Inline Q
  | [], _ => List.forall_mem_nil _
  | e :: es, h => by
    obtain ⟨he, hes⟩ := List.forall_mem_append.1 h
    exact List.forall_mem_append.2 ⟨e.inline_spell he, inline_spellMore es hes⟩

theorem inline_spellMore : ∀ es : List Expr, (∀ n ∈ nodesList es, ∀ x ∈ n.names, Q x) →
    ∀ p ∈ spellMore es, p.Inline Q
  | [], _ => List.forall_mem_nil _
  | e :: es, h => by
    obtain ⟨he, hes⟩ := List.forall_mem_append.1 h
    simpa [spellMore, or_imp, forall_and] using ⟨e.inline_spell he, inline_spellMore es hes⟩

end

theorem isInline_spell (e : Expr) : ∀ p ∈ e.spell, p.isInline := fun p hp =>
  have hinline := @inline_spell (fun _ => True) e fun _ _ _ _ => trivial
  (hinline p hp).isInline

theorem names_guarded {e : Expr} (he : ∀ n ∈ e.nodes, ∀ x ∈ n.names, Q x) (level : Nat) :
    ∀ n ∈ (e.guarded level).nodes, ∀ x ∈ n.names, Q x := by
  unfold guarded
  split
  · exact List.forall_mem_cons.2 ⟨List.forall_mem_nil _, he⟩
  · exact he

mutual

/-- Grouping brings in no names. -/
theorem names_grouped : ∀ e : Expr, (∀ n ∈ e.nodes, ∀ x ∈ n.names, Q x) →
    ∀ n ∈ e.grouped.nodes, ∀ x ∈ n.names, Q x
  | .integer .., he | .boolean .., he | .identifier .., he | .this _, he | .newObject .., he
  | .error _, he => he
  | .newArray _ e, he | .paren _ e, he => by
    obtain ⟨hn, he⟩ := List.forall_mem_cons.1 he
    exact List.forall_mem_cons.2 ⟨hn, e.names_grouped he⟩
  | .length _ e, he | .not _ e, he => by
    obtain ⟨hn, he⟩ := List.forall_mem_cons.1 he
    exact List.forall_mem_cons.2 ⟨hn, names_guarded (e.names_grouped he) _⟩
  | .index _ a i, he => by
    obtain ⟨hn, he⟩ := List.forall_mem_cons.1 he
    obtain ⟨ha, hi⟩ := List.forall_mem_append.1 he
    have ha := names_guarded (a.names_grouped ha) Operator.postfixLevel
    exact List.forall_mem_cons.2 ⟨hn, List.forall_mem_append.2 ⟨ha, i.names_grouped hi⟩⟩
  | .call _ r _ as, he => by
    obtain ⟨hn, he⟩ := List.forall_mem_cons.1 he
    obtain ⟨hr, has⟩ := List.forall_mem_append.1 he
    have hr := names_guarded (r.names_grouped hr) Operator.postfixLevel
    exact List.forall_mem_cons.2 ⟨hn, List.forall_mem_append.2 ⟨hr, names_groupedList as has⟩⟩
  | .binary _ l op r, he => by
    obtain ⟨hn, he⟩ := List.forall_mem_cons.1 he
    obtain ⟨hl, hr⟩ := List.forall_mem_append.1 he
    have hl := names_guarded (l.names_grouped hl) op.precedence
    have hr := names_guarded (r.names_grouped hr) (op.precedence + 1)
    exact List.forall_mem_cons.2 ⟨hn, List.forall_mem_append.2 ⟨hl, hr⟩⟩

theorem names_groupedList : ∀ es : List Expr, (∀ n ∈ nodesList es, ∀ x ∈ n.names, Q x) →
    ∀ n ∈ nodesList (groupedList es), ∀ x ∈ n.names, Q x
  | [], h => h
  | e :: es, h => by
    obtain ⟨he, hes⟩ := List.forall_mem_append.1 h
    exact List.forall_mem_append.2 ⟨e.names_grouped he, names_groupedList es hes⟩

end

/-- A printed expression stands inside a line. -/
theorem inline_print {e : Expr} (he : ∀ n ∈ e.nodes, ∀ x ∈ n.names, Q x) :
    ∀ p ∈ e.grouped.spell, p.Inline Q :=
  e.grouped.inline_spell (e.names_grouped he)

end Expr

/-! ## Statements -/

variable {depth : Nat} {rest : List Piece}

theorem Recur.ruled_spell {r : Recur} (hr : ∀ n ∈ r.nodes, ∀ x ∈ n.names, Q x)
    (h : Ruled Q depth false rest) :
    Ruled Q depth false ((r.mapExprs Expr.grouped).spell ++ rest) := by
  obtain ⟨hc, hr⟩ := List.forall_mem_append.1 (List.forall_mem_cons.1 hr).2
  obtain ⟨has, hf⟩ := List.forall_mem_append.1 hr
  rw [← Expr.nodesList_eq] at has
  have has := Expr.names_groupedList r.args has
  simp only [Recur.mapExprs, Recur.spell, ← Expr.groupedList_eq, List.append_assoc,
    List.cons_append, List.nil_append]
  refine .margin <| .inline trivial <| .inline trivial <| .inline trivial ?_
  refine .inlines (Expr.inline_print hc) <| .inline trivial <| .inline trivial ?_
  refine .inline trivial <| .inline trivial <| .inline trivial ?_
  refine .inlines (Expr.inline_spellList _ has) <| .inline trivial <| .inline trivial ?_
  refine .inline trivial <| .inline trivial <| .inlines (Expr.inline_print hf) ?_
  exact .inline trivial <| .newline h

mutual

/--
A printed statement takes up whole lines, but a block that is attached starts within a line and ends
within one.
-/
theorem Stmt.ruled_spell (attached : Bool) : ∀ s : Stmt, (∀ n ∈ s.nodes, ∀ x ∈ n.names, Q x) →
    ∀ {depth : Nat} {rest : List Piece},
      Ruled Q depth ((s.mapExprs Expr.grouped).isBlock && attached) rest →
      Ruled Q depth ((s.mapExprs Expr.grouped).isBlock && attached)
        ((s.mapExprs Expr.grouped).spell attached ++ rest)
  | .block _ ss, hs, depth, rest, h => by
    obtain ⟨-, hss⟩ := List.forall_mem_cons.1 hs
    simp only [Stmt.mapExprs, Stmt.spell, List.append_assoc, List.cons_append, List.nil_append]
    cases attached with
    | false =>
      refine .margin <| .inline trivial <| .newline <| .indent <| Stmt.ruled_spellList ss hss ?_
      exact .dedent <| .margin <| .inline trivial <| .newline h
    | true =>
      refine .inline trivial <| .newline <| .indent <| Stmt.ruled_spellList ss hss ?_
      exact .dedent <| .margin <| .inline trivial h
  | .ifElse _ c t e, hs, depth, rest, h => by
    obtain ⟨hc, hs⟩ := List.forall_mem_append.1 (List.forall_mem_cons.1 hs).2
    obtain ⟨ht, he⟩ := List.forall_mem_append.1 hs
    simp only [Stmt.mapExprs, Stmt.spell, List.append_assoc, List.cons_append, List.nil_append]
    refine .margin <| .inline trivial <| .inline trivial <| .inline trivial ?_
    refine .inlines (Expr.inline_print hc) <| .inline trivial ?_
    refine .body (t.ruled_spell true ht) <| .joint _ <| .inline trivial ?_
    exact .body (e.ruled_spell true he) <| .close _ h
  | .whileLoop _ c b, hs, depth, rest, h => by
    obtain ⟨hc, hb⟩ := List.forall_mem_append.1 (List.forall_mem_cons.1 hs).2
    simp only [Stmt.mapExprs, Stmt.spell, List.append_assoc, List.cons_append, List.nil_append]
    refine .margin <| .inline trivial <| .inline trivial <| .inline trivial ?_
    refine .inlines (Expr.inline_print hc) <| .inline trivial ?_
    exact .body (b.ruled_spell true hb) <| .close _ h
  | .println _ v, hs, depth, rest, h => by
    have hv := Expr.inline_print (List.forall_mem_cons.1 hs).2
    simp only [Stmt.mapExprs, Stmt.spell, List.append_assoc, List.cons_append, List.nil_append]
    refine .margin <| .inline trivial <| .inline trivial <| .inlines hv ?_
    exact .inline trivial <| .inline trivial <| .newline h
  | .assign _ n v, hs, depth, rest, h => by
    obtain ⟨hn, hv⟩ := List.forall_mem_cons.1 hs
    have hn : Q n := List.forall_mem_singleton.1 hn
    simp only [Stmt.mapExprs, Stmt.spell, List.append_assoc, List.cons_append, List.nil_append]
    refine .margin <| .inline hn <| .inline trivial <| .inline trivial <| .inline trivial ?_
    exact .inlines (Expr.inline_print hv) <| .inline trivial <| .newline h
  | .assignElement _ n i v, hs, depth, rest, h => by
    obtain ⟨hn, hs⟩ := List.forall_mem_cons.1 hs
    obtain ⟨hi, hv⟩ := List.forall_mem_append.1 hs
    have hn : Q n := List.forall_mem_singleton.1 hn
    simp only [Stmt.mapExprs, Stmt.spell, List.append_assoc, List.cons_append, List.nil_append]
    refine .margin <| .inline hn <| .inline trivial <| .inlines (Expr.inline_print hi) ?_
    refine .inline trivial <| .inline trivial <| .inline trivial <| .inline trivial ?_
    exact .inlines (Expr.inline_print hv) <| .inline trivial <| .newline h
  | .recur _, hs, _, _, h => Recur.ruled_spell (List.forall_mem_cons.1 hs).2 h
  | .error _, _, _, _, h => .margin <| .inline trivial <| .newline h

theorem Stmt.ruled_spellList : ∀ ss : List Stmt, (∀ n ∈ Stmt.nodesList ss, ∀ x ∈ n.names, Q x) →
    ∀ {depth : Nat} {rest : List Piece}, Ruled Q depth false rest →
      Ruled Q depth false (Stmt.spellList (Stmt.mapExprsList Expr.grouped ss) ++ rest)
  | [], _, _, _, h => h
  | s :: ss, hss, depth, rest, h => by
    obtain ⟨hs, hss⟩ := List.forall_mem_append.1 hss
    have hspell := @Stmt.ruled_spell false s hs depth
      (Stmt.spellList (Stmt.mapExprsList Expr.grouped ss) ++ rest)
    rw [Bool.and_false] at hspell
    rw [Stmt.mapExprsList, Stmt.spellList, List.append_assoc]
    exact hspell (Stmt.ruled_spellList ss hss h)

end

/-- A statement that is printed by itself takes up whole lines. -/
theorem Stmt.ruled_pieces {s : Stmt} (hs : ∀ n ∈ s.nodes, ∀ x ∈ n.names, Q x) :
    Ruled Q 0 false (Printable.stmt s).pieces := by
  have hspell := @Stmt.ruled_spell Q false s hs 0 []
  rw [Bool.and_false, List.append_nil] at hspell
  exact hspell .nil

end MiniJava
