import MiniJava.Proofs.Printing.Spans
import MiniJava.Proofs.Tree.Editing

/-!
# Forgetting spans

What is left of a program without its spans is a copy of it, and programs have the same left if they
are copies of each other, wherever their nodes stand. The walk that forgets spans node by node
leaves the same, so it comes to every node.
-/

open Relation (Comp)

namespace MiniJava

/-- Whatever the first span, the second one is that of a node without a place. -/
def Span.Forgotten (_ t : Span) : Prop := t = nowhere

/-! ## What is left without spans -/

mutual

theorem Expr.copies_withoutSpans : ∀ e : Expr, e.Copies Span.Forgotten Eq e.withoutSpans
  | .integer _ v => .integer v rfl
  | .boolean _ v => .boolean v rfl
  | .identifier .. => .identifier rfl rfl
  | .this _ => .this rfl
  | .newArray _ e => .newArray rfl e.copies_withoutSpans
  | .newObject _ n => .newObject n rfl
  | .index _ a i => .index rfl a.copies_withoutSpans i.copies_withoutSpans
  | .length _ a => .length rfl a.copies_withoutSpans
  | .call _ r m as => .call m rfl r.copies_withoutSpans (copies_withoutSpansList as)
  | .not _ e => .not rfl e.copies_withoutSpans
  | .binary _ l op r => .binary op rfl l.copies_withoutSpans r.copies_withoutSpans
  | .paren _ e => .paren rfl e.copies_withoutSpans
  | .error _ => .error rfl

theorem Expr.copies_withoutSpansList : ∀ es : List Expr,
    List.Forall₂ (Expr.Copies Span.Forgotten Eq) es (Expr.withoutSpansList es)
  | [] => .nil
  | e :: es => .cons e.copies_withoutSpans (copies_withoutSpansList es)

end

theorem Recur.copies_withoutSpans (r : Recur) : r.Copies Span.Forgotten Eq r.withoutSpans :=
  ⟨rfl, r.condition.copies_withoutSpans, forall₂_map Expr.copies_withoutSpans r.args,
    r.fallback.copies_withoutSpans⟩

mutual

theorem Stmt.copies_withoutSpans : ∀ s : Stmt, s.Copies Span.Forgotten Eq s.withoutSpans
  | .block _ ss => .block rfl (copies_withoutSpansList ss)
  | .ifElse _ c t e =>
    .ifElse rfl c.copies_withoutSpans t.copies_withoutSpans e.copies_withoutSpans
  | .whileLoop _ c b => .whileLoop rfl c.copies_withoutSpans b.copies_withoutSpans
  | .println _ v => .println rfl v.copies_withoutSpans
  | .assign _ n v => .assign n rfl v.copies_withoutSpans
  | .assignElement _ n i v =>
    .assignElement n rfl i.copies_withoutSpans v.copies_withoutSpans
  | .recur r => .recur r.copies_withoutSpans
  | .error _ => .error rfl

theorem Stmt.copies_withoutSpansList : ∀ ss : List Stmt,
    List.Forall₂ (Stmt.Copies Span.Forgotten Eq) ss (Stmt.withoutSpansList ss)
  | [] => .nil
  | s :: ss => .cons s.copies_withoutSpans (copies_withoutSpansList ss)

end

theorem Variable.copies_withoutSpans (v : Variable) : v.Copies Span.Forgotten v.withoutSpans :=
  ⟨rfl, rfl, rfl⟩

theorem MethodResult.copies_withoutSpans : ∀ r : MethodResult,
    r.Copies Span.Forgotten Eq r.withoutSpans
  | returns _ e => .returns rfl e.copies_withoutSpans
  | recurs r => .recurs r.copies_withoutSpans

theorem Method.copies_withoutSpans (m : Method) : m.Copies Span.Forgotten Eq m.withoutSpans where
  span := rfl
  name := rfl
  returnType := rfl
  params := forall₂_map Variable.copies_withoutSpans m.params
  locals := forall₂_map Variable.copies_withoutSpans m.locals
  body := forall₂_map Stmt.copies_withoutSpans m.body
  result := m.result.copies_withoutSpans

theorem ClassDecl.copies_withoutSpans (c : ClassDecl) :
    c.Copies Span.Forgotten Eq c.withoutSpans where
  span := rfl
  name := rfl
  superclass := rfl
  fields := forall₂_map Variable.copies_withoutSpans c.fields
  methods := forall₂_map Method.copies_withoutSpans c.methods

/-- Without its spans, a program is a copy of what it was. -/
theorem Program.copies_withoutSpans (p : Program) :
    p.Copies Span.Forgotten Eq p.withoutSpans :=
  ⟨rfl, ⟨rfl, rfl, rfl, p.main.body.copies_withoutSpans⟩,
    forall₂_map ClassDecl.copies_withoutSpans p.classes⟩

/-! ## What the walk leaves -/

theorem Expr.renameSelf_id (e : Expr) : e.renameSelf id = e := by
  cases e <;> rfl

theorem Visits.erasing_eq : erasing = editing (fun _ => Span.nowhere) id := by
  simp only [erasing, editing, Expr.renameSelf_id]

/-- The walk that forgets spans comes to every node. -/
theorem Program.copies_erased (p : Program) : p.Copies Span.Forgotten Eq p.erased := by
  have hcopies := p.copies_visit_editing (fun _ => Span.nowhere) id
  have hspans : (fun _ t : Span => Span.nowhere = t) = Span.Forgotten := by
    ext s t
    exact eq_comm
  rw [hspans, ← Visits.erasing_eq] at hcopies
  exact hcopies

/-! ## Equality up to spans -/

/-- A copy without spans is the only one. -/
theorem Program.eq_of_forgotten {p q r : Program} (hq : p.Copies Span.Forgotten Eq q)
    (hr : p.Copies Span.Forgotten Eq r) : q = r :=
  hq.unique (fun _ _ _ hs ht => hs.trans ht.symm) (fun _ _ _ hm hn => hm.symm.trans hn) hr

/-- The programs have the same fields in the same nodes, whatever the spans of these are. -/
def Program.EqUpToSpans (p q : Program) : Prop := p.Copies (fun _ _ => True) Eq q

theorem Program.erased_eq (p : Program) : p.erased = p.withoutSpans :=
  p.eq_of_forgotten p.copies_erased p.copies_withoutSpans

theorem Program.withoutSpans_withoutSpans (p : Program) :
    p.withoutSpans.withoutSpans = p.withoutSpans := by
  have hcopies := p.copies_withoutSpans.comp p.withoutSpans.copies_withoutSpans
  have hspans : Comp Span.Forgotten Span.Forgotten = Span.Forgotten := by
    ext s t
    exact ⟨fun ⟨_, _, ht⟩ => ht, fun ht => ⟨t, ht, ht⟩⟩
  rw [hspans, Relation.comp_eq] at hcopies
  exact p.eq_of_forgotten hcopies p.copies_withoutSpans

/-- What is left of a program is left of each program that it is equal to up to spans. -/
theorem Program.EqUpToSpans.withoutSpans_eq {p q : Program} (h : p.EqUpToSpans q) :
    p.withoutSpans = q.withoutSpans := by
  have hcopies := h.comp q.copies_withoutSpans
  have hspans : Comp (fun _ _ => True) Span.Forgotten = Span.Forgotten := by
    ext s t
    exact ⟨fun ⟨_, _, ht⟩ => ht, fun ht => ⟨s, trivial, ht⟩⟩
  rw [hspans, Relation.comp_eq] at hcopies
  exact p.eq_of_forgotten p.copies_withoutSpans hcopies

theorem Program.eqUpToSpans_of_withoutSpans_eq {p q : Program}
    (h : p.withoutSpans = q.withoutSpans) : p.EqUpToSpans q := by
  have hcopies := p.copies_withoutSpans.comp (h ▸ q.copies_withoutSpans.symm)
  have hspans : Comp Span.Forgotten (flip Span.Forgotten) = fun _ _ => True := by
    ext s t
    exact ⟨fun _ => trivial, fun _ => ⟨Span.nowhere, rfl, rfl⟩⟩
  have hnames : Comp Eq (flip Eq) = (Eq : String → String → Prop) := by
    ext m n
    exact ⟨fun ⟨_, hm, hn⟩ => hm.trans hn.symm, fun h => ⟨n, h, rfl⟩⟩
  rw [hspans, hnames] at hcopies
  exact hcopies

/--
Programs are structurally equal exactly if they are equal up to spans. Without its spans a program
is the same but for them, none of which is left, and there is nothing more to forget; the walk
leaves just this. What is printed for structurally equal programs is the same text.
-/
theorem Program.structurallyEq_exact (p q : Program) :
    (p.structurallyEq q = true ↔ p.EqUpToSpans q) ∧
      p.Copies Span.Forgotten Eq p.withoutSpans ∧
      p.erased = p.withoutSpans ∧
      p.withoutSpans.withoutSpans = p.withoutSpans ∧
      (p.structurallyEq q = true → p.print = q.print) := by
  have heq : p.structurallyEq q = true ↔ p.withoutSpans = q.withoutSpans := decide_eq_true_iff
  refine ⟨?_, p.copies_withoutSpans, p.erased_eq, p.withoutSpans_withoutSpans, ?_⟩
  · rw [heq]
    exact ⟨eqUpToSpans_of_withoutSpans_eq, EqUpToSpans.withoutSpans_eq⟩
  · rw [heq]
    exact print_congr

end MiniJava
