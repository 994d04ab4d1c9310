import MiniJava.Printing.Spelling
import MiniJava.Tree.Spans

/-!
# Printing does not depend on spans

Trees that are equal up to spans are printed as the same text.
-/

namespace MiniJava

/-! ## Spelling -/

mutual

/-- The pieces of an expression do not depend on where it stands. -/
theorem Expr.spell_withoutSpans : ∀ e : Expr, e.withoutSpans.spell = e.spell
  | .integer .. | .boolean _ true | .boolean _ false | .identifier .. | .this _ | .newObject ..
  | .error _ => rfl
  | .newArray _ e | .length _ e | .not _ e | .paren _ e => by
    rw [Expr.withoutSpans, Expr.spell, Expr.spell, e.spell_withoutSpans]
  | .index _ a i => by
    rw [Expr.withoutSpans, Expr.spell, Expr.spell, a.spell_withoutSpans, i.spell_withoutSpans]
  | .call _ r _ as => by
    rw [Expr.withoutSpans, Expr.spell, Expr.spell, r.spell_withoutSpans,
      Expr.spellList_withoutSpansList as]
  | .binary _ l _ r => by
    rw [Expr.withoutSpans, Expr.spell, Expr.spell, l.spell_withoutSpans, r.spell_withoutSpans]

theorem Expr.spellList_withoutSpansList :
    ∀ es : List Expr, Expr.spellList (Expr.withoutSpansList es) = Expr.spellList es
  | [] => rfl
  | e :: es => by
    rw [Expr.withoutSpansList, Expr.spellList, Expr.spellList, e.spell_withoutSpans,
      Expr.spellMore_withoutSpansList es]

theorem Expr.spellMore_withoutSpansList :
    ∀ es : List Expr, Expr.spellMore (Expr.withoutSpansList es) = Expr.spellMore es
  | [] => rfl
  | e :: es => by
    rw [Expr.withoutSpansList, Expr.spellMore, Expr.spellMore, e.spell_withoutSpans,
      Expr.spellMore_withoutSpansList es]

end

theorem Recur.spell_withoutSpans (r : Recur) : r.withoutSpans.spell = r.spell := by
  simp only [Recur.withoutSpans, Recur.spell, Expr.spell_withoutSpans,
    ← Expr.withoutSpansList_eq, Expr.spellList_withoutSpansList]

theorem Stmt.isBlock_withoutSpans (s : Stmt) : s.withoutSpans.isBlock = s.isBlock := by
  cases s <;> rfl

mutual

theorem Stmt.spell_withoutSpans (attached : Bool) :
    ∀ s : Stmt, s.withoutSpans.spell attached = s.spell attached
  | .block _ ss => by
    rw [Stmt.withoutSpans, Stmt.spell, Stmt.spell, Stmt.spellList_withoutSpansList ss]
  | .ifElse _ c t e => by
    simp only [Stmt.withoutSpans, Stmt.spell, Stmt.openBody, Stmt.closeBody,
      Stmt.isBlock_withoutSpans, c.spell_withoutSpans, t.spell_withoutSpans, e.spell_withoutSpans]
  | .whileLoop _ c b => by
    simp only [Stmt.withoutSpans, Stmt.spell, Stmt.openBody, Stmt.closeBody,
      Stmt.isBlock_withoutSpans, c.spell_withoutSpans, b.spell_withoutSpans]
  | .println _ v | .assign _ _ v => by
    rw [Stmt.withoutSpans, Stmt.spell, Stmt.spell, v.spell_withoutSpans]
  | .assignElement _ _ i v => by
    rw [Stmt.withoutSpans, Stmt.spell, Stmt.spell, i.spell_withoutSpans, v.spell_withoutSpans]
  | .recur r => r.spell_withoutSpans
  | .error _ => rfl

theorem Stmt.spellList_withoutSpansList :
    ∀ ss : List Stmt, Stmt.spellList (Stmt.withoutSpansList ss) = Stmt.spellList ss
  | [] => rfl
  | s :: ss => by
    rw [Stmt.withoutSpansList, Stmt.spellList, Stmt.spellList, s.spell_withoutSpans,
      Stmt.spellList_withoutSpansList ss]

end

theorem Variable.spellParams_withoutSpans (vs : List Variable) :
    Variable.spellParams (vs.map Variable.withoutSpans) = Variable.spellParams vs := by
  cases vs with
  | nil => rfl
  | cons v vs =>
    rw [List.map_cons, Variable.spellParams, Variable.spellMore, List.flatMap_map]
    rfl

theorem Variable.spellLines_withoutSpans (vs : List Variable) :
    (vs.map Variable.withoutSpans).flatMap Variable.spellLine = vs.flatMap Variable.spellLine := by
  rw [List.flatMap_map]
  rfl

theorem MethodResult.spell_withoutSpans (r : MethodResult) : r.withoutSpans.spell = r.spell := by
  cases r with
  | returns _ e => rw [MethodResult.withoutSpans, MethodResult.spell, MethodResult.spell,
      e.spell_withoutSpans]
  | recurs r => exact r.spell_withoutSpans

theorem Method.spell_withoutSpans (m : Method) : m.withoutSpans.spell = m.spell := by
  simp only [Method.withoutSpans, Method.spell, Variable.spellParams_withoutSpans,
    Variable.spellLines_withoutSpans, ← Stmt.withoutSpansList_eq, Stmt.spellList_withoutSpansList,
    m.result.spell_withoutSpans]

theorem ClassDecl.spell_withoutSpans (c : ClassDecl) : c.withoutSpans.spell = c.spell := by
  simp only [ClassDecl.withoutSpans, ClassDecl.spell, Variable.spellLines_withoutSpans,
    Method.spellList, List.map_map, Function.comp_def, Method.spell_withoutSpans, List.isEmpty_map]

theorem MainClass.spell_withoutSpans (m : MainClass) : m.withoutSpans.spell = m.spell := by
  simp only [MainClass.withoutSpans, MainClass.spell, m.body.spell_withoutSpans]

theorem Program.spell_withoutSpans (p : Program) : p.withoutSpans.spell = p.spell := by
  simp only [Program.withoutSpans, Program.spell, p.main.spell_withoutSpans, List.flatMap_map,
    ClassDecl.spell_withoutSpans]

/-! ## Grouping -/

namespace Expr

theorem strength_withoutSpans (e : Expr) : e.withoutSpans.strength = e.strength := by
  cases e <;> rfl

theorem guarded_withoutSpans (e : Expr) (level : Nat) :
    e.withoutSpans.guarded level = (e.guarded level).withoutSpans := by
  have hspan : e.withoutSpans.span = Span.nowhere := by cases e <;> rfl
  unfold guarded
  rw [strength_withoutSpans, hspan]
  split <;> rfl

mutual

theorem grouped_withoutSpans : ∀ e : Expr, e.withoutSpans.grouped = e.grouped.withoutSpans
  | .integer .. | .boolean .. | .identifier .. | .this _ | .newObject .. | .error _ => rfl
  | .newArray _ e | .paren _ e => by
    rw [withoutSpans, grouped, e.grouped_withoutSpans, grouped, withoutSpans]
  | .index _ a i => by
    rw [withoutSpans, grouped, a.grouped_withoutSpans, i.grouped_withoutSpans,
      guarded_withoutSpans, grouped, withoutSpans]
  | .length _ a => by
    rw [withoutSpans, grouped, a.grouped_withoutSpans, guarded_withoutSpans, grouped, withoutSpans]
  | .call _ r _ as => by
    rw [withoutSpans, grouped, r.grouped_withoutSpans, groupedList_withoutSpansList as,
      guarded_withoutSpans, grouped, withoutSpans]
  | .not _ e => by
    rw [withoutSpans, grouped, e.grouped_withoutSpans, guarded_withoutSpans, grouped, withoutSpans]
  | .binary _ l _ r => by
    rw [withoutSpans, grouped, l.grouped_withoutSpans, r.grouped_withoutSpans,
      guarded_withoutSpans, guarded_withoutSpans, grouped, withoutSpans]

theorem groupedList_withoutSpansList :
    ∀ es : List Expr, groupedList (withoutSpansList es) = withoutSpansList (groupedList es)
  | [] => rfl
  | e :: es => by
    rw [withoutSpansList, groupedList, e.grouped_withoutSpans, groupedList_withoutSpansList es,
      groupedList, withoutSpansList]

end

end Expr

/-- A replacement of expressions that does not depend on where they stand. -/
def Expr.IgnoresSpans (f : Expr → Expr) : Prop :=
  ∀ e : Expr, f e.withoutSpans = (f e).withoutSpans

section Replacing

variable {f : Expr → Expr}

theorem Recur.mapExprs_withoutSpans (hf : Expr.IgnoresSpans f) (r : Recur) :
    r.withoutSpans.mapExprs f = (r.mapExprs f).withoutSpans := by
  have hargs : r.args.map (fun e => f e.withoutSpans) = r.args.map fun e => (f e).withoutSpans :=
    List.map_congr_left fun e _ => hf e
  simp only [Recur.withoutSpans, Recur.mapExprs, List.map_map, Function.comp_def, hargs,
    hf r.condition, hf r.fallback]

mutual

theorem Stmt.mapExprs_withoutSpans (hf : Expr.IgnoresSpans f) :
    ∀ s : Stmt, s.withoutSpans.mapExprs f = (s.mapExprs f).withoutSpans
  | .block _ ss => by
    rw [Stmt.withoutSpans, Stmt.mapExprs, Stmt.mapExprsList_withoutSpansList hf ss, Stmt.mapExprs,
      Stmt.withoutSpans]
  | .ifElse _ c t e => by
    rw [Stmt.withoutSpans, Stmt.mapExprs, hf, Stmt.mapExprs_withoutSpans hf t,
      Stmt.mapExprs_withoutSpans hf e,
      Stmt.mapExprs, Stmt.withoutSpans]
  | .whileLoop _ c b => by
    rw [Stmt.withoutSpans, Stmt.mapExprs, hf, Stmt.mapExprs_withoutSpans hf b, Stmt.mapExprs,
      Stmt.withoutSpans]
  | .println _ v | .assign _ _ v => by
    rw [Stmt.withoutSpans, Stmt.mapExprs, hf, Stmt.mapExprs, Stmt.withoutSpans]
  | .assignElement _ _ i v => by
    rw [Stmt.withoutSpans, Stmt.mapExprs, hf, hf, Stmt.mapExprs, Stmt.withoutSpans]
  | .recur r => by
    rw [Stmt.withoutSpans, Stmt.mapExprs, Recur.mapExprs_withoutSpans hf r, Stmt.mapExprs,
      Stmt.withoutSpans]
  | .error _ => rfl

theorem Stmt.mapExprsList_withoutSpansList (hf : Expr.IgnoresSpans f) : ∀ ss : List Stmt,
    Stmt.mapExprsList f (Stmt.withoutSpansList ss) = Stmt.withoutSpansList (Stmt.mapExprsList f ss)
  | [] => rfl
  | s :: ss => by
    rw [Stmt.withoutSpansList, Stmt.mapExprsList, Stmt.mapExprs_withoutSpans hf s,
      Stmt.mapExprsList_withoutSpansList hf ss, Stmt.mapExprsList, Stmt.withoutSpansList]

end

theorem MethodResult.mapExprs_withoutSpans (hf : Expr.IgnoresSpans f) (r : MethodResult) :
    r.withoutSpans.mapExprs f = (r.mapExprs f).withoutSpans := by
  cases r with
  | returns _ e => rw [MethodResult.withoutSpans, MethodResult.mapExprs, hf]; rfl
  | recurs r =>
    rw [MethodResult.withoutSpans, MethodResult.mapExprs, Recur.mapExprs_withoutSpans hf r]
    rfl

theorem Method.mapExprs_withoutSpans (hf : Expr.IgnoresSpans f) (m : Method) :
    m.withoutSpans.mapExprs f = (m.mapExprs f).withoutSpans := by
  simp only [Method.withoutSpans, Method.mapExprs, List.map_map, Function.comp_def,
    Stmt.mapExprs_withoutSpans hf, MethodResult.mapExprs_withoutSpans hf m.result]

theorem ClassDecl.mapExprs_withoutSpans (hf : Expr.IgnoresSpans f) (c : ClassDecl) :
    c.withoutSpans.mapExprs f = (c.mapExprs f).withoutSpans := by
  simp only [ClassDecl.withoutSpans, ClassDecl.mapExprs, List.map_map, Function.comp_def,
    Method.mapExprs_withoutSpans hf]

theorem Program.mapExprs_withoutSpans (hf : Expr.IgnoresSpans f) (p : Program) :
    p.withoutSpans.mapExprs f = (p.mapExprs f).withoutSpans := by
  simp only [Program.withoutSpans, Program.mapExprs, MainClass.withoutSpans, MainClass.mapExprs,
    List.map_map, Function.comp_def, Stmt.mapExprs_withoutSpans hf p.main.body,
    ClassDecl.mapExprs_withoutSpans hf]

end Replacing

/-! ## Printing -/

theorem Program.print_withoutSpans (p : Program) : p.withoutSpans.print = p.print := by
  have hpieces :
      (p.withoutSpans.mapExprs Expr.grouped).spell = (p.mapExprs Expr.grouped).spell := by
    rw [Program.mapExprs_withoutSpans Expr.grouped_withoutSpans, Program.spell_withoutSpans]
  rw [Program.print, Printable.print, Printer.visit, Printable.pieces, hpieces]
  rfl

/-- Programs that are equal up to spans are printed as the same text. -/
theorem Program.print_congr {p q : Program} (h : p.withoutSpans = q.withoutSpans) :
    p.print = q.print := by
  rw [← p.print_withoutSpans, h, q.print_withoutSpans]

end MiniJava
