import MiniJava.Proofs.Printing.Render
import MiniJava.Proofs.Printing.Ruled
import MiniJava.Proofs.Printing.Spelling

/-!
# Levels of indentation

Whatever is printed, the printer goes one level back for each level that it goes in, and never to a
level below the one at which it started. So it can print trees one after the other, and a statement
that is printed further in shows the same lines, each with more blanks in front.
-/

namespace MiniJava

namespace Piece

variable {Q : String → Prop} {begun : Bool} {depth level : Nat} {ps qs : List Piece}

/-! ## Balanced pieces -/

/-- The piece does not change the level. -/
def isFlat : Piece → Bool
  | indent | dedent => false
  | word _ | ident _ | number _ | placeholder | space | newline | margin => true

theorem levelAfter_of_isFlat {p : Piece} (hp : p.isFlat) (level : Nat) :
    p.levelAfter level = level := by
  cases p <;> first | rfl | cases hp

/--
Pieces at whose start the level is `depth` higher than at their end, and that go back only from a
level above the one at their end.
-/
inductive Balanced : (depth : Nat) → List Piece → Prop
  | nil : Balanced 0 []
  | flat {depth : Nat} {p : Piece} {ps : List Piece} (hp : p.isFlat) (h : Balanced depth ps) :
      Balanced depth (p :: ps)
  | indent {depth : Nat} {ps : List Piece} (h : Balanced (depth + 1) ps) :
      Balanced depth (indent :: ps)
  | dedent {depth : Nat} {ps : List Piece} (h : Balanced depth ps) :
      Balanced (depth + 1) (dedent :: ps)

namespace Balanced

/-- The level at the end. -/
theorem level_putAll (h : Balanced depth ps) {p : Printer} (hp : p.level = level + depth) :
    (p.putAll ps).level = level := by
  induction h generalizing p with
  | nil => exact hp
  | flat hflat _ ih => exact ih ((levelAfter_of_isFlat hflat _).trans hp)
  | indent _ ih => exact ih (congrArg Nat.succ hp)
  | dedent _ ih => exact ih (congrArg Nat.pred hp)

/-- The level wherever it goes back. -/
theorem level_lt_of_eq_append (h : Balanced depth ps) {p : Printer}
    (hp : p.level = level + depth) {before rest : List Piece}
    (hps : ps = before ++ Piece.dedent :: rest) : level < (p.putAll before).level := by
  induction h generalizing p before with
  | nil => simp at hps
  | flat hflat _ ih =>
    cases before with
    | nil =>
      obtain ⟨rfl, -⟩ := List.cons.inj hps
      cases hflat
    | cons q before =>
      obtain ⟨rfl, htail⟩ := List.cons.inj hps
      rw [Printer.putAll_cons]
      exact ih ((levelAfter_of_isFlat hflat _).trans hp) htail
  | indent _ ih =>
    cases before with
    | nil => cases (List.cons.inj hps).1
    | cons q before =>
      obtain ⟨rfl, htail⟩ := List.cons.inj hps
      rw [Printer.putAll_cons]
      exact ih (congrArg Nat.succ hp) htail
  | dedent _ ih =>
    cases before with
    | nil =>
      rw [Printer.putAll_nil, hp]
      omega
    | cons q before =>
      obtain ⟨rfl, htail⟩ := List.cons.inj hps
      rw [Printer.putAll_cons]
      exact ih (congrArg Nat.pred hp) htail

theorem append {depth' : Nat} (hps : Balanced depth ps) (hqs : Balanced depth' qs) :
    Balanced (depth' + depth) (ps ++ qs) := by
  induction hps with
  | nil => exact hqs
  | flat hp _ ih => exact .flat hp ih
  | indent _ ih => exact .indent ih
  | dedent _ ih => exact .dedent ih

theorem flats (hps : ∀ p ∈ ps, p.isFlat) (hqs : Balanced depth qs) :
    Balanced depth (ps ++ qs) := by
  induction ps with
  | nil => exact hqs
  | cons p ps ih =>
    obtain ⟨hp, hps⟩ := List.forall_mem_cons.1 hps
    exact .flat hp (ih hps)

theorem flatMap {α : Type} {spell : α → List Piece} {as : List α}
    (has : ∀ a ∈ as, Balanced 0 (spell a)) : Balanced 0 (as.flatMap spell) := by
  induction as with
  | nil => exact .nil
  | cons a as ih =>
    obtain ⟨ha, has⟩ := List.forall_mem_cons.1 has
    exact ha.append (ih has)

end Balanced

theorem isFlat_of_isInline {p : Piece} (hp : p.isInline) : p.isFlat := by
  cases p <;> first | rfl | cases hp

theorem Ruled.balanced (h : Ruled Q depth begun ps) : Balanced depth ps := by
  induction h with
  | nil => exact .nil
  | margin _ ih => exact .flat rfl ih
  | inline hp _ ih => exact .flat (isFlat_of_isInline hp.isInline) ih
  | newline _ ih => exact .flat rfl ih
  | indent _ ih => exact .indent ih
  | dedent _ ih => exact .dedent ih

end Piece

open Piece

/-! ## Levels of declarations -/

theorem Expr.isFlat_spell (e : Expr) : ∀ p ∈ e.spell, p.isFlat := fun p hp =>
  isFlat_of_isInline (e.isInline_spell p hp)

theorem Stmt.balanced_pieces (s : Stmt) :
    Balanced 0 ((s.mapExprs Expr.grouped).spell false) :=
  have hruled := @Stmt.ruled_pieces (fun _ => True) s fun _ _ _ _ => trivial
  hruled.balanced

theorem Stmt.balanced_spellList (ss : List Stmt) :
    Balanced 0 (Stmt.spellList (ss.map (Stmt.mapExprs Expr.grouped))) := by
  induction ss with
  | nil => exact .nil
  | cons s ss ih => exact s.balanced_pieces.append ih

theorem TypeName.isFlat_spell (t : TypeName) : ∀ p ∈ t.spell, p.isFlat := by
  cases t <;> simp [TypeName.spell, isFlat]

theorem Variable.isFlat_spell (v : Variable) : ∀ p ∈ v.spell, p.isFlat := by
  simpa [Variable.spell, or_imp, forall_and, isFlat] using v.type.isFlat_spell

theorem Variable.isFlat_spellParams (vs : List Variable) :
    ∀ p ∈ Variable.spellParams vs, p.isFlat := by
  cases vs with
  | nil => exact List.forall_mem_nil _
  | cons v vs =>
    refine List.forall_mem_append.2 ⟨v.isFlat_spell, List.forall_mem_flatMap.2 fun w _ => ?_⟩
    simpa [or_imp, forall_and, isFlat] using w.isFlat_spell

theorem Variable.isFlat_spellLines (vs : List Variable) :
    ∀ p ∈ vs.flatMap Variable.spellLine, p.isFlat := by
  refine List.forall_mem_flatMap.2 fun v _ => ?_
  simpa [Variable.spellLine, or_imp, forall_and, isFlat] using v.isFlat_spell

theorem ClassDecl.isFlat_spellSuperclass (name : Option String) :
    ∀ p ∈ ClassDecl.spellSuperclass name, p.isFlat := by
  cases name <;> simp [ClassDecl.spellSuperclass, isFlat]

theorem isFlat_separator (b : Prop) [Decidable b] :
    ∀ p ∈ if b then [] else [newline], p.isFlat := by
  split <;> simp [isFlat]

theorem MethodResult.balanced_spell (r : MethodResult) :
    Balanced 0 (r.mapExprs Expr.grouped).spell := by
  cases r with
  | returns _ e =>
    exact .flat rfl <| .flat rfl <| .flat rfl <| .flats e.grouped.isFlat_spell <| .flat rfl <|
      .flat rfl .nil
  | recurs r => exact (Stmt.recur r).balanced_pieces

theorem Method.balanced_spell (m : Method) : Balanced 0 (m.mapExprs Expr.grouped).spell := by
  simp only [Method.mapExprs, Method.spell, List.append_assoc, List.cons_append, List.nil_append]
  refine .flat rfl <| .flat rfl <| .flat rfl <| .flats m.returnType.isFlat_spell ?_
  refine .flat rfl <| .flat rfl <| .flat rfl <| .flats (Variable.isFlat_spellParams m.params) ?_
  refine .flat rfl <| .flat rfl <| .flat rfl <| .flat rfl <| .indent ?_
  refine .flats (Variable.isFlat_spellLines m.locals) ?_
  refine (Stmt.balanced_spellList m.body).append <| m.result.balanced_spell.append ?_
  exact .dedent <| .flat rfl <| .flat rfl <| .flat rfl .nil

theorem Method.balanced_spellList (ms : List Method) :
    Balanced 0 (Method.spellList (ms.map (Method.mapExprs Expr.grouped))) := by
  induction ms with
  | nil => exact .nil
  | cons m ms ih =>
    rw [List.map_cons, Method.spellList_cons]
    exact m.balanced_spell.append <| .flats (isFlat_separator _) ih

theorem ClassDecl.balanced_spell (c : ClassDecl) : Balanced 0 (c.mapExprs Expr.grouped).spell := by
  simp only [ClassDecl.mapExprs, ClassDecl.spell, List.append_assoc, List.cons_append,
    List.nil_append]
  refine .flat rfl <| .flat rfl <| .flat rfl <| .flat rfl ?_
  refine .flats (ClassDecl.isFlat_spellSuperclass c.superclass) ?_
  refine .flat rfl <| .flat rfl <| .flat rfl <| .indent ?_
  refine .flats (Variable.isFlat_spellLines c.fields) <| .flats (isFlat_separator _) ?_
  refine (Method.balanced_spellList c.methods).append ?_
  exact .dedent <| .flat rfl <| .flat rfl <| .flat rfl .nil

theorem MainClass.balanced_spell (m : MainClass) : Balanced 0 (m.mapExprs Expr.grouped).spell := by
  simp only [MainClass.mapExprs, MainClass.spell, List.cons_append, List.nil_append]
  refine .flat rfl <| .flat rfl <| .flat rfl <| .flat rfl <| .flat rfl <| .flat rfl ?_
  refine .flat rfl <| .indent <| .flat rfl <| .flat rfl <| .flat rfl <| .flat rfl ?_
  refine .flat rfl <| .flat rfl <| .flat rfl <| .flat rfl <| .flat rfl <| .flat rfl ?_
  refine .flat rfl <| .flat rfl <| .flat rfl <| .flat rfl <| .flat rfl <| .flat rfl ?_
  refine .flat rfl <| .flat rfl <| .indent <| m.body.balanced_pieces.append ?_
  refine .dedent <| .flat rfl <| .flat rfl <| .flat rfl ?_
  exact .dedent <| .flat rfl <| .flat rfl <| .flat rfl .nil

/-- Whatever is printed, the pieces are balanced. -/
theorem Printable.balanced_pieces (t : Printable) : Balanced 0 t.pieces := by
  cases t with
  | program p =>
    refine p.main.balanced_spell.append <| .flatMap fun c hc => .flat rfl ?_
    obtain ⟨c, -, rfl⟩ := List.mem_map.1 hc
    exact c.balanced_spell
  | main m => exact m.balanced_spell
  | classDecl c => exact c.balanced_spell
  | method m => exact m.balanced_spell
  | stmt s => exact s.balanced_pieces
  | expr e =>
    rw [Printable.pieces, ← List.append_nil e.grouped.spell]
    exact .flats e.grouped.isFlat_spell .nil

end MiniJava
