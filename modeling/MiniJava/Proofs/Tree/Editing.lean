import MiniJava.Proofs.Tree.Copies

/-!
# Walks that edit

A walk that moves the nodes and gives new names to identifiers leaves a copy of the program. It
comes to every node, and once only: what it leaves of a span or a name is what one edit makes of it.
-/

namespace MiniJava

/--
Move the nodes and rename the identifiers among the expressions. The main class is moved with the
program and a `return` with its method, as a walk does not meet them.
-/
def Visits.editing (move : Span → Span) (rename : String → String) : Visits Id where
  program _ below := do
    let p ← below
    return { p with span := move p.span, main := { p.main with span := move p.main.span } }
  classDecl _ below := do
    let c ← below
    return { c with span := move c.span }
  method _ below := do
    let d ← below
    return { d with span := move d.span, result := d.result.withSpan (move d.result.span) }
  var _ below := do
    let x ← below
    return { x with span := move x.span }
  param _ below := do
    let x ← below
    return { x with span := move x.span }
  stmt _ below := do
    let s ← below
    return s.withSpan (move s.span)
  recur _ below := do
    let r ← below
    return { r with span := move r.span }
  expr _ below := do
    let e ← below
    return (e.withSpan (move e.span)).renameSelf rename

section

variable (move : Span → Span) (rename : String → String)

mutual

theorem Expr.copies_visit_editing : ∀ e : Expr,
    e.Copies (move · = ·) (rename · = ·) (e.visit (.editing move rename)).run
  | .integer _ v => .integer v rfl
  | .boolean _ v => .boolean v rfl
  | .identifier .. => .identifier rfl rfl
  | .this _ => .this rfl
  | .newArray _ e => .newArray rfl e.copies_visit_editing
  | .newObject _ n => .newObject n rfl
  | .index _ a i => .index rfl a.copies_visit_editing i.copies_visit_editing
  | .length _ a => .length rfl a.copies_visit_editing
  | .call _ r m as => .call m rfl r.copies_visit_editing (copies_visitList_editing as)
  | .not _ e => .not rfl e.copies_visit_editing
  | .binary _ l op r => .binary op rfl l.copies_visit_editing r.copies_visit_editing
  | .paren _ e => .paren rfl e.copies_visit_editing
  | .error _ => .error rfl

theorem Expr.copies_visitList_editing : ∀ es : List Expr,
    List.Forall₂ (Expr.Copies (move · = ·) (rename · = ·)) es
      (Expr.visitList (.editing move rename) es).run
  | [] => .nil
  | e :: es => .cons e.copies_visit_editing (copies_visitList_editing es)

end

theorem Recur.copies_visit_editing (r : Recur) :
    r.Copies (move · = ·) (rename · = ·) (r.visit (.editing move rename)).run :=
  ⟨rfl, r.condition.copies_visit_editing move rename,
    Expr.copies_visitList_editing move rename r.args,
    r.fallback.copies_visit_editing move rename⟩

mutual

theorem Stmt.copies_visit_editing : ∀ s : Stmt,
    s.Copies (move · = ·) (rename · = ·) (s.visit (.editing move rename)).run
  | .block _ ss => .block rfl (copies_visitList_editing ss)
  | .ifElse _ c t e =>
    .ifElse rfl (c.copies_visit_editing move rename) t.copies_visit_editing
      e.copies_visit_editing
  | .whileLoop _ c b =>
    .whileLoop rfl (c.copies_visit_editing move rename) b.copies_visit_editing
  | .println _ v => .println rfl (v.copies_visit_editing move rename)
  | .assign _ n v => .assign n rfl (v.copies_visit_editing move rename)
  | .assignElement _ n i v =>
    .assignElement n rfl (i.copies_visit_editing move rename)
      (v.copies_visit_editing move rename)
  | .recur r => .recur (r.copies_visit_editing move rename)
  | .error _ => .error rfl

theorem Stmt.copies_visitList_editing : ∀ ss : List Stmt,
    List.Forall₂ (Stmt.Copies (move · = ·) (rename · = ·)) ss
      (Stmt.visitList (.editing move rename) ss).run
  | [] => .nil
  | s :: ss => .cons s.copies_visit_editing (copies_visitList_editing ss)

end

theorem Variable.copies_visit_editing (v : Variable) :
    v.Copies (move · = ·) (v.visit (.editing move rename)).run :=
  ⟨rfl, rfl, rfl⟩

theorem Variable.copies_visitParam_editing (v : Variable) :
    v.Copies (move · = ·) (v.visitParam (.editing move rename)).run :=
  ⟨rfl, rfl, rfl⟩

/-- A `return` is moved by its method, after the walk over its value. -/
theorem MethodResult.copies_visit_editing (r : MethodResult) :
    r.Copies (move · = ·) (rename · = ·)
      (let r' := (r.visit (.editing move rename)).run
      r'.withSpan (move r'.span)) := by
  cases r with
  | returns s e => exact .returns rfl (e.copies_visit_editing move rename)
  | recurs r => exact .recurs (r.copies_visit_editing move rename)

theorem Method.copies_visit_editing (m : Method) :
    m.Copies (move · = ·) (rename · = ·) (m.visit (.editing move rename)).run where
  span := rfl
  name := rfl
  returnType := rfl
  params := forall₂_mapM (Variable.copies_visitParam_editing move rename) m.params
  locals := forall₂_mapM (Variable.copies_visit_editing move rename) m.locals
  body := Stmt.copies_visitList_editing move rename m.body
  result := m.result.copies_visit_editing move rename

theorem ClassDecl.copies_visit_editing (c : ClassDecl) :
    c.Copies (move · = ·) (rename · = ·) (c.visit (.editing move rename)).run where
  span := rfl
  name := rfl
  superclass := rfl
  fields := forall₂_mapM (Variable.copies_visit_editing move rename) c.fields
  methods := forall₂_mapM (Method.copies_visit_editing move rename) c.methods

theorem Program.copies_visit_editing (p : Program) :
    p.Copies (move · = ·) (rename · = ·) (p.visit (.editing move rename)).run :=
  ⟨rfl, ⟨rfl, rfl, rfl, p.main.body.copies_visit_editing move rename⟩,
    forall₂_mapM (ClassDecl.copies_visit_editing move rename) p.classes⟩

end

end MiniJava
