import MiniJava.Proofs.Grammar.Nodes
import MiniJava.Proofs.Grammar.Yield

/-!
# Gaps between statements

A gap is a boundary between two statements of a block, or before the first or after the last one,
together with all that is around it. Statements that are put into a gap make a tree, and the
terminals of this tree are those before the gap, those of the statements and those after the gap.
-/

namespace MiniJava

open Terminal

/-! ## In a statement -/

/-- A gap in a block of a statement. -/
inductive Stmt.Gap where
  | block (span : Span) (before after : List Stmt)
  | inBlock (span : Span) (before : List Stmt) (gap : Gap) (after : List Stmt)
  | inThen (span : Span) (condition : Expr) (gap : Gap) (elseBranch : Stmt)
  | inElse (span : Span) (condition : Expr) (thenBranch : Stmt) (gap : Gap)
  | inWhile (span : Span) (condition : Expr) (gap : Gap)

namespace Stmt.Gap

/-- The statement with some statements in the gap. -/
def fill (ss : List Stmt) : Gap → Stmt
  | block span before after => .block span (before ++ (ss ++ after))
  | inBlock span before gap after => .block span (before ++ gap.fill ss :: after)
  | inThen span condition gap elseBranch => .ifElse span condition (gap.fill ss) elseBranch
  | inElse span condition thenBranch gap => .ifElse span condition thenBranch (gap.fill ss)
  | inWhile span condition gap => .whileLoop span condition (gap.fill ss)

/-- The terminals before the gap. -/
def yieldBefore : Gap → List Terminal
  | block _ before _ => word .leftBrace :: before.flatMap Stmt.yield
  | inBlock _ before gap _ => word .leftBrace :: (before.flatMap Stmt.yield ++ gap.yieldBefore)
  | inThen _ condition gap _ =>
    word .ifKw :: word .leftParen :: (condition.yield ++ word .rightParen :: gap.yieldBefore)
  | inElse _ condition thenBranch gap =>
    word .ifKw :: word .leftParen :: (condition.yield ++
      word .rightParen :: (thenBranch.yield ++ word .elseKw :: gap.yieldBefore))
  | inWhile _ condition gap =>
    word .whileKw :: word .leftParen :: (condition.yield ++ word .rightParen :: gap.yieldBefore)

/-- The terminals after the gap. -/
def yieldAfter : Gap → List Terminal
  | block _ _ after => after.flatMap Stmt.yield ++ [word .rightBrace]
  | inBlock _ _ gap after => gap.yieldAfter ++ (after.flatMap Stmt.yield ++ [word .rightBrace])
  | inThen _ _ gap elseBranch => gap.yieldAfter ++ word .elseKw :: elseBranch.yield
  | inElse _ _ _ gap | inWhile _ _ gap => gap.yieldAfter

/-- The gap with every span around it forgotten. -/
def withoutSpans : Gap → Gap
  | block _ before after =>
    block Span.nowhere (before.map Stmt.withoutSpans) (after.map Stmt.withoutSpans)
  | inBlock _ before gap after =>
    inBlock Span.nowhere (before.map Stmt.withoutSpans) gap.withoutSpans
      (after.map Stmt.withoutSpans)
  | inThen _ condition gap elseBranch =>
    inThen Span.nowhere condition.withoutSpans gap.withoutSpans elseBranch.withoutSpans
  | inElse _ condition thenBranch gap =>
    inElse Span.nowhere condition.withoutSpans thenBranch.withoutSpans gap.withoutSpans
  | inWhile _ condition gap => inWhile Span.nowhere condition.withoutSpans gap.withoutSpans

theorem yield_fill (g : Gap) (ss : List Stmt) :
    (g.fill ss).yield = g.yieldBefore ++ (ss.flatMap Stmt.yield ++ g.yieldAfter) := by
  induction g with
  | block => simp [fill, yieldBefore, yieldAfter, Stmt.yield, Stmt.yieldList_eq]
  | inBlock _ _ _ _ ih | inThen _ _ _ _ ih | inElse _ _ _ _ ih | inWhile _ _ _ ih =>
    simp [fill, yieldBefore, yieldAfter, Stmt.yield, Stmt.yieldList_eq, ih]

theorem withoutSpans_fill (g : Gap) (ss : List Stmt) :
    (g.fill ss).withoutSpans = g.withoutSpans.fill (ss.map Stmt.withoutSpans) := by
  induction g with
  | block => simp [fill, withoutSpans, Stmt.withoutSpans, Stmt.withoutSpansList_eq]
  | inBlock _ _ _ _ ih | inThen _ _ _ _ ih | inElse _ _ _ _ ih | inWhile _ _ _ ih =>
    simp [fill, withoutSpans, Stmt.withoutSpans, Stmt.withoutSpansList_eq, ih]

end Stmt.Gap

/-! ## In a method -/

/-- The terminals of a method up to its body. -/
def Method.yieldHead (returnType : TypeName) (name : String) (params : List Variable) :
    List Terminal :=
  word .publicKw :: (returnType.yield ++ ident name :: word .leftParen ::
    (commaSeparated Variable.yield params ++ [word .rightParen, word .leftBrace]))

/-- A gap in a block of a method. -/
structure Method.Gap where
  span : Span
  name : String
  returnType : TypeName
  params : List Variable
  locals : List Variable
  before : List Stmt
  inner : Stmt.Gap
  after : List Stmt
  result : MethodResult

namespace Method.Gap

variable (g : Method.Gap)

/-- The method with some statements in the gap. -/
def fill (ss : List Stmt) : Method where
  span := g.span
  name := g.name
  returnType := g.returnType
  params := g.params
  locals := g.locals
  body := g.before ++ g.inner.fill ss :: g.after
  result := g.result

/-- The terminals before the gap. -/
def yieldBefore : List Terminal :=
  Method.yieldHead g.returnType g.name g.params ++ (g.locals.flatMap Variable.yieldDecl ++
    (g.before.flatMap Stmt.yield ++ g.inner.yieldBefore))

/-- The terminals after the gap. -/
def yieldAfter : List Terminal :=
  g.inner.yieldAfter ++ (g.after.flatMap Stmt.yield ++ (g.result.yield ++ [word .rightBrace]))

/-- The gap with every span around it forgotten. -/
def withoutSpans : Method.Gap where
  span := Span.nowhere
  name := g.name
  returnType := g.returnType
  params := g.params.map Variable.withoutSpans
  locals := g.locals.map Variable.withoutSpans
  before := g.before.map Stmt.withoutSpans
  inner := g.inner.withoutSpans
  after := g.after.map Stmt.withoutSpans
  result := g.result.withoutSpans

theorem yield_fill (ss : List Stmt) :
    (g.fill ss).yield = g.yieldBefore ++ (ss.flatMap Stmt.yield ++ g.yieldAfter) := by
  simp [fill, yieldBefore, yieldAfter, Method.yield, Method.yieldHead, Stmt.Gap.yield_fill]

theorem withoutSpans_fill (ss : List Stmt) :
    (g.fill ss).withoutSpans = g.withoutSpans.fill (ss.map Stmt.withoutSpans) := by
  simp [fill, withoutSpans, Method.withoutSpans, Stmt.Gap.withoutSpans_fill]

end Method.Gap

/-! ## In a class -/

/-- The terminals of a class up to its members. -/
def ClassDecl.yieldHead (name : String) (superclass : Option String) : List Terminal :=
  word .classKw :: ident name :: (yieldSuperclass superclass ++ [word .leftBrace])

/-- A gap in a block of a class. -/
structure ClassDecl.Gap where
  span : Span
  name : String
  superclass : Option String
  fields : List Variable
  before : List Method
  inner : Method.Gap
  after : List Method

namespace ClassDecl.Gap

variable (g : ClassDecl.Gap)

/-- The class with some statements in the gap. -/
def fill (ss : List Stmt) : ClassDecl where
  span := g.span
  name := g.name
  superclass := g.superclass
  fields := g.fields
  methods := g.before ++ g.inner.fill ss :: g.after

/-- The terminals before the gap. -/
def yieldBefore : List Terminal :=
  ClassDecl.yieldHead g.name g.superclass ++ (g.fields.flatMap Variable.yieldDecl ++
    (g.before.flatMap Method.yield ++ g.inner.yieldBefore))

/-- The terminals after the gap. -/
def yieldAfter : List Terminal :=
  g.inner.yieldAfter ++ (g.after.flatMap Method.yield ++ [word .rightBrace])

/-- The gap with every span around it forgotten. -/
def withoutSpans : ClassDecl.Gap where
  span := Span.nowhere
  name := g.name
  superclass := g.superclass
  fields := g.fields.map Variable.withoutSpans
  before := g.before.map Method.withoutSpans
  inner := g.inner.withoutSpans
  after := g.after.map Method.withoutSpans

theorem yield_fill (ss : List Stmt) :
    (g.fill ss).yield = g.yieldBefore ++ (ss.flatMap Stmt.yield ++ g.yieldAfter) := by
  simp [fill, yieldBefore, yieldAfter, ClassDecl.yield, ClassDecl.yieldHead,
    Method.Gap.yield_fill]

theorem withoutSpans_fill (ss : List Stmt) :
    (g.fill ss).withoutSpans = g.withoutSpans.fill (ss.map Stmt.withoutSpans) := by
  simp [fill, withoutSpans, ClassDecl.withoutSpans, Method.Gap.withoutSpans_fill]

end ClassDecl.Gap

/-! ## In a program -/

/-- A gap in a block of a program. -/
inductive Program.Gap where
  | inMain (span mainSpan : Span) (name argsName : String) (gap : Stmt.Gap)
      (classes : List ClassDecl)
  | inClass (span : Span) (main : MainClass) (before : List ClassDecl) (gap : ClassDecl.Gap)
      (after : List ClassDecl)

namespace Program.Gap

/-- The program with some statements in the gap. -/
def fill (ss : List Stmt) : Gap → Program
  | inMain span mainSpan name argsName gap classes =>
    { span, main := { span := mainSpan, name, argsName, body := gap.fill ss }, classes }
  | inClass span main before gap after =>
    { span, main, classes := before ++ gap.fill ss :: after }

/-- The terminals before the gap. -/
def yieldBefore : Gap → List Terminal
  | inMain _ _ name argsName gap _ =>
    word .classKw :: (MainClass.yieldHead name argsName ++ word .leftBrace :: gap.yieldBefore)
  | inClass _ main before gap _ => main.yield ++ (before.flatMap ClassDecl.yield ++ gap.yieldBefore)

/-- The terminals after the gap. -/
def yieldAfter : Gap → List Terminal
  | inMain _ _ _ _ gap classes =>
    gap.yieldAfter ++ word .rightBrace :: word .rightBrace :: classes.flatMap ClassDecl.yield
  | inClass _ _ _ gap after => gap.yieldAfter ++ after.flatMap ClassDecl.yield

/-- The gap with every span around it forgotten. -/
def withoutSpans : Gap → Gap
  | inMain _ _ name argsName gap classes =>
    inMain Span.nowhere Span.nowhere name argsName gap.withoutSpans
      (classes.map ClassDecl.withoutSpans)
  | inClass _ main before gap after =>
    inClass Span.nowhere main.withoutSpans (before.map ClassDecl.withoutSpans) gap.withoutSpans
      (after.map ClassDecl.withoutSpans)

/-- What is put into a gap stands between what is before and what is after it. -/
theorem yield_fill (g : Gap) (ss : List Stmt) :
    (g.fill ss).yield = g.yieldBefore ++ (ss.flatMap Stmt.yield ++ g.yieldAfter) := by
  cases g with
  | inMain =>
    simp [fill, yieldBefore, yieldAfter, Program.yield, MainClass.yield, Stmt.Gap.yield_fill]
  | inClass => simp [fill, yieldBefore, yieldAfter, Program.yield, ClassDecl.Gap.yield_fill]

/-- Trees that differ in the gap only are equal up to spans if what is in the gap is. -/
theorem withoutSpans_fill (g : Gap) (ss : List Stmt) :
    (g.fill ss).withoutSpans = g.withoutSpans.fill (ss.map Stmt.withoutSpans) := by
  cases g with
  | inMain =>
    simp [fill, withoutSpans, Program.withoutSpans, MainClass.withoutSpans,
      Stmt.Gap.withoutSpans_fill]
  | inClass =>
    simp [fill, withoutSpans, Program.withoutSpans, ClassDecl.Gap.withoutSpans_fill]

end Program.Gap

/-! ## Every boundary of a block is a gap -/

/-- The block that the gap is in: its span, and its statements before and after the gap. -/
def Stmt.Gap.place : Stmt.Gap → Span × List Stmt × List Stmt
  | block span before after => (span, before, after)
  | inBlock _ _ gap _ | inThen _ _ gap _ | inElse _ _ _ gap | inWhile _ _ gap => gap.place

@[inherit_doc Stmt.Gap.place]
def Program.Gap.place : Program.Gap → Span × List Stmt × List Stmt
  | inMain _ _ _ _ gap _ => gap.place
  | inClass _ _ _ gap _ => gap.inner.inner.place

mutual

/-- The nodes of an expression are expressions. -/
theorem Expr.stmt_notMem_nodes (s : Stmt) : ∀ e : Expr, .stmt s ∉ e.nodes
  | .integer .. | .boolean .. | .identifier .. | .this .. | .newObject .. | .error .. => by
    simp [Expr.nodes]
  | .newArray _ e | .length _ e | .not _ e | .paren _ e => by
    simpa [Expr.nodes] using e.stmt_notMem_nodes s
  | .index _ a i => by
    simpa [Expr.nodes] using ⟨a.stmt_notMem_nodes s, i.stmt_notMem_nodes s⟩
  | .call _ r _ as => by
    simpa [Expr.nodes] using ⟨r.stmt_notMem_nodes s, Expr.stmt_notMem_nodesList s as⟩
  | .binary _ l _ r => by
    simpa [Expr.nodes] using ⟨l.stmt_notMem_nodes s, r.stmt_notMem_nodes s⟩

theorem Expr.stmt_notMem_nodesList (s : Stmt) : ∀ es : List Expr, .stmt s ∉ Expr.nodesList es
  | [] => by simp [Expr.nodesList]
  | e :: es => by
    simpa [Expr.nodesList] using ⟨e.stmt_notMem_nodes s, Expr.stmt_notMem_nodesList s es⟩

end

theorem Recur.stmt_notMem_nodes (s : Stmt) (r : Recur) : .stmt s ∉ r.nodes := by
  have hargs := Expr.stmt_notMem_nodesList s r.args
  rw [Expr.nodesList_eq] at hargs
  simp only [Recur.nodes, List.mem_cons, List.mem_append, not_or]
  exact ⟨nofun, r.condition.stmt_notMem_nodes s, hargs, r.fallback.stmt_notMem_nodes s⟩

theorem MethodResult.stmt_notMem_nodes (s : Stmt) : ∀ r : MethodResult, .stmt s ∉ r.nodes
  | .returns _ e => e.stmt_notMem_nodes s
  | .recurs r => r.stmt_notMem_nodes s

section Boundaries

variable {span : Span} {before after : List Stmt}

mutual

/-- Every boundary of a block in a statement is a gap, one case for each form of statement. -/
theorem Stmt.exists_gap : ∀ s : Stmt, .stmt (.block span (before ++ after)) ∈ s.nodes →
    ∃ g : Stmt.Gap, g.fill [] = s ∧ g.place = (span, before, after)
  | .block sp ss, h => by
    rcases List.mem_cons.1 h with heq | h
    · cases heq
      exact ⟨.block span before after, rfl, rfl⟩
    · obtain ⟨ss₁, g, ss₂, rfl, hplace⟩ := Stmt.exists_gapList ss h
      exact ⟨.inBlock sp ss₁ g ss₂, rfl, hplace⟩
  | .ifElse sp e t u, h => by
    rcases List.mem_cons.1 h with heq | h
    · cases heq
    · rcases List.mem_append.1 h with h | h
      · exact absurd h (e.stmt_notMem_nodes _)
      · rcases List.mem_append.1 h with h | h
        · obtain ⟨g, rfl, hplace⟩ := Stmt.exists_gap t h
          exact ⟨.inThen sp e g u, rfl, hplace⟩
        · obtain ⟨g, rfl, hplace⟩ := Stmt.exists_gap u h
          exact ⟨.inElse sp e t g, rfl, hplace⟩
  | .whileLoop sp e t, h => by
    rcases List.mem_cons.1 h with heq | h
    · cases heq
    · rcases List.mem_append.1 h with h | h
      · exact absurd h (e.stmt_notMem_nodes _)
      · obtain ⟨g, rfl, hplace⟩ := Stmt.exists_gap t h
        exact ⟨.inWhile sp e g, rfl, hplace⟩
  | .println _ e, h | .assign _ _ e, h => by
    simp [Stmt.nodes, e.stmt_notMem_nodes] at h
  | .assignElement _ _ i e, h => by
    simp [Stmt.nodes, i.stmt_notMem_nodes, e.stmt_notMem_nodes] at h
  | .recur r, h => by simp [Stmt.nodes, r.stmt_notMem_nodes] at h
  | .error _, h => by simp [Stmt.nodes] at h

theorem Stmt.exists_gapList : ∀ ss : List Stmt,
    .stmt (.block span (before ++ after)) ∈ Stmt.nodesList ss →
    ∃ (ss₁ : List Stmt) (g : Stmt.Gap) (ss₂ : List Stmt),
      ss = ss₁ ++ g.fill [] :: ss₂ ∧ g.place = (span, before, after)
  | s :: ss, h => by
    rcases List.mem_append.1 h with h | h
    · obtain ⟨g, rfl, hplace⟩ := Stmt.exists_gap s h
      exact ⟨[], g, ss, rfl, hplace⟩
    · obtain ⟨ss₁, g, ss₂, rfl, hplace⟩ := Stmt.exists_gapList ss h
      exact ⟨s :: ss₁, g, ss₂, rfl, hplace⟩

end

theorem Method.exists_gap {m : Method}
    (h : .stmt (.block span (before ++ after)) ∈ m.nodes) :
    ∃ g : Method.Gap, g.fill [] = m ∧ g.inner.place = (span, before, after) := by
  obtain ⟨sp, n, t, ps, vs, ss, r⟩ := m
  have hbody : .stmt (.block span (before ++ after)) ∈ ss.flatMap Stmt.nodes := by
    simpa [Method.nodes, r.stmt_notMem_nodes] using h
  rw [← Stmt.nodesList_eq] at hbody
  obtain ⟨ss₁, g, ss₂, rfl, hplace⟩ := Stmt.exists_gapList ss hbody
  exact ⟨⟨sp, n, t, ps, vs, ss₁, g, ss₂, r⟩, rfl, hplace⟩

theorem ClassDecl.exists_gap {k : ClassDecl}
    (h : .stmt (.block span (before ++ after)) ∈ k.nodes) :
    ∃ g : ClassDecl.Gap, g.fill [] = k ∧ g.inner.inner.place = (span, before, after) := by
  obtain ⟨sp, n, s, vs, ms⟩ := k
  obtain ⟨m, hm, h⟩ : ∃ m ∈ ms, .stmt (.block span (before ++ after)) ∈ m.nodes := by
    simpa [ClassDecl.nodes] using h
  obtain ⟨g, rfl, hplace⟩ := Method.exists_gap h
  obtain ⟨ms₁, ms₂, rfl⟩ := List.append_of_mem hm
  exact ⟨⟨sp, n, s, vs, ms₁, g, ms₂⟩, rfl, hplace⟩

/-- Every boundary of a block in a program is a gap. -/
theorem Program.exists_gap {p : Program}
    (h : .stmt (.block span (before ++ after)) ∈ p.nodes) :
    ∃ g : Program.Gap, g.fill [] = p ∧ g.place = (span, before, after) := by
  obtain ⟨sp, ⟨mainSpan, n, a, s⟩, ks⟩ := p
  rcases List.mem_append.1 ((List.mem_cons.1 h).resolve_left nofun) with h | h
  · obtain ⟨g, rfl, hplace⟩ := Stmt.exists_gap s h
    exact ⟨.inMain sp mainSpan n a g ks, rfl, hplace⟩
  · obtain ⟨k, hk, h⟩ := List.mem_flatMap.1 h
    obtain ⟨g, rfl, hplace⟩ := ClassDecl.exists_gap h
    obtain ⟨ks₁, ks₂, rfl⟩ := List.append_of_mem hk
    exact ⟨.inClass sp ⟨mainSpan, n, a, s⟩ ks₁ g ks₂, rfl, hplace⟩

end Boundaries

end MiniJava
