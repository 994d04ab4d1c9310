import MiniJava.Printing.Spelling
import MiniJava.Proofs.Grammar.Nodes
import MiniJava.Proofs.Grammar.Yield
import MiniJava.Proofs.Printing.Render

/-!
# The spelling of a tree

Two things are shown of the pieces of a tree: they are read as what the tree yields, and they can be
printed before anything that their last piece does not run into.
-/

namespace MiniJava

open Piece

/-! ## Terminals of expressions -/

mutual

/-- The pieces of an expression are read as what it yields. -/
theorem Expr.terminals_spell : ∀ e : Expr, terminals e.spell = e.yield
  | .integer .. | .boolean _ true | .boolean _ false | .identifier .. | .this _ | .newObject ..
  | .error _ => rfl
  | .newArray _ e => by
    simp (disch := decide) [Expr.spell, Expr.yield, e.terminals_spell]
  | .index _ a i => by
    simp (disch := decide) [Expr.spell, Expr.yield, a.terminals_spell, i.terminals_spell]
  | .length _ a => by
    simp (disch := decide) [Expr.spell, Expr.yield, a.terminals_spell]
  | .call _ r _ as => by
    simp (disch := decide) [Expr.spell, Expr.yield, r.terminals_spell, Expr.terminals_spellList as]
  | .not _ e => by
    simp (disch := decide) [Expr.spell, Expr.yield, e.terminals_spell]
  | .binary _ l _ r => by
    simp (disch := decide) [Expr.spell, Expr.yield, l.terminals_spell, r.terminals_spell]
  | .paren _ e => by
    simp (disch := decide) [Expr.spell, Expr.yield, e.terminals_spell]

theorem Expr.terminals_spellList :
    ∀ es : List Expr, terminals (Expr.spellList es) = Expr.yieldList es
  | [] => rfl
  | e :: es => by
    rw [Expr.spellList, terminals_append, e.terminals_spell, Expr.terminals_spellMore es,
      Expr.yieldList]

theorem Expr.terminals_spellMore :
    ∀ es : List Expr, terminals (Expr.spellMore es) = Expr.yieldMore es
  | [] => rfl
  | e :: es => by
    simp (disch := decide) [Expr.spellMore, Expr.yieldMore, e.terminals_spell,
      Expr.terminals_spellMore es]

end

/-! ## Terminals of statements -/

theorem Stmt.isLayout_openBody (body : Stmt) : ∀ p ∈ body.openBody, p.isLayout := by
  unfold Stmt.openBody
  split <;> simp [isLayout]

theorem Stmt.isLayout_closeBody (body : Stmt) : ∀ p ∈ body.closeBody, p.isLayout := by
  unfold Stmt.closeBody
  split <;> simp [isLayout]

theorem Stmt.isLayout_afterBody (body : Stmt) :
    ∀ p ∈ if body.isBlock then [newline] else [], p.isLayout := by
  split <;> simp [isLayout]

theorem isLayout_separator (b : Prop) [Decidable b] :
    ∀ p ∈ if b then [] else [newline], p.isLayout := by
  split <;> simp [isLayout]

theorem Recur.terminals_spell (r : Recur) : terminals r.spell = r.yield := by
  simp (disch := decide) [Recur.spell, Recur.yield, Expr.terminals_spell, Expr.terminals_spellList]

mutual

/-- The pieces of a statement are read as what it yields. -/
theorem Stmt.terminals_spell (attached : Bool) :
    ∀ s : Stmt, terminals (s.spell attached) = s.yield
  | .block _ ss => by
    cases attached <;> simp (disch := decide) [Stmt.spell, Stmt.yield, Stmt.terminals_spellList ss]
  | .ifElse _ c t e => by
    cases ht : t.isBlock <;>
      simp (disch := decide) [Stmt.spell, Stmt.yield, ht, c.terminals_spell, t.terminals_spell,
        e.terminals_spell, terminals_layout (Stmt.isLayout_openBody _),
        terminals_layout (Stmt.isLayout_closeBody _), terminals_layout e.isLayout_afterBody]
  | .whileLoop _ c b => by
    simp (disch := decide) [Stmt.spell, Stmt.yield, c.terminals_spell, b.terminals_spell,
      terminals_layout b.isLayout_openBody, terminals_layout b.isLayout_closeBody,
      terminals_layout b.isLayout_afterBody]
  | .println _ v => by simp (disch := decide) [Stmt.spell, Stmt.yield, v.terminals_spell]
  | .assign _ _ v => by simp (disch := decide) [Stmt.spell, Stmt.yield, v.terminals_spell]
  | .assignElement _ _ i v => by
    simp (disch := decide) [Stmt.spell, Stmt.yield, i.terminals_spell, v.terminals_spell]
  | .recur r => r.terminals_spell
  | .error _ => rfl

theorem Stmt.terminals_spellList :
    ∀ ss : List Stmt, terminals (Stmt.spellList ss) = Stmt.yieldList ss
  | [] => rfl
  | s :: ss => by
    rw [Stmt.spellList, terminals_append, s.terminals_spell, Stmt.terminals_spellList ss,
      Stmt.yieldList]

end

/-! ## Terminals of declarations -/

theorem terminals_flatMap {α : Type} {spell : α → List Piece} {yield : α → List Terminal}
    (h : ∀ a, terminals (spell a) = yield a) (as : List α) :
    terminals (as.flatMap spell) = as.flatMap yield := by
  induction as with
  | nil => rfl
  | cons a as ih => rw [List.flatMap_cons, terminals_append, h, ih, List.flatMap_cons]

theorem TypeName.terminals_spell (t : TypeName) : terminals t.spell = t.yield := by
  cases t <;> rfl

theorem Variable.terminals_spell (v : Variable) : terminals v.spell = v.yield := by
  simp (disch := decide) [Variable.spell, Variable.yield, v.type.terminals_spell]

theorem Variable.terminals_spellLine (v : Variable) : terminals v.spellLine = v.yieldDecl := by
  simp (disch := decide) [Variable.spellLine, Variable.yieldDecl, v.terminals_spell]

theorem Variable.terminals_spellParams (vs : List Variable) :
    terminals (Variable.spellParams vs) = Terminal.commaSeparated Variable.yield vs := by
  cases vs with
  | nil => rfl
  | cons v vs =>
    have hmore : ∀ w : Variable, terminals ([word .comma, space] ++ w.spell) =
        .word .comma :: w.yield := fun w => by simp (disch := decide) [w.terminals_spell]
    rw [Variable.spellParams, Variable.spellMore, terminals_append, v.terminals_spell,
      terminals_flatMap hmore, Terminal.commaSeparated]

theorem MethodResult.terminals_spell (r : MethodResult) : terminals r.spell = r.yield := by
  cases r with
  | returns _ e =>
    simp (disch := decide) [MethodResult.spell, MethodResult.yield, e.terminals_spell]
  | recurs r => exact r.terminals_spell

theorem Method.terminals_spell (m : Method) : terminals m.spell = m.yield := by
  simp (disch := decide) [Method.spell, Method.yield, m.returnType.terminals_spell,
    Variable.terminals_spellParams,
    terminals_flatMap Variable.terminals_spellLine, Stmt.terminals_spellList, Stmt.yieldList_eq,
    m.result.terminals_spell]

theorem Method.spellList_cons (m : Method) (ms : List Method) :
    Method.spellList (m :: ms) =
      m.spell ++ ((if ms.isEmpty then [] else [newline]) ++ Method.spellList ms) := by
  cases ms with
  | nil => simp [Method.spellList]
  | cons m' ms => simp [Method.spellList]

theorem Method.terminals_spellList (ms : List Method) :
    terminals (Method.spellList ms) = ms.flatMap Method.yield := by
  induction ms with
  | nil => rfl
  | cons m ms ih =>
    rw [Method.spellList_cons, terminals_append, terminals_append, m.terminals_spell,
      terminals_layout (isLayout_separator _), ih]
    rfl

theorem ClassDecl.terminals_spellSuperclass (name : Option String) :
    terminals (ClassDecl.spellSuperclass name) = ClassDecl.yieldSuperclass name := by
  cases name <;> rfl

theorem ClassDecl.terminals_spell (c : ClassDecl) : terminals c.spell = c.yield := by
  simp (disch := decide) [ClassDecl.spell, ClassDecl.yield, terminals_layout (isLayout_separator _),
    ClassDecl.terminals_spellSuperclass, terminals_flatMap Variable.terminals_spellLine,
    Method.terminals_spellList]

theorem MainClass.terminals_spell (m : MainClass) : terminals m.spell = m.yield := by
  simp (disch := decide) [MainClass.spell, MainClass.yield, MainClass.yieldHead,
    m.body.terminals_spell]

/-- The pieces of a program are read as what it yields. -/
theorem Program.terminals_spell (p : Program) : terminals p.spell = p.yield := by
  rw [Program.spell, Program.yield, terminals_append, p.main.terminals_spell,
    terminals_flatMap fun c => (terminals_cons_layout rfl _).trans c.terminals_spell]

/-! ## Joined expressions -/

theorem isMark_tokenKind (op : BinaryOp) : op.tokenKind.isMark := by
  cases op <;> rfl

mutual

/-- An expression that can be printed may stand before anything that separates. -/
theorem Expr.joined_spell : ∀ e : Expr, (∀ n ∈ e.nodes, n.Spellable) → ∀ {rest : List Piece},
    Separates rest → Joined rest → Joined (e.spell ++ rest)
  | .integer _ v, he, rest, hs, hj => by
    have hv : 0 ≤ v.toInt := (List.forall_mem_singleton.1 he).inRange
    exact .number hv hs hj
  | .boolean _ true, _, rest, hs, hj | .boolean _ false, _, rest, hs, hj
  | .this _, _, rest, hs, hj => .keyword rfl hs hj
  | .identifier _ n, he, rest, hs, hj => by
    have hn : IsName n := List.forall_mem_singleton.1 (List.forall_mem_singleton.1 he).named
    exact .ident hn hs hj
  | .newArray _ e, he, rest, hs, hj => by
    obtain ⟨-, he⟩ := List.forall_mem_cons.1 he
    simp only [Expr.spell, List.append_assoc, List.cons_append, List.nil_append]
    refine .keyword rfl (.space _) <| .blank rfl <| .keyword rfl (.mark rfl _) <| .mark rfl ?_
    exact e.joined_spell he (.mark rfl _) (.mark rfl hj)
  | .newObject _ n, he, rest, hs, hj => by
    have hn : IsName n := List.forall_mem_singleton.1 (List.forall_mem_singleton.1 he).named
    refine .keyword rfl (.space _) <| .blank rfl <| .ident hn (.mark rfl _) ?_
    exact .mark rfl <| .mark rfl hj
  | .index _ a i, he, rest, hs, hj => by
    obtain ⟨ha, hi⟩ := List.forall_mem_append.1 (List.forall_mem_cons.1 he).2
    simp only [Expr.spell, List.append_assoc, List.cons_append, List.nil_append]
    refine a.joined_spell ha (.mark rfl _) (.mark rfl ?_)
    exact i.joined_spell hi (.mark rfl _) (.mark rfl hj)
  | .length _ a, he, rest, hs, hj => by
    obtain ⟨-, ha⟩ := List.forall_mem_cons.1 he
    rw [Expr.spell, List.append_assoc]
    exact a.joined_spell ha (.dot (.length _)) (.mark rfl <| .keyword rfl hs hj)
  | .call _ r m as, he, rest, hs, hj => by
    obtain ⟨hm, he⟩ := List.forall_mem_cons.1 he
    obtain ⟨hr, has⟩ := List.forall_mem_append.1 he
    have hm : IsName m := List.forall_mem_singleton.1 hm.named
    simp only [Expr.spell, List.append_assoc, List.cons_append, List.nil_append]
    refine r.joined_spell hr (.dot (.call _ _)) (.mark rfl <| .ident hm (.mark rfl _) ?_)
    exact .mark rfl <| Expr.joined_spellList as has (.mark rfl _) (.mark rfl hj)
  | .not _ e, he, rest, hs, hj => by
    obtain ⟨-, he⟩ := List.forall_mem_cons.1 he
    exact .mark rfl (e.joined_spell he hs hj)
  | .binary _ l op r, he, rest, hs, hj => by
    obtain ⟨hl, hr⟩ := List.forall_mem_append.1 (List.forall_mem_cons.1 he).2
    simp only [Expr.spell, List.append_assoc, List.cons_append, List.nil_append]
    refine l.joined_spell hl (.space _) (.blank rfl <| .mark (isMark_tokenKind op) ?_)
    exact .blank rfl <| r.joined_spell hr hs hj
  | .paren _ e, he, rest, hs, hj => by
    obtain ⟨-, he⟩ := List.forall_mem_cons.1 he
    simp only [Expr.spell, List.append_assoc, List.cons_append, List.nil_append]
    exact .mark rfl <| e.joined_spell he (.mark rfl _) (.mark rfl hj)
  | .error _, he, rest, _, _ => ((List.forall_mem_singleton.1 he).noError trivial).elim

theorem Expr.joined_spellList : ∀ es : List Expr, (∀ n ∈ Expr.nodesList es, n.Spellable) →
    ∀ {rest : List Piece}, Separates rest → Joined rest → Joined (Expr.spellList es ++ rest)
  | [], _, _, _, hj => hj
  | e :: es, h, rest, hs, hj => by
    obtain ⟨he, hes⟩ := List.forall_mem_append.1 h
    obtain ⟨hs, hj⟩ := Expr.joined_spellMore es hes hs hj
    rw [Expr.spellList, List.append_assoc]
    exact e.joined_spell he hs hj

theorem Expr.joined_spellMore : ∀ es : List Expr, (∀ n ∈ Expr.nodesList es, n.Spellable) →
    ∀ {rest : List Piece}, Separates rest → Joined rest →
      Separates (Expr.spellMore es ++ rest) ∧ Joined (Expr.spellMore es ++ rest)
  | [], _, _, hs, hj => ⟨hs, hj⟩
  | e :: es, h, rest, hs, hj => by
    obtain ⟨he, hes⟩ := List.forall_mem_append.1 h
    obtain ⟨hs, hj⟩ := Expr.joined_spellMore es hes hs hj
    simp only [Expr.spellMore, List.append_assoc, List.cons_append, List.nil_append]
    exact ⟨.mark rfl _, .mark rfl <| .blank rfl <| e.joined_spell he hs hj⟩

end

/-! ## Joined statements -/

theorem Recur.joined_spell {r : Recur} (hr : ∀ n ∈ r.nodes, n.Spellable) {rest : List Piece}
    (hj : Joined rest) : Joined (r.spell ++ rest) := by
  obtain ⟨hc, hr⟩ := List.forall_mem_append.1 (List.forall_mem_cons.1 hr).2
  obtain ⟨has, hf⟩ := List.forall_mem_append.1 hr
  rw [← Expr.nodesList_eq] at has
  simp only [Recur.spell, List.append_assoc, List.cons_append, List.nil_append]
  refine .blank rfl <| .keyword rfl (.space _) <| .blank rfl <| .mark rfl ?_
  refine r.condition.joined_spell hc (.mark rfl _) <| .mark rfl <| .blank rfl <| .mark rfl ?_
  refine .blank rfl <| .mark rfl <| Expr.joined_spellList r.args has (.mark rfl _) ?_
  refine .mark rfl <| .blank rfl <| .mark rfl <| .blank rfl ?_
  exact r.fallback.joined_spell hf (.mark rfl _) <| .mark rfl <| .blank rfl hj

theorem Stmt.separates_openBody (body : Stmt) (rest : List Piece) :
    Separates (body.openBody ++ rest) := by
  unfold Stmt.openBody
  split
  · exact .space _
  · exact .newline _

mutual

/-- A statement that can be printed may stand before any row. -/
theorem Stmt.joined_spell (attached : Bool) : ∀ s : Stmt, (∀ n ∈ s.nodes, n.Spellable) →
    ∀ {rest : List Piece}, Joined rest → Joined (s.spell attached ++ rest)
  | .block _ ss, hs, rest, hj => by
    obtain ⟨-, hs⟩ := List.forall_mem_cons.1 hs
    have hopen : ∀ p ∈ if attached then [] else [margin], p.isLayout := by
      split <;> simp [isLayout]
    have hclose : ∀ p ∈ if attached then [] else [newline], p.isLayout := by
      split <;> simp [isLayout]
    simp only [Stmt.spell, List.append_assoc, List.cons_append, List.nil_append]
    refine .blanks hopen <| .mark rfl <| .blank rfl <| .blank rfl ?_
    refine Stmt.joined_spellList ss hs <| .blank rfl <| .blank rfl <| .mark rfl ?_
    exact .blanks hclose hj
  | .ifElse _ c t e, hs, rest, hj => by
    obtain ⟨hc, hs⟩ := List.forall_mem_append.1 (List.forall_mem_cons.1 hs).2
    obtain ⟨ht, he⟩ := List.forall_mem_append.1 hs
    simp only [Stmt.spell, List.append_assoc, List.cons_append, List.nil_append]
    refine .blank rfl <| .keyword rfl (.space _) <| .blank rfl <| .mark rfl ?_
    refine c.joined_spell hc (.mark rfl _) <| .mark rfl <| .blanks t.isLayout_openBody ?_
    refine t.joined_spell true ht <| .blanks t.isLayout_closeBody ?_
    refine .blank (by split <;> rfl) <| .keyword rfl (e.separates_openBody _) ?_
    refine .blanks e.isLayout_openBody <| e.joined_spell true he ?_
    exact .blanks e.isLayout_closeBody <| .blanks e.isLayout_afterBody hj
  | .whileLoop _ c b, hs, rest, hj => by
    obtain ⟨hc, hb⟩ := List.forall_mem_append.1 (List.forall_mem_cons.1 hs).2
    simp only [Stmt.spell, List.append_assoc, List.cons_append, List.nil_append]
    refine .blank rfl <| .keyword rfl (.space _) <| .blank rfl <| .mark rfl ?_
    refine c.joined_spell hc (.mark rfl _) <| .mark rfl <| .blanks b.isLayout_openBody ?_
    refine b.joined_spell true hb <| .blanks b.isLayout_closeBody ?_
    exact .blanks b.isLayout_afterBody hj
  | .println _ v, hs, rest, hj => by
    obtain ⟨-, hv⟩ := List.forall_mem_cons.1 hs
    simp only [Stmt.spell, List.append_assoc, List.cons_append, List.nil_append]
    refine .blank rfl <| .keyword rfl (.mark rfl _) <| .mark rfl ?_
    exact v.joined_spell hv (.mark rfl _) <| .mark rfl <| .mark rfl <| .blank rfl hj
  | .assign _ n v, hs, rest, hj => by
    obtain ⟨hn, hv⟩ := List.forall_mem_cons.1 hs
    have hn : IsName n := List.forall_mem_singleton.1 hn.named
    simp only [Stmt.spell, List.append_assoc, List.cons_append, List.nil_append]
    refine .blank rfl <| .ident hn (.space _) <| .blank rfl <| .mark rfl <| .blank rfl ?_
    exact v.joined_spell hv (.mark rfl _) <| .mark rfl <| .blank rfl hj
  | .assignElement _ n i v, hs, rest, hj => by
    obtain ⟨hn, hs⟩ := List.forall_mem_cons.1 hs
    obtain ⟨hi, hv⟩ := List.forall_mem_append.1 hs
    have hn : IsName n := List.forall_mem_singleton.1 hn.named
    simp only [Stmt.spell, List.append_assoc, List.cons_append, List.nil_append]
    refine .blank rfl <| .ident hn (.mark rfl _) <| .mark rfl ?_
    refine i.joined_spell hi (.mark rfl _) <| .mark rfl <| .blank rfl <| .mark rfl ?_
    exact .blank rfl <| v.joined_spell hv (.mark rfl _) <| .mark rfl <| .blank rfl hj
  | .recur _, hs, _, hj => Recur.joined_spell (List.forall_mem_cons.1 hs).2 hj
  | .error _, hs, _, _ => ((List.forall_mem_singleton.1 hs).noError trivial).elim

theorem Stmt.joined_spellList : ∀ ss : List Stmt, (∀ n ∈ Stmt.nodesList ss, n.Spellable) →
    ∀ {rest : List Piece}, Joined rest → Joined (Stmt.spellList ss ++ rest)
  | [], _, _, hj => hj
  | s :: ss, h, rest, hj => by
    obtain ⟨hs, hss⟩ := List.forall_mem_append.1 h
    rw [Stmt.spellList, List.append_assoc]
    exact s.joined_spell false hs (Stmt.joined_spellList ss hss hj)

end

/-! ## Joined declarations -/

theorem TypeName.joined_spell {t : TypeName} (ht : ∀ n ∈ t.names, IsName n) {rest : List Piece}
    (hs : Separates rest) (hj : Joined rest) : Joined (t.spell ++ rest) := by
  cases t with
  | int | boolean => exact .keyword rfl hs hj
  | intArray => exact .keyword rfl (.mark rfl _) <| .mark rfl <| .mark rfl hj
  | named n => exact .ident (List.forall_mem_singleton.1 ht) hs hj

theorem Variable.joined_spell {v : Variable} (hv : ∀ n ∈ v.name :: v.type.names, IsName n)
    {rest : List Piece} (hs : Separates rest) (hj : Joined rest) : Joined (v.spell ++ rest) := by
  obtain ⟨hn, ht⟩ := List.forall_mem_cons.1 hv
  rw [Variable.spell, List.append_assoc]
  exact TypeName.joined_spell ht (.space _) <| .blank rfl <| .ident hn hs hj

theorem Variable.joined_spellLines {vs : List Variable}
    (hvs : ∀ n ∈ vs.map Node.var, n.Spellable) {rest : List Piece} (hj : Joined rest) :
    Joined (vs.flatMap Variable.spellLine ++ rest) := by
  refine .flatMap (fun v hv rest hj => ?_) hj
  simp only [Variable.spellLine, List.append_assoc, List.cons_append, List.nil_append]
  have hn := (hvs _ (List.mem_map_of_mem hv)).named
  exact .blank rfl <| Variable.joined_spell hn (.mark rfl _) <| .mark rfl <| .blank rfl hj

theorem Variable.joined_spellMore {vs : List Variable}
    (hvs : ∀ n ∈ vs.map Node.param, n.Spellable) {rest : List Piece} (hs : Separates rest)
    (hj : Joined rest) :
    Separates (Variable.spellMore vs ++ rest) ∧ Joined (Variable.spellMore vs ++ rest) := by
  induction vs with
  | nil => exact ⟨hs, hj⟩
  | cons v vs ih =>
    obtain ⟨hv, hvs⟩ := List.forall_mem_cons.1 hvs
    obtain ⟨hs, hj⟩ := ih hvs
    rw [Variable.spellMore, List.flatMap_cons, List.append_assoc, List.append_assoc]
    exact ⟨.mark rfl _, .mark rfl <| .blank rfl <| Variable.joined_spell hv.named hs hj⟩

theorem Variable.joined_spellParams {vs : List Variable}
    (hvs : ∀ n ∈ vs.map Node.param, n.Spellable) {rest : List Piece} (hs : Separates rest)
    (hj : Joined rest) : Joined (Variable.spellParams vs ++ rest) := by
  cases vs with
  | nil => exact hj
  | cons v vs =>
    obtain ⟨hv, hvs⟩ := List.forall_mem_cons.1 hvs
    obtain ⟨hs, hj⟩ := Variable.joined_spellMore hvs hs hj
    rw [Variable.spellParams, List.append_assoc]
    exact Variable.joined_spell hv.named hs hj

theorem MethodResult.joined_spell {r : MethodResult} (hr : ∀ n ∈ r.nodes, n.Spellable)
    {rest : List Piece} (hj : Joined rest) : Joined (r.spell ++ rest) := by
  cases r with
  | returns _ e =>
    simp only [MethodResult.spell, List.append_assoc, List.cons_append, List.nil_append]
    refine .blank rfl <| .keyword rfl (.space _) <| .blank rfl ?_
    exact e.joined_spell hr (.mark rfl _) <| .mark rfl <| .blank rfl hj
  | recurs r => exact Recur.joined_spell hr hj

theorem Method.joined_spell {m : Method} (hm : ∀ n ∈ m.nodes, n.Spellable) {rest : List Piece}
    (hj : Joined rest) : Joined (m.spell ++ rest) := by
  obtain ⟨hm, h⟩ := List.forall_mem_cons.1 hm
  obtain ⟨hparams, h⟩ := List.forall_mem_append.1 h
  obtain ⟨hlocals, h⟩ := List.forall_mem_append.1 h
  obtain ⟨hbody, hresult⟩ := List.forall_mem_append.1 h
  obtain ⟨hn, ht⟩ := List.forall_mem_cons.1 hm.named
  rw [← Stmt.nodesList_eq] at hbody
  simp only [Method.spell, List.append_assoc, List.cons_append, List.nil_append]
  refine .blank rfl <| .keyword rfl (.space _) <| .blank rfl ?_
  refine TypeName.joined_spell ht (.space _) <| .blank rfl <| .ident hn (.mark rfl _) ?_
  refine .mark rfl <| Variable.joined_spellParams hparams (.mark rfl _) <| .mark rfl ?_
  refine .blank rfl <| .mark rfl <| .blank rfl <| .blank rfl ?_
  refine Variable.joined_spellLines hlocals <| Stmt.joined_spellList m.body hbody ?_
  apply MethodResult.joined_spell hresult
  exact .blank rfl <| .blank rfl <| .mark rfl <| .blank rfl hj

theorem Method.joined_spellList {ms : List Method}
    (hms : ∀ m ∈ ms, ∀ n ∈ m.nodes, n.Spellable) {rest : List Piece} (hj : Joined rest) :
    Joined (Method.spellList ms ++ rest) := by
  induction ms with
  | nil => exact hj
  | cons m ms ih =>
    obtain ⟨hm, hms⟩ := List.forall_mem_cons.1 hms
    rw [Method.spellList_cons, List.append_assoc, List.append_assoc]
    exact Method.joined_spell hm <| .blanks (isLayout_separator _) <| ih hms

theorem ClassDecl.separates_spellSuperclass (name : Option String) {rest : List Piece}
    (hs : Separates rest) : Separates (ClassDecl.spellSuperclass name ++ rest) := by
  cases name with
  | none => exact hs
  | some n => exact .space _

theorem ClassDecl.joined_spellSuperclass {name : Option String}
    (hname : ∀ n ∈ name.toList, IsName n) {rest : List Piece} (hs : Separates rest)
    (hj : Joined rest) : Joined (ClassDecl.spellSuperclass name ++ rest) := by
  cases name with
  | none => exact hj
  | some n =>
    have hn : IsName n := List.forall_mem_singleton.1 hname
    exact .blank rfl <| .keyword rfl (.space _) <| .blank rfl <| .ident hn hs hj

theorem ClassDecl.joined_spell {c : ClassDecl} (hc : ∀ n ∈ c.nodes, n.Spellable)
    {rest : List Piece} (hj : Joined rest) : Joined (c.spell ++ rest) := by
  obtain ⟨hc, h⟩ := List.forall_mem_cons.1 hc
  obtain ⟨hfields, hmethods⟩ := List.forall_mem_append.1 h
  obtain ⟨hn, hsuper⟩ := List.forall_mem_cons.1 hc.named
  simp only [ClassDecl.spell, List.append_assoc, List.cons_append, List.nil_append]
  refine .blank rfl <| .keyword rfl (.space _) <| .blank rfl <| .ident hn ?_ ?_
  · exact ClassDecl.separates_spellSuperclass c.superclass (.space _)
  refine ClassDecl.joined_spellSuperclass hsuper (.space _) <| .blank rfl <| .mark rfl ?_
  refine .blank rfl <| .blank rfl <| Variable.joined_spellLines hfields ?_
  refine .blanks (isLayout_separator _) ?_
  apply Method.joined_spellList (List.forall_mem_flatMap.1 hmethods)
  exact .blank rfl <| .blank rfl <| .mark rfl <| .blank rfl hj

theorem MainClass.joined_spell {m : MainClass} (hn : IsName m.name) (ha : IsName m.argsName)
    (hm : ∀ n ∈ m.body.nodes, n.Spellable) {rest : List Piece} (hj : Joined rest) :
    Joined (m.spell ++ rest) := by
  have hmain : IsName "main" := (isName_iff "main").2 ⟨by decide, by decide⟩
  simp only [MainClass.spell, List.append_assoc, List.cons_append, List.nil_append]
  refine .blank rfl <| .keyword rfl (.space _) <| .blank rfl <| .ident hn (.space _) ?_
  refine .blank rfl <| .mark rfl <| .blank rfl <| .blank rfl <| .blank rfl ?_
  refine .keyword rfl (.space _) <| .blank rfl <| .keyword rfl (.space _) <| .blank rfl ?_
  refine .keyword rfl (.space _) <| .blank rfl <| .ident hmain (.mark rfl _) <| .mark rfl ?_
  refine .keyword rfl (.mark rfl _) <| .mark rfl <| .mark rfl <| .blank rfl ?_
  refine .ident ha (.mark rfl _) <| .mark rfl <| .blank rfl <| .mark rfl ?_
  refine .blank rfl <| .blank rfl <| m.body.joined_spell false hm ?_
  refine .blank rfl <| .blank rfl <| .mark rfl <| .blank rfl ?_
  exact .blank rfl <| .blank rfl <| .mark rfl <| .blank rfl hj

/-- The pieces of a program that can be printed do not run into each other. -/
theorem Program.joined_spell {p : Program} (hp : ∀ n ∈ p.nodes, n.Spellable) : Joined p.spell := by
  obtain ⟨hp, h⟩ := List.forall_mem_cons.1 hp
  obtain ⟨hmain, hclasses⟩ := List.forall_mem_append.1 h
  obtain ⟨hn, ha⟩ := List.forall_mem_cons.1 hp.named
  apply MainClass.joined_spell hn (List.forall_mem_singleton.1 ha) hmain
  rw [← List.append_nil (List.flatMap _ _)]
  refine .flatMap (fun c hc rest hj => .blank rfl ?_) trivial
  exact ClassDecl.joined_spell (List.forall_mem_flatMap.1 hclasses c hc) hj

/-! ## Printed text -/

theorem Printer.toList_text_visit (p : Printer) (t : Printable) :
    (p.visit t).text.toList = p.text.toList ++ render p.level t.pieces :=
  toList_text_putAll _ _

/-- The text of a tree is what its pieces are printed with from level 0 on. -/
theorem Printable.toList_print (t : Printable) : t.print.toList = render 0 t.pieces :=
  Printer.empty.toList_text_visit t

end MiniJava
