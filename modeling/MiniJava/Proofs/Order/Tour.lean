import MiniJava.Proofs.Order.Reports
import MiniJava.Proofs.Tree.Logging
import MiniJava.Proofs.Extents.Reparsing

/-!
# Walks keep to the order of the text

If nothing is wrong with a text, then the parts of each node of its tree stand in the text in the
order in which they are listed. So a walk never goes back in the text, wherever it stops.
-/

namespace MiniJava

namespace Node

/-- Where a node stands. -/
def span : Node → Span
  | program p => p.span
  | classDecl k => k.span
  | method m => m.span
  | var v | param v => v.span
  | stmt s => s.span
  | recur r => r.span
  | expr e => e.span

/-! ## Parts in order -/

/-- The second node starts after all that belongs to the first one has started. -/
def Before (a b : Node) : Prop :=
  a.span.start ≤ b.span.start ∧ (a.parts = [] ∨ a.span.stop ≤ b.span.start)

/-- The parts of the node stand within it, in the order in which they are listed. -/
structure Lined (n : Node) : Prop where
  valid : n.span.start ≤ n.span.stop
  within : ∀ m ∈ n.parts, m.span.Within n.span
  ordered : n.parts.Pairwise Before

/-- Nodes that are listed one after the other never start before one that comes earlier. -/
theorem pairwise_start_le (n : Node) : (∀ m ∈ n.nodes, m.Lined) →
    (∀ m ∈ n.nodes, n.span.start ≤ m.span.start ∧ m.span.start ≤ n.span.stop) ∧
      n.nodes.Pairwise fun a b => a.span.start ≤ b.span.start := by
  induction n using Node.induction with
  | step n ih =>
    intro h
    rw [nodes_eq] at h ⊢
    obtain ⟨hn, hbelow⟩ := List.forall_mem_cons.1 h
    have hpart := fun k hk => ih k hk fun m hm => hbelow m (List.mem_flatMap.2 ⟨k, hk, hm⟩)
    have hbounds : ∀ m ∈ n.parts.flatMap nodes,
        n.span.start ≤ m.span.start ∧ m.span.start ≤ n.span.stop := by
      refine List.forall_mem_flatMap.2 fun k hk m hm => ?_
      obtain ⟨hstart, hstop⟩ := (hpart k hk).1 m hm
      obtain ⟨hstart', hstop'⟩ := hn.within k hk
      exact ⟨Nat.le_trans hstart' hstart, Nat.le_trans hstop hstop'⟩
    refine ⟨List.forall_mem_cons.2 ⟨⟨Nat.le_refl _, hn.valid⟩, hbounds⟩,
      List.pairwise_cons.2 ⟨fun m hm => (hbounds m hm).1, ?_⟩⟩
    refine List.pairwise_flatMap.2 ⟨fun k hk => (hpart k hk).2, ?_⟩
    refine hn.ordered.imp_of_mem fun {a b} ha hb ⟨hstart, hab⟩ x hx y hy => ?_
    have hy := ((hpart b hb).1 y hy).1
    rcases hab with hleaf | hstop
    · rw [nodes_eq, hleaf, List.flatMap_nil, List.mem_singleton] at hx
      subst hx
      exact Nat.le_trans hstart hy
    · exact Nat.le_trans (((hpart a ha).1 x hx).2) (Nat.le_trans hstop hy)

theorem before_of_stop_le {a b : Node} (ha : a.span.start ≤ a.span.stop)
    (h : a.span.stop ≤ b.span.start) : Before a b :=
  ⟨Nat.le_trans ha h, .inr h⟩

theorem before_of_leaf {a b : Node} (ha : a.parts = []) (h : a.span.start ≤ b.span.start) :
    Before a b :=
  ⟨h, .inl ha⟩

/-- Nodes of which the spans stand in a row. -/
theorem pairwise_before {s : Span} {ns : List Node} (h : s.Row (ns.map span)) :
    ns.Pairwise Before := by
  refine (List.pairwise_map.1 h.ordered).imp_of_mem fun {a b} ha _ hab => ?_
  exact before_of_stop_le (Nat.le_of_lt (h.nonempty _ (List.mem_map_of_mem ha))) hab

theorem Lined.of_row {n : Node} (hvalid : n.span.start ≤ n.span.stop)
    (h : n.span.Row (n.parts.map span)) : n.Lined :=
  ⟨hvalid, fun m hm => h.within m.span (List.mem_map_of_mem hm), pairwise_before h⟩

/-! ## Nodes of a correct text -/

theorem Lined.of_expr {e : Expr} (hvalid : e.span.start ≤ e.span.stop)
    (hn : (Node.expr e).Nested) : (Node.expr e).Lined := by
  refine .of_row hvalid ?_
  cases e with
  | integer | boolean | identifier | this | newObject | error => exact .nil _
  | newArray | length | not | paren | index | binary => exact hn
  | call s r n es =>
    rw [Node.parts, Expr.parts, List.map_cons, List.map_map]
    exact hn

theorem Lined.of_stmt {s : Stmt} (hvalid : s.span.start ≤ s.span.stop)
    (hn : (Node.stmt s).Nested) (herror : ∀ m ∈ s.parts, ¬ m.IsError) : (Node.stmt s).Lined := by
  cases s with
  | block s ss =>
    refine .of_row hvalid ?_
    rw [Node.parts, Stmt.parts, List.map_map]
    exact hn
  | ifElse s c t e =>
    rcases hn with hn | ⟨-, offset, rfl⟩
    · exact .of_row hvalid hn
    · exact (herror (stmt (.error (.point offset))) (by simp [Stmt.parts]) trivial).elim
  | whileLoop | println | assign | assignElement => exact .of_row hvalid hn
  | recur r =>
    exact ⟨hvalid, List.forall_mem_singleton.2 ⟨Nat.le_refl _, Nat.le_refl _⟩,
      List.pairwise_singleton _ _⟩
  | error => exact .of_row hvalid (.nil _)

theorem Lined.of_recur {r : Recur} (hvalid : r.span.start ≤ r.span.stop)
    (hn : (Node.recur r).Nested) : (Node.recur r).Lined := by
  refine .of_row hvalid ?_
  rw [Node.parts, List.map_cons, List.map_append, List.map_map]
  exact hn

/-- The result of a correct method is in its place. -/
theorem result_within {m : Method} (hn : (Node.method m).Nested)
    (herror : ¬ m.result.node.IsError) :
    m.result.node.span.Within m.result.span ∧ m.result.span.Within m.span := by
  obtain ⟨-, -, -, hnested, hwithin | ⟨offset, hmissing⟩⟩ := hn
  · refine ⟨?_, hwithin⟩
    cases hr : m.result with
    | returns s e =>
      rw [hr] at hnested
      exact hnested
    | recurs r => exact ⟨Nat.le_refl _, Nat.le_refl _⟩
  · rw [hmissing] at herror
    exact (herror trivial).elim

theorem Lined.of_method {m : Method} (hvalid : m.span.start ≤ m.span.stop)
    (hn : (Node.method m).Nested) (herror : ¬ m.result.node.IsError)
    (htimely : m.lateLocals = [] ∧ m.InOrder) : (Node.method m).Lined := by
  obtain ⟨hresult, hresultWithin⟩ := result_within hn herror
  obtain ⟨hparams, hlocals, hbody, -, -⟩ := hn
  obtain ⟨hlate, ⟨hparamLocals, hparamBody, hparamResult⟩, hlast⟩ := htimely
  have hearly : ∀ v ∈ m.locals, (∀ s ∈ m.body, v.span.start ≤ s.span.start) ∧
      v.span.start ≤ m.result.span.start := by
    simpa [Method.lateLocals] using hlate
  have hparamValid : ∀ v ∈ m.params, v.span.start ≤ v.span.stop := fun v hv =>
    Nat.le_of_lt (hparams.nonempty _ (List.mem_map_of_mem hv))
  have hbodyValid : ∀ s ∈ m.body, s.span.start ≤ s.span.stop := fun s hs =>
    Nat.le_of_lt (hbody.nonempty _ (List.mem_map_of_mem hs))
  have hparamFirst : ∀ v ∈ m.params, v.span.stop ≤ m.result.span.start := by
    refine fun v hv => (hparamResult v hv).resolve_right ?_
    rintro ⟨offset, hmissing⟩
    rw [hmissing] at herror
    exact herror trivial
  refine ⟨hvalid, ?_, ?_⟩
  · simp only [parts, List.forall_mem_append, List.forall_mem_map, List.forall_mem_singleton]
    exact ⟨fun v hv => hparams.within _ (List.mem_map_of_mem hv),
      fun v hv => hlocals.within _ (List.mem_map_of_mem hv),
      fun s hs => hbody.within _ (List.mem_map_of_mem hs), hresult.trans hresultWithin⟩
  · simp only [parts, List.pairwise_append, List.forall_mem_append, List.forall_mem_map,
      List.forall_mem_singleton]
    refine ⟨pairwise_before (s := m.span) (by rw [List.map_map]; exact hparams),
      ⟨pairwise_before (s := m.span) (by rw [List.map_map]; exact hlocals),
        ⟨pairwise_before (s := m.span) (by rw [List.map_map]; exact hbody),
          List.pairwise_singleton _ _, fun s hs => ?_⟩, fun v hv => ⟨fun s hs => ?_, ?_⟩⟩,
      fun v hv => ⟨fun w hw => ?_, fun s hs => ?_, ?_⟩⟩
    · exact before_of_stop_le (hbodyValid s hs) (Nat.le_trans (hlast s hs) hresult.1)
    · exact before_of_leaf rfl ((hearly v hv).1 s hs)
    · exact before_of_leaf rfl (Nat.le_trans (hearly v hv).2 hresult.1)
    · exact before_of_stop_le (hparamValid v hv) (hparamLocals v hv w hw)
    · exact before_of_stop_le (hparamValid v hv) (hparamBody v hv s hs)
    · exact before_of_stop_le (hparamValid v hv) (Nat.le_trans (hparamFirst v hv) hresult.1)

theorem Lined.of_classDecl {k : ClassDecl} (hvalid : k.span.start ≤ k.span.stop)
    (hn : (Node.classDecl k).Nested) (htimely : k.lateFields = []) : (Node.classDecl k).Lined := by
  obtain ⟨hfields, hmethods⟩ := hn
  have hearly : ∀ v ∈ k.fields, ∀ m ∈ k.methods, v.span.start ≤ m.span.start := by
    simpa [ClassDecl.lateFields] using htimely
  refine ⟨hvalid, List.forall_mem_append.2 ⟨?_, ?_⟩, List.pairwise_append.2 ⟨?_, ?_, ?_⟩⟩
  · exact List.forall_mem_map.2 fun v hv => hfields.within _ (List.mem_map_of_mem hv)
  · exact List.forall_mem_map.2 fun m hm => hmethods.within _ (List.mem_map_of_mem hm)
  · exact pairwise_before (s := k.span) (by rw [List.map_map]; exact hfields)
  · exact pairwise_before (s := k.span) (by rw [List.map_map]; exact hmethods)
  · refine List.forall_mem_map.2 fun v hv => List.forall_mem_map.2 fun m hm => ?_
    exact before_of_leaf rfl (hearly v hv m hm)

theorem Lined.of_program {p : Program} (hvalid : p.span.start ≤ p.span.stop)
    (hn : (Node.program p).Nested) (hbody : p.main.body.span.start ≤ p.main.body.span.stop) :
    (Node.program p).Lined := by
  obtain ⟨hmain, hwithin, hclasses, hfirst⟩ := hn
  refine ⟨hvalid, List.forall_mem_cons.2 ⟨hwithin.trans hmain, ?_⟩,
    List.pairwise_cons.2 ⟨?_, ?_⟩⟩
  · exact List.forall_mem_map.2 fun k hk => hclasses.within _ (List.mem_map_of_mem hk)
  · refine List.forall_mem_map.2 fun k hk => before_of_stop_le hbody ?_
    exact Nat.le_trans hwithin.2 (hfirst k hk)
  · exact pairwise_before (s := p.span) (by rw [List.map_map]; exact hclasses)

/-- The declarations at the node do not come late. -/
def Timely : Node → Prop
  | classDecl k => k.lateFields = []
  | method m => m.lateLocals = [] ∧ m.InOrder
  | program _ | var _ | param _ | stmt _ | recur _ | expr _ => True

theorem Lined.of_parts {n : Node} {source : String} (hplaced : ∀ m ∈ n.nodes, m.Placed source)
    (herror : ∀ m ∈ n.nodes, ¬ m.IsError) (htimely : n.Timely) : n.Lined := by
  have hvalid : ∀ m ∈ n.nodes, m.span.start ≤ m.span.stop := by
    intro m hm
    obtain ⟨ys, hys⟩ : ∃ ys, (m.span, ys) ∈ m.extents := by
      cases m <;> exact ⟨_, List.mem_cons_self⟩
    exact ((hplaced m hm).valid _ hys).ordered
  have hself : n ∈ n.nodes := by
    rw [nodes_eq]
    exact List.mem_cons_self
  have hpart : ∀ m ∈ n.parts, m ∈ n.nodes := by
    intro m hm
    rw [nodes_eq]
    refine List.mem_cons_of_mem n (List.mem_flatMap.2 ⟨m, hm, ?_⟩)
    rw [nodes_eq]
    exact List.mem_cons_self
  have hn := (hplaced n hself).nested
  cases n with
  | expr e => exact .of_expr (hvalid _ hself) hn
  | stmt s => exact .of_stmt (hvalid _ hself) hn fun m hm => herror m (hpart m hm)
  | recur r => exact .of_recur (hvalid _ hself) hn
  | var v | param v => exact .of_row (hvalid _ hself) (.nil _)
  | method m =>
    exact .of_method (hvalid _ hself) hn (herror _ (hpart _ (by simp [parts]))) htimely
  | classDecl k => exact .of_classDecl (hvalid _ hself) hn htimely
  | program p => exact .of_program (hvalid _ hself) hn (hvalid _ (hpart _ List.mem_cons_self))

/-- The node is part of a statement or of an expression. -/
def IsCode : Node → Prop
  | stmt _ | recur _ | expr _ => True
  | program _ | classDecl _ | method _ | var _ | param _ => False

theorem isCode_of_mem_parts {n : Node} (h : n.IsCode) : ∀ m ∈ n.parts, m.IsCode := by
  cases n with
  | expr e => cases e <;> simp [parts, Expr.parts, IsCode]
  | stmt s => cases s <;> simp [parts, Stmt.parts, IsCode]
  | recur r => simp [parts, IsCode, or_imp, forall_and]
  | program | classDecl | method | var | param => exact h.elim

/-- There are no declarations below code. -/
theorem timely_of_isCode (n : Node) : n.IsCode → ∀ m ∈ n.nodes, m.Timely := by
  induction n using Node.induction with
  | step n ih =>
    intro h
    rw [nodes_eq]
    refine List.forall_mem_cons.2 ⟨?_, List.forall_mem_flatMap.2 fun m hm =>
      ih m hm (isCode_of_mem_parts h m hm)⟩
    cases n with
    | stmt | recur | expr => trivial
    | program | classDecl | method | var | param => exact h.elim

end Node

open Node

/-! ## Walks -/

theorem Method.timely_nodes {m : Method} (h : m.lateLocals = [] ∧ m.InOrder) :
    ∀ n ∈ m.nodes, n.Timely := by
  refine List.forall_mem_cons.2 ⟨h, List.forall_mem_append.2 ⟨?_, List.forall_mem_append.2 ⟨?_,
    List.forall_mem_append.2 ⟨?_, ?_⟩⟩⟩⟩
  · exact List.forall_mem_map.2 fun _ _ => trivial
  · exact List.forall_mem_map.2 fun _ _ => trivial
  · exact List.forall_mem_flatMap.2 fun s _ => timely_of_isCode (.stmt s) trivial
  · cases m.result with
    | returns s e => exact timely_of_isCode (.expr e) trivial
    | recurs r => exact timely_of_isCode (.recur r) trivial

theorem Program.timely_nodes {p : Program} (hfields : ∀ k ∈ p.classes, k.lateFields = [])
    (hmethods : ∀ k ∈ p.classes, ∀ m ∈ k.methods, m.lateLocals = [] ∧ m.InOrder) :
    ∀ n ∈ p.nodes, n.Timely := by
  refine List.forall_mem_cons.2 ⟨trivial, List.forall_mem_append.2
    ⟨timely_of_isCode (.stmt p.main.body) trivial, List.forall_mem_flatMap.2 fun k hk => ?_⟩⟩
  refine List.forall_mem_cons.2 ⟨hfields k hk, List.forall_mem_append.2
    ⟨List.forall_mem_map.2 fun _ _ => trivial, ?_⟩⟩
  exact List.forall_mem_flatMap.2 fun m hm => Method.timely_nodes (hmethods k hk m hm)

/-- No declaration of a correct text comes late. -/
theorem timely_parse {source : String} (h : (parse source).diagnostics = []) :
    ∀ n ∈ (parse source).tree.nodes, n.Timely := by
  have hnone : ∀ rule, rule ≠ .oneMainStatement → (parse source).tree.breaches rule = [] := by
    intro rule hrule
    have hperm := reportsOf_parse_perm hrule source
    rw [h] at hperm
    exact hperm.nil_eq.symm
  have hfields := hnone .fieldsFirst (by decide)
  have hlocals := hnone .localsFirst (by decide)
  rw [Program.breaches_fieldsFirst, List.flatMap_eq_nil_iff] at hfields
  rw [Program.breaches_localsFirst, List.flatMap_eq_nil_iff] at hlocals
  refine Program.timely_nodes (fun k hk => List.map_eq_nil_iff.1 (hfields k hk))
    fun k hk m hm => ⟨?_, inOrder_parse hk hm⟩
  exact List.map_eq_nil_iff.1 (List.flatMap_eq_nil_iff.1 (hlocals k hk) m hm)

/-- The nodes of a correct text never start before one that is listed earlier. -/
theorem pairwise_start_parse {source : String} (h : (parse source).diagnostics = []) :
    (parse source).tree.nodes.Pairwise fun a b => a.span.start ≤ b.span.start := by
  obtain ⟨-, hfaults⟩ := diagnostics_analyze_eq_nil_iff.1 h
  obtain ⟨hwell, -⟩ := wellFormed_of_faults_program hfaults
  obtain ⟨-, hextents⟩ := exists_post_of_advances
    (Parse.advances_program (ε := Empty) (E := fun _ => True) source (startOf source))
  refine ((Node.program (parse source).tree).pairwise_start_le fun n hn => ?_).2
  have hbelow := (parse source).tree.closed_nodes n hn
  exact .of_parts (fun m hm => hextents.placed m (hbelow hm))
    (fun m hm => (hwell m (hbelow hm)).noError) (timely_parse h n hn)

/--
A walk that stops at some nodes meets those that can be come to without passing one of them, each
once and in the order of the parts, and leaves the tree as it is: all nodes if it does not stop at
any. A visitor that sees the nodes only meets the same ones. In a correct text no node that is met
starts before one that was met earlier.
-/
theorem Program.walk_exact (p : Program) (stop : List Nat → Node → Bool) :
    let met := ((p.visit (.logging stop)).run {}).2.entries
    ((p.visit (.logging stop)).run {}).1 = p ∧
      (met.Pairwise fun x y => x.1 < y.1) ∧
      (∀ path n, (path, n) ∈ met ↔ (Node.program p).at? path = some n ∧
        ∀ before k, before <+: path → before ≠ path →
          (Node.program p).at? before = some k → stop before k = false) ∧
      ((∀ path n, stop path n = false) → met.map Prod.snd = p.nodes) ∧
      (∀ stops, (∀ path n, stop path n = stops n) →
        (p.walk (.logging stops)).run [] = (p, met.map Prod.snd)) ∧
      ∀ source, (parse source).diagnostics = [] → (parse source).tree = p →
        (met.map fun x => x.2.span.start).Pairwise (· ≤ ·) := by
  intro met
  have hrun := p.run_visit_logging stop
  have hmet : met = (Node.program p).listing stop [] := congrArg (fun r => r.2.entries) hrun
  rw [hmet]
  refine ⟨congrArg Prod.fst hrun, pairwise_listing stop _ _, fun path n => ?_, ?_, ?_, ?_⟩
  · rw [mem_listing]
    constructor
    · rintro ⟨rest, rfl, hat, hreached⟩
      exact ⟨hat, hreached⟩
    · rintro ⟨hat, hreached⟩
      exact ⟨path, rfl, hat, hreached⟩
  · intro h
    exact map_snd_listing h _ _
  · intro stops hstops
    obtain rfl : stop = fun _ => stops := funext fun path => funext fun n => hstops path n
    exact p.run_walk_logging stops
  · rintro source hclean rfl
    have hsorted := (pairwise_start_parse hclean).sublist (sublist_listing stop (.program _) [])
    rw [List.pairwise_map] at hsorted ⊢
    exact hsorted

/-- A walk that stops at the condition does not come to its operands, and goes on behind it. -/
theorem Program.walk_exact_condition :
    let source := "class M \x7b public static void main(String[] a) \x7b " ++
      "if (1 + 2 < 4) System.out.println(5); else System.out.println(6); \x7d \x7d"
    let stop (_ : List Nat) (n : Node) : Bool := n.label = "expr Binary"
    let met := (((parse source).tree.visit (.logging stop)).run {}).2.entries
    (parse source).diagnostics = [] ∧
      met.map Prod.fst = [[], [0], [0, 0], [0, 1], [0, 1, 0], [0, 2], [0, 2, 0]] ∧
      (met.map fun x => x.2.span.start).Pairwise (· ≤ ·) := by
  intro source stop met
  have hclean : (parse source).diagnostics = [] :=
    diagnostics_analyze_eq_nil_iff.2 (by decide +kernel)
  exact ⟨hclean, by decide +kernel,
    (walk_exact (parse source).tree stop).2.2.2.2.2 source hclean rfl⟩

end MiniJava
