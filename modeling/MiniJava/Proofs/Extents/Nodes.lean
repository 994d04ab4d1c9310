import MiniJava.Proofs.Grammar.Nodes
import MiniJava.Proofs.Grammar.Yield
import MiniJava.Proofs.Reading.Passage

/-!
# Where nodes stand

The span of a node holds the spans of its parts, and if the text is correct, it goes from the first
to the last of the tokens that the node was read from.
-/

namespace MiniJava

/-! ## Spans in a row -/

namespace Span

/-- One span lies within another. -/
def Within (t s : Span) : Prop := s.start ≤ t.start ∧ t.stop ≤ s.stop

/-- Spans that lie within `s`, one after the other. None of them is empty. -/
structure Row (s : Span) (ts : List Span) : Prop where
  within : ∀ t ∈ ts, t.Within s
  nonempty : ∀ t ∈ ts, t.start < t.stop
  ordered : ts.Pairwise fun t u => t.stop ≤ u.start

/--
The span goes from the first to the last of some tokens that stand in a row in the text and spell
`ys`.
-/
def Spells (s : Span) (source : String) (ys : List Terminal) : Prop :=
  ∃ before ts after first last, (tokenize source).tokens = before ++ (ts ++ after) ∧
    ts.map Token.terminal = ys ∧ ts.head? = some first ∧ ts.getLast? = some last ∧
      s = ⟨first.span.start, last.span.stop⟩

end Span

/-! ## Spans of nodes -/

/-- The result stands for one that is missing. -/
def MethodResult.IsMissing (r : MethodResult) : Prop :=
  ∃ offset, r = .returns (.point offset) (.error (.point offset))

/-- The statement stands for one that is missing. -/
def Stmt.IsMissing (s : Stmt) : Prop := ∃ offset, s = .error (.point offset)

/-- The parameters of the method end before all else that belongs to it starts. -/
structure Method.ParamsFirst (m : Method) : Prop where
  locals : ∀ v ∈ m.params, ∀ w ∈ m.locals, v.span.stop ≤ w.span.start
  body : ∀ v ∈ m.params, ∀ s ∈ m.body, v.span.stop ≤ s.span.start
  result : ∀ v ∈ m.params, v.span.stop ≤ m.result.span.start ∨ m.result.IsMissing

/-- The value that is returned lies within the result. -/
def MethodResult.Nested : MethodResult → Prop
  | returns s e => e.span.Within s
  | recurs _ => True

namespace Node

/-- The spans that stand at a node itself, each with what is to be read there. -/
def extents : Node → List (Span × List Terminal)
  | program p => [(p.span, p.yield), (p.main.span, p.main.yield)]
  | classDecl k => [(k.span, k.yield)]
  | method m => [(m.span, m.yield), (m.result.span, m.result.yield)]
  | var v => [(v.span, v.yieldDecl)]
  | param v => [(v.span, v.yield)]
  | stmt s => [(s.span, s.yield)]
  | recur r => [(r.span, r.yield)]
  | expr e => [(e.span, e.yield)]

/--
The parts of the node lie within it, and those of one list stand one after the other. Only what
stands for a missing branch or a missing result may lie elsewhere.
-/
def Nested : Node → Prop
  | program p => p.main.span.Within p.span ∧ p.main.body.span.Within p.main.span ∧
    p.span.Row (p.classes.map ClassDecl.span) ∧ ∀ k ∈ p.classes, p.main.span.stop ≤ k.span.start
  | classDecl k => k.span.Row (k.fields.map Variable.span) ∧ k.span.Row (k.methods.map Method.span)
  | method m => m.span.Row (m.params.map Variable.span) ∧ m.span.Row (m.locals.map Variable.span) ∧
    m.span.Row (m.body.map Stmt.span) ∧ m.result.Nested ∧
    (m.result.span.Within m.span ∨ m.result.IsMissing)
  | stmt (.block s ss) => s.Row (ss.map Stmt.span)
  | stmt (.ifElse s c t e) =>
    s.Row [c.span, t.span, e.span] ∨ s.Row [c.span, t.span] ∧ e.IsMissing
  | stmt (.whileLoop s c b) => s.Row [c.span, b.span]
  | stmt (.println s v) | stmt (.assign s _ v) => s.Row [v.span]
  | stmt (.assignElement s _ i v) => s.Row [i.span, v.span]
  | recur r => r.span.Row (r.condition.span :: (r.args.map Expr.span ++ [r.fallback.span]))
  | expr (.newArray s e) | expr (.length s e) | expr (.not s e) | expr (.paren s e) =>
    s.Row [e.span]
  | expr (.index s a i) => s.Row [a.span, i.span]
  | expr (.call s r _ es) => s.Row (r.span :: es.map Expr.span)
  | expr (.binary s l _ r) => s.Row [l.span, r.span]
  | var _ | param _ | stmt (.recur _) | stmt (.error _)
  | expr (.integer ..) | expr (.boolean ..) | expr (.identifier ..) | expr (.this _)
  | expr (.newObject ..) | expr (.error _) => True

/-- The spans at a node are spans of the text, and those of its parts lie within. -/
structure Placed (n : Node) (source : String) : Prop where
  valid : ∀ x ∈ n.extents, x.1.Valid source
  nested : n.Nested

/-- The spans at a node go from the first to the last token of what is read there. -/
def Exact (n : Node) (source : String) : Prop := ∀ x ∈ n.extents, x.1.Spells source x.2

end Node

/-- Nodes that have places in the text; if no fault was noted, these are exact. -/
structure Extents (source : String) (ns : List Node) (fs : List Fault) : Prop where
  placed : ∀ n ∈ ns, n.Placed source
  exact : fs = [] → ∀ n ∈ ns, n.Exact source

namespace Extents

variable {source : String} {n : Node} {ns ns' : List Node} {fs gs : List Fault}

theorem nil : Extents source [] fs := ⟨nofun, fun _ => nofun⟩

theorem cons (hn : n.Placed source) (hn' : fs = [] → n.Exact source) (h : Extents source ns fs) :
    Extents source (n :: ns) fs :=
  ⟨List.forall_mem_cons.2 ⟨hn, h.placed⟩, fun hf => List.forall_mem_cons.2 ⟨hn' hf, h.exact hf⟩⟩

theorem append (h : Extents source ns fs) (h' : Extents source ns' gs) :
    Extents source (ns ++ ns') (fs ++ gs) := by
  refine ⟨List.forall_mem_append.2 ⟨h.placed, h'.placed⟩, fun hnil => ?_⟩
  obtain ⟨hf, hg⟩ := List.append_eq_nil_iff.1 hnil
  exact List.forall_mem_append.2 ⟨h.exact hf, h'.exact hg⟩

/-- Faults that are noted besides only take away. -/
theorem mono (h : Extents source ns fs) (hnil : gs = [] → fs = []) : Extents source ns gs :=
  ⟨h.placed, fun hg => h.exact (hnil hg)⟩

theorem of_faulty (h : ∀ n ∈ ns, n.Placed source) (hf : fs ≠ []) : Extents source ns fs :=
  ⟨h, fun hnil => absurd hnil hf⟩

theorem subset (h : Extents source ns fs) (hsub : ns' ⊆ ns) : Extents source ns' fs :=
  ⟨fun n hn => h.placed n (hsub hn), fun hf n hn => h.exact hf n (hsub hn)⟩

end Extents

/-! ## Passages and spans -/

variable {source : String} {c d e : Cursor} {ys zs : List Terminal} {ss ts : List Span}

/-- A passage that takes tokens goes from the first to the last of them. -/
theorem Passage.spells (h : Passage source c ys d) (hys : ys ≠ []) :
    (⟨c.nextStart, d.lastStop⟩ : Span).Spells source ys := by
  obtain ⟨before, ts, htokens, hahead, hts, hstop⟩ := h.exists_segment
  have hne : ts ≠ [] := by
    rintro rfl
    exact hys hts.symm
  have hlast := List.getLast?_eq_some_getLast hne
  refine ⟨before, ts, d.ahead, ts.head hne, ts.getLast hne, htokens, hts,
    List.head?_eq_some_head hne, hlast, ?_⟩
  rw [hstop, hlast, Option.map_some, Option.getD_some, Cursor.nextStart, Cursor.current_eq, hahead,
    List.headD_eq_head?_getD, List.head?_append, List.head?_eq_some_head hne]
  rfl

theorem Passage.valid_span (h : Passage source c ys d) (hys : ys ≠ []) :
    (⟨c.nextStart, d.lastStop⟩ : Span).Valid source :=
  h.origin.valid_span h.goal (Nat.le_of_lt (h.lt hys))

theorem Span.not_spells_nil (s : Span) : ¬ s.Spells source [] := by
  rintro ⟨before, ts, after, first, last, -, hts, hfirst, -⟩
  rw [List.map_eq_nil_iff.1 hts] at hfirst
  cases hfirst

/-- A node with one span, which goes over what was taken. -/
theorem Extents.cons_of_passage {n : Node} {ns : List Node} {fs : List Fault}
    (hns : Extents source ns fs) (hp : Passage source c ys d) (hys : ys ≠ [])
    (hn : n.extents = [(⟨c.nextStart, d.lastStop⟩, zs)]) (hyield : fs = [] → ys = zs)
    (hnested : n.Nested) : Extents source (n :: ns) fs := by
  refine hns.cons ⟨?_, hnested⟩ fun hf => ?_
  · rw [hn]
    exact List.forall_mem_singleton.2 (hp.valid_span hys)
  · rw [Node.Exact, hn, ← hyield hf]
    exact List.forall_mem_singleton.2 (hp.spells hys)

/-- From a place `c` one comes to a place `d`, and the spans lie one after the other between. -/
structure Stretch (source : String) (c : Cursor) (ss : List Span) (d : Cursor) : Prop where
  passes : ∃ ys, Passage source c ys d
  within : ∀ s ∈ ss, c.nextStart ≤ s.start ∧ s.stop ≤ d.lastStop
  nonempty : ∀ s ∈ ss, s.start < s.stop
  ordered : ss.Pairwise fun s t => s.stop ≤ t.start

theorem Passage.stretch (h : Passage source c ys d) : Stretch source c [] d :=
  ⟨⟨ys, h⟩, nofun, nofun, .nil⟩

theorem Passage.stretch_span (h : Passage source c ys d) (hys : ys ≠ []) :
    Stretch source c [⟨c.nextStart, d.lastStop⟩] d where
  passes := ⟨ys, h⟩
  within := List.forall_mem_singleton.2 ⟨Nat.le_refl _, Nat.le_refl _⟩
  nonempty := List.forall_mem_singleton.2 (h.lt hys)
  ordered := List.pairwise_singleton _ _

namespace Stretch

theorem trans (h : Stretch source c ss d) (h' : Stretch source d ts e) :
    Stretch source c (ss ++ ts) e := by
  obtain ⟨ys, hp⟩ := h.passes
  obtain ⟨zs, hp'⟩ := h'.passes
  have hstart := hp.nextStart_mono
  have hstop := hp'.lastStop_mono
  have hmid := hp.goal.lastStop_le
  refine ⟨⟨_, hp.trans hp'⟩, List.forall_mem_append.2 ⟨fun s hs => ?_, fun t ht => ?_⟩,
    List.forall_mem_append.2 ⟨h.nonempty, h'.nonempty⟩,
    List.pairwise_append.2 ⟨h.ordered, h'.ordered, fun s hs t ht => ?_⟩⟩
  · exact ⟨(h.within s hs).1, Nat.le_trans (h.within s hs).2 hstop⟩
  · exact ⟨Nat.le_trans hstart (h'.within t ht).1, (h'.within t ht).2⟩
  · exact Nat.le_trans (Nat.le_trans (h.within s hs).2 hmid) (h'.within t ht).1

theorem sublist (h : Stretch source c ss d) (hts : ts.Sublist ss) : Stretch source c ts d :=
  ⟨h.passes, fun s hs => h.within s (hts.subset hs), fun s hs => h.nonempty s (hts.subset hs),
    h.ordered.sublist hts⟩

/-- What stands in a stretch ends before what stands in a later one starts. -/
theorem stop_le_start (h : Stretch source c ss d) (h' : Stretch source d ts e) {s t : Span}
    (hs : s ∈ ss) (ht : t ∈ ts) : s.stop ≤ t.start :=
  (List.pairwise_append.1 (h.trans h').ordered).2.2 s hs t ht

theorem row (h : Stretch source c ss d) : (⟨c.nextStart, d.lastStop⟩ : Span).Row ss :=
  ⟨h.within, h.nonempty, h.ordered⟩

end Stretch

end MiniJava
