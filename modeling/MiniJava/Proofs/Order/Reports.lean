import MiniJava.Proofs.Order.Declaration

/-!
# Reports about order are exact

No two declarations of a tree, and no two of its `recur`s, share their place. So that each rule of
order is noted to be broken where the tree breaks it tells which declaration and which `recur` is
reported, and that it is reported once.
-/

namespace MiniJava

/-! ## Rows within rows -/

namespace Span

theorem Within.trans {t u s : Span} (h : t.Within u) (h' : u.Within s) : t.Within s :=
  ⟨Nat.le_trans h'.1 h.1, Nat.le_trans h.2 h'.2⟩

namespace Row

variable {α : Type} {s t : Span} {ts us : List Span} {as : List α} {a b : α} {span : α → Span}
  {inner : α → List Span}

theorem mono (h : s.Row ts) (hs : s.Within t) : t.Row ts :=
  ⟨fun u hu => (h.within u hu).trans hs, h.nonempty, h.ordered⟩

theorem nil (s : Span) : s.Row [] := ⟨List.forall_mem_nil _, List.forall_mem_nil _, .nil⟩

theorem append (h : s.Row ts) (h' : s.Row us) (hle : ∀ t ∈ ts, ∀ u ∈ us, t.stop ≤ u.start) :
    s.Row (ts ++ us) :=
  ⟨List.forall_mem_append.2 ⟨h.within, h'.within⟩,
    List.forall_mem_append.2 ⟨h.nonempty, h'.nonempty⟩,
    List.pairwise_append.2 ⟨h.ordered, h'.ordered, hle⟩⟩

/-- What stands in a row within each of some parts in a row stands in a row. -/
theorem flatMap (h : s.Row (as.map span)) (hin : ∀ a ∈ as, (span a).Row (inner a)) :
    s.Row (as.flatMap inner) where
  within := List.forall_mem_flatMap.2 fun a ha u hu =>
    ((hin a ha).within u hu).trans (h.within _ (List.mem_map_of_mem ha))
  nonempty := List.forall_mem_flatMap.2 fun a ha => (hin a ha).nonempty
  ordered := by
    refine List.pairwise_flatMap.2 ⟨fun a ha => (hin a ha).ordered, ?_⟩
    refine (List.pairwise_map.1 h.ordered).imp_of_mem fun {a b} ha hb hle t ht u hu => ?_
    have hstop := ((hin a ha).within t ht).2
    have hstart := ((hin b hb).within u hu).1
    omega

theorem nodup (h : s.Row ts) : ts.Nodup := by
  refine h.ordered.imp_of_mem fun {t u} ht _ hle heq => ?_
  have hlt := h.nonempty t ht
  rw [heq] at hle hlt
  omega

/-- Two parts of a row in which one and the same thing lies are the same. -/
theorem eq_of_within (h : s.Row (as.map span)) (ha : a ∈ as) (hb : b ∈ as) (ht : t.start < t.stop)
    (hta : t.Within (span a)) (htb : t.Within (span b)) : a = b := by
  obtain ⟨before, after, rfl⟩ := List.append_of_mem ha
  have hordered := List.pairwise_map.1 h.ordered
  rw [List.pairwise_append, List.pairwise_cons] at hordered
  obtain ⟨-, ⟨hafter, -⟩, hbefore⟩ := hordered
  obtain ⟨hstartA, hstopA⟩ := hta
  obtain ⟨hstartB, hstopB⟩ := htb
  rcases List.mem_append.1 hb with hb | hb
  · have hle := hbefore b hb a List.mem_cons_self
    omega
  · rcases List.mem_cons.1 hb with rfl | hb
    · rfl
    · have hle := hafter b hb
      omega

end Row

end Span

/-! ## Rows in a tree -/

theorem Recur.start_lt_stop {r : Recur} (h : (Node.recur r).Nested) :
    r.span.start < r.span.stop := by
  have hwithin := h.within r.condition.span List.mem_cons_self
  have hlt := h.nonempty r.condition.span List.mem_cons_self
  exact Nat.lt_of_le_of_lt hwithin.1 (Nat.lt_of_lt_of_le hlt hwithin.2)

theorem Stmt.row_recursList_of_parts {s : Span} (ss : List Stmt) (hrow : s.Row (ss.map Stmt.span))
    (hin : ∀ t ∈ ss, t.span.Row (t.recurs.map Recur.span)) :
    s.Row ((Stmt.recursList ss).map Recur.span) := by
  rw [Stmt.recursList_eq, List.map_flatMap]
  exact hrow.flatMap hin

mutual

/-- The `recur`s among a statement and those inside it stand in a row. -/
theorem Stmt.row_recurs : ∀ s : Stmt, (∀ n ∈ s.nodes, n.Nested) →
    s.span.Row (s.recurs.map Recur.span)
  | .block s ss, h => by
    obtain ⟨hrow, hbelow⟩ := List.forall_mem_cons.1 h
    exact Stmt.row_recursList_of_parts ss hrow (Stmt.row_recursList ss hbelow)
  | .ifElse s c t e, h => by
    obtain ⟨hrow, hbelow⟩ := List.forall_mem_cons.1 h
    obtain ⟨-, hbranches⟩ := List.forall_mem_append.1 hbelow
    obtain ⟨ht, he⟩ := List.forall_mem_append.1 hbranches
    have hthen := Stmt.row_recurs t ht
    have helse := Stmt.row_recurs e he
    change s.Row ((t.recurs ++ e.recurs).map Recur.span)
    rcases hrow with hrow | ⟨hrow, offset, rfl⟩
    · have hall := Stmt.row_recursList_of_parts [t, e] hrow.tail
        (List.forall_mem_cons.2 ⟨hthen, List.forall_mem_singleton.2 helse⟩)
      simpa [Stmt.recursList] using hall
    · have hall := Stmt.row_recursList_of_parts [t] hrow.tail
        (List.forall_mem_singleton.2 hthen)
      simpa [Stmt.recursList, Stmt.recurs] using hall
  | .whileLoop s c b, h => by
    obtain ⟨hrow, hbelow⟩ := List.forall_mem_cons.1 h
    obtain ⟨-, hb⟩ := List.forall_mem_append.1 hbelow
    have hall := Stmt.row_recursList_of_parts [b] hrow.tail
      (List.forall_mem_singleton.2 (Stmt.row_recurs b hb))
    change s.Row (b.recurs.map Recur.span)
    simpa [Stmt.recursList] using hall
  | .recur r, h => by
    have hlt := Recur.start_lt_stop (h (.recur r) (by simp [Stmt.nodes, Recur.nodes]))
    exact ⟨List.forall_mem_singleton.2 ⟨Nat.le_refl _, Nat.le_refl _⟩,
      List.forall_mem_singleton.2 hlt, List.pairwise_singleton _ _⟩
  | .println .., _ | .assign .., _ | .assignElement .., _ | .error _, _ => .nil _

theorem Stmt.row_recursList : ∀ ss : List Stmt, (∀ n ∈ Stmt.nodesList ss, n.Nested) →
    ∀ s ∈ ss, s.span.Row (s.recurs.map Recur.span)
  | [], _ => List.forall_mem_nil _
  | s :: ss, h => by
    obtain ⟨hs, hss⟩ := List.forall_mem_append.1 h
    exact List.forall_mem_cons.2 ⟨Stmt.row_recurs s hs, Stmt.row_recursList ss hss⟩

end

/-- The parts of a program lie within it, down to the nodes of its statements. -/
structure Program.Rows (p : Program) : Prop where
  classes : p.span.Row (p.classes.map ClassDecl.span)
  main : p.main.span.Within p.span
  mainFirst : ∀ k ∈ p.classes, p.main.span.stop ≤ k.span.start
  mainRecurs : p.main.span.Row (p.main.body.recurs.map Recur.span)
  fields : ∀ k ∈ p.classes, k.span.Row (k.fields.map Variable.span)
  methods : ∀ k ∈ p.classes, k.span.Row (k.methods.map Method.span)
  locals : ∀ k ∈ p.classes, ∀ m ∈ k.methods, m.span.Row (m.locals.map Variable.span)
  body : ∀ k ∈ p.classes, ∀ m ∈ k.methods, m.span.Row (m.body.map Stmt.span)
  bodyRecurs : ∀ k ∈ p.classes, ∀ m ∈ k.methods, ∀ s ∈ m.body,
    s.span.Row (s.recurs.map Recur.span)
  result : ∀ k ∈ p.classes, ∀ m ∈ k.methods, ∀ r, m.result = .recurs r →
    r.span.Within m.span ∧ r.span.start < r.span.stop

theorem Program.rows_of_nested {p : Program} (h : ∀ n ∈ p.nodes, n.Nested) : p.Rows := by
  obtain ⟨⟨hmain, hbody, hclasses, hfirst⟩, hbelow⟩ := List.forall_mem_cons.1 h
  obtain ⟨hmainNodes, hclassNodes⟩ := List.forall_mem_append.1 hbelow
  have hclass := List.forall_mem_flatMap.1 hclassNodes
  have hmember : ∀ k ∈ p.classes, ∀ m ∈ k.methods, ∀ n ∈ m.nodes, n.Nested := by
    intro k hk
    obtain ⟨-, hmembers⟩ := List.forall_mem_cons.1 (hclass k hk)
    exact List.forall_mem_flatMap.1 (List.forall_mem_append.1 hmembers).2
  have hmethod : ∀ k ∈ p.classes, ∀ m ∈ k.methods, (Node.method m).Nested :=
    fun k hk m hm => hmember k hk m hm _ List.mem_cons_self
  refine ⟨hclasses, hmain, hfirst, (Stmt.row_recurs _ hmainNodes).mono hbody, fun k hk => ?_,
    fun k hk => ?_, fun k hk m hm => (hmethod k hk m hm).2.1,
    fun k hk m hm => (hmethod k hk m hm).2.2.1, fun k hk m hm s hs => ?_,
    fun k hk m hm r hr => ?_⟩
  · exact (hclass k hk _ List.mem_cons_self).1
  · exact (hclass k hk _ List.mem_cons_self).2
  · refine Stmt.row_recurs s fun n hn => hmember k hk m hm n ?_
    simp only [Method.nodes, List.mem_cons, List.mem_append]
    exact .inr (.inr (.inr (.inl (List.mem_flatMap.2 ⟨s, hs, hn⟩))))
  · have hrecur : Node.recur r ∈ m.nodes := by
      simp [Method.nodes, hr, MethodResult.nodes, Recur.nodes]
    refine ⟨?_, Recur.start_lt_stop (hmember k hk m hm _ hrecur)⟩
    obtain ⟨-, -, -, -, hwithin | ⟨offset, hmissing⟩⟩ := hmethod k hk m hm
    · rwa [hr] at hwithin
    · rw [hr] at hmissing
      cases hmissing

namespace Program.Rows

variable {p : Program}

/-- A place within a method tells which class and which method it is in. -/
theorem method_eq (h : p.Rows) {k k' : ClassDecl} {m m' : Method} {t : Span}
    (hk : k ∈ p.classes) (hm : m ∈ k.methods) (hk' : k' ∈ p.classes) (hm' : m' ∈ k'.methods)
    (ht : t.start < t.stop) (hin : t.Within m.span) (hin' : t.Within m'.span) : m = m' := by
  have hclass := (h.methods k hk).within _ (List.mem_map_of_mem hm)
  have hclass' := (h.methods k' hk').within _ (List.mem_map_of_mem hm')
  obtain rfl := h.classes.eq_of_within hk hk' ht (hin.trans hclass) (hin'.trans hclass')
  exact (h.methods k hk).eq_of_within hm hm' ht hin hin'

theorem row_recurs (h : p.Rows) : p.span.Row (p.recurs.map Recur.span) := by
  have hmethod : ∀ k ∈ p.classes, ∀ m ∈ k.methods, m.span.Row (m.recurs.map Recur.span) :=
    fun k hk m hm => Stmt.row_recursList_of_parts m.body (h.body k hk m hm) (h.bodyRecurs k hk m hm)
  have hclass : ∀ k ∈ p.classes, k.span.Row (k.recurs.map Recur.span) := by
    intro k hk
    rw [ClassDecl.recurs, List.map_flatMap]
    exact (h.methods k hk).flatMap (hmethod k hk)
  rw [Program.recurs, List.map_append, List.map_flatMap]
  refine (h.mainRecurs.mono h.main).append (h.classes.flatMap hclass) fun t ht u hu => ?_
  obtain ⟨k, hk, hu⟩ := List.mem_flatMap.1 hu
  have hstop := (h.mainRecurs.within t ht).2
  have hstart := ((hclass k hk).within u hu).1
  have hmid := h.mainFirst k hk
  omega

/-- The `recur` that is the result of a method is none of the statements. -/
theorem span_notMem_recurs (h : p.Rows) {k : ClassDecl} {m : Method} {r : Recur}
    (hk : k ∈ p.classes) (hm : m ∈ k.methods) (hr : m.result = .recurs r)
    (hlast : m.ResultLast) : r.span ∉ p.recurs.map Recur.span := by
  obtain ⟨hwithin, hlt⟩ := h.result k hk m hm r hr
  have hclass := (h.methods k hk).within _ (List.mem_map_of_mem hm)
  intro hmem
  rw [Program.recurs, List.map_append, List.mem_append] at hmem
  rcases hmem with hmem | hmem
  · have hstop := (h.mainRecurs.within _ hmem).2
    have hmid := h.mainFirst k hk
    have hstart := (hwithin.trans hclass).1
    omega
  · obtain ⟨r', hr', hspan⟩ := List.mem_map.1 hmem
    obtain ⟨k', hk', hr'⟩ := List.mem_flatMap.1 hr'
    obtain ⟨m', hm', hr'⟩ := List.mem_flatMap.1 hr'
    rw [Method.recurs, Stmt.recursList_eq] at hr'
    obtain ⟨s, hs, hr'⟩ := List.mem_flatMap.1 hr'
    have hin := (h.bodyRecurs k' hk' m' hm' s hs).within _ (List.mem_map_of_mem hr')
    have hbody := (h.body k' hk' m' hm').within _ (List.mem_map_of_mem hs)
    rw [hspan] at hin
    obtain rfl := h.method_eq hk hm hk' hm' hlt hwithin (hin.trans hbody)
    have hstop := hlast s hs
    rw [hr] at hstop
    exact Nat.lt_irrefl _ (Nat.lt_of_lt_of_le hlt (Nat.le_trans hin.2 hstop))

theorem row_lateFields (h : p.Rows) :
    p.span.Row (p.classes.flatMap fun k => k.lateFields.map Variable.span) :=
  h.classes.flatMap fun k hk =>
    (h.fields k hk).sublist (List.filter_sublist.map Variable.span)

theorem row_lateLocals (h : p.Rows) : p.span.Row (p.classes.flatMap fun k =>
    k.methods.flatMap fun m => m.lateLocals.map Variable.span) :=
  h.classes.flatMap fun k hk => (h.methods k hk).flatMap fun m hm =>
    (h.locals k hk m hm).sublist (List.filter_sublist.map Variable.span)

/-- A field stands among the late ones just if it is late in its class. -/
theorem mem_lateFields_iff (h : p.Rows) {k : ClassDecl} {v : Variable} (hk : k ∈ p.classes)
    (hv : v ∈ k.fields) :
    (v.span ∈ p.classes.flatMap fun k => k.lateFields.map Variable.span) ↔
      ∃ m ∈ k.methods, m.span.start < v.span.start := by
  have hfield := h.fields k hk
  have hlt := hfield.nonempty _ (List.mem_map_of_mem hv)
  have hself : v.span.Within v.span := ⟨Nat.le_refl _, Nat.le_refl _⟩
  constructor
  · intro hmem
    obtain ⟨k', hk', hmem⟩ := List.mem_flatMap.1 hmem
    obtain ⟨w, hw, hspan⟩ := List.mem_map.1 hmem
    obtain ⟨hw, hlate⟩ := List.mem_filter.1 hw
    have hin := hfield.within _ (List.mem_map_of_mem hv)
    have hin' := (h.fields k' hk').within _ (List.mem_map_of_mem hw)
    rw [hspan] at hin'
    obtain rfl := h.classes.eq_of_within hk hk' hlt hin hin'
    obtain rfl := hfield.eq_of_within hv hw hlt hself (hspan ▸ hself)
    simpa using hlate
  · intro hlate
    refine List.mem_flatMap.2 ⟨k, hk, List.mem_map_of_mem (List.mem_filter.2 ⟨hv, ?_⟩)⟩
    simpa using hlate

/-- A local variable stands among the late ones just if it is late in its method. -/
theorem mem_lateLocals_iff (h : p.Rows) {k : ClassDecl} {m : Method} {v : Variable}
    (hk : k ∈ p.classes) (hm : m ∈ k.methods) (hv : v ∈ m.locals) :
    (v.span ∈ p.classes.flatMap fun k =>
      k.methods.flatMap fun m => m.lateLocals.map Variable.span) ↔
        (∃ s ∈ m.body, s.span.start < v.span.start) ∨ m.result.span.start < v.span.start := by
  have hlocal := h.locals k hk m hm
  have hlt := hlocal.nonempty _ (List.mem_map_of_mem hv)
  have hself : v.span.Within v.span := ⟨Nat.le_refl _, Nat.le_refl _⟩
  constructor
  · intro hmem
    obtain ⟨k', hk', hmem⟩ := List.mem_flatMap.1 hmem
    obtain ⟨m', hm', hmem⟩ := List.mem_flatMap.1 hmem
    obtain ⟨w, hw, hspan⟩ := List.mem_map.1 hmem
    obtain ⟨hw, hlate⟩ := List.mem_filter.1 hw
    have hin := hlocal.within _ (List.mem_map_of_mem hv)
    have hin' := (h.locals k' hk' m' hm').within _ (List.mem_map_of_mem hw)
    rw [hspan] at hin'
    obtain rfl := h.method_eq hk hm hk' hm' hlt hin hin'
    obtain rfl := hlocal.eq_of_within hv hw hlt hself (hspan ▸ hself)
    simpa using hlate
  · intro hlate
    refine List.mem_flatMap.2 ⟨k, hk, List.mem_flatMap.2 ⟨m, hm, List.mem_map_of_mem
      (List.mem_filter.2 ⟨hv, ?_⟩)⟩⟩
    simpa using hlate

end Program.Rows

/-! ## Reports -/

theorem rows_parse (source : String) : (parse source).tree.Rows := by
  have hprogram := Parse.advances_program (ε := Empty) (E := fun _ => True) source (startOf source)
  obtain ⟨-, hplaced⟩ := exists_post_of_advances hprogram
  exact Program.rows_of_nested fun n hn => (hplaced.placed n hn).nested

/-- What is reported of a rule is where the tree breaks it. -/
theorem reportsOf_parse_perm {rule : OrderRule} (hrule : rule ≠ .oneMainStatement)
    (source : String) :
    (reportsOf rule (parse source).diagnostics).Perm ((parse source).tree.breaches rule) := by
  have hsettles := Parse.settles_program (ε := Empty) hrule (Cursor.of_startOf source)
  obtain ⟨hbreaches, -⟩ := hsettles.success _ (Reading.outcome_eq_ok _)
  have hperm := reportsOf_analyze_perm rule Parse.program source
  rwa [hbreaches] at hperm

theorem inOrder_parse {source : String} {k : ClassDecl} {m : Method}
    (hk : k ∈ (parse source).tree.classes) (hm : m ∈ k.methods) : m.InOrder := by
  have hrule : OrderRule.localsFirst ≠ .oneMainStatement := by decide
  have hsettles := Parse.settles_program (ε := Empty) hrule (Cursor.of_startOf source)
  exact (hsettles.success _ (Reading.outcome_eq_ok _)).2 k hk m hm

/--
The spans of the diagnostics about a misplaced `recur` are those of the `recur` statements that are
in the tree, each once; that of a `recur` that is the result of a method is not among them.
-/
theorem parse_reports_misplaced_recurs (source : String) :
    let reports := reportsOf .recurEndsMethod (parse source).diagnostics
    let recurs := recurStatements (parse source).tree.nodes
    reports.Perm (recurs.map Recur.span) ∧ (∀ r ∈ recurs, reports.count r.span = 1) ∧
      ∀ k ∈ (parse source).tree.classes, ∀ m ∈ k.methods, ∀ r, m.result = .recurs r →
        r.span ∉ reports := by
  intro reports recurs
  have hrows := rows_parse source
  have hrecurs : recurs = (parse source).tree.recurs := Program.recurStatements_nodes _
  have hperm : reports.Perm (recurs.map Recur.span) := by
    rw [hrecurs, ← Program.breaches_recurEndsMethod]
    exact reportsOf_parse_perm (by decide) source
  refine ⟨hperm, fun r hr => ?_, fun k hk m hm r hr => ?_⟩
  · have hnodup : (recurs.map Recur.span).Nodup := hrecurs ▸ hrows.row_recurs.nodup
    rw [hperm.count_eq, hnodup.count, if_pos (List.mem_map_of_mem hr)]
  · rw [hperm.mem_iff, hrecurs]
    exact hrows.span_notMem_recurs hk hm hr (inOrder_parse hk hm).resultLast

/--
A field is reported to be late, once and with its span, if and only if some method of its class
starts before it; a local variable, if and only if some statement of its method, or the result,
starts before it. No other diagnostic says that a declaration is late.
-/
theorem parse_reports_late_declarations (source : String) :
    let lateFields := reportsOf .fieldsFirst (parse source).diagnostics
    let lateLocals := reportsOf .localsFirst (parse source).diagnostics
    let classes := (parse source).tree.classes
    (∀ k ∈ classes, ∀ v ∈ k.fields, lateFields.count v.span =
      if ∃ m ∈ k.methods, m.span.start < v.span.start then 1 else 0) ∧
    (∀ k ∈ classes, ∀ m ∈ k.methods, ∀ v ∈ m.locals, lateLocals.count v.span =
      if (∃ s ∈ m.body, s.span.start < v.span.start) ∨ m.result.span.start < v.span.start
      then 1 else 0) ∧
    (∀ span ∈ lateFields, ∃ k ∈ classes, ∃ v ∈ k.fields, v.span = span) ∧
      ∀ span ∈ lateLocals, ∃ k ∈ classes, ∃ m ∈ k.methods, ∃ v ∈ m.locals, v.span = span := by
  intro lateFields lateLocals classes
  have hrows := rows_parse source
  have hfields : lateFields.Perm _ := reportsOf_parse_perm (by decide) source
  have hlocals : lateLocals.Perm _ := reportsOf_parse_perm (by decide) source
  rw [Program.breaches_fieldsFirst] at hfields
  rw [Program.breaches_localsFirst] at hlocals
  refine ⟨fun k hk v hv => ?_, fun k hk m hm v hv => ?_, fun span hspan => ?_,
    fun span hspan => ?_⟩
  · rw [hfields.count_eq, hrows.row_lateFields.nodup.count]
    exact if_congr (hrows.mem_lateFields_iff hk hv) rfl rfl
  · rw [hlocals.count_eq, hrows.row_lateLocals.nodup.count]
    exact if_congr (hrows.mem_lateLocals_iff hk hm hv) rfl rfl
  · obtain ⟨k, hk, hmem⟩ := List.mem_flatMap.1 (hfields.mem_iff.1 hspan)
    obtain ⟨v, hv, rfl⟩ := List.mem_map.1 hmem
    exact ⟨k, hk, v, (List.mem_filter.1 hv).1, rfl⟩
  · obtain ⟨k, hk, hmem⟩ := List.mem_flatMap.1 (hlocals.mem_iff.1 hspan)
    obtain ⟨m, hm, hmem⟩ := List.mem_flatMap.1 hmem
    obtain ⟨v, hv, rfl⟩ := List.mem_map.1 hmem
    exact ⟨k, hk, m, hm, v, (List.mem_filter.1 hv).1, rfl⟩

end MiniJava
