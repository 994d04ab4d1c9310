import MiniJava.Proofs.Extents.Declaration
import MiniJava.Proofs.Program.Sound

/-!
# Where the parts of a text stand

Every span in a tree and in a diagnostic is one of the text, and every part of a program lies within
the whole of which it is a part, whatever is wrong with the text.
-/

namespace MiniJava

namespace Parse

open Reader Reading Terminal

variable {ε : Type} {source : String} {E : ε → Prop} {origin c : Cursor}

/-! ## The main class -/

theorem advances_expectMain_bind {β : Type} {f : Token → Reader Fault β} {Q : Post β}
    (h : ∀ t d, Passage source c [.ident "main"] d →
      (f t d).Advances source (Fault.Holds source) d fun zs b e gs =>
        Q (.ident "main" :: zs) b e gs) :
    ((expectMain >>= f) c).Advances source (Fault.Holds source) c Q := by
  rw [expectMain, bind_assoc, look_bind]
  split
  next hmain =>
    refine advances_advance_bind (by simp [hmain.1]) ?_
    rw [Token.terminal_ident hmain.1, hmain.2]
    exact h _ _
  next hmain =>
    refine advances_bind (R := fun _ _ _ _ => False) (advances_failUnexpected (fun _ => ?_) _)
      fun _ _ _ _ _ h => h.elim
    exact List.forall_mem_singleton.2 hmain

theorem advances_mainHead (source : String) (c : Cursor) :
    (mainHead c).Advances source (Fault.Holds source) c fun _ _ _ fs => fs = [] := by
  refine advances_expectName_bind fun _ _ _ => advances_expect_bind rfl fun _ _ => ?_
  refine advances_expect_bind rfl fun _ _ => advances_expect_bind rfl fun _ _ => ?_
  refine advances_expect_bind rfl fun _ _ => advances_expectMain_bind fun _ _ _ => ?_
  refine advances_expect_bind rfl fun _ _ => advances_expect_bind rfl fun _ _ => ?_
  refine advances_expect_bind rfl fun _ _ => advances_expect_bind rfl fun _ _ => ?_
  refine advances_expectName_bind fun _ _ _ => advances_expect_bind rfl fun _ _ => ?_
  exact advances_pure rfl

/-- The one statement is the body, or else a block of all statements is reported. -/
theorem advances_oneStatement {span : Span} {ss : List Stmt} {noted : List Fault}
    (hspan : span.Valid source) (hrow : span.Row (ss.map Stmt.span))
    (hns : Extents source (ss.flatMap Stmt.nodes) noted) (c : Cursor) :
    ((oneStatement span ss : Reader ε Stmt) c).Advances source E c fun ys s d fs =>
      ys = [] ∧ d = c ∧ s.span.Within span ∧ Extents source s.nodes (noted ++ fs) := by
  unfold oneStatement
  split
  next s =>
    refine advances_pure ⟨rfl, rfl, hrow.within _ List.mem_cons_self, ?_⟩
    simpa using hns
  next =>
    refine advances_report_bind (fun _ => hspan) (advances_pure ⟨rfl, rfl, ?_, ?_⟩)
    · exact ⟨Nat.le_refl _, Nat.le_refl _⟩
    · refine .of_faulty ?_ (by simp)
      rw [Stmt.nodes, Stmt.nodesList_eq]
      exact List.forall_mem_cons.2 ⟨⟨List.forall_mem_singleton.2 hspan, hrow⟩, hns.placed⟩

/-- What holds of the body of the main method, of which the brace stands at `origin`. -/
theorem advances_mainBody (hbrace : Passage source origin [word .leftBrace] c) :
    ((mainBody origin.nextStart : Reader ε Stmt) c).Advances source E c fun _ s d fs =>
      s.span.Within ⟨origin.nextStart, d.lastStop⟩ ∧ Extents source s.nodes fs := by
  apply advances_bind (advances_statements source c)
  rintro ys ss d₁ fs h₁ ⟨-, hss, hns⟩
  apply advances_bind (advances_expectOrReport source rfl d₁)
  rintro zs _ d₂ gs h₂ -
  have hp := hbrace.trans (h₁.trans h₂)
  refine advances_spanFrom_bind hp (by simp) rfl ?_
  apply advances_bind (advances_expectOrReport source rfl d₂)
  rintro us _ d₃ ks h₃ -
  have hrow := (hbrace.stretch.trans (hss.trans h₂.stretch)).row
  rw [List.nil_append, List.append_nil] at hrow
  apply advances_bind (advances_oneStatement (hp.valid_span (by simp)) hrow hns d₃)
  rintro _ s _ ks' - ⟨rfl, rfl, hwithin, hsns⟩
  apply advances_bind (advances_reportRecurs hsns s.recurStatements_nodes _)
  rintro _ _ _ _ - ⟨rfl, rfl, -⟩
  refine advances_pure ⟨⟨hwithin.1, Nat.le_trans hwithin.2 h₃.lastStop_mono⟩, ?_⟩
  exact hsns.mono (by simp +contextual)

/-- What holds of a main class that was read from `c` on, or that stands in for one. -/
structure MainAt (source : String) (c : Cursor) (ys : List Terminal) (m : MainClass) (d : Cursor)
    (fs : List Fault) : Prop where
  span_eq : m.span = ⟨c.nextStart, max c.nextStart d.lastStop⟩
  within : m.body.span.Within m.span
  extents : Extents source m.body.nodes fs
  spells : fs = [] → m.span.Spells source m.yield

theorem advances_mainClass (source : String) (c : Cursor) :
    (mainClass c).Advances source (Fault.Holds source) c (MainAt source c) := by
  have hparts : (mainClass c).Advances source (Fault.Holds source) c fun ys m d fs =>
      ys ≠ [] ∧ m.span = ⟨c.nextStart, d.lastStop⟩ ∧ m.body.span.Within m.span ∧
        Extents source m.body.nodes fs := by
    refine advances_expect_bind rfl fun d₁ h₁ => advances_bind (advances_mainHead source d₁) ?_
    rintro ys ⟨n, a⟩ d₂ fs h₂ rfl
    refine advances_expect_bind rfl fun d₃ h₃ => advances_bind (advances_mainBody h₃) ?_
    rintro zs s d₄ fs h₄ ⟨hwithin, hns⟩
    have hhead := h₁.trans h₂
    have hp := hhead.trans (h₃.trans h₄)
    refine advances_spanFrom_bind hp (by simp) rfl (advances_pure ⟨by simp, rfl, ?_, ?_⟩)
    · exact ⟨Nat.le_trans hhead.nextStart_mono hwithin.1, hwithin.2⟩
    · simpa using hns
  refine .passage ((hparts.and_ensures (ensures_mainClass c)).mono ?_)
  rintro ys m d fs ⟨⟨hys, hspan, hwithin, hns⟩, hyield, -⟩ hp
  refine ⟨?_, hwithin, hns, fun hf => ?_⟩
  · rw [hspan, Nat.max_eq_right (Nat.le_of_lt (hp.lt hys))]
  · rw [hspan, ← hyield.yield_eq hf]
    exact hp.spells hys

theorem advances_mainClassRecovering (source : String) (c : Cursor) :
    ((mainClassRecovering : Reader ε MainClass) c).Advances source E c (MainAt source c) := by
  rw [mainClassRecovering, look_bind]
  apply advances_rescue (advances_mainClass source c)
  intro fault ys d fs hfault hp
  rw [here_bind]
  apply advances_bind (advances_recover (.refl hp.goal) hfault)
  rintro zs _ d' gs hp' ⟨hgs, -⟩
  have hvalid := hp.origin.valid_spanFrom hp'.goal
  have hfaulty : fs ++ (gs ++ []) ≠ [] := by simp [hgs]
  refine advances_pure ⟨rfl, ⟨Nat.le_refl _, Nat.le_refl _⟩, .of_faulty ?_ hfaulty,
    fun hnil => absurd hnil hfaulty⟩
  exact List.forall_mem_singleton.2 ⟨List.forall_mem_singleton.2 hvalid, trivial⟩

/-! ## Whole programs -/

theorem advances_topLevelItem (hend : atEnd c = false) :
    ((topLevelItem : Reader ε (Option ClassDecl)) c).Advances source E c
      (ItemAt source ClassDecl.span ClassDecl.nodes c) := by
  have hk : c.current.kind ≠ .endOfInput := of_decide_eq_false hend
  rw [topLevelItem, here_bind]
  apply advances_item ⟨hk, .inl rfl⟩
  split
  · exact advances_some (advances_classDecl source c)
  next hclass =>
    refine advances_failUnexpected (fun _ => ?_) _
    simpa [Expectation.Admits] using ⟨hclass, hk⟩

theorem advances_program (source : String) (c : Cursor) :
    ((program : Reader ε Program) c).Advances source E c fun _ p _ fs =>
      Extents source p.nodes fs := by
  have hparts : ((program : Reader ε Program) c).Advances source E c fun _ p d fs =>
      c.Of source ∧ d.Of source ∧ p.span = ⟨c.nextStart, max c.nextStart d.lastStop⟩ ∧
        p.main.span.Valid source ∧ (Node.program p).Nested ∧
          (fs = [] → p.main.span.Spells source p.main.yield) ∧
            Extents source (p.main.body.nodes ++ p.classes.flatMap ClassDecl.nodes) fs := by
    rw [program, look_bind]
    apply advances_bind (advances_mainClassRecovering source c)
    rintro ys m d fs hp hm
    apply advances_bind (advances_items (fun d hk => decide_eq_true hk)
      (fun _ d => advances_topLevelItem) () d)
    rintro zs ks d' gs hp' ⟨hstretch, hns, -⟩
    rw [spanFrom_bind]
    have hstart := hp.nextStart_mono
    have hmid := hp.goal.lastStop_le
    have hstop := hp'.lastStop_mono
    have hrow := (hp.stretch.trans hstretch).row
    refine advances_pure ⟨hp.origin, hp'.goal, rfl, ?_, ⟨?_, hm.within, ?_, fun k hk => ?_⟩,
      fun hf => hm.spells (List.append_eq_nil_iff.1 hf).1, ?_⟩
    · rw [hm.span_eq]
      exact hp.origin.valid_spanFrom hp.goal
    · rw [hm.span_eq]
      exact ⟨Nat.le_refl _, max_le_max (Nat.le_refl _) hstop⟩
    · exact ⟨fun s hs => ⟨(hrow.within s hs).1, Nat.le_trans (hrow.within s hs).2
        (Nat.le_max_right _ _)⟩, hrow.nonempty, hrow.ordered⟩
    · rw [hm.span_eq]
      refine Nat.le_trans (Nat.max_le.2 ⟨hstart, hmid⟩) (hstretch.within k.span ?_).1
      exact List.mem_map_of_mem hk
    · simpa using hm.extents.append hns
  refine .passage ((hparts.and_ensures (ensures_program c)).mono ?_)
  rintro ys p d fs ⟨⟨hc, hd, hspan, hmain, hnested, hspells, hns⟩, hyield, -⟩ hp
  refine hns.cons ⟨?_, hnested⟩ fun hf => ?_
  · refine List.forall_mem_cons.2 ⟨?_, List.forall_mem_singleton.2 hmain⟩
    rw [hspan]
    exact hc.valid_spanFrom hd
  · refine List.forall_mem_cons.2 ⟨?_, List.forall_mem_singleton.2 (hspells hf)⟩
    obtain ⟨rfl, -, -⟩ := hyield hf
    have hys : p.yield ≠ [] := List.cons_ne_nil _ _
    rw [hspan, Nat.max_eq_right (Nat.le_of_lt (hp.lt hys))]
    exact hp.spells hys

/-! ## Whole texts -/

variable {F : Empty → Prop}

theorem advances_expectEnd (source : String) (c : Cursor) :
    (expectEnd c).Advances source F c fun _ _ _ _ => True := by
  rw [expectEnd, here_bind]
  split
  · exact advances_pure trivial
  next hend =>
    have hk : c.current.kind ≠ .endOfInput := fun hk => hend (decide_eq_true hk)
    rw [look_bind]
    refine advances_noteAll (fun hc => List.forall_mem_singleton.2 ⟨hc.current_mem, ?_⟩) trivial
    simpa [Expectation.Admits] using hk

theorem advances_wholeExpression (source : String) (c : Cursor) :
    (wholeExpression c).Advances source F c fun _ _ _ _ => True := by
  rw [wholeExpression, look_bind]
  refine advances_bind (advances_rescue (R := fun _ _ _ _ => True)
    ((advances_expression source c).mono fun _ _ _ _ _ => trivial)
    fun fault ys d fs hfault _ => ?_) fun _ _ d _ _ _ => ?_
  · exact advances_report_bind (fun _ => hfault) (advances_pure trivial)
  · exact advances_bind (advances_expectEnd source d) fun _ _ _ _ _ _ => advances_pure trivial

theorem advances_wholeStatement (source : String) (c : Cursor) :
    (wholeStatement c).Advances source F c fun _ s _ fs => Extents source s.nodes fs := by
  apply advances_bind (advances_recovering (advances_statement source c))
  rintro ys s d fs - ⟨hns, -⟩
  apply advances_bind (advances_expectEnd source d)
  rintro zs _ d' gs - -
  exact advances_pure (hns.mono (by simp +contextual))

end Parse

/-! ## Analyses -/

section

variable {α : Type} {reader : Reader Empty α} {source : String} {F : Empty → Prop}
  {Q : Reading.Post α}

/-- Every fault of a text that is analysed is one of the text. -/
theorem holds_of_advances
    (h : (reader (startOf source)).Advances source F (startOf source) Q) :
    ∀ fault ∈ (reader (startOf source)).faults, fault.Holds source :=
  h.holds_of_mem_faults (Cursor.of_startOf source)

theorem Fault.Holds.valid_span {fault : Fault} (h : fault.Holds source) :
    (fault.toDiagnostic source).span.Valid source := by
  cases fault with
  | unexpected found expected hint => exact valid_span_of_mem_all h.1
  | misplaced rule span => exact h

/-- Every diagnostic is about a span of the text. -/
theorem valid_span_of_mem_diagnostics
    (h : (reader (startOf source)).Advances source F (startOf source) Q) {d : Diagnostic}
    (hd : d ∈ (analyze reader source).diagnostics) : d.span.Valid source := by
  rcases List.mem_append.1 ((diagnostics_analyze_perm reader source).mem_iff.1 hd) with hd | hd
  · obtain ⟨e, he, rfl⟩ := List.mem_map.1 hd
    exact valid_span_of_mem_errors he
  · obtain ⟨fault, hfault, rfl⟩ := List.mem_map.1 hd
    exact (holds_of_advances h fault hfault).valid_span

/-- The outcome of an analysis is what was shown of it. -/
theorem exists_post_of_advances
    (h : (reader (startOf source)).Advances source F (startOf source) Q) :
    ∃ ys, Q ys (analyze reader source).tree (reader (startOf source)).cursor
      (reader (startOf source)).faults := by
  obtain ⟨-, -, ys, -, hok⟩ := h (Cursor.of_startOf source)
  exact ⟨ys, hok _ (Reading.outcome_eq_ok _)⟩

end

/--
Whatever the text, every span in its tree and in its diagnostics is one of the text, and every part
of the tree lies within the node of which it is a part.
-/
theorem parse_spans_nested (source : String) :
    (∀ n ∈ (parse source).tree.nodes, n.Placed source) ∧
      (∀ n ∈ (parseStatement source).tree.nodes, n.Placed source) ∧
        (∀ d ∈ (parse source).diagnostics, d.span.Valid source) ∧
          (∀ d ∈ (parseStatement source).diagnostics, d.span.Valid source) ∧
            ∀ d ∈ (parseExpression source).diagnostics, d.span.Valid source := by
  have hprogram := Parse.advances_program (ε := Empty) (E := fun _ => True) source (startOf source)
  have hstatement := Parse.advances_wholeStatement (F := fun _ => True) source (startOf source)
  have hexpression := Parse.advances_wholeExpression (F := fun _ => True) source (startOf source)
  obtain ⟨-, hp⟩ := exists_post_of_advances hprogram
  obtain ⟨-, hs⟩ := exists_post_of_advances hstatement
  exact ⟨hp.placed, hs.placed, fun d => valid_span_of_mem_diagnostics hprogram,
    fun d => valid_span_of_mem_diagnostics hstatement,
    fun d => valid_span_of_mem_diagnostics hexpression⟩

end MiniJava
