import MiniJava.Proofs.Declaration.Sound

/-!
# What is read as a program

If no fault is noted, the whole text is the yield of a correct program. In any case, a program
without error nodes is made as the grammar asks.
-/

namespace MiniJava.Parse

open Reader Reading Terminal

variable {ε : Type}

/-! ## The main class -/

theorem ensures_expectMain_bind {β : Type} {f : Token → Reader Fault β} {Q : Post β} {c : Cursor}
    (h : ∀ t d, c.Reaches [.ident "main"] d →
      (f t d).Ensures d fun zs b e gs => Q (.ident "main" :: zs) b e gs) :
    ((expectMain >>= f) c).Ensures c Q := by
  rw [expectMain, bind_assoc, look_bind]
  split
  next hmain =>
    obtain ⟨hk, hl⟩ := hmain
    intro hc
    have hne : c.current.kind ≠ .endOfInput := by rw [hk]; nofun
    have hd := Cursor.reaches_drop_one hne
    rw [Token.terminal_ident hk, hl] at hd
    exact (h _ _ hd).after hd hc
  next =>
    refine ensures_bind (ensures_failUnexpected [.mainName] c fun _ _ _ _ => False) ?_
    exact fun _ _ _ _ _ h => h.elim

theorem ensures_mainHead (c : Cursor) : (mainHead c).Ensures c fun ys names _ fs =>
    fs = [] ∧ ys = MainClass.yieldHead names.1 names.2 ∧ IsName names.1 ∧ IsName names.2 := by
  refine ensures_expectName_bind fun n _ hn _ => ensures_expect_bind rfl fun _ _ _ => ?_
  refine ensures_expect_bind rfl fun _ _ _ => ensures_expect_bind rfl fun _ _ _ => ?_
  refine ensures_expect_bind rfl fun _ _ _ => ensures_expectMain_bind fun _ _ _ => ?_
  refine ensures_expect_bind rfl fun _ _ _ => ensures_expect_bind rfl fun _ _ _ => ?_
  refine ensures_expect_bind rfl fun _ _ _ => ensures_expect_bind rfl fun _ _ _ => ?_
  refine ensures_expectName_bind fun a _ ha _ => ensures_expect_bind rfl fun _ _ _ => ?_
  exact ensures_pure ⟨rfl, rfl, hn, ha⟩

theorem ensures_oneStatement (span : Span) {ss : List Stmt} {tail ys : List Terminal}
    {fs : List Fault}
    (h : Faithful Node.Legal (ss.flatMap Stmt.nodes) (ss.flatMap Stmt.yield ++ tail) ys fs)
    (c : Cursor) : ((oneStatement span ss : Reader ε Stmt) c).Ensures c fun zs s _ gs =>
      Faithful Node.Legal s.nodes (s.yield ++ tail) (ys ++ zs) (fs ++ gs) := by
  unfold oneStatement
  split
  next s =>
    apply ensures_pure
    simpa using h
  next =>
    refine ensures_bind (R := fun _ _ _ fs => fs ≠ []) (ensures_report (by simp)) ?_
    intro _ _ d gs _ hgs
    refine ensures_pure (Faithful.of_faulty ?_ (by simp [hgs]))
    rw [Stmt.nodes, Stmt.nodesList_eq]
    exact List.forall_mem_cons.2 ⟨⟨List.forall_mem_nil _, trivial, trivial⟩, h.proper⟩

theorem ensures_mainBody (start : Nat) (c : Cursor) :
    ((mainBody start : Reader ε Stmt) c).Ensures c fun ys s _ fs =>
      Faithful Node.WellFormed s.nodes (s.yield ++ [word .rightBrace, word .rightBrace]) ys fs := by
  apply ensures_bind (ensures_statements c)
  intro ys ss d fs _ hss
  refine ensures_bind (ensures_expectOrReport Node.Legal rfl d)
    fun bs _ d hs _ hinner => ?_
  rw [spanFrom_bind]
  refine ensures_bind (ensures_expectOrReport Node.Legal rfl d)
    fun bs' _ d hs' _ houter => ?_
  have hall := hss.append (hinner.append houter)
  rw [List.append_nil, List.append_nil] at hall
  apply ensures_bind (ensures_oneStatement _ hall d)
  intro zs s d gs _ hs
  apply ensures_bind (ensures_reportRecurs s.recurs d)
  rintro _ _ _ _ - ⟨rfl, rfl, rfl⟩
  apply ensures_pure
  simpa using wellFormed_of_legal hs s.recurStatements_nodes

theorem ensures_mainClass (c : Cursor) : (mainClass c).Ensures c fun ys m _ fs =>
    Faithful Node.WellFormed m.body.nodes m.yield ys fs ∧ IsName m.name ∧ IsName m.argsName := by
  refine ensures_expect_bind rfl fun _ d _ => ensures_bind (ensures_mainHead d) ?_
  rintro ys ⟨n, a⟩ d fs - ⟨rfl, rfl, hn, ha⟩
  apply ensures_expect_bind rfl
  intro _ d _
  apply ensures_bind (ensures_mainBody _ d)
  intro ys s d fs _ hs
  rw [spanFrom_bind]
  refine ensures_pure ⟨?_, hn, ha⟩
  have hall := (Faithful.tokens (word .classKw :: (MainClass.yieldHead n a ++
    [word .leftBrace]))).append hs
  simpa [MainClass.yield] using hall

/-- What holds of a main class that was read, or that stands in for one. -/
def MainRead : Post MainClass := fun ys m _ fs =>
  Faithful Node.WellFormed m.body.nodes m.yield ys fs ∧
    ((∀ n ∈ m.body.nodes, ¬ n.IsError) → IsName m.name ∧ IsName m.argsName)

theorem ensures_mainClassRecovering (c : Cursor) :
    ((mainClassRecovering : Reader ε MainClass) c).Ensures c MainRead := by
  rw [mainClassRecovering, look_bind]
  refine ensures_rescue ((ensures_mainClass c).mono ?_) fun fault ys d fs _ => ?_
  · exact fun _ _ _ _ ⟨h, hnames⟩ => ⟨h, fun _ => hnames⟩
  rw [here_bind]
  apply ensures_bind (ensures_recover .toplevel d fault d)
  intro _ _ d gs _ hgs
  rw [spanFrom_bind]
  refine ensures_pure ⟨.of_faulty (proper_error _) (by simp [hgs]), fun hno => ?_⟩
  exact absurd trivial (hno _ List.mem_cons_self)

/-! ## Whole programs -/

/-- What holds of a class after the main class. -/
def ClassRead (ys : List Terminal) (fs : List Fault) : Option ClassDecl → Prop
  | none => fs ≠ []
  | some k => Faithful Node.WellFormed k.nodes k.yield ys fs

theorem ensures_topLevelItem (c : Cursor) :
    ((topLevelItem : Reader ε (Option ClassDecl)) c).Ensures c fun ys k _ fs =>
      ClassRead ys fs k := by
  rw [topLevelItem, here_bind]
  refine ensures_rescue ?_ fun fault ys d fs _ => ?_
  · split
    · refine ensures_bind (ensures_classDecl c) fun ys k d fs _ hk => ensures_pure ?_
      rw [List.append_nil, List.append_nil]
      exact hk
    · exact ensures_failUnexpected _ _ _
  · apply ensures_bind (ensures_recover .toplevel c fault d)
    intro _ _ _ gs _ hgs
    exact ensures_pure (by simp [ClassRead, hgs])

/-- What holds of a program that was read. -/
def ProgramRead : Post Program := fun ys p d fs =>
  (fs = [] → ys = p.yield ∧ p.WellFormed ∧ d.ahead = []) ∧
    ((∀ n ∈ p.nodes, ¬ n.IsError) → ∀ n ∈ p.nodes, n.Proper)

theorem ensures_classes (c : Cursor) :
    ((manyFrom atEnd (fun _ : Unit => topLevelItem) (fun s _ => s) c.room () :
      Reader ε (List ClassDecl)) c).Ensures c fun ys ks d fs =>
        Faithful Node.WellFormed (ks.flatMap ClassDecl.nodes) (ks.flatMap ClassDecl.yield) ys fs ∧
          (fs = [] → atEnd d = true) := by
  refine .and (ensures_manyFrom (I := fun _ ys k fs => ClassRead ys fs k)
    (J := fun _ ys ks fs => Faithful Node.WellFormed (ks.flatMap ClassDecl.nodes)
      (ks.flatMap ClassDecl.yield) ys fs) (fun _ => .tokens []) ?_ ?_
    (fun _ d => ensures_topLevelItem d) c.room () c) ?_
  · intro _ ys k fs zs ks gs hk hks
    rw [List.flatMap_cons, List.flatMap_cons]
    exact Faithful.append hk hks
  · intro _ ys fs zs ks gs hf hks
    exact .of_faulty hks.proper fun hnil => hf (List.append_eq_nil_iff.1 hnil).1
  · refine ensures_manyFrom_stop (fun d hd hnil => ?_) (fun _ d => ?_) () (Nat.le_of_eq ?_)
    · exact decide_eq_true (Cursor.kind_current_of_ahead_eq_nil hnil)
    · apply (ensures_topLevelItem d).mono
      rintro ys (_ | k) d' fs hk - rfl
      · exact absurd rfl hk
      · rw [Faithful.yield_eq hk rfl]
        exact List.cons_ne_nil _ _
    · exact c.room_eq.symm

theorem ensures_program (c : Cursor) :
    ((program : Reader ε Program) c).Ensures c ProgramRead := by
  rw [program, look_bind]
  apply ensures_bind (ensures_mainClassRecovering c)
  rintro ys m d fs - ⟨hm, hnames⟩
  apply ensures_bind (ensures_classes d)
  rintro zs ks d' gs hd' ⟨hks, hend⟩
  intro hreg
  have hlast : atEnd d' = true → d'.ahead = [] := fun h => hreg.ahead_eq_nil (of_decide_eq_true h)
  rw [spanFrom_bind]
  refine ensures_pure (R := fun ws p e hs => ProgramRead (ys ++ (zs ++ ws)) p e (fs ++ (gs ++ hs)))
    ⟨fun hnil => ?_, fun hno => ?_⟩ hreg
  · obtain ⟨hf, hnil⟩ := List.append_eq_nil_iff.1 hnil
    obtain ⟨hg, -⟩ := List.append_eq_nil_iff.1 hnil
    refine ⟨?_, ?_, hlast (hend hg)⟩
    · rw [hm.yield_eq hf, hks.yield_eq hg, List.append_nil]
      rfl
    · have hn := hnames fun n hn => (hm.good hf n hn).noError
      refine List.forall_mem_cons.2 ⟨⟨⟨⟨?_, trivial, trivial⟩, id⟩, id⟩, ?_⟩
      · exact List.forall_mem_cons.2 ⟨hn.1, List.forall_mem_singleton.2 hn.2⟩
      · exact List.forall_mem_append.2 ⟨hm.good hf, hks.good hg⟩
  -- faults may have been noted; without error nodes every part was read all the same
  · have hn := hnames fun n hn => hno n (List.mem_cons_of_mem _ (List.mem_append_left _ hn))
    refine List.forall_mem_cons.2 ⟨⟨?_, trivial, trivial⟩, ?_⟩
    · exact List.forall_mem_cons.2 ⟨hn.1, List.forall_mem_singleton.2 hn.2⟩
    · exact List.forall_mem_append.2 ⟨hm.proper, hks.proper⟩

end MiniJava.Parse
