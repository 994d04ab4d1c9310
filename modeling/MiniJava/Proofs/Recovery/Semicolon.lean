import MiniJava.Proofs.Lexing.Blanking
import MiniJava.Proofs.Program.Grammar
import MiniJava.Proofs.Recovery.Classes
import MiniJava.Proofs.Recovery.Members

/-!
# Programs that lack a semicolon

Where one semicolon of a correct program is blanked out, one fault is reported, at the token after
it, unless what comes next keeps reading from finding its way back. All classes and methods but
those that the semicolon stood in are read as before.
-/

namespace MiniJava

open Terminal

/--
A program in which a semicolon was lost, with `behind` of its text to come after it. All is unchanged
but the statement of the main class, or but the class that the semicolon was lost from.
-/
inductive Program.LostFrom (behind : List Terminal) (p p' : Program) : Prop
  | main (s : Stmt) (front inside : List Terminal)
      (hmain : p.main.yield = front ++ word .semicolon :: inside)
      (hbehind : behind = inside ++ p.classes.flatMap ClassDecl.yield)
      (hsame : p'.withoutSpans = { p with main := { p.main with body := s } }.withoutSpans)
  | classDecl (ks₁ ks₂ : List ClassDecl) (k k' : ClassDecl) (front inside : List Terminal)
      (hclasses : p.classes = ks₁ ++ k :: ks₂)
      (hk : k.yield = front ++ word .semicolon :: inside)
      (hbehind : behind = inside ++ ks₂.flatMap ClassDecl.yield) (hlost : k.LostFrom inside k')
      (hsame : p'.withoutSpans = { p with classes := ks₁ ++ k' :: ks₂ }.withoutSpans)

/-! ## The main class -/

/-- Nothing is left over after the one statement of the main method. -/
theorem LeftOver.eq_nil_of_main {behind rest : List Terminal} {left : List Stmt}
    (h : LeftOver behind [] left)
    (hback : FindsBack (behind ++ word .rightBrace :: word .rightBrace :: rest))
    (hrest : headKind rest = .classKw ∨ headKind rest = .endOfInput) : left = [] := by
  cases h with
  | all => rfl
  | skipped us hus =>
    obtain ⟨hwell, rfl⟩ := hus
    match us with
    | [] => rfl
    | [u] =>
      have hu : u.Readable := (hwell u (List.mem_singleton_self u)).readable
      have hkind := hback.mainElse u rest hu (by simp) hrest
      cases u with
      | assign | assignElement => rfl
      | error s => exact absurd hu (Stmt.not_readable_error s)
      | _ => cases hkind
    | u :: u' :: us =>
      have hu : u.Readable := (hwell u List.mem_cons_self).readable
      have hnone := hback.lastElse u ((u' :: us).flatMap Stmt.yieldElse ++
        word .rightBrace :: word .rightBrace :: rest) hu (by simp)
      exact absurd rfl hnone.2

namespace Parse

open Reader Reading

variable {ε : Type} {c : Cursor} {found : Token} {later : List Token}
  {behind rest : List Terminal}

theorem succeeds_mainBody_broken {s : Stmt} (hs : s.WellFormed) (start : Nat)
    (hrest : headKind rest = .classKw ∨ headKind rest = .endOfInput)
    (hback : FindsBack ((found :: later).map Token.terminal))
    (hc : c.Lacks [] s.yield behind (word .rightBrace :: word .rightBrace :: rest)
      (found :: later)) :
    ((mainBody start : Reader ε Stmt) c).Succeeds fun _ d fs =>
      fs = [.missing .semicolon found] ∧ d.Sees rest := by
  have hkind := hs.readable.headKind_ne
  have hmore := hs.readable.atListEnd_kind (hc.kind_current_eq hkind)
  have hroom := c.length_le_room
  have hreads : ∀ t : Stmt, t.WellFormed → ∀ (d : Cursor) (zs : List Terminal),
      d.Sees (t.yield ++ zs) → d.ahead.length ≤ c.room →
      (statement d).Succeeds (StatementReadAs t zs) :=
    fun t ht d zs hd _ => succeeds_statement ht.readable hd
  have hbreaks : (statement c).Breaks found later behind
      (word .rightBrace :: word .rightBrace :: rest) := breaksStatement s hs hc rfl hback hroom
  have hnone : ∀ t ∈ ([] : List Stmt), t.WellFormed := by simp
  apply succeeds_bind (succeeds_manyStatements_broken hkind hnone hreads hback hmore rfl hc hbreaks
    hroom hroom)
  rintro _ d fs ⟨rfl, hd, s', left, left', rfl, hs', hleft, hsame⟩
  have hback' := hback
  rw [hc.tail_eq] at hback'
  obtain rfl := hleft.eq_nil_of_main hback' hrest
  obtain rfl : left' = [] := List.map_eq_nil_iff.1 hsame
  apply succeeds_expectOrReport_bind hd
  intro d hd
  rw [spanFrom_bind]
  apply succeeds_expectOrReport_bind hd
  intro d hd
  rw [oneStatement, pure_bind]
  apply succeeds_bind (succeeds_reportRecurs _ d)
  rintro _ _ _ ⟨rfl, rfl⟩
  rw [hs']
  exact succeeds_pure ⟨rfl, hd⟩

theorem succeeds_mainClass_broken {m : MainClass} (hm : m.body.WellFormed)
    (hrest : headKind rest = .classKw ∨ headKind rest = .endOfInput)
    (hback : FindsBack ((found :: later).map Token.terminal))
    (hc : c.Lacks [] m.yield behind rest (found :: later)) :
    (mainClass c).Succeeds fun m' d fs =>
      (∃ s, m'.withoutSpans = { m with body := s }.withoutSpans) ∧
        fs = [.missing .semicolon found] ∧ d.Sees rest := by
  have hsplit : c.Lacks [] (word .classKw :: (MainClass.yieldHead m.name m.argsName ++
      [word .leftBrace]) ++ (m.body.yield ++ [word .rightBrace, word .rightBrace])) behind rest
      (found :: later) := by
    simpa [MainClass.yield] using hc
  obtain ⟨behind', -, hbody⟩ := (hsplit.append_of_notMem
    (by simp [MainClass.yieldHead, word, ident])).of_append_of_notMem (by simp [word])
  rw [List.nil_append] at hbody
  apply succeeds_expect_bind_of_lacks rfl hbody
  intro _ d hd
  apply succeeds_bind (hd.passes (A := fun names => names = (m.name, m.argsName))
    (fun zs hs => succeeds_mainHead hs) (ensures_mainHead d))
  rintro _ d fs ⟨rfl, rfl, hd⟩
  apply succeeds_expect_bind_of_lacks rfl hd
  intro t d hd
  apply succeeds_bind (succeeds_mainBody_broken hm _ hrest hback hd)
  rintro s d fs ⟨rfl, hd⟩
  rw [spanFrom_bind]
  exact succeeds_pure ⟨⟨s, rfl⟩, rfl, hd⟩

/-! ## The other classes -/

theorem succeeds_topLevelItem_broken {k : ClassDecl} (hk : ∀ n ∈ k.nodes, n.WellFormed)
    (hback : FindsBack ((found :: later).map Token.terminal))
    (hc : c.Lacks [] k.yield behind rest (found :: later)) :
    ((topLevelItem : Reader ε (Option ClassDecl)) c).Succeeds fun r d fs =>
      d.ahead.length < c.ahead.length ∧ (∃ k', r = some k' ∧ k.LostFrom behind k') ∧
        fs = [.missing .semicolon found] ∧ d.Sees rest := by
  have hclass : c.current.kind = .classKw := hc.kind_current_eq (by rintro ⟨⟩)
  have hlength : rest.length < c.ahead.length := hc.length_rest_lt (by rintro ⟨⟩)
  rw [topLevelItem, here_bind, if_pos hclass]
  apply succeeds_rescue
  apply succeeds_bind (succeeds_classDecl_broken hk hback hc)
  rintro k' d fs ⟨hlost, rfl, hd⟩
  rw [← hd.length_eq] at hlength
  exact succeeds_pure ⟨hlength, ⟨k', rfl, hlost⟩, rfl, hd⟩

/-- Of some classes one has lost a semicolon, with `behind` of their text to come after it. -/
def ClassesLostFrom (behind : List Terminal) (ks ks' : List ClassDecl) : Prop :=
  ∃ ks₁ ks₂ k k' front inside, ks = ks₁ ++ k :: ks₂ ∧ k.yield = front ++ word .semicolon :: inside ∧
    behind = inside ++ ks₂.flatMap ClassDecl.yield ∧ k.LostFrom inside k' ∧
    ks'.map ClassDecl.withoutSpans = (ks₁ ++ k' :: ks₂).map ClassDecl.withoutSpans

/-- Reading on from the broken class. -/
theorem succeeds_classes_from_broken {k : ClassDecl} {ks : List ClassDecl} {rounds : Nat}
    (hk : ∀ n ∈ k.nodes, n.WellFormed) (hks : ∀ k ∈ ks, ∀ n ∈ k.nodes, n.WellFormed)
    (hback : FindsBack ((found :: later).map Token.terminal))
    (hc : c.Lacks [] k.yield behind (ks.flatMap ClassDecl.yield) (found :: later))
    (hrounds : c.ahead.length ≤ rounds) :
    ((manyFrom atEnd (fun _ : Unit => topLevelItem) (fun s _ => s) rounds () :
      Reader ε (List ClassDecl)) c).Succeeds fun ks' _ fs =>
        (∃ k', k.LostFrom behind k' ∧ ks'.map ClassDecl.withoutSpans =
          (k' :: ks).map ClassDecl.withoutSpans) ∧ fs = [.missing .semicolon found] := by
  have hmore : atEnd c = false := by
    have hclass : c.current.kind = .classKw := hc.kind_current_eq (by rintro ⟨⟩)
    rw [atEnd, hclass]
    rfl
  refine succeeds_manyFrom_item hmore hrounds (succeeds_topLevelItem_broken hk hback hc) ?_
  rintro n _ d fs hlength ⟨⟨k', rfl, hlost⟩, rfl, hd⟩
  apply (succeeds_classes (fun q hq n hn => (hks q hq n hn).readable) hd hlength).mono
  rintro ks' e fs ⟨hsame, rfl, -⟩
  refine ⟨⟨k', hlost, ?_⟩, by rw [misplacedRecurs_classes_eq_nil hks hsame]; rfl⟩
  simp [hsame]

theorem succeeds_classes_broken {ks : List ClassDecl} (hks : ∀ k ∈ ks, ∀ n ∈ k.nodes, n.WellFormed)
    (hback : FindsBack ((found :: later).map Token.terminal))
    (hc : c.Lacks [] (ks.flatMap ClassDecl.yield) behind [] (found :: later)) {rounds : Nat}
    (hrounds : c.ahead.length ≤ rounds) :
    ((manyFrom atEnd (fun _ : Unit => topLevelItem) (fun s _ => s) rounds () :
      Reader ε (List ClassDecl)) c).Succeeds fun ks' _ fs =>
        ClassesLostFrom behind ks ks' ∧ fs = [.missing .semicolon found] := by
  obtain ⟨ks₁, k, ks₂, inside, rfl, rfl, ⟨as, hk, hspells⟩, htail⟩ := hc.flatMap
  obtain ⟨hks₁, hks₂⟩ := List.forall_mem_append.1 hks
  obtain ⟨hwell, hks₂⟩ := List.forall_mem_cons.1 hks₂
  rw [List.append_nil] at htail
  have hreach : ∀ (_ : Unit) (d : Cursor), ((topLevelItem : Reader ε (Option ClassDecl)) d).Ensures d
      fun _ _ _ _ => True := fun _ d => (ensures_topLevelItem d).mono fun _ _ _ _ _ => trivial
  apply (succeeds_manyFrom_front (I := fun _ => True)
    (fun q hq _ _ _ _ hd _ => succeeds_topLevelItem_correct (hks₁ q hq) hd)
    (fun _ _ => by rintro ⟨⟩) (fun _ _ _ _ _ _ => trivial) hreach
    (fun _ _ _ _ hd hn _ => succeeds_classes_from_broken hwell hks₂ hback ⟨⟨as, hk, hd⟩, htail⟩ hn)
    trivial hspells hrounds hrounds).mono
  rintro _ d fs ⟨ks₁', ks₂', rfl, hsame₁, ⟨k', hlost, hsame₂⟩, rfl⟩
  refine ⟨⟨ks₁, ks₂, k, k', as, inside, rfl, hk, rfl, hlost, ?_⟩, rfl⟩
  rw [List.map_append, List.map_append, map_eq_of_forall₂ hsame₁, hsame₂]

/-! ## Whole programs -/

/-- The main class is broken, and the other classes are read as usual. -/
theorem succeeds_program_broken_main {p : Program} (hmain : p.main.body.WellFormed)
    (hks : ∀ k ∈ p.classes, ∀ n ∈ k.nodes, n.WellFormed)
    (hback : FindsBack ((found :: later).map Token.terminal))
    (hc : c.Lacks [] p.main.yield behind (p.classes.flatMap ClassDecl.yield) (found :: later)) :
    ((program : Reader ε Program) c).Succeeds fun p' _ fs =>
      (∃ s, p'.withoutSpans = { p with main := { p.main with body := s } }.withoutSpans) ∧
        fs = [.missing .semicolon found] := by
  have hrest : headKind (p.classes.flatMap ClassDecl.yield) = .classKw ∨
      headKind (p.classes.flatMap ClassDecl.yield) = .endOfInput := by
    cases p.classes with
    | nil => exact .inr rfl
    | cons k ks => exact .inl rfl
  have hrecovering : ((mainClassRecovering : Reader ε MainClass) c).Succeeds fun m d fs =>
      (∃ s, m.withoutSpans = { p.main with body := s }.withoutSpans) ∧
        fs = [.missing .semicolon found] ∧ d.Sees (p.classes.flatMap ClassDecl.yield) := by
    rw [mainClassRecovering, look_bind]
    exact succeeds_rescue (succeeds_mainClass_broken hmain hrest hback hc)
  rw [program, look_bind]
  apply succeeds_bind hrecovering
  rintro m d fs ⟨⟨s, hm⟩, rfl, hd⟩
  have hreadable := fun k hk n hn => (hks k hk n hn).readable
  apply succeeds_bind (succeeds_classes hreadable hd d.length_le_room)
  rintro ks d fs ⟨hsame, rfl, -⟩
  rw [spanFrom_bind]
  refine succeeds_pure ⟨⟨s, ?_⟩, ?_⟩
  · simp [Program.withoutSpans, hm, hsame]
  · rw [misplacedRecurs_classes_eq_nil hks hsame]
    rfl

/-- The main class is read as usual, and one of the other classes is broken. -/
theorem succeeds_program_broken_class {p : Program} (hmain : p.main.body.WellFormed)
    (hks : ∀ k ∈ p.classes, ∀ n ∈ k.nodes, n.WellFormed)
    (hback : FindsBack ((found :: later).map Token.terminal))
    (hc : c.Lacks p.main.yield (p.classes.flatMap ClassDecl.yield) behind [] (found :: later)) :
    ((program : Reader ε Program) c).Succeeds fun p' _ fs =>
      (∃ ks, ClassesLostFrom behind p.classes ks ∧
        p'.withoutSpans = { p with classes := ks }.withoutSpans) ∧
        fs = [.missing .semicolon found] := by
  have hrecovering : ((mainClassRecovering : Reader ε MainClass) c).Succeeds fun m d fs =>
      fs = [] ∧ m.withoutSpans = p.main.withoutSpans ∧
        d.Lacks [] (p.classes.flatMap ClassDecl.yield) behind [] (found :: later) := by
    rw [← List.append_nil p.main.yield] at hc
    apply Cursor.Lacks.passes hc _ (ensures_mainClassRecovering c)
    intro zs hs
    have hreadable : p.main.body.Readable := fun n hn => (hmain n hn).readable
    rw [mainClassRecovering, look_bind]
    apply succeeds_rescue
    apply (succeeds_mainClass hreadable hs).mono
    rintro m d fs ⟨hm, rfl, hd⟩
    exact ⟨misplacedRecurs_main_eq_nil hmain hm, hm, hd⟩
  rw [program, look_bind]
  apply succeeds_bind hrecovering
  rintro m d fs ⟨rfl, hm, hd⟩
  apply succeeds_bind (succeeds_classes_broken hks hback hd d.length_le_room)
  rintro ks d fs ⟨hlost, rfl⟩
  rw [spanFrom_bind]
  exact succeeds_pure ⟨⟨ks, hlost, by simp [Program.withoutSpans, hm]⟩, rfl⟩

/-- A program in which a semicolon is lost is read to its end, and one fault is noted. -/
theorem succeeds_program_broken {p : Program} (hp : p.WellFormed)
    (hback : FindsBack ((found :: later).map Token.terminal))
    (hc : c.Lacks [] p.yield behind [] (found :: later)) :
    ((program : Reader ε Program) c).Succeeds fun p' _ fs =>
      p.LostFrom behind p' ∧ fs = [.missing .semicolon found] := by
  obtain ⟨-, hp⟩ := List.forall_mem_cons.1 hp
  obtain ⟨hmain, hks⟩ := List.forall_mem_append.1 hp
  rw [List.forall_mem_flatMap] at hks
  rcases hc.append with ⟨inside, rfl, hlost⟩ | hlost
  · -- the main class lost the semicolon
    rw [List.append_nil] at hlost
    obtain ⟨⟨front, hfront, -⟩, -⟩ := id hlost
    apply (succeeds_program_broken_main hmain hks hback hlost).mono
    rintro p' d fs ⟨⟨s, hsame⟩, rfl⟩
    exact ⟨.main s front inside hfront rfl hsame, rfl⟩
  · apply (succeeds_program_broken_class hmain hks hback hlost).mono
    rintro p' d fs ⟨⟨ks, ⟨ks₁, ks₂, k, k', front, inside, hks, hk, hbehind, hlost, hsame⟩, hp'⟩, rfl⟩
    refine ⟨.classDecl ks₁ ks₂ k k' front inside hks hk hbehind hlost ?_, rfl⟩
    rw [hp']
    simp [Program.withoutSpans, hsame]

end Parse

/-- A program ends with a brace. -/
theorem Program.exists_yield_eq (p : Program) : ∃ ys, p.yield = ys ++ [word .rightBrace] := by
  rcases List.eq_nil_or_concat p.classes with h | ⟨ks, k, h⟩
  · refine ⟨word .classKw :: (MainClass.yieldHead p.main.name p.main.argsName ++
      word .leftBrace :: (p.main.body.yield ++ [word .rightBrace])), ?_⟩
    simp [Program.yield, MainClass.yield, h]
  · refine ⟨p.main.yield ++ (ks.flatMap ClassDecl.yield ++ word .classKw :: ident k.name ::
      (ClassDecl.yieldSuperclass k.superclass ++ word .leftBrace ::
        (k.fields.flatMap Variable.yieldDecl ++ k.methods.flatMap Method.yield))), ?_⟩
    simp [Program.yield, ClassDecl.yield, h]

/-- A program goes on after each of its semicolons. -/
theorem Program.ne_nil_of_yield_eq {p : Program} {ys zs : List Terminal}
    (h : p.yield = ys ++ word .semicolon :: zs) : zs ≠ [] := by
  rintro rfl
  obtain ⟨xs, hbrace⟩ := p.exists_yield_eq
  have hlast := congrArg List.getLast? (hbrace.symm.trans h)
  rw [List.getLast?_concat, List.getLast?_concat] at hlast
  cases hlast

/--
A semicolon of a correct text is blanked out, and what comes after it is no block and no `else` but
one whose branch can be skipped or read by itself. Then one fault is reported, at the token after
the semicolon, and all is read as before but the statement of the main class, the fields or the
method that the semicolon stood in.
-/
theorem parse_without_semicolon {source : String} {before after : List Token} {semicolon : Token}
    (hclean : (parse source).diagnostics = [])
    (htokens : (tokenize source).tokens = before ++ semicolon :: after)
    (hkind : semicolon.kind = .semicolon) (hback : FindsBack (after.map Token.terminal)) :
    ∃ found later d, after = found :: later ∧
      (parse (blankAt source semicolon.span.start)).diagnostics = [d] ∧
      d = (Fault.missing .semicolon found).toDiagnostic (blankAt source semicolon.span.start) ∧
      d.span = found.span ∧
      (parse source).tree.LostFrom (after.map Token.terminal)
        (parse (blankAt source semicolon.span.start)).tree := by
  obtain ⟨hlexed, hfaults⟩ := diagnostics_analyze_eq_nil_iff.1 hclean
  obtain ⟨hwell, hyield⟩ := wellFormed_of_faults_program hfaults
  have hsemicolon : semicolon.terminal = word .semicolon := by
    have hregular : semicolon.Regular :=
      (startOf_regular source).ahead semicolon (by simp [Cursor.ahead_startOf, htokens])
    exact hregular.terminal_word hkind rfl
  rw [terminalsOf, htokens, List.map_append, List.map_cons, hsemicolon] at hyield
  obtain ⟨found, later, rfl⟩ : ∃ found later, after = found :: later := by
    cases after with
    | nil => exact absurd rfl (Program.ne_nil_of_yield_eq hyield)
    | cons found later => exact ⟨found, later, rfl⟩
  obtain ⟨htokens', herrors⟩ := tokenize_blankAt htokens hkind
  have hlacks : (startOf (blankAt source semicolon.span.start)).Lacks [] (parse source).tree.yield
      ((found :: later).map Token.terminal) [] (found :: later) := by
    have hahead := (Cursor.ahead_startOf _).trans htokens'
    refine ⟨⟨before.map Token.terminal, hyield, startOf_regular _, before, hahead, rfl⟩, ?_⟩
    rw [List.append_nil]
  obtain ⟨-, hlost, hfaults'⟩ :=
    tree_parse_of_succeeds (Parse.succeeds_program_broken hwell hback hlacks)
  have hperm := diagnostics_analyze_perm Parse.program (blankAt source semicolon.span.start)
  rw [herrors, hlexed, hfaults', List.map_nil, List.nil_append, List.map_singleton,
    List.perm_singleton] at hperm
  exact ⟨found, later, _, rfl, hperm, rfl, rfl, hlost⟩

/-- The semicolon before a `return` is blanked out, and the method after it is read as before. -/
theorem parse_without_semicolon_before_return :
    let source := "class M \x7b public static void main(String[] a) \x7b x = 1; \x7d \x7d " ++
      "class A \x7b public int f() \x7b y = 2; return y; \x7d public int g() \x7b return 3; \x7d \x7d"
    let cut := "class M \x7b public static void main(String[] a) \x7b x = 1; \x7d \x7d " ++
      "class A \x7b public int f() \x7b y = 2  return y; \x7d public int g() \x7b return 3; \x7d \x7d"
    ∃ found later d, (tokenize source).tokens.drop 33 = found :: later ∧ found.kind = .returnKw ∧
      (parse cut).diagnostics = [d] ∧ d.span = found.span ∧
      (parse source).tree.LostFrom ((found :: later).map Token.terminal) (parse cut).tree := by
  intro source cut
  have hclean : (parse source).diagnostics = [] :=
    diagnostics_analyze_eq_nil_iff.2 (by decide +kernel)
  have ⟨htokens, hkind, hcut, hreturn⟩ :
      (tokenize source).tokens = (tokenize source).tokens.take 32 ++
        (tokenize source).tokens.getD 32 default :: (tokenize source).tokens.drop 33 ∧
      ((tokenize source).tokens.getD 32 default).kind = .semicolon ∧
      blankAt source ((tokenize source).tokens.getD 32 default).span.start = cut ∧
      headKind (((tokenize source).tokens.drop 33).map Token.terminal) = .returnKw := by
    decide +kernel
  have hback : FindsBack (((tokenize source).tokens.drop 33).map Token.terminal) :=
    .of_headKind (by rw [hreturn]; decide) (by rw [hreturn]; decide)
  obtain ⟨found, later, d, hafter, hd, -, hspan, hlost⟩ :=
    parse_without_semicolon hclean htokens hkind hback
  rw [hafter] at hreturn hlost
  rw [hcut] at hd hlost
  exact ⟨found, later, d, hafter, hreturn, hd, hspan, hlost⟩

/-- A block follows the semicolon. Skipping stops inside it, and its brace closes another block. -/
theorem two_errors_before_block :
    let source := "class M \x7b public static void main(String[] a) \x7b " ++
      "\x7b x = 1; \x7b y = 2; \x7d \x7d \x7d \x7d"
    let cut := "class M \x7b public static void main(String[] a) \x7b " ++
      "\x7b x = 1  \x7b y = 2; \x7d \x7d \x7d \x7d"
    (parse source).diagnostics = [] ∧
      (∃ t ∈ (tokenize source).tokens, t.kind = .semicolon ∧ blankAt source t.span.start = cut) ∧
      (parse cut).diagnostics.length = 2 := by
  intro source cut
  have hclean : (parse source).diagnostics = [] :=
    diagnostics_analyze_eq_nil_iff.2 (by decide +kernel)
  have hfaults : ((tokenize cut).errors.map LexicalError.toDiagnostic ++
      ((Parse.program : Reader Empty Program) (startOf cut)).faults.map
        (Fault.toDiagnostic cut)).length = 2 := by
    decide +kernel
  have htwo : (parse cut).diagnostics.length = 2 := by
    rw [parse, (diagnostics_analyze_perm Parse.program cut).length_eq, hfaults]
  exact ⟨hclean, by decide +kernel, htwo⟩

end MiniJava
