import MiniJava.Proofs.Layout.Independence
import MiniJava.Proofs.Program.Complete
import MiniJava.Proofs.Recovery.Border

/-!
# Classes after damage

Whatever stands between the main class and some correct classes, these classes are read, and nothing
is reported of them. The keyword of the first of them is a border that no recovery passes, as long
as the braces before it are closed.
-/

namespace MiniJava

variable {ε α : Type}

/-- Where the fault comes up. -/
def Fault.start : Fault → Nat
  | unexpected found _ _ => found.span.start
  | misplaced _ span => span.start

/-- A reader takes in a whole text without fault and gives `a`. -/
structure Reader.Accepts (reader : Reader ε α) (source : String) (a : α) : Prop where
  outcome : (reader (startOf source)).outcome = .ok a
  faults : (reader (startOf source)).faults = []
  ahead : (reader (startOf source)).cursor.ahead = []

theorem Reader.Accepts.of_isOk {reader : Reader ε α} {source : String}
    (h : (reader (startOf source)).outcome.isOk ∧ (reader (startOf source)).faults = [] ∧
      (reader (startOf source)).cursor.ahead = []) : ∃ a, reader.Accepts source a := by
  obtain ⟨hok, hfaults, hahead⟩ := h
  cases ha : (reader (startOf source)).outcome with
  | error e =>
    rw [ha] at hok
    cases hok
  | ok a => exact ⟨a, ha, hfaults, hahead⟩

/-- What reading ensures holds of a text that is taken in. -/
theorem Reader.Accepts.ensures {reader : Reader ε α} {source : String} {a : α}
    {Q : Reading.Post α} (h : reader.Accepts source a)
    (he : (reader (startOf source)).Ensures (startOf source) Q) :
    Q (terminalsOf source) a (reader (startOf source)).cursor [] := by
  obtain ⟨ys, hreach, hQ⟩ := he (startOf_regular source)
  rw [← h.faults, ← terminalsOf_of_reaches hreach h.ahead]
  exact hQ a h.outcome

/-- Where reading succeeds, it takes tokens from the front. -/
theorem Reading.Succeeds.reaches {r : Reading ε α} {c : Cursor} {R : Reading.Result α}
    {Q : Reading.Post α} (h : r.Succeeds R) (he : r.Ensures c Q) (hc : c.Regular) :
    r.Succeeds fun a d fs => R a d fs ∧ ∃ ys, c.Reaches ys d := by
  obtain ⟨a, ha, hR⟩ := h
  obtain ⟨ys, hreach, -⟩ := he hc
  exact ⟨a, ha, hR, ys, hreach⟩

namespace Parse

open Reader Reading Terminal

variable {c : Cursor}

/-! ## Classes without fault -/

theorem misplacedRecurs_class_eq_nil {k k' : ClassDecl} (hk : ∀ n ∈ k.nodes, n.WellFormed)
    (hsame : k'.withoutSpans = k.withoutSpans) : misplacedRecurs k'.recurs = [] := by
  rw [ClassDecl.recurs_eq_nil hk hsame]
  rfl

theorem misplacedRecurs_classes_eq_nil {ks ks' : List ClassDecl}
    (hks : ∀ k ∈ ks, ∀ n ∈ k.nodes, n.WellFormed)
    (hsame : ks'.map ClassDecl.withoutSpans = ks.map ClassDecl.withoutSpans) :
    ks'.flatMap (fun k => misplacedRecurs k.recurs) = [] := by
  rw [List.flatMap_eq_nil_iff]
  intro k' hk'
  have hmem : k'.withoutSpans ∈ ks.map ClassDecl.withoutSpans := hsame ▸ List.mem_map_of_mem hk'
  obtain ⟨k, hk, hkk'⟩ := List.mem_map.1 hmem
  exact misplacedRecurs_class_eq_nil (hks k hk) hkk'.symm

theorem misplacedRecurs_main_eq_nil {m m' : MainClass} (hm : ∀ n ∈ m.body.nodes, n.WellFormed)
    (hsame : m'.withoutSpans = m.withoutSpans) : misplacedRecurs m'.body.recurs = [] := by
  have hbody : m'.body.withoutSpans = m.body.withoutSpans := congrArg MainClass.body hsame
  rw [Stmt.WellFormed.recurs_eq_nil hm hbody]
  rfl

/-- A correct class is read as it is, and nothing is reported. -/
theorem succeeds_topLevelItem_correct {k : ClassDecl} {rest : List Terminal}
    (hk : ∀ n ∈ k.nodes, n.WellFormed)
    (hc : c.Sees (k.yield ++ rest)) :
    atEnd c = false ∧ ((topLevelItem : Reader ε (Option ClassDecl)) c).Succeeds fun r d fs =>
      fs = [] ∧ (∃ k', r = some k' ∧ k'.withoutSpans = k.withoutSpans) ∧ d.Sees rest := by
  constructor
  · rw [atEnd, hc.kind_current]
    rfl
  · apply (succeeds_topLevelItem (fun n hn => (hk n hn).readable) hc).mono
    rintro _ d fs ⟨k', rfl, hsame, rfl, hd⟩
    exact ⟨misplacedRecurs_class_eq_nil hk hsame, ⟨k', rfl, hsame⟩, hd⟩

/-- Texts of classes spell what the classes yield, and the classes are correct. -/
theorem yield_of_accepts {texts : List String} {ks : List ClassDecl}
    (h : List.Forall₂ (fun text k => classDecl.Accepts text k) texts ks) :
    texts.flatMap terminalsOf = ks.flatMap ClassDecl.yield ∧
      ∀ k ∈ ks, ∀ n ∈ k.nodes, n.WellFormed := by
  induction h with
  | nil => exact ⟨rfl, by simp⟩
  | @cons text k texts ks hk _ ih =>
    have hfaithful := hk.ensures (ensures_classDecl (startOf text))
    refine ⟨?_, List.forall_mem_cons.2 ⟨hfaithful.good rfl, ih.2⟩⟩
    rw [List.flatMap_cons, List.flatMap_cons, hfaithful.yield_eq rfl, ih.1]

/-! ## Moving on -/

theorem ensures_classDecl_taken (c : Cursor) :
    (classDecl c).Ensures c fun ys _ _ _ => ys ≠ [] := by
  refine ensures_expect_bind rfl fun _ d _ => ensures_expectName_bind fun _ d _ _ => ?_
  apply ensures_bind (ensures_superclass d)
  intro _ _ d _ _ _
  apply ensures_expect_bind rfl
  intro _ d _
  apply ensures_bind (ensures_members d)
  intro _ _ d _ _ _
  apply ensures_bind (ensures_expectOrReport Node.WellFormed rfl d)
  intro _ _ d _ _ _
  rw [spanFrom_bind]
  exact ensures_pure (by simp)

/-- Skipping to a class takes a token if none was taken since the faulty construct began. -/
theorem ensures_recover_taken {o : Cursor} {fault : Fault} (hmore : c.ahead ≠ [])
    (hpos : ¬ o.pos < c.pos) :
    ((recover .toplevel o fault : Reader ε Unit) c).Ensures c fun ys _ _ _ => ys ≠ [] := by
  refine ensures_bind (R := fun ys _ d _ => ys = [] ∧ d = c) (ensures_report ⟨rfl, rfl⟩) ?_
  rintro _ _ _ _ - ⟨rfl, rfl⟩
  refine fun _ => ⟨_, Cursor.reaches_drop _ _, fun _ _ => ?_⟩
  obtain ⟨t, ts, hahead⟩ := List.exists_cons_of_ne_nil hmore
  simp [hpos, hahead, Region.skip, Region.skipToClass]

theorem ensures_topLevelItem_taken (hmore : c.ahead ≠ []) :
    ((topLevelItem : Reader ε (Option ClassDecl)) c).Ensures c fun ys _ _ _ => ys ≠ [] := by
  rw [topLevelItem, here_bind]
  refine ensures_rescue ?_ fun fault ys d fs hd => ?_
  · split
    · apply ensures_bind (ensures_classDecl_taken c)
      intro ys k d fs _ hys
      exact ensures_pure (by simpa using hys)
    · exact ensures_failUnexpected _ _ _
  · by_cases hpos : c.pos < d.pos
    · have hys : ys ≠ [] := by
        rintro rfl
        have hlength := hd.length_eq
        obtain ⟨-, -, -, htokens⟩ := hd
        have hroom := Cursor.room_lt_room htokens hmore hpos
        rw [d.room_eq, c.room_eq, hlength] at hroom
        simp at hroom
      apply ensures_bind (ensures_recover .toplevel c fault d)
      intro _ _ _ _ _ _
      exact ensures_pure (by simp [hys])
    · have hahead := hd.ahead_eq hpos
      apply ensures_bind (ensures_recover_taken (hahead ▸ hmore) hpos)
      intro zs _ _ _ _ hzs
      exact ensures_pure (by simp [hzs])

/-! ## Classes after a border -/

variable {border : Token} {rest ts : List Token} {ks : List ClassDecl}

/-- An item before the border leads to a later place before the border. -/
theorem succeeds_topLevelItem_before (hborder : border.kind = .classKw)
    (hc : c.Before border rest ts) (hts : ts ≠ []) :
    ((topLevelItem : Reader ε (Option ClassDecl)) c).Succeeds fun _ d fs =>
      (∃ ts', d.Before border rest ts') ∧ (∀ f ∈ fs, f.start ≤ border.span.start) ∧
        d.ahead.length < c.ahead.length := by
  have hahead : c.ahead ≠ border :: rest := by
    rw [hc.ahead]
    simpa using hts
  have hmore : c.ahead ≠ [] := by simp [hc.ahead]
  have hitem := parallel_topLevelItem (P := .border border rest hborder)
    (E := fun _ _ : ε => False) ⟨rfl, ts, hc⟩ hahead
  obtain ⟨ys, hreach, htaken⟩ := ensures_topLevelItem_taken (ε := ε) hmore hc.regular
  generalize hr : (topLevelItem : Reader ε (Option ClassDecl)) c = r at hitem hreach htaken
  obtain ⟨o, d, journal⟩ := r
  obtain ⟨houtcome, ⟨-, hbefore⟩, hfaults⟩ := hitem
  cases houtcome with
  | error h => exact h.elim
  | @ok item _ _ =>
    refine ⟨item, rfl, hbefore, fun f hf => ?_, ?_⟩
    · have htwin := List.forall₂_same.1 hfaults f hf
      cases htwin with
      | unexpected h => exact h.start.2
      | misplaced h => exact h.2
    · have hlength := hreach.length_eq
      have hpos := List.length_pos_iff.2 (htaken item rfl)
      dsimp only at hlength ⊢
      omega

/-- Classes behind the border are read, whatever stands before it. -/
theorem succeeds_classes_after (hborder : border.kind = .classKw)
    (hks : ∀ k ∈ ks, ∀ n ∈ k.nodes, n.WellFormed)
    (hyield : (border :: rest).map Token.terminal = ks.flatMap ClassDecl.yield)
    {rounds : Nat} (hc : c.Before border rest ts) (hroom : c.ahead.length ≤ rounds) :
    ((manyFrom atEnd (fun _ : Unit => topLevelItem) (fun s _ => s) rounds () :
      Reader ε (List ClassDecl)) c).Succeeds fun ks' _ fs =>
        ks.map ClassDecl.withoutSpans <:+ ks'.map ClassDecl.withoutSpans ∧
          ∀ f ∈ fs, f.start ≤ border.span.start := by
  induction rounds generalizing c ts with
  | zero =>
    rw [hc.ahead] at hroom
    simp at hroom
  | succ rounds ih =>
    by_cases hts : ts = []
    · -- the border is reached: what follows is read as if nothing had been before it
      have hsees : c.Sees (ks.flatMap ClassDecl.yield) := by
        refine ⟨?_⟩
        rw [Cursor.terminals, hc.ahead, hts, List.nil_append, hyield]
      have hreadable : ∀ k ∈ ks, ∀ n ∈ k.nodes, n.Readable := fun k hk n hn =>
        (hks k hk n hn).readable
      apply (succeeds_classes hreadable hsees hroom).mono
      rintro ks' d fs ⟨hsame, rfl, -⟩
      rw [misplacedRecurs_classes_eq_nil hks hsame]
      exact ⟨hsame ▸ List.suffix_refl _, by simp⟩
    · have hmore : atEnd c = false := by
        obtain ⟨t, ts', rfl⟩ := List.exists_cons_of_ne_nil hts
        have ht : t.Regular := hc.regular.ahead t (by simp [hc.ahead])
        rw [atEnd, Cursor.current_eq, hc.ahead]
        exact decide_eq_false ht.notEnd
      rw [manyFrom, here_bind, hmore]
      apply succeeds_bind (succeeds_topLevelItem_before hborder hc hts)
      rintro item d fs ⟨⟨ts', hd⟩, hfs, hlength⟩
      have hrest := ih hd (by omega)
      cases item with
      | none =>
        apply hrest.mono
        rintro ks' e gs ⟨hsuffix, hgs⟩
        exact ⟨hsuffix, List.forall_mem_append.2 ⟨hfs, hgs⟩⟩
      | some k' =>
        apply succeeds_map
        apply hrest.mono
        rintro ks' e gs ⟨hsuffix, hgs⟩
        exact ⟨hsuffix.trans (List.suffix_cons _ _), List.forall_mem_append.2 ⟨hfs, hgs⟩⟩

/-- A program with a correct main class and damage between it and the border. -/
theorem succeeds_program_after {m : MainClass} (hm : ∀ n ∈ m.body.nodes, n.WellFormed)
    (hborder : border.kind = .classKw) (hks : ∀ k ∈ ks, ∀ n ∈ k.nodes, n.WellFormed)
    (hyield : (border :: rest).map Token.terminal = ks.flatMap ClassDecl.yield)
    (hc : c.Regular) {taken : List Token} (htaken : taken.map Token.terminal = m.yield)
    (hahead : c.ahead = taken ++ (ts ++ border :: rest))
    (hclosed : BracesClosed (ts.map Token.kind))
    (hstart : ∀ t ∈ ts, t.span.start ≤ border.span.start) :
    ((program : Reader ε Program) c).Succeeds fun p _ fs =>
      p.main.withoutSpans = m.withoutSpans ∧
      ks.map ClassDecl.withoutSpans <:+ p.classes.map ClassDecl.withoutSpans ∧
      ∀ f ∈ fs, f.start ≤ border.span.start := by
  have hsees : c.Sees (m.yield ++ (ts ++ border :: rest).map Token.terminal) := by
    refine ⟨?_⟩
    rw [Cursor.terminals, hahead, List.map_append, htaken]
  have hbody : m.body.Readable := fun n hn => (hm n hn).readable
  have hmain : ((mainClassRecovering : Reader ε MainClass) c).Succeeds fun m' d fs =>
      m'.withoutSpans = m.withoutSpans ∧ fs = misplacedRecurs m'.body.recurs ∧
        d.Sees ((ts ++ border :: rest).map Token.terminal) := by
    rw [mainClassRecovering, look_bind]
    exact succeeds_rescue (succeeds_mainClass hbody hsees)
  rw [program, look_bind]
  apply succeeds_bind (hmain.reaches (ensures_mainClassRecovering c) hc)
  rintro m' d fs ⟨⟨hm', rfl, hd⟩, ys, hreach⟩
  rw [misplacedRecurs_main_eq_nil hm hm']
  have hbefore : d.Before border rest ts := by
    refine ⟨hreach.regular hc, ?_, hclosed, hstart⟩
    obtain ⟨taken', hahead', -, -⟩ := hreach
    have hlength := hd.length_eq
    rw [List.length_map] at hlength
    exact (List.append_inj' (hahead'.symm.trans hahead) hlength).2
  have hroom := d.length_le_room
  apply succeeds_bind (succeeds_classes_after hborder hks hyield hbefore hroom)
  rintro ks' e gs ⟨hsuffix, hgs⟩
  rw [spanFrom_bind]
  exact succeeds_pure ⟨hm', hsuffix, by simpa using hgs⟩

end Parse

/-! ## Texts -/

/-- A syntactic diagnostic starts where a fault came up. -/
theorem exists_fault_of_mem_syntacticOf {reader : Reader Empty α} {source : String}
    {d : Diagnostic} (h : d ∈ syntacticOf (analyze reader source)) :
    ∃ f ∈ (reader (startOf source)).faults, d.span.start = f.start := by
  rw [syntacticOf_analyze] at h
  obtain ⟨f, hf, rfl⟩ := List.mem_map.1 ((List.mergeSort_perm _ _).mem_iff.1 h)
  exact ⟨f, hf, by cases f <;> rfl⟩

/-- A token of a text starts before those after it. -/
theorem start_le_of_tokens_eq {source : String} {before after : List Token} {u : Token}
    (h : (tokenize source).tokens = before ++ u :: after) :
    ∀ t ∈ before, t.span.start ≤ u.span.start := by
  have hpairwise := starts_increasing source
  rw [List.pairwise_map, Tokenization.all, h, List.append_assoc, List.pairwise_append] at hpairwise
  intro t ht
  exact Nat.le_of_lt (hpairwise.2.2 t ht u (by simp))

/-- A result that reading a program comes to is that of the text. -/
theorem tree_parse_of_succeeds {source : String} {R : Reading.Result Program}
    (h : ((Parse.program : Reader Empty Program) (startOf source)).Succeeds R) :
    ∃ d, R (parse source).tree d
      ((Parse.program : Reader Empty Program) (startOf source)).faults := by
  obtain ⟨p, hok, hR⟩ := h
  rw [Reading.outcome_eq_ok] at hok
  cases hok
  exact ⟨_, hR⟩

/--
Between a correct main class and one or more correct classes there may be any tokens in which
each brace that is opened is closed. The main class and those classes are read as they would be by
themselves, and no fault of grammar comes up after the first token of those classes.
-/
theorem parse_classes_after_damage {source mainText : String} {m : MainClass}
    {damage : List Terminal} {texts : List String} {ks : List ClassDecl}
    (hsource : terminalsOf source =
      terminalsOf mainText ++ (damage ++ texts.flatMap terminalsOf))
    (hmain : Parse.mainClass.Accepts mainText m)
    (hclosed : BracesClosed (damage.map Terminal.kind))
    (hclasses : List.Forall₂ (fun text k => Parse.classDecl.Accepts text k) texts ks)
    (hsome : texts ≠ []) :
    (parse source).tree.main.withoutSpans = m.withoutSpans ∧
    ks.map ClassDecl.withoutSpans <:+ (parse source).tree.classes.map ClassDecl.withoutSpans ∧
    ∃ first, (tokenize source).tokens[(terminalsOf mainText ++ damage).length]? = some first ∧
      ∀ d ∈ syntacticOf (parse source), d.span.start ≤ first.span.start := by
  have hfaithful := (hmain.ensures (Parse.ensures_mainClass (startOf mainText))).1
  obtain ⟨hyield, hks⟩ := Parse.yield_of_accepts hclasses
  rw [hyield] at hsource
  obtain ⟨taken, after, htokens, htaken, hafter⟩ := List.map_eq_append_iff.1 hsource
  obtain ⟨ts, behind, rfl, hts, hbehind⟩ := List.map_eq_append_iff.1 hafter
  -- the first of the classes gives the border
  obtain ⟨k, ks', rfl⟩ : ∃ k ks', ks = k :: ks' := by
    cases hclasses with
    | nil => exact absurd rfl hsome
    | cons => exact ⟨_, _, rfl⟩
  obtain ⟨border, rest, rfl, hword, -⟩ := List.map_eq_cons_iff.1 hbehind
  have hborder : border.kind = .classKw := congrArg Terminal.kind hword
  have hstart : ∀ t ∈ taken ++ ts, t.span.start ≤ border.span.start :=
    start_le_of_tokens_eq (by rw [htokens, List.append_assoc])
  have hkinds : BracesClosed (ts.map Token.kind) := by
    rw [← hts, List.map_map] at hclosed
    exact hclosed
  have hprogram := Parse.succeeds_program_after (ε := Empty) (hfaithful.good rfl) hborder hks
    hbehind (startOf_regular source) (htaken.trans (hfaithful.yield_eq rfl))
    ((Cursor.ahead_startOf source).trans htokens) hkinds fun t ht => hstart t (List.mem_append_right _ ht)
  obtain ⟨-, hmain', hclasses', hfaults⟩ := tree_parse_of_succeeds hprogram
  refine ⟨hmain', hclasses', border, ?_, fun d hd => ?_⟩
  · have hlength : (terminalsOf mainText ++ damage).length = (taken ++ ts).length := by
      rw [← htaken, ← hts, ← List.map_append, List.length_map]
    rw [hlength, htokens, ← List.append_assoc, List.getElem?_append_right (Nat.le_refl _),
      Nat.sub_self]
    rfl
  · obtain ⟨f, hf, hd⟩ := exists_fault_of_mem_syntacticOf hd
    rw [hd]
    exact hfaults f hf

/-- A faulty class, a brace that closes nothing and a keyword stand before a correct class. -/
theorem parse_classes_after_damage_stray :
    let mainText := "class M \x7b public static void main(String[] a) \x7b x = 1; \x7d \x7d"
    let damage := "class 3 \x7b int \x7d \x7d class"
    let classText := "class B \x7b int y; \x7d"
    let source := mainText ++ " " ++ damage ++ " " ++ classText
    ∃ m k first, Parse.mainClass.Accepts mainText m ∧ Parse.classDecl.Accepts classText k ∧
      (parse source).tree.main.withoutSpans = m.withoutSpans ∧
      [k.withoutSpans] <:+ (parse source).tree.classes.map ClassDecl.withoutSpans ∧
      (tokenize source).tokens[(terminalsOf mainText ++ terminalsOf damage).length]? = some first ∧
      ∀ d ∈ syntacticOf (parse source), d.span.start ≤ first.span.start := by
  intro mainText damage classText source
  have hsource : terminalsOf source =
      terminalsOf mainText ++ (terminalsOf damage ++ [classText].flatMap terminalsOf) := by
    decide +kernel
  obtain ⟨m, hm⟩ : ∃ m, Parse.mainClass.Accepts mainText m :=
    Reader.Accepts.of_isOk (by decide +kernel)
  have hclosed : BracesClosed ((terminalsOf damage).map Terminal.kind) := by decide +kernel
  obtain ⟨k, hk⟩ : ∃ k, Parse.classDecl.Accepts classText k :=
    Reader.Accepts.of_isOk (by decide +kernel)
  have ⟨hmain, hclasses, first, hfirst, hfaults⟩ :=
    parse_classes_after_damage hsource hm hclosed (.cons hk .nil) (by decide)
  exact ⟨m, k, first, hm, hk, hmain, hclasses, hfirst, hfaults⟩

end MiniJava
