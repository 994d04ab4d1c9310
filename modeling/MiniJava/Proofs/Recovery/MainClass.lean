import MiniJava.Proofs.Grammar.Kinds
import MiniJava.Proofs.Recovery.Classes

/-!
# A faulty head of the main class

If the main class breaks off in its head, its tokens are skipped, and the classes behind it are
read. But where the head is cut short, so that it is the keyword of the first of these classes that
should not be there, skipping starts with this keyword, and the class is lost.
-/

namespace MiniJava

variable {ε α β : Type}

/-- Ahead of `d` lies what lies ahead of `c`, with no keyword of a class in it, and then `more`. -/
structure Cursor.Extended (more : List Terminal) (c d : Cursor) : Prop where
  regular : c.Regular
  sees : d.Sees (c.terminals ++ more)
  noClass : ∀ t ∈ c.ahead, t.kind ≠ .classKw

namespace Cursor.Extended

variable {more : List Terminal} {c d : Cursor} {kind : TokenKind}

theorem sees_cons (h : c.Extended more d) (hk : c.current.kind ≠ .endOfInput) :
    d.Sees (c.current.terminal :: ((c.drop 1).terminals ++ more)) := by
  have hahead := (Cursor.reaches_drop_one hk).terminals_eq
  have hd := h.sees
  rwa [hahead, List.append_assoc] at hd

theorem terminal_current (h : c.Extended more d) (hk : c.current.kind ≠ .endOfInput) :
    d.current.terminal = c.current.terminal :=
  (h.sees_cons hk).terminal_current

theorem kind_current (h : c.Extended more d) (hk : c.current.kind = kind)
    (hend : kind ≠ .endOfInput) : d.current.kind = kind :=
  hk ▸ congrArg Terminal.kind (h.terminal_current (hk ▸ hend))

theorem drop_one (h : c.Extended more d) (hk : c.current.kind ≠ .endOfInput) :
    (c.drop 1).Extended more (d.drop 1) :=
  ⟨(Cursor.reaches_drop_one hk).regular h.regular, (h.sees_cons hk).drop_one,
    fun t ht => h.noClass t (List.mem_of_mem_drop (c.ahead_drop 1 ▸ ht))⟩

/-- A token that is not as it should be stays so if a class follows. -/
theorem current_ne (h : c.Extended more d) (hmore : Terminal.headKind more = .classKw)
    (hkind : kind ≠ .classKw) (hk : c.current.kind ≠ kind) : d.current.kind ≠ kind := by
  by_cases hend : c.current.kind = .endOfInput
  · have hd := h.sees
    rw [Cursor.terminals, h.regular.ahead_eq_nil hend, List.map_nil, List.nil_append] at hd
    rw [hd.kind_current_eq, hmore]
    exact hkind.symm
  · rwa [h.kind_current rfl hend]

end Cursor.Extended

/-- If the first reading fails, so does the second, with `more` behind what it leaves. -/
def Reading.FailsAlike (more : List Terminal) (r : Reading Fault α) (s : Reading Fault β) : Prop :=
  ∀ e, r.outcome = .error e → ∃ f d, s = ⟨.error f, d, []⟩ ∧ r.cursor.Extended more d

namespace Reader

open Reading

variable {more : List Terminal} {c d : Cursor} {kind : TokenKind}

theorem failsAlike_of_isOk {r : Reading Fault α} (s : Reading Fault β)
    (h : ∃ a, r.outcome = .ok a) : r.FailsAlike more s := by
  obtain ⟨a, ha⟩ := h
  intro e he
  rw [ha] at he
  cases he

/-- Both take the next token. -/
theorem failsAlike_bind_of_ok {p : Reader Fault α} {q : Reader Fault β} {γ δ : Type}
    {f : α → Reader Fault γ} {g : β → Reader Fault δ} {a : α} {b : β} {c' d' : Cursor}
    (hp : p c = ⟨.ok a, c', []⟩) (hq : q d = ⟨.ok b, d', []⟩)
    (h : (f a c').FailsAlike more (g b d')) :
    ((p >>= f) c).FailsAlike more ((q >>= g) d) := by
  rw [bind_apply_of_ok hp, bind_apply_of_ok hq]
  intro e he
  obtain ⟨fault, d'', hs, hext⟩ := h e he
  exact ⟨fault, d'', by rw [hs]; rfl, hext⟩

section

variable (hmore : Terminal.headKind more = .classKw) (h : c.Extended more d)

include hmore h

theorem failsAlike_expect_bind {f : Token → Reader Fault α} {g : Token → Reader Fault β}
    (hclass : kind ≠ .classKw) (hend : kind ≠ .endOfInput)
    (hf : ∀ t u c' d', c'.Extended more d' → (f t c').FailsAlike more (g u d')) :
    ((expect kind >>= f) c).FailsAlike more ((expect kind >>= g) d) := by
  -- where the one fails the other does, since no class is expected in the head
  by_cases hk : c.current.kind = kind
  · have hext := h.drop_one (hk ▸ hend)
    exact failsAlike_bind_of_ok (expect_of_kind hk) (expect_of_kind (h.kind_current hk hend))
      (hf _ _ _ _ hext)
  · rw [bind_apply_of_error (expect_of_ne hk),
      bind_apply_of_error (expect_of_ne (h.current_ne hmore hclass hk))]
    exact fun _ _ => ⟨_, _, rfl, h⟩

theorem failsAlike_expectName_bind {f : String → Reader Fault α} {g : String → Reader Fault β}
    (hf : ∀ m n c' d', c'.Extended more d' → (f m c').FailsAlike more (g n d')) :
    ((expectName >>= f) c).FailsAlike more ((expectName >>= g) d) := by
  rw [expectName, bind_assoc, bind_assoc]
  apply failsAlike_expect_bind hmore h (by decide) (by decide)
  intro t u c' d' h'
  rw [pure_bind, pure_bind]
  exact hf _ _ _ _ h'

end

end Reader

namespace Parse

open Reader Reading Terminal

variable {more : List Terminal} {c d : Cursor}

/-! ## The head of the main class -/

theorem expectMain_of_main (h : c.current.kind = .identifier ∧ c.current.lexeme = "main") :
    expectMain c = ⟨.ok c.current, c.drop 1, []⟩ := by
  rw [expectMain, look_bind, if_pos h]
  rfl

theorem expectMain_of_ne (h : ¬ (c.current.kind = .identifier ∧ c.current.lexeme = "main")) :
    expectMain c = ⟨.error (.unexpected c.current [.mainName] none), c, []⟩ := by
  rw [expectMain, look_bind, if_neg h]
  rfl

theorem failsAlike_expectMain_bind {f : Token → Reader Fault α} {g : Token → Reader Fault β}
    (hmore : headKind more = .classKw) (h : c.Extended more d)
    (hf : ∀ t u c' d', c'.Extended more d' → (f t c').FailsAlike more (g u d')) :
    ((expectMain >>= f) c).FailsAlike more ((expectMain >>= g) d) := by
  by_cases hk : c.current.kind = .identifier
  · have hk' := h.kind_current hk (by simp)
    have hend : c.current.kind ≠ .endOfInput := by simp [hk]
    have hlexeme : d.current.lexeme = c.current.lexeme := by
      have hword := h.terminal_current hend
      rw [Token.terminal_ident hk, Token.terminal_ident hk'] at hword
      simpa [ident] using hword
    by_cases hl : c.current.lexeme = "main"
    · have hd := expectMain_of_main ⟨hk', hlexeme.trans hl⟩
      exact failsAlike_bind_of_ok (expectMain_of_main ⟨hk, hl⟩) hd (hf _ _ _ _ (h.drop_one hend))
    · rw [bind_apply_of_error (expectMain_of_ne fun hmain => hl hmain.2),
        bind_apply_of_error (expectMain_of_ne fun hmain => hl (hlexeme ▸ hmain.2))]
      exact fun _ _ => ⟨_, _, rfl, h⟩
  · have hk' : d.current.kind ≠ .identifier := h.current_ne hmore (by decide) hk
    rw [bind_apply_of_error (expectMain_of_ne fun hmain => hk hmain.1),
      bind_apply_of_error (expectMain_of_ne fun hmain => hk' hmain.1)]
    exact fun _ _ => ⟨_, _, rfl, h⟩

theorem failsAlike_mainHead_bind {f g : String × String → Reader Fault α}
    (hmore : headKind more = .classKw) (h : c.Extended more d)
    (hf : ∀ m n c' d', c'.Extended more d' → (f m c').FailsAlike more (g n d')) :
    ((mainHead >>= f) c).FailsAlike more ((mainHead >>= g) d) := by
  simp only [mainHead, bind_assoc, pure_bind]
  apply failsAlike_expectName_bind hmore h
  intro name name' c d h
  apply failsAlike_expect_bind hmore h (by decide) (by decide)
  intro _ _ c d h
  apply failsAlike_expect_bind hmore h (by decide) (by decide)
  intro _ _ c d h
  apply failsAlike_expect_bind hmore h (by decide) (by decide)
  intro _ _ c d h
  apply failsAlike_expect_bind hmore h (by decide) (by decide)
  intro _ _ c d h
  apply failsAlike_expectMain_bind hmore h
  intro _ _ c d h
  apply failsAlike_expect_bind hmore h (by decide) (by decide)
  intro _ _ c d h
  apply failsAlike_expect_bind hmore h (by decide) (by decide)
  intro _ _ c d h
  apply failsAlike_expect_bind hmore h (by decide) (by decide)
  intro _ _ c d h
  apply failsAlike_expect_bind hmore h (by decide) (by decide)
  intro _ _ c d h
  apply failsAlike_expectName_bind hmore h
  intro args args' c d h
  apply failsAlike_expect_bind hmore h (by decide) (by decide)
  intro _ _ c d h
  exact hf _ _ _ _ h

/-- Nothing makes the body of the main method fail. -/
theorem exists_outcome_mainBody {c : Cursor} (hc : c.Regular) (start : Nat) :
    ∃ s, ((mainBody start : Reader ε Stmt) c).outcome = .ok s := by
  have htwin : ((mainBody start : Reader ε Stmt) c).Parallel _ (fun _ _ => False) _
      (mainBody start c) := parallel_mainBody rfl hc.twin
  exact htwin.exists_outcome

theorem failsAlike_mainClass (hmore : headKind more = .classKw) (hc : c.current.kind = .classKw)
    (hd : d.current.kind = .classKw) (h : (c.drop 1).Extended more (d.drop 1)) :
    (mainClass c).FailsAlike more (mainClass d) := by
  apply failsAlike_bind_of_ok (expect_of_kind hc) (expect_of_kind hd)
  apply failsAlike_mainHead_bind hmore h
  intro names names' c d h
  apply failsAlike_expect_bind hmore h (by decide) (by decide)
  intro brace brace' c d h
  apply failsAlike_of_isOk
  obtain ⟨s, hs⟩ := exists_outcome_mainBody (ε := Fault) h.regular brace.span.start
  rcases hr : mainBody brace.span.start c with ⟨e | s', c', journal⟩
  · rw [hr] at hs
    cases hs
  · rw [bind_apply_of_ok hr]
    exact ⟨_, rfl⟩

/-! ## Skipping to a class -/

/-- Skipping stops at the first keyword of a class, or at the end. -/
theorem skipToClass_before {ts us : List Token} (hts : ∀ t ∈ ts, t.kind ≠ .classKw)
    (hus : us = [] ∨ ∃ u us', us = u :: us' ∧ u.kind = .classKw) :
    Region.skipToClass true (ts ++ us) = ts.length := by
  induction ts with
  | nil =>
    obtain rfl | ⟨u, us', rfl, hu⟩ := hus
    · rfl
    · simp [Region.skipToClass, hu]
  | cons t ts ih =>
    obtain ⟨ht, hts⟩ := List.forall_mem_cons.1 hts
    simp [Region.skipToClass, ht, ih hts]

/-- The first token is skipped in any case, and after it those that start no class. -/
theorem sees_drop_skipToClass {y : Terminal} {ys : List Terminal} {ks : List ClassDecl}
    (hys : ∀ z ∈ ys, z.kind ≠ .classKw)
    (hd : d.Sees (y :: (ys ++ ks.flatMap ClassDecl.yield))) :
    (d.drop (Region.skipToClass false d.ahead)).Sees (ks.flatMap ClassDecl.yield) := by
  obtain ⟨t, rest, hahead, -, hrest⟩ := List.map_eq_cons_iff.1 hd.terminals_eq
  obtain ⟨ts, us, rfl, hts, hus⟩ := List.map_eq_append_iff.1 hrest
  have hclass : us = [] ∨ ∃ u us', us = u :: us' ∧ u.kind = .classKw := by
    cases ks with
    | nil => exact .inl (List.map_eq_nil_iff.1 hus)
    | cons k ks =>
      obtain ⟨u, us', rfl, hu, -⟩ := List.map_eq_cons_iff.1 hus
      exact .inr ⟨u, us', rfl, congrArg Terminal.kind hu⟩
  have hkinds : ∀ u ∈ ts, u.kind ≠ .classKw := fun u hu =>
    hys u.terminal (hts ▸ List.mem_map_of_mem hu)
  refine ⟨?_⟩
  simp [Cursor.terminals, hahead, Region.skipToClass, skipToClass_before hkinds hclass, hus]

/--
After a faulty head, skipping takes the rest of the head. If nothing is left of it, the first class
is taken in its place.
-/
theorem succeeds_mainClassRecovering_of_fails {fault : Fault} {c' d' : Cursor} {k : ClassDecl}
    {ks : List ClassDecl} (hd : mainClass d = ⟨.error fault, d', []⟩)
    (h : c'.Extended ((k :: ks).flatMap ClassDecl.yield) d') :
    ((mainClassRecovering : Reader ε MainClass) d).Succeeds fun m d'' fs =>
      m.body = .error m.span ∧ fs = [fault] ∧
        d''.Sees ((if c'.ahead = [] then ks else k :: ks).flatMap ClassDecl.yield) := by
  have hsees := h.sees
  have hskip : (d'.drop (Region.skipToClass false d'.ahead)).Sees
      ((if c'.ahead = [] then ks else k :: ks).flatMap ClassDecl.yield) := by
    split
    next hnil =>
      rw [Cursor.terminals, hnil, List.map_nil, List.nil_append, List.flatMap_cons,
        k.yield_eq, List.cons_append] at hsees
      exact sees_drop_skipToClass (fun z hz => k.kind_ne_of_mem_yieldTail hz) hsees
    next hmore =>
      obtain ⟨t, ts, hahead⟩ := List.exists_cons_of_ne_nil hmore
      rw [Cursor.terminals, hahead, List.map_cons, List.cons_append] at hsees
      apply sees_drop_skipToClass _ hsees
      rintro _ hz
      obtain ⟨u, hu, rfl⟩ := List.mem_map.1 hz
      exact h.noClass u (hahead ▸ List.mem_cons_of_mem t hu)
  have hmoved : decide (d'.pos < d'.pos) = false := decide_eq_false (Nat.lt_irrefl _)
  rw [mainClassRecovering, look_bind, rescue_apply_of_error hd]
  refine ⟨_, rfl, rfl, rfl, ?_⟩
  rw [← hmoved] at hskip
  exact hskip

/-- A program whose main class breaks off in its head. -/
theorem succeeds_program_of_faulty_head {c : Cursor} {head : List Terminal} {k : ClassDecl}
    {ks : List ClassDecl} (hc : c.Regular)
    (hhead : c.terminals = word .classKw :: head) (hnone : ∀ y ∈ head, y.kind ≠ .classKw)
    (hsource : d.terminals = c.terminals ++ (k :: ks).flatMap ClassDecl.yield)
    (hfails : (mainClass c).outcome.isOk = false)
    (hks : ∀ k' ∈ k :: ks, ∀ n ∈ k'.nodes, n.WellFormed) :
    ((program : Reader ε Program) d).Succeeds fun p _ fs =>
      p.main.body = .error p.main.span ∧
      p.classes.map ClassDecl.withoutSpans =
        (if (mainClass c).cursor.ahead = [] then ks else k :: ks).map ClassDecl.withoutSpans ∧
      ∃ fault, fs = [fault] := by
  have hc' : c.Sees (word .classKw :: head) := ⟨hhead⟩
  have hd' : d.Sees (word .classKw :: (head ++ (k :: ks).flatMap ClassDecl.yield)) :=
    ⟨by rw [hsource, hhead, List.cons_append]⟩
  have hext : (c.drop 1).Extended ((k :: ks).flatMap ClassDecl.yield) (d.drop 1) := by
    refine ⟨(c.reaches_drop 1).regular hc, ?_, fun t ht => ?_⟩
    · rw [hc'.drop_one.terminals_eq]
      exact hd'.drop_one
    · apply hnone t.terminal
      rw [← hc'.drop_one.terminals_eq]
      exact List.mem_map_of_mem ht
  obtain ⟨e, he⟩ : ∃ e, (mainClass c).outcome = .error e := by
    cases h : (mainClass c).outcome with
    | error e => exact ⟨e, rfl⟩
    | ok m =>
      rw [h] at hfails
      cases hfails
  obtain ⟨e', d', hd'', hext'⟩ :=
    failsAlike_mainClass rfl hc'.kind_current hd'.kind_current hext e he
  rw [program, look_bind]
  apply succeeds_bind (succeeds_mainClassRecovering_of_fails hd'' hext')
  rintro m d fs ⟨hm, rfl, hsees⟩
  have hkept : ∀ k' ∈ if (mainClass c).cursor.ahead = [] then ks else k :: ks,
      ∀ n ∈ k'.nodes, n.WellFormed := by
    split
    · exact (List.forall_mem_cons.1 hks).2
    · exact hks
  have hreadable := fun k' hk' n hn => (hkept k' hk' n hn).readable
  have hroom := d.length_le_room
  apply succeeds_bind (succeeds_classes hreadable hsees hroom)
  rintro ks' d fs ⟨hsame, rfl, -⟩
  rw [spanFrom_bind]
  rw [misplacedRecurs_classes_eq_nil hkept hsame]
  exact succeeds_pure ⟨hm, hsame, e', rfl⟩

end Parse

/--
Where the main class breaks off in its head, one fault of grammar is reported, and an error stands
for the main class. The classes behind it are read as they would be by themselves; but the first of
them is lost if nothing is wrong with the head but that it ends too soon.
-/
theorem parse_classes_after_faulty_head {source headText : String} {head : List Terminal}
    {texts : List String} {ks : List ClassDecl}
    (hsource : terminalsOf source = terminalsOf headText ++ texts.flatMap terminalsOf)
    (hhead : terminalsOf headText = .word .classKw :: head)
    (hnone : ∀ y ∈ head, y.kind ≠ .classKw)
    (hfails : (Parse.mainClass (startOf headText)).outcome.isOk = false)
    (hclasses : List.Forall₂ (fun text k => Parse.classDecl.Accepts text k) texts ks)
    (hsome : texts ≠ []) :
    (∃ span, (parse source).tree.main.body = .error span) ∧
    (parse source).tree.classes.map ClassDecl.withoutSpans =
      (if (Parse.mainClass (startOf headText)).cursor.ahead = [] then ks.tail else ks).map
        ClassDecl.withoutSpans ∧
    (syntacticOf (parse source)).length = 1 := by
  obtain ⟨hyield, hks⟩ := Parse.yield_of_accepts hclasses
  obtain ⟨k, ks', rfl⟩ : ∃ k ks', ks = k :: ks' := by
    cases hclasses with
    | nil => exact absurd rfl hsome
    | cons => exact ⟨_, _, rfl⟩
  rw [hyield] at hsource
  rw [← (startOf_sees source).terminals_eq, ← (startOf_sees headText).terminals_eq] at hsource
  rw [← (startOf_sees headText).terminals_eq] at hhead
  have hprogram := Parse.succeeds_program_of_faulty_head (ε := Empty) (startOf_regular headText)
    hhead hnone hsource hfails hks
  obtain ⟨-, hmain, hsame, fault, hfault⟩ := tree_parse_of_succeeds hprogram
  refine ⟨⟨_, hmain⟩, hsame, ?_⟩
  rw [parse, syntacticOf_analyze, hfault]
  exact List.length_mergeSort _

/-- A keyword is missing in the middle of the head, and both classes behind it are read. -/
theorem parse_classes_after_faulty_head_without_static :
    let headText := "class M \x7b public void main(String[] a) \x7b"
    let first := "class A \x7b int x; \x7d"
    let second := "class B extends A \x7b \x7d"
    let source := headText ++ " " ++ first ++ " " ++ second
    ∃ k k', Parse.classDecl.Accepts first k ∧ Parse.classDecl.Accepts second k' ∧
      (Parse.mainClass (startOf headText)).outcome.isOk = false ∧
      (∃ span, (parse source).tree.main.body = .error span) ∧
      (parse source).tree.classes.map ClassDecl.withoutSpans =
        [k.withoutSpans, k'.withoutSpans] ∧
      (syntacticOf (parse source)).length = 1 := by
  intro headText first second source
  have hsource : terminalsOf source =
      terminalsOf headText ++ [first, second].flatMap terminalsOf := by
    decide +kernel
  have hhead : terminalsOf headText = .word .classKw :: (terminalsOf headText).tail := by
    decide +kernel
  have hnone : ∀ y ∈ (terminalsOf headText).tail, y.kind ≠ .classKw := by decide +kernel
  have hfails : (Parse.mainClass (startOf headText)).outcome.isOk = false := by decide +kernel
  have hmore : (Parse.mainClass (startOf headText)).cursor.ahead ≠ [] := by decide +kernel
  obtain ⟨k, hk⟩ : ∃ k, Parse.classDecl.Accepts first k :=
    Reader.Accepts.of_isOk (by decide +kernel)
  obtain ⟨k', hk'⟩ : ∃ k', Parse.classDecl.Accepts second k' :=
    Reader.Accepts.of_isOk (by decide +kernel)
  have ⟨hmain, hclasses, hcount⟩ := parse_classes_after_faulty_head hsource hhead hnone hfails
    (.cons hk (.cons hk' .nil)) (by decide)
  rw [if_neg hmore] at hclasses
  exact ⟨k, k', hk, hk', hfails, hmain, hclasses, hcount⟩

/-- The head is cut short after its keyword, and the class behind it is lost. -/
theorem class_lost_after_short_head :
    let headText := "class"
    let classText := "class A \x7b \x7d"
    let source := headText ++ " " ++ classText
    terminalsOf source = terminalsOf headText ++ terminalsOf classText ∧
      (Parse.mainClass (startOf headText)).outcome.isOk = false ∧
      (∃ k, Parse.classDecl.Accepts classText k) ∧ (parse source).tree.classes = [] := by
  intro headText classText source
  have hclass : ∃ k, Parse.classDecl.Accepts classText k :=
    Reader.Accepts.of_isOk (by decide +kernel)
  have hnone : (parse source).tree.classes = [] :=
    List.isEmpty_iff.1 (by decide +kernel)
  exact ⟨by decide +kernel, by decide +kernel, hclass, hnone⟩

end MiniJava
