import MiniJava.Proofs.Parallel.Declaration
import MiniJava.Proofs.Program.Sound

/-!
# Two readings of programs

At top level the keyword of a class is what reading goes on with. Where no such keyword is a border,
two readings of whole programs correspond.
-/

namespace MiniJava.Parse

open Reader Reading

variable {ε : Type} {P : Pairing} {c d : Cursor} {E : ε → ε → Prop}

/-! ## The main class -/

theorem parallel_expectMain (h : P.Pairs c d) :
    (expectMain c).Parallel P (Fault.Twin P.Starts) (Token.Twin P.Starts) (expectMain d) := by
  rw [expectMain, look_bind, look_bind, ← P.kind_eq h, ← P.lexeme_eq h]
  split
  next hmain =>
    have hfree : P.Free c.ahead := P.free h (by simp [hmain.1])
    exact ⟨.ok (P.current h), P.drop_one h hfree, .nil⟩
  next => exact parallel_failUnexpected h _

theorem parallel_mainHead (h : P.Pairs c d) :
    (mainHead c).Parallel P (Fault.Twin P.Starts) Eq (mainHead d) := by
  apply parallel_expectName_bind h
  intro name c d h
  apply parallel_expect_bind h (by decide)
  intro _ _ c d h _
  apply parallel_expect_bind h (by decide)
  intro _ _ c d h _
  apply parallel_expect_bind h (by decide)
  intro _ _ c d h _
  apply parallel_expect_bind h (by decide)
  intro _ _ c d h _
  apply parallel_bind (parallel_expectMain h)
  intro _ _ c d h _
  apply parallel_expect_bind h (by decide)
  intro _ _ c d h _
  apply parallel_expect_bind h (by decide)
  intro _ _ c d h _
  apply parallel_expect_bind h (by decide)
  intro _ _ c d h _
  apply parallel_expect_bind h (by decide)
  intro _ _ c d h _
  apply parallel_expectName_bind h
  intro args c d h
  apply parallel_expect_bind h (by decide)
  intro _ _ c d h _
  exact parallel_pure h rfl

theorem parallel_oneStatement {span span' : Span} {ss ss' : List Stmt} (h : P.Pairs c d)
    (hspan : span.Twin P.Starts span') (hss : List.Forall₂ (Stmt.Twin P.Starts) ss ss') :
    ((oneStatement span ss : Reader ε Stmt) c).Parallel P E (Stmt.Twin P.Starts)
      (oneStatement span' ss' d) := by
  have hblock : (Stmt.block span ss).Twin P.Starts (.block span' ss') := by
    refine ⟨?_, Stmt.Twin.list_recurs hss, .none⟩
    simpa only [Stmt.withoutSpans, Stmt.block.injEq, true_and] using Stmt.Twin.list_tree hss
  have hreport : (((do report (.misplaced .oneMainStatement span); return Stmt.block span ss) :
      Reader ε Stmt) c).Parallel P E (Stmt.Twin P.Starts)
        ((do report (.misplaced .oneMainStatement span'); return Stmt.block span' ss') d) := by
    apply parallel_bind (parallel_report h (.misplaced hspan _))
    intro _ _ c' d' h' _
    exact parallel_pure h' hblock
  cases hss with
  | nil => exact hreport
  | cons hs hrest =>
    cases hrest with
    | nil => exact parallel_pure h hs
    | cons => exact hreport

theorem parallel_mainBody {start start' : Nat} (hstart : P.Starts start start')
    (h : P.Pairs c d) :
    ((mainBody start : Reader ε Stmt) c).Parallel P E (Stmt.Twin P.Starts) (mainBody start' d) := by
  apply parallel_bind (parallel_statements h)
  intro ss ss' c d h hss
  apply parallel_bind (parallel_expectOrReport h (by decide))
  intro _ _ c d h _
  apply parallel_spanFrom_bind
  intro s s' hs hs'
  have hspan : s.Twin P.Starts s' := by
    rw [Span.Twin, hs, hs']
    exact hstart
  apply parallel_bind (parallel_expectOrReport h (by decide))
  intro _ _ c d h _
  apply parallel_bind (parallel_oneStatement h hspan hss)
  intro body body' c d h hbody
  apply parallel_bind (parallel_reportRecurs h hbody.recurs)
  intro _ _ c d h _
  exact parallel_pure h hbody

theorem parallel_mainClass (h : P.Pairs c d) (hfree : P.Free c.ahead) :
    (mainClass c).Parallel P (Fault.Twin P.Starts)
      (fun m m' => m.withoutSpans = m'.withoutSpans) (mainClass d) := by
  apply parallel_bind (parallel_expect h fun _ => hfree)
  intro t u c d h _
  apply parallel_bind (parallel_mainHead h)
  rintro ⟨name, args⟩ _ c d h rfl
  apply parallel_expect_bind h (by decide)
  intro brace brace' c d h hbrace
  apply parallel_bind (parallel_mainBody hbrace.start h)
  intro body body' c d h hbody
  apply parallel_spanFrom_bind
  intro s s' _ _
  apply parallel_pure h
  simpa only [MainClass.withoutSpans, MainClass.mk.injEq, true_and] using hbody.tree

/-- Skipping after a faulty main class starts where reading failed, whatever stands there. -/
theorem parallel_mainClassRecovering (hfree : ∀ ts, P.Free ts) (h : P.Pairs c d) :
    ((mainClassRecovering : Reader ε MainClass) c).Parallel P E
      (fun m m' => m.withoutSpans = m'.withoutSpans) (mainClassRecovering d) := by
  rw [mainClassRecovering, look_bind, look_bind]
  apply parallel_rescue (parallel_mainClass h (hfree _))
  intro fault fault' hf h'
  rw [here_bind, here_bind]
  apply parallel_bind (parallel_recover .toplevel h' h' (fun _ => hfree _) hf)
  intro _ _ c d h _
  apply parallel_spanFrom_bind
  intro s s' _ _
  exact parallel_pure h rfl

/-! ## Whole programs -/

theorem parallel_otherClass (h : P.Pairs c d) (hfree : P.Free c.ahead) :
    (otherClass c).Parallel P (Fault.Twin P.Starts)
      (Option.Rel fun k k' => k.withoutSpans = k'.withoutSpans) (otherClass d) := by
  apply parallel_bind (parallel_classDecl h hfree)
  intro k k' c d h hk
  exact parallel_pure h (.some hk)

theorem ensures_otherClass (c : Cursor) : (otherClass c).Ensures c fun _ _ _ _ => True :=
  ensures_bind (ensures_classDecl c) fun _ _ _ _ _ _ => ensures_pure trivial

theorem parallel_topLevelItem (h : P.Pairs c d) (hfree : P.Free c.ahead) :
    ((topLevelItem : Reader ε (Option ClassDecl)) c).Parallel P E
      (Option.Rel fun k k' => k.withoutSpans = k'.withoutSpans) (topLevelItem d) := by
  rw [topLevelItem, here_bind, here_bind, ← P.kind_eq h]
  split
  · apply parallel_rescue_recover .toplevel h hfree (parallel_otherClass h hfree)
      (ensures_otherClass c)
    intro c' d' h'
    exact parallel_pure h' .none
  · apply parallel_rescue_recover .toplevel h hfree (parallel_failUnexpected h _)
      (ensures_failUnexpected _ c fun _ _ _ _ => True)
    intro c' d' h'
    exact parallel_pure h' .none

theorem parallel_program (hfree : ∀ ts, P.Free ts) (h : P.Pairs c d) :
    ((program : Reader ε Program) c).Parallel P E
      (fun p p' => p.withoutSpans = p'.withoutSpans) (program d) := by
  rw [program, look_bind, look_bind]
  apply parallel_bind (parallel_mainClassRecovering hfree h)
  intro m m' c d h hm
  have hclasses : (withRoom (fun room => manyFrom atEnd (fun _ : Unit => topLevelItem)
      (fun s _ => s) room ()) c : Reading ε (List ClassDecl)).Parallel P E
        (List.Forall₂ fun k k' => k.withoutSpans = k'.withoutSpans)
        (withRoom (fun room => manyFrom atEnd (fun _ : Unit => topLevelItem)
          (fun s _ => s) room ()) d) := by
    refine parallel_withRoom h (parallel_manyFrom ?_ (fun _ _ _ _ => rfl) ?_ _ _ h)
    · intro c d h
      rw [atEnd, atEnd, P.kind_eq h]
    · exact fun _ c d h _ => parallel_topLevelItem h (hfree _)
  apply parallel_bind hclasses
  intro ks ks' c d h hks
  apply parallel_spanFrom_bind
  intro s s' _ _
  apply parallel_pure h
  have htrees := List.map_eq_of_forall₂ (f := ClassDecl.withoutSpans) (fun _ _ h => h) hks
  simpa only [Program.withoutSpans, Program.mk.injEq, true_and] using ⟨hm, htrees⟩

end MiniJava.Parse
