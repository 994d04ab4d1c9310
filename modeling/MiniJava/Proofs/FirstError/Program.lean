import MiniJava.Proofs.FirstError.Declaration
import MiniJava.Proofs.Recovery.MainClass

/-!
# Two readings of programs that begin alike

Only after the classes of a program may its reading stop without having taken the token at the cut
and without an objection: that token is the mark of the end.
-/

namespace MiniJava.Parse

open Reader Reading

variable {ε : Type} [Failure ε] {k k' : Cut} {n : Nat} {c d : Cursor}

/-! ## The main class -/

theorem opens_expectMain : Opens expectMain [.mainName] := by
  refine ⟨fun c ⟨x, hx, hadmits⟩ => ?_, fun c h => expectMain_of_ne (h _ (.head _)),
    List.cons_ne_nil _ _⟩
  obtain rfl := List.mem_singleton.1 hx
  rw [expectMain_of_main hadmits]
  exact ⟨fun hk => (nomatch hk.symm.trans hadmits.1), .refl _, List.forall_mem_nil _⟩

theorem joint_expectMain (h : k.Places k' n c d) :
    (expectMain c).JointAny k k' (n + 1) (expectMain d) := by
  refine joint_of_opens opens_expectMain opens_expectMain h fun hn => ?_
  have hiff := Expectation.admits_congr (h.word_eq hn) (x := .mainName)
  by_cases hmain : Expectation.mainName.Admits c.current
  · rw [expectMain_of_main hmain, expectMain_of_main (hiff.1 hmain)]
    exact .together rfl rfl trivial rfl rfl (Nat.le_refl _) (h.drop_one hn)
  · rw [expectMain_of_ne hmain, expectMain_of_ne (hiff.not.1 hmain)]
    exact joint_failUnexpected h hn _

theorem joint_mainHead (h : k.Places k' n c d) : (mainHead c).JointAny k k' n (mainHead d) := by
  refine joint_expectName_bind h fun _ _ h' => ?_
  refine joint_expect_bind (by decide) h' fun _ _ h' => ?_
  refine joint_expect_bind (by decide) h' fun _ _ h' => ?_
  refine joint_expect_bind (by decide) h' fun _ _ h' => ?_
  refine joint_expect_bind (by decide) h' fun _ _ h' => ?_
  refine joint_bind (joint_expectMain h') fun _ _ i c' d' h' hle _ => ?_
  refine joint_expect_bind (by decide) h' fun _ _ h' => ?_
  refine joint_expect_bind (by decide) h' fun _ _ h' => ?_
  refine joint_expect_bind (by decide) h' fun _ _ h' => ?_
  refine joint_expect_bind (by decide) h' fun _ _ h' => ?_
  refine joint_expectName_bind h' fun _ _ h' => ?_
  refine joint_expect_bind (by decide) h' fun _ _ h' => ?_
  exact joint_pure h' (by omega) trivial

theorem exists_quiet_oneStatement (span : Span) (ss : List Stmt) (c : Cursor) :
    ∃ s, ((oneStatement span ss : Reader ε Stmt) c).Quiet c s := by
  unfold oneStatement
  split <;> exact ⟨_, rfl, rfl, rfl⟩

theorem joint_mainBody (start start' : Nat) (h : k.Places k' n c d) :
    ((mainBody start : Reader ε Stmt) c).JointAny k k' n (mainBody start' d) := by
  refine joint_bind_of_settled (joint_statements h)
    (fun hu ss c' hc' => settled_expectOrReport_bind hc' hu) False.elim
    fun ss ss' i c' d' h' hle _ => ?_
  refine joint_expectOrReport_bind (by decide) h' fun h' => ?_
  apply joint_spanFrom_bind
  intro s s'
  refine joint_expectOrReport_bind (by decide) h' fun h' => ?_
  obtain ⟨body, hbody⟩ := exists_quiet_oneStatement (ε := ε) s ss ((c'.drop 1).drop 1)
  obtain ⟨body', hbody'⟩ := exists_quiet_oneStatement (ε := ε) s' ss' ((d'.drop 1).drop 1)
  refine joint_quiet_bind hbody hbody' ?_
  refine joint_quiet_bind (quiet_reportRecurs _ _) (quiet_reportRecurs _ _) ?_
  exact joint_pure h' (by omega) trivial

theorem joint_mainClass (h : k.Places k' n c d) :
    (mainClass c).JointAny k k' n (mainClass d) := by
  refine joint_expect_bind (by decide) h fun _ _ h' => ?_
  refine joint_bind (joint_mainHead h') fun names names' i c' d' h' hle _ => ?_
  refine joint_expect_bind (by decide) h' fun brace brace' h' => ?_
  refine joint_bind (joint_mainBody _ _ h') fun body body' j c' d' h' hle' _ => ?_
  apply joint_spanFrom_bind
  intro s s'
  exact joint_pure h' (by omega) trivial

theorem joint_mainClassRecovering (h : k.Places k' n c d) :
    ((mainClassRecovering : Reader ε MainClass) c).JointAny k k' n (mainClassRecovering d) := by
  rw [mainClassRecovering, look_bind, look_bind]
  refine joint_rescue (fun fault d => ?_) (fun fault d => ?_) (joint_mainClass h) <;>
  · rw [here_bind]
    apply extends_recover

/-! ## Whole programs -/

theorem joint_otherClass (h : k.Places k' n c d) :
    (otherClass c).Joint k k' False False (n + 1) (Option.Rel fun _ _ => True) (otherClass d) := by
  refine joint_bind (joint_classDecl h) fun _ _ i c' d' h' hle _ => ?_
  exact joint_pure h' hle (.some trivial)

/-- What is expected where a class or the end may stand. -/
def topLevelStart : List Expectation := [.token .classKw, .token .endOfInput]

/-- Read a class with a reader; if it cannot be read, report that and skip to the next one. -/
def topLevelWith (read : Reader Fault (Option ClassDecl)) (origin : Cursor) :
    Reader ε (Option ClassDecl) :=
  rescue read fun fault => do
    recover .toplevel origin fault
    return none

omit [Failure ε] in
theorem topLevelItem_of_class (hk : c.current.kind = .classKw) :
    (topLevelItem : Reader ε (Option ClassDecl)) c = topLevelWith otherClass c c := by
  rw [topLevelItem, here_bind, if_pos hk]
  rfl

omit [Failure ε] in
theorem topLevelItem_of_not (hk : c.current.kind ≠ .classKw) :
    (topLevelItem : Reader ε (Option ClassDecl)) c =
      topLevelWith (failUnexpected topLevelStart) c c := by
  rw [topLevelItem, here_bind, if_neg hk]
  rfl

theorem answers_topLevelItem (hc : c.In k k.size) (ht : k.next.kind ≠ .endOfInput) :
    ((topLevelItem : Reader ε (Option ClassDecl)) c).Answers k topLevelStart none := by
  have hnext := congrArg Token.kind hc.current_at
  by_cases hk : k.next.kind = .classKw
  · refine ⟨fun _ => ?_, fun h => absurd (.inl hk) (h _ (.head _))⟩
    rw [topLevelItem_of_class (hnext.trans hk)]
    refine Meets.mono ?_ (extends_rescue (extends_recover .toplevel c _) c)
    refine Meets.mono ?_ (extends_bind _ _ c)
    exact meets_expect_bind (by decide) hc hk
  · refine ⟨fun h => ?_, fun _ => ?_⟩
    · simp [topLevelStart, Expectation.Admits, hk, ht] at h
    · rw [topLevelItem_of_not (hnext ▸ hk)]
      exact (meets_failUnexpected hc (List.cons_ne_nil _ _)).mono
        (extends_rescue (extends_recover .toplevel c _) c)

theorem joint_topLevelItem (h : k.Places k' n c d) (hc : c.current.kind ≠ .endOfInput)
    (hd : d.current.kind ≠ .endOfInput) :
    ((topLevelItem : Reader ε (Option ClassDecl)) c).Joint k k' False False (n + 1)
      (Option.Rel fun _ _ => True) (topLevelItem d) := by
  rcases h.left.lt_or_eq with hn | rfl
  · by_cases hk : c.current.kind = .classKw
    · rw [topLevelItem_of_class hk, topLevelItem_of_class (h.kind_eq hn ▸ hk)]
      exact joint_rescue (extends_recover .toplevel c _) (extends_recover .toplevel d _)
        (joint_otherClass h)
    · rw [topLevelItem_of_not hk, topLevelItem_of_not (h.kind_eq hn ▸ hk)]
      exact joint_rescue (extends_recover .toplevel c _) (extends_recover .toplevel d _)
        (joint_failUnexpected h hn _)
  · exact .of_answers (answers_topLevelItem h.left (h.left.current_at ▸ hc))
      (answers_topLevelItem h.right_at (h.right_at.current_at ▸ hd))

/-- The kind of token before which the classes end. -/
def endsProgram (kind : TokenKind) : Bool := kind = .endOfInput

theorem joint_program (h : k.Places k' n c d) :
    ((program : Reader ε Program) c).Joint k k' True True n (fun _ _ => True) (program d) := by
  rw [program, look_bind, look_bind]
  refine joint_bind (joint_mainClassRecovering h) fun main main' i c' d' h' hle _ => ?_
  have hitems : JointItems k k' i endsProgram True True (fun _ _ : ClassDecl => True)
      (fun _ : Unit => (topLevelItem : Reader ε (Option ClassDecl))) fun _ => topLevelItem :=
    ⟨fun _ n c d _ h hc hd => joint_topLevelItem h (of_decide_eq_false hc) (of_decide_eq_false hd),
      fun _ _ _ _ _ _ => .inl trivial, fun _ _ _ _ _ _ => .inl trivial⟩
  have hclasses : (withRoom (fun room => manyFrom atEnd
      (fun _ : Unit => (topLevelItem : Reader ε (Option ClassDecl))) (fun s _ => s) room ())
        c').Joint k k' True True i (List.Forall₂ fun _ _ => True)
        (withRoom (fun room => manyFrom atEnd (fun _ : Unit => topLevelItem) (fun s _ => s) room ())
          d') :=
    joint_withRoom (joint_manyFrom (fun _ => rfl) rfl (fun _ _ _ _ => rfl) hitems (Nat.le_refl i) h'
      (Nat.le_refl _) (Nat.le_refl _))
  refine joint_bind_of_settled hclasses (fun _ classes c' hc => settled_pure hc trivial)
    (fun _ classes d' hd => settled_pure hd trivial) fun classes classes' j c' d' h' hle' _ => ?_
  apply joint_spanFrom_bind
  intro s s'
  exact joint_pure h' (by omega) trivial

end MiniJava.Parse
