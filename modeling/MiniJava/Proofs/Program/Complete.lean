import MiniJava.Proofs.Declaration.Complete
import MiniJava.Proofs.Program.Sound

/-!
# Every program is read back

Where the yield of a program makes up the whole text, that program is read, and one fault is noted
for each `recur` statement in it.
-/

namespace MiniJava.Parse

open Reader Reading Terminal

variable {ε : Type} {c : Cursor} {rest : List Terminal}

/-! ## The main class -/

theorem succeeds_expectMain_bind {β : Type} {f : Token → Reader Fault β} {Q : Result β}
    (hc : c.Sees (.ident "main" :: rest)) (h : ∀ t d, d.Sees rest → (f t d).Succeeds Q) :
    ((expectMain >>= f) c).Succeeds Q := by
  have hk : c.current.kind = .identifier := hc.kind_current
  rw [expectMain, bind_assoc, look_bind, if_pos ⟨hk, hc.lexeme_current⟩]
  exact h _ _ hc.drop_one

theorem succeeds_mainHead {n a : String} (hc : c.Sees (MainClass.yieldHead n a ++ rest)) :
    (mainHead c).Succeeds fun names d fs => fs = [] ∧ names = (n, a) ∧ d.Sees rest := by
  refine succeeds_expectName_bind hc fun d hd => succeeds_expect_bind hd fun _ d hd => ?_
  refine succeeds_expect_bind hd fun _ d hd => succeeds_expect_bind hd fun _ d hd => ?_
  refine succeeds_expect_bind hd fun _ d hd => succeeds_expectMain_bind hd fun _ d hd => ?_
  refine succeeds_expect_bind hd fun _ d hd => succeeds_expect_bind hd fun _ d hd => ?_
  refine succeeds_expect_bind hd fun _ d hd => succeeds_expect_bind hd fun _ d hd => ?_
  refine succeeds_expectName_bind hd fun d hd => succeeds_expect_bind hd fun _ d hd => ?_
  exact succeeds_pure ⟨rfl, rfl, hd⟩

theorem succeeds_mainBody {s : Stmt} (hs : s.Readable) (start : Nat)
    (hc : c.Sees (s.yield ++ word .rightBrace :: word .rightBrace :: rest)) :
    ((mainBody start : Reader ε Stmt) c).Succeeds fun s' d fs =>
      s'.withoutSpans = s.withoutSpans ∧ fs = misplacedRecurs s'.recurs ∧ d.Sees rest := by
  have hstop : ∀ d : Cursor, d.Sees (word .rightBrace :: word .rightBrace :: rest) →
      atListEnd d = true := by
    intro d hd
    rw [atListEnd, hd.kind_current]
    rfl
  rw [← List.flatMap_singleton Stmt.yield s] at hc
  apply succeeds_bind (succeeds_statements (List.forall_mem_singleton.2 hs) hstop hc)
  rintro ss d fs ⟨rfl, hss, hd⟩
  obtain ⟨s', ss', rfl, hs', hnil⟩ := List.map_eq_cons_iff.1 hss
  obtain rfl : ss' = [] := List.map_eq_nil_iff.1 hnil
  apply succeeds_expectOrReport_bind hd
  intro d hd
  rw [spanFrom_bind]
  apply succeeds_expectOrReport_bind hd
  intro d hd
  rw [oneStatement, pure_bind]
  apply succeeds_bind (succeeds_reportRecurs _ d)
  rintro _ _ _ ⟨rfl, rfl⟩
  exact succeeds_pure ⟨hs', by simp, hd⟩

theorem succeeds_mainClass {m : MainClass} (hm : m.body.Readable) (hc : c.Sees (m.yield ++ rest)) :
    (mainClass c).Succeeds fun m' d fs =>
      m'.withoutSpans = m.withoutSpans ∧ fs = misplacedRecurs m'.body.recurs ∧ d.Sees rest := by
  simp only [MainClass.yield, List.cons_append, List.append_assoc, List.nil_append] at hc
  refine succeeds_expect_bind hc fun _ d hd => succeeds_bind (succeeds_mainHead hd) ?_
  rintro _ d fs ⟨rfl, rfl, hd⟩
  refine succeeds_expect_bind hd fun _ d hd => succeeds_bind (succeeds_mainBody hm _ hd) ?_
  rintro s d fs ⟨hs, rfl, hd⟩
  rw [spanFrom_bind]
  exact succeeds_pure ⟨by simp [MainClass.withoutSpans, hs], by simp, hd⟩

/-! ## Whole programs -/

theorem succeeds_topLevelItem {k : ClassDecl} (hk : ∀ n ∈ k.nodes, n.Readable)
    (hc : c.Sees (k.yield ++ rest)) :
    ((topLevelItem : Reader ε (Option ClassDecl)) c).Succeeds fun r d fs =>
      ∃ k', r = some k' ∧ k'.withoutSpans = k.withoutSpans ∧ fs = misplacedRecurs k'.recurs ∧
        d.Sees rest := by
  have hclass : c.current.kind = .classKw := hc.kind_current
  rw [topLevelItem, here_bind, if_pos hclass]
  refine succeeds_rescue (succeeds_bind (succeeds_classDecl hk hc) ?_)
  rintro k' d fs ⟨hk', rfl, hd⟩
  exact succeeds_pure ⟨k', rfl, hk', by simp, hd⟩

theorem succeeds_classes {ks : List ClassDecl} (hks : ∀ k ∈ ks, ∀ n ∈ k.nodes, n.Readable)
    (hc : c.Sees (ks.flatMap ClassDecl.yield)) {rounds : Nat} (hroom : c.ahead.length ≤ rounds) :
    ((manyFrom atEnd (fun _ : Unit => topLevelItem) (fun s _ => s) rounds () :
      Reader ε (List ClassDecl)) c).Succeeds fun ks' d fs =>
        ks'.map ClassDecl.withoutSpans = ks.map ClassDecl.withoutSpans ∧
        fs = ks'.flatMap (fun k => misplacedRecurs k.recurs) ∧ d.Sees [] := by
  have hrounds : ks.length ≤ rounds := by
    have hle := List.length_le_length_flatMap ClassDecl.yield ks (by simp [ClassDecl.yield])
    rw [hc.length_eq] at hroom
    exact Nat.le_trans hle hroom
  rw [← List.append_nil (ks.flatMap _)] at hc
  refine succeeds_manyFrom ClassDecl.withoutSpans ClassDecl.withoutSpans
    (fun k => misplacedRecurs k.recurs) (fun s _ => s) (fun _ ws => ws ⊆ ks)
    (fun _ w ws h => List.subset_of_cons_subset h) (fun _ _ _ _ => rfl) ?_ (fun d hd => ?_) hrounds
    (List.Subset.refl ks) hroom hc
  · intro _ k ws hws d zs hd _
    refine ⟨?_, succeeds_topLevelItem (hks k (hws List.mem_cons_self)) hd⟩
    rw [atEnd, hd.kind_current]
    rfl
  · rw [atEnd, hd.kind_current_eq]
    rfl

theorem succeeds_program {p : Program} (hp : ∀ n ∈ p.nodes, n.Readable) (hc : c.Sees p.yield) :
    ((program : Reader ε Program) c).Succeeds fun p' d fs =>
      p'.withoutSpans = p.withoutSpans ∧ fs = misplacedRecurs p'.recurs ∧ d.Sees [] := by
  obtain ⟨-, hp⟩ := List.forall_mem_cons.1 hp
  obtain ⟨hmain, hks⟩ := List.forall_mem_append.1 hp
  rw [program, look_bind]
  have hrecovering : ((mainClassRecovering : Reader ε MainClass) c).Succeeds fun m d fs =>
      m.withoutSpans = p.main.withoutSpans ∧ fs = misplacedRecurs m.body.recurs ∧
        d.Sees (p.classes.flatMap ClassDecl.yield) := by
    rw [mainClassRecovering, look_bind]
    exact succeeds_rescue (succeeds_mainClass hmain hc)
  apply succeeds_bind hrecovering
  rintro m d fs ⟨hm, rfl, hd⟩
  have hroom := d.length_le_room
  apply succeeds_bind (succeeds_classes (List.forall_mem_flatMap.1 hks) hd hroom)
  rintro ks d fs ⟨hks', rfl, hd⟩
  rw [spanFrom_bind]
  refine succeeds_pure ⟨by simp [Program.withoutSpans, hm, hks'], ?_, hd⟩
  simp [Program.recurs, misplacedRecurs, List.map_flatMap]

end MiniJava.Parse
