import MiniJava.Proofs.Expression.Sound
import MiniJava.Parsing.Statement

/-!
# What is read as statements

A reader of statements recovers from faults, so it always gives a tree. The tree is made as the
grammar asks except at its error nodes; and if no fault was noted, it has none and yields the tokens
that were taken.
-/

namespace MiniJava

/--
A tree with these nodes and this yield was read from `ys`, and `fs` are the faults that were noted.
If there are none, then the nodes are all that is asked of them.
-/
structure Faithful (Good : Node → Prop) (nodes : List Node) (yield ys : List Terminal)
    (fs : List Fault) : Prop where
  proper : ∀ n ∈ nodes, n.Proper
  yield_eq : fs = [] → ys = yield
  good : fs = [] → ∀ n ∈ nodes, Good n

namespace Faithful

variable {Good : Node → Prop} {ns ns' : List Node} {ys ys' zs zs' : List Terminal}
  {fs gs : List Fault}

theorem append (h : Faithful Good ns ys zs fs) (h' : Faithful Good ns' ys' zs' gs) :
    Faithful Good (ns ++ ns') (ys ++ ys') (zs ++ zs') (fs ++ gs) := by
  refine ⟨List.forall_mem_append.2 ⟨h.proper, h'.proper⟩, fun hnil => ?_, fun hnil => ?_⟩ <;>
    obtain ⟨hf, hg⟩ := List.append_eq_nil_iff.1 hnil
  · rw [h.yield_eq hf, h'.yield_eq hg]
  · exact List.forall_mem_append.2 ⟨h.good hf, h'.good hg⟩

theorem mono {Good' : Node → Prop} (h : Faithful Good ns ys zs fs)
    (hgood : fs = [] → ∀ n ∈ ns, Good n → Good' n) : Faithful Good' ns ys zs fs :=
  ⟨h.proper, h.yield_eq, fun hf n hn => hgood hf n hn (h.good hf n hn)⟩

/-- Where a fault was noted, only the making of the nodes counts. -/
theorem of_faulty (h : ∀ n ∈ ns, n.Proper) (hf : fs ≠ []) : Faithful Good ns ys zs fs :=
  ⟨h, fun hnil => absurd hnil hf, fun hnil => absurd hnil hf⟩

theorem of_legal (h : ∀ n ∈ ns, n.Legal) (hy : zs = ys) : Faithful Node.Legal ns ys zs [] :=
  ⟨fun n hn => (h n hn).toProper, fun _ => hy, fun _ => h⟩

theorem of_wellFormed (h : ∀ n ∈ ns, n.WellFormed) (hy : zs = ys) :
    Faithful Node.WellFormed ns ys zs [] :=
  ⟨fun n hn => (h n hn).toProper, fun _ => hy, fun _ => h⟩

theorem cons {n : Node} (h : Faithful Good ns ys zs fs) (hp : n.Proper) (hg : Good n) :
    Faithful Good (n :: ns) ys zs fs :=
  ⟨List.forall_mem_cons.2 ⟨hp, h.proper⟩, h.yield_eq,
    fun hf => List.forall_mem_cons.2 ⟨hg, h.good hf⟩⟩

theorem cons_legal {n : Node} (hn : n.Legal) (h : Faithful Node.Legal ns ys zs fs) :
    Faithful Node.Legal (n :: ns) ys zs fs :=
  h.cons hn.toProper hn

theorem cons_wellFormed {n : Node} (hn : n.WellFormed)
    (h : Faithful Node.WellFormed ns ys zs fs) : Faithful Node.WellFormed (n :: ns) ys zs fs :=
  h.cons hn.toProper hn

/-- Tokens that no node stands for. -/
theorem tokens (ys : List Terminal) : Faithful Good [] ys ys [] :=
  ⟨nofun, fun _ => rfl, fun _ => nofun⟩

/-- No node stands for the parentheses around a condition. -/
theorem condition {e : Expr} (he : e.Legal) :
    Faithful Node.Legal e.nodes (.word .leftParen :: (e.yield ++ [.word .rightParen]))
      (.word .leftParen :: (e.yield ++ [.word .rightParen])) [] :=
  .of_legal he rfl

end Faithful

/-- A node that bears no name, no value and no operand keeps to the grammar. -/
theorem Node.Legal.of_plain {n : Node} (hnames : n.names = []) (hrange : n.InRange)
    (hgrouped : n.Grouped) (herror : ¬ n.IsError) : n.Legal :=
  ⟨⟨by simp [Node.Named, hnames], hrange, hgrouped⟩, herror⟩

namespace Parse

open Reader Reading Terminal

variable {ε : Type} {inner : Reader Fault Stmt} {c : Cursor}

/-- What holds of a statement that was read. -/
def StatementRead : Post Stmt := fun ys s _ fs => Faithful Node.Legal s.nodes s.yield ys fs

/-- What holds of statements that were read. -/
def StatementsRead : Post (List Stmt) := fun ys ss _ fs =>
  Faithful Node.Legal (ss.flatMap Stmt.nodes) (ss.flatMap Stmt.yield) ys fs

/-! ## Statements without others inside -/

theorem ensures_assignmentTo (start : Nat) {name : String} (hname : IsName name) (c : Cursor) :
    (assignmentTo start name c).Ensures c fun ys s d fs =>
      StatementRead (.ident name :: ys) s d fs := by
  rw [assignmentTo, look_bind]
  generalize hk : c.current.kind = kind
  split
  next =>
    apply ensures_advance_word_bind hk rfl
    intro _
    apply ensures_bind (ensures_expression _)
    rintro ys e d fs - ⟨rfl, rfl, he⟩
    apply ensures_expect_bind rfl
    intro _ d' _
    rw [spanFrom_bind]
    refine ensures_pure (Faithful.of_legal ?_ rfl)
    exact List.forall_mem_cons.2
      ⟨⟨⟨List.forall_mem_singleton.2 hname, trivial, trivial⟩, id⟩, he⟩
  next =>
    apply ensures_advance_word_bind hk rfl
    intro _
    apply ensures_bind (ensures_expression _)
    rintro ys i d fs - ⟨rfl, rfl, hi⟩
    refine ensures_expect_bind rfl fun _ d _ => ensures_expect_bind rfl fun _ d _ => ?_
    apply ensures_bind (ensures_expression _)
    rintro ys e d fs - ⟨rfl, rfl, he⟩
    apply ensures_expect_bind rfl
    intro _ d' _
    rw [spanFrom_bind]
    refine ensures_pure (Faithful.of_legal ?_ rfl)
    exact List.forall_mem_cons.2 ⟨⟨⟨List.forall_mem_singleton.2 hname, trivial, trivial⟩, id⟩,
      List.forall_mem_append.2 ⟨hi, he⟩⟩
  next => exact ensures_failUnexpected _ _ _

theorem ensures_assignment (c : Cursor) : (assignment c).Ensures c StatementRead := by
  by_cases hk : c.current.kind = .identifier
  · rw [assignment, bind_apply_of_ok (expect_of_kind hk)]
    intro hc
    have hne : c.current.kind ≠ .endOfInput := by rw [hk]; nofun
    have hd := Cursor.reaches_drop_one hne
    rw [Token.terminal_ident hk] at hd
    have hname := (hc.current hne).named hk
    exact (ensures_assignmentTo c.current.span.start hname (c.drop 1)).after hd hc
  · rw [assignment, bind_apply_of_error (expect_of_ne hk)]
    exact ensures_fail _ c _

theorem ensures_printStatement (c : Cursor) : (printStatement c).Ensures c StatementRead := by
  refine ensures_expect_bind rfl fun _ d _ => ensures_bind (ensures_parenthesized d) ?_
  rintro ys e d fs - ⟨rfl, rfl, he⟩
  apply ensures_expect_bind rfl
  intro _ d' _
  rw [spanFrom_bind]
  refine ensures_pure (Faithful.of_legal ?_ (by simp [Stmt.yield]))
  exact List.forall_mem_cons.2 ⟨.of_plain rfl trivial trivial id, he⟩

theorem ensures_recur (c : Cursor) : (recur c).Ensures c fun ys r _ fs =>
    fs = [] ∧ ys = r.yield ∧ ∀ n ∈ r.nodes, n.Legal := by
  refine ensures_expect_bind rfl fun _ d _ => ensures_bind (ensures_parenthesized d) ?_
  rintro ys e d fs - ⟨rfl, rfl, he⟩
  refine ensures_expect_bind rfl fun _ d _ => ensures_expect_bind rfl fun _ d _ => ?_
  apply ensures_bind (ensures_arguments d)
  rintro ys es d fs - ⟨rfl, rfl, hes⟩
  refine ensures_expect_bind rfl fun _ d _ => ensures_expect_bind rfl fun _ d _ => ?_
  apply ensures_bind (ensures_expression d)
  rintro ys f d fs - ⟨rfl, rfl, hf⟩
  apply ensures_expect_bind rfl
  intro _ d _
  rw [spanFrom_bind]
  refine ensures_pure ⟨rfl, by simp [Recur.yield], ?_⟩
  refine List.forall_mem_cons.2 ⟨.of_plain rfl trivial trivial id, ?_⟩
  exact List.forall_mem_append.2 ⟨he, List.forall_mem_append.2
    ⟨List.forall_mem_flatMap.2 hes, hf⟩⟩

theorem ensures_recurStatement (c : Cursor) : (recurStatement c).Ensures c StatementRead := by
  apply ensures_bind (ensures_recur c)
  rintro ys r d fs - ⟨rfl, rfl, hr⟩
  refine ensures_pure (Faithful.of_legal ?_ (List.append_nil _))
  exact List.forall_mem_cons.2 ⟨.of_plain rfl trivial trivial id, hr⟩

/-! ## Recovery -/

theorem ensures_recover (region : Region) (origin : Cursor) (fault : Fault) (c : Cursor) :
    ((recover region origin fault : Reader ε Unit) c).Ensures c fun _ _ _ fs => fs ≠ [] := by
  refine ensures_bind (R := fun _ _ _ fs => fs = [fault]) (ensures_report rfl) ?_
  rintro _ _ d fs - rfl
  exact (ensures_resync region origin d).mono fun _ _ _ _ _ => nofun

/-- A token that is missing is reported, and else taken. -/
theorem ensures_expectOrReport (Good : Node → Prop) {kind : TokenKind}
    (hs : kind.spelling?.isSome) (c : Cursor) :
    ((expectOrReport kind : Reader ε Unit) c).Ensures c fun ys _ _ fs =>
      Faithful Good [] [word kind] ys fs := by
  have h := ensures_expectOrReport_bind (ε := ε) (c := c) (f := pure)
    (Q := fun ys _ _ fs => Faithful Good [] [word kind] ys fs) hs
    (fun d _ => ensures_pure (Faithful.tokens [word kind]))
    fun fault => ensures_pure (Faithful.of_faulty nofun nofun)
  rwa [bind_pure] at h

theorem proper_error (s : Span) : ∀ n ∈ (Stmt.error s).nodes, n.Proper :=
  List.forall_mem_singleton.2 ⟨nofun, trivial, trivial⟩

theorem ensures_recovering (h : ∀ d : Cursor, (inner d).Ensures d StatementRead) (c : Cursor) :
    ((recovering inner : Reader ε Stmt) c).Ensures c StatementRead := by
  rw [recovering, here_bind]
  apply ensures_rescue (h c)
  intro fault ys d fs _
  apply ensures_bind (ensures_recover .statements c fault d)
  intro zs _ d' gs _ hgs
  rw [spanFrom_bind]
  exact ensures_pure (Faithful.of_faulty (proper_error _) (by simp [hgs]))

theorem ensures_manyStatements (h : ∀ d : Cursor, (inner d).Ensures d StatementRead)
    (rounds : Nat) (c : Cursor) :
    ((manyUntil atListEnd (recovering inner) rounds : Reader ε (List Stmt)) c).Ensures c
      StatementsRead :=
  ensures_manyUntil (I := fun ys s fs => Faithful Node.Legal s.nodes s.yield ys fs)
    (J := fun ys ss fs => Faithful Node.Legal (ss.flatMap Stmt.nodes) (ss.flatMap Stmt.yield) ys fs)
    (.tokens []) (fun _ _ _ _ _ _ hs hss => by
      rw [List.flatMap_cons, List.flatMap_cons]
      exact hs.append hss) (ensures_recovering h) rounds c

/-! ## Statements with others inside -/

theorem ensures_blockOf (h : ∀ d : Cursor, (inner d).Ensures d StatementRead) (room : Nat)
    (hk : c.current.kind = .leftBrace) : (blockOf inner room c).Ensures c StatementRead := by
  apply ensures_advance_word_bind hk rfl
  intro _
  apply ensures_bind (ensures_manyStatements h room _)
  rintro ys ss d fs - hss
  apply ensures_expect_bind rfl
  intro _ _ _
  rw [spanFrom_bind]
  have hall := (Faithful.tokens [word .leftBrace]).append (hss.append (.tokens [word .rightBrace]))
  refine ensures_pure (Faithful.cons_legal (.of_plain rfl trivial trivial id) ?_)
  simpa [Stmt.yield, Stmt.nodesList_eq, Stmt.yieldList_eq] using hall

theorem ensures_missingElse (c : Cursor) : (missingElse c).Ensures c fun ys s _ fs =>
    Faithful Node.Legal s.nodes (word .elseKw :: s.yield) ys fs := by
  rw [missingElse, look_bind]
  refine ensures_bind (R := fun _ _ _ fs => fs ≠ []) (ensures_report (by simp)) ?_
  intro _ _ d fs _ hfs
  exact ensures_pure (Faithful.of_faulty (proper_error _) (by simp [hfs]))

theorem ensures_elseBranchOf (h : ∀ d : Cursor, (inner d).Ensures d StatementRead) (c : Cursor) :
    (elseBranchOf inner c).Ensures c fun ys s _ fs =>
      Faithful Node.Legal s.nodes (word .elseKw :: s.yield) ys fs := by
  refine ensures_eat_bind rfl (fun d _ => (h d).mono fun ys s d' fs hs => ?_) fun _ => ?_
  · exact (Faithful.tokens [word .elseKw]).append hs
  · exact ensures_missingElse c

theorem ensures_ifElseOf (h : ∀ d : Cursor, (inner d).Ensures d StatementRead)
    (hk : c.current.kind = .ifKw) : (ifElseOf inner c).Ensures c StatementRead := by
  refine ensures_advance_word_bind hk rfl fun _ => ensures_bind (ensures_parenthesized _) ?_
  rintro ys e d fs - ⟨rfl, rfl, he⟩
  apply ensures_bind (h d)
  intro ys s d' fs _ hs
  apply ensures_bind (ensures_elseBranchOf h d')
  intro zs t d'' gs _ ht
  rw [spanFrom_bind]
  have hcond := Faithful.condition he
  have hall := (Faithful.tokens [word .ifKw]).append (hcond.append (hs.append ht))
  refine ensures_pure (Faithful.cons_legal (.of_plain rfl trivial trivial id) ?_)
  simpa [Stmt.yield] using hall

theorem ensures_whileLoopOf (h : ∀ d : Cursor, (inner d).Ensures d StatementRead)
    (hk : c.current.kind = .whileKw) : (whileLoopOf inner c).Ensures c StatementRead := by
  refine ensures_advance_word_bind hk rfl fun _ => ensures_bind (ensures_parenthesized _) ?_
  rintro ys e d fs - ⟨rfl, rfl, he⟩
  apply ensures_bind (h d)
  intro ys s d' fs _ hs
  rw [spanFrom_bind]
  have hcond := Faithful.condition he
  have hall := (Faithful.tokens [word .whileKw]).append (hcond.append hs)
  refine ensures_pure (Faithful.cons_legal (.of_plain rfl trivial trivial id) ?_)
  simpa [Stmt.yield] using hall

theorem ensures_statementOf (h : ∀ d : Cursor, (inner d).Ensures d StatementRead) (room : Nat)
    (c : Cursor) : (statementOf inner room c).Ensures c StatementRead := by
  rw [statementOf, look_bind]
  generalize hk : c.current.kind = kind
  split
  next => exact ensures_blockOf h room hk
  next => exact ensures_ifElseOf h hk
  next => exact ensures_whileLoopOf h hk
  next => exact ensures_printStatement c
  next => exact ensures_assignment c
  next => exact ensures_recurStatement c
  next => exact ensures_failUnexpected _ _ _

theorem ensures_statementWithin (room : Nat) (c : Cursor) :
    (statementWithin room c).Ensures c StatementRead := by
  induction room generalizing c with
  | zero => exact ensures_statementOf (fun d => ensures_outOfRoom _ d _) 0 c
  | succ room ih => exact ensures_statementOf ih room c

theorem ensures_statement (c : Cursor) : (statement c).Ensures c StatementRead :=
  ensures_statementWithin c.room c

theorem ensures_statements (c : Cursor) :
    ((statements : Reader ε (List Stmt)) c).Ensures c StatementsRead :=
  ensures_manyStatements ensures_statement c.room c

/-- What is reported of statements that are a `recur`. -/
def misplacedRecurs (rs : List Recur) : List Fault :=
  rs.map fun r => .misplaced .recurEndsMethod r.span

theorem ensures_reportRecurs (rs : List Recur) (c : Cursor) :
    ((reportRecurs rs : Reader ε Unit) c).Ensures c fun ys _ d fs =>
      ys = [] ∧ d = c ∧ fs = misplacedRecurs rs := by
  refine ensures_noteAll ⟨rfl, rfl, ?_⟩
  simp [misplacedRecurs, Entry.fault?, List.filterMap_map, Function.comp_def]

end Parse

end MiniJava
