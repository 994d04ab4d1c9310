import MiniJava.Proofs.Recovery.Clause
import MiniJava.Proofs.Recovery.Gap

/-!
# Clauses inserted into blocks

At a boundary between two statements of a block some tokens are inserted, with a semicolon at their
end. If they are an assignment, it is read as one more statement. If they are not, an error stands
in their place and one fault is reported, at one of them. The rest of the program is read as before.
-/

namespace MiniJava

open Terminal

/-- Whether tokens of this kind bound a clause, or open a statement or a declaration. -/
def TokenKind.isBoundary : TokenKind → Bool
  | leftBrace | rightBrace | semicolon | classKw | publicKw | ifKw | whileKw | printlnKw
  | returnKw | recurKw => true
  | _ => false

theorem Region.passes_of_isBoundary {kind : TokenKind} (h : kind.isBoundary = false) :
    Region.statements.Passes kind := by
  cases kind <;> simp [Region.Passes, Region.opensStatement, TokenKind.isBoundary] at h ⊢

/-- What is left of a clause is passed up to its end. -/
theorem Region.forall_passes {w₁ w₂ : List Token}
    (hw : ∀ t ∈ w₁ ++ w₂, t.kind.isBoundary = false) :
    ∀ t ∈ w₂, Region.statements.Passes t.kind := fun t ht =>
  passes_of_isBoundary (hw t (List.mem_append_right w₁ ht))

/-! ## Assignments -/

/-- The statement assigns to a variable or to an element of an array. -/
def Stmt.IsAssignment : Stmt → Prop
  | assign .. | assignElement .. => True
  | _ => False

/-- Some terminals are those of an assignment. -/
def SpellsAssignment (ys : List Terminal) : Prop :=
  ∃ s : Stmt, s.IsAssignment ∧ s.Readable ∧ s.yield = ys

/-- An assignment is a clause: its only semicolon is its last token. -/
theorem Stmt.IsAssignment.exists_yield_eq {s : Stmt} (h : s.IsAssignment) :
    ∃ xs, s.yield = xs ++ [word .semicolon] ∧ word .semicolon ∉ xs := by
  cases s with
  | assign span n e =>
    refine ⟨ident n :: word .assign :: e.yield, by simp [Stmt.yield], ?_⟩
    simpa [word, ident] using e.semicolon_notMem_yield
  | assignElement span n i e =>
    refine ⟨ident n :: word .leftBracket ::
      (i.yield ++ word .rightBracket :: word .assign :: e.yield), by simp [Stmt.yield], ?_⟩
    simpa [word, ident] using ⟨i.semicolon_notMem_yield, e.semicolon_notMem_yield⟩
  | _ => exact h.elim

theorem Stmt.IsAssignment.recurs_eq_nil {s : Stmt} (h : s.IsAssignment) : s.recurs = [] := by
  cases s with
  | assign | assignElement => rfl
  | _ => exact h.elim

/--
What is read where the tokens `w` and a semicolon were inserted, and where faults are reported: an
assignment of all these tokens, or an error over all of them and one fault at one of them.
-/
inductive ClauseReadAs (w : List Token) (semicolon : Token) : Stmt → List Span → Prop
  | assignment {s : Stmt} (hs : s.IsAssignment) (hread : s.Readable)
      (hyield : s.yield = (w ++ [semicolon]).map Token.terminal) : ClauseReadAs w semicolon s []
  | broken {t : Token} (ht : t ∈ w ++ [semicolon])
      (hnone : ¬ SpellsAssignment ((w ++ [semicolon]).map Token.terminal)) :
      ClauseReadAs w semicolon (.error ⟨(w.headD semicolon).span.start, semicolon.span.stop⟩)
        [t.span]

theorem ClauseReadAs.length_le {w : List Token} {semicolon : Token} {s : Stmt} {spans : List Span}
    (h : ClauseReadAs w semicolon s spans) : spans.length ≤ 1 := by
  cases h <;> simp

namespace Parse

open Reader Reading

variable {c : Cursor} {room : Nat} {w after : List Token} {semicolon : Token}

theorem ensures_assignmentTo_isAssignment (start : Nat) (name : String) (c : Cursor) :
    (assignmentTo start name c).Ensures c fun _ s _ fs => fs = [] ∧ s.IsAssignment := by
  rw [assignmentTo, look_bind]
  generalize hk : c.current.kind = kind
  split
  next =>
    apply ensures_advance_word_bind hk rfl
    intro _
    apply ensures_bind (ensures_expression _)
    rintro _ e d fs - ⟨rfl, -⟩
    apply ensures_expect_bind rfl
    intro _ d _
    rw [spanFrom_bind]
    exact ensures_pure ⟨rfl, trivial⟩
  next =>
    apply ensures_advance_word_bind hk rfl
    intro _
    apply ensures_bind (ensures_expression _)
    rintro _ i d fs - ⟨rfl, -⟩
    refine ensures_expect_bind rfl fun _ d _ => ensures_expect_bind rfl fun _ d _ => ?_
    apply ensures_bind (ensures_expression _)
    rintro _ e d fs - ⟨rfl, -⟩
    apply ensures_expect_bind rfl
    intro _ d _
    rw [spanFrom_bind]
    exact ensures_pure ⟨rfl, trivial⟩
  next => exact ensures_failUnexpected _ _ _

theorem ensures_assignment_isAssignment (hk : c.current.kind = .identifier) :
    (assignment c).Ensures c fun _ s _ fs => fs = [] ∧ s.IsAssignment := by
  intro hc
  have hd := Cursor.reaches_drop_one (by rw [hk]; nofun)
  rw [assignment, bind_apply_of_ok (expect_of_kind hk)]
  have hrest := ensures_assignmentTo_isAssignment c.current.span.start c.current.lexeme (c.drop 1)
  exact Ensures.after (Q := fun _ (s : Stmt) _ fs => fs = [] ∧ s.IsAssignment) hd hrest hc

/-- What starts with no boundary but a semicolon can only be read as an assignment. -/
theorem statementOf_of_clause {inner : Reader Fault Stmt} {n : Nat}
    (hk : c.current.kind.isBoundary = false ∨ c.current.kind = .semicolon) :
    (c.current.kind = .identifier ∧ statementOf inner n c = assignment c) ∨
      statementOf inner n c = (failUnexpected statementStart : Reader Fault Stmt) c := by
  rw [statementOf, look_bind]
  cases hkind : c.current.kind with
  | identifier => exact .inl ⟨rfl, rfl⟩
  | leftBrace | ifKw | whileKw | printlnKw | recurKw => simp [hkind, TokenKind.isBoundary] at hk
  | _ => exact .inr rfl

theorem kind_current_of_clause (hw : ∀ t ∈ w, t.kind.isBoundary = false)
    (hsemicolon : semicolon.kind = .semicolon) (hc : c.Spells [] (w ++ semicolon :: after)) :
    c.current.kind.isBoundary = false ∨ c.current.kind = .semicolon := by
  rw [hc.current_of_clause]
  cases w with
  | nil => exact .inr hsemicolon
  | cons t w => exact .inl (hw t List.mem_cons_self)

/-- A clause that is read without fault is an assignment, and reading goes on behind it. -/
theorem succeeds_clause {s : Stmt} (hw : ∀ t ∈ w, t.kind.isBoundary = false)
    (hsemicolon : semicolon.kind = .semicolon) (hc : c.Spells [] (w ++ semicolon :: after))
    (hk : c.current.kind = .identifier) (hs : (assignment c).outcome = .ok s) :
    (assignment c).Succeeds fun s d fs => fs = [] ∧ s.IsAssignment ∧ s.Readable ∧
      s.yield = (w ++ [semicolon]).map Token.terminal ∧ d.Sees (after.map Token.terminal) := by
  obtain ⟨ys, hreach, hensures⟩ :=
    (ensures_assignment c).and (ensures_assignment_isAssignment hk) hc.regular
  obtain ⟨hfaithful, hnone, hassign⟩ := hensures s hs
  obtain rfl := hfaithful.yield_eq hnone
  obtain ⟨xs, hxs, hno⟩ := hassign.exists_yield_eq
  have hplain : ∀ t ∈ w, t.kind ≠ .semicolon := fun t ht => TokenKind.ne_of_test (hw t ht) rfl
  rw [hxs] at hreach
  obtain ⟨hyield, hahead⟩ := hreach.eq_of_clause hno hc hplain hsemicolon rfl
  rw [← hxs] at hyield
  refine ⟨s, hs, hnone, hassign, fun n hn => (hfaithful.good hnone n hn).readable, hyield, ?_⟩
  exact ⟨by rw [Cursor.terminals, hahead]⟩

/-- A clause that is read with a fault is skipped, and an error stands in its place. -/
theorem succeeds_recovering_of_failsAt_clause {ε : Type} {inner : Reader Fault Stmt}
    [Taking inner] {fault : Fault} {w₁ w₂ : List Token} (hw : ∀ t ∈ w₁ ++ w₂, t.kind.isBoundary = false)
    (hsemicolon : semicolon.kind = .semicolon)
    (hspan : ((w₁ ++ w₂).headD semicolon).span.start ≤ semicolon.span.stop)
    (hc : c.Spells [] ((w₁ ++ w₂) ++ semicolon :: after))
    (h : (inner c).FailsAt fault (w₂ ++ semicolon :: after)) :
    ((recovering inner : Reader ε Stmt) c).Succeeds fun s d fs => fs = [fault] ∧
      s = .error ⟨((w₁ ++ w₂).headD semicolon).span.start, semicolon.span.stop⟩ ∧
        d.Sees (after.map Token.terminal) := by
  rw [recovering, here_bind]
  apply succeeds_rescue_of_failsAt h
  intro d _ hd
  apply succeeds_bind (succeeds_recover_clause fault (by simp) (Region.forall_passes hw) hsemicolon hd)
  rintro _ e fs ⟨rfl, he, hstop⟩
  rw [spanFrom_bind, hstop, hc.current_of_clause, Nat.max_eq_right hspan]
  exact succeeds_pure ⟨rfl, rfl, he.sees⟩

/-- Whatever the tokens of the clause are, one statement is read of them. -/
theorem readsStatementAt_clause (source : String) (hw : ∀ t ∈ w, t.kind.isBoundary = false)
    (hsemicolon : semicolon.kind = .semicolon)
    (hspan : (w.headD semicolon).span.start ≤ semicolon.span.stop) :
    ReadsStatementAt [] (w ++ semicolon :: after) (after.map Token.terminal) fun s fs =>
      ClauseReadAs w semicolon s (fs.map fun f => (f.toDiagnostic source).span) where
  more c hc := by
    have hend : c.current.kind ≠ .endOfInput := by
      have hmem : c.current ∈ c.ahead := by
        rw [hc.current_of_clause, hc.ahead_eq]
        cases w <;> simp
      exact (hc.regular.ahead _ hmem).notEnd
    rw [atListEnd]
    rcases kind_current_of_clause hw hsemicolon hc with hk | hk
    · split
      next h => exact absurd h (TokenKind.ne_of_test hk rfl)
      next h => exact absurd h hend
      next h => exact absurd h (TokenKind.ne_of_test hk rfl)
      next h => exact absurd h (TokenKind.ne_of_test hk rfl)
      next => rfl
    · rw [hk]
  reads room c hc hroom := by
    have hk := kind_current_of_clause hw hsemicolon hc
    have hmore : c.ahead ≠ [] := by
      rw [hc.ahead_eq]
      simp
    obtain ⟨n, hstatement, hn⟩ := exists_statementOf hmore hroom
    have hfails : (statementWithin room c).FailsWithinClause c := by
      rw [hstatement]
      rcases statementOf_of_clause hk with ⟨-, h⟩ | h
      · exact h ▸ failsWithin_assignment c
      · exact fun _ _ _ => h ▸ within_failUnexpected _ c
    cases hr : (statementWithin room c).outcome with
    | ok s =>
      rw [hstatement] at hr
      rcases statementOf_of_clause hk with ⟨hident, h⟩ | h
      · apply succeeds_recovering
        rw [hstatement, h]
        apply (succeeds_clause hw hsemicolon hc hident (h ▸ hr)).mono
        rintro s d fs ⟨rfl, hassign, hread, hyield, hd⟩
        exact ⟨.assignment hassign hread hyield, hassign.recurs_eq_nil, hd⟩
      · rw [h] at hr
        cases hr
    | error fault =>
      obtain ⟨w₁, w₂, t, expected, rfl, hfailsAt, ht, rfl⟩ :=
        hfails.exists_failsAt hr hc (by rw [hsemicolon]; rfl)
      have hnone : ¬ SpellsAssignment (((w₁ ++ w₂) ++ [semicolon]).map Token.terminal) := by
        rintro ⟨s, -, hread, hyield⟩
        have hsees : c.Sees (s.yield ++ after.map Token.terminal) := by
          have hall := hc.sees
          rwa [hyield, ← List.map_append, List.append_assoc, List.singleton_append]
        obtain ⟨s', hs', -⟩ := readsStatement s hread room c _ hsees hroom
        rw [hr] at hs'
        cases hs'
      apply (succeeds_recovering_of_failsAt_clause hw hsemicolon hspan hc hfailsAt).mono
      rintro _ d fs ⟨rfl, rfl, hd⟩
      refine ⟨.broken (List.mem_append.2 ?_) hnone, rfl, hd⟩
      rcases List.mem_append.1 ht with ht | ht
      · exact .inl (List.mem_append_right _ ht)
      · exact .inr ht
  shorter := by
    simp only [List.length_map, List.length_nil, List.length_append, List.length_cons]
    omega

end Parse

/-! ## Programs -/

/--
Into a text without faults some tokens `w` and a semicolon are inserted, at a boundary of a block.
None of them is a brace, a semicolon or a keyword that opens a statement or a declaration. The tree
of the new text is that of the old one with one more statement at this place. Either it is an
assignment of the inserted tokens and there is still no diagnostic, or they are no assignment, it is
an error over all of them, and there is one diagnostic, at one of them.
-/
theorem parse_with_inserted_clause {source source' : String} {gap : Program.Gap}
    {before w after : List Token} {semicolon : Token} (hclean : (parse source).diagnostics = [])
    (htree : (parse source).tree = gap.fill [])
    (hsource : terminalsOf source = before.map Token.terminal ++ after.map Token.terminal)
    (hplace : before.map Token.terminal = gap.yieldBefore)
    (htokens : (tokenize source').tokens = before ++ (w ++ semicolon :: after))
    (herrors : (tokenize source').errors = []) (hw : ∀ t ∈ w, t.kind.isBoundary = false)
    (hsemicolon : semicolon.kind = .semicolon) :
    ∃ (gap' : Program.Gap) (s : Stmt), (parse source').tree = gap'.fill [s] ∧
      gap'.withoutSpans = gap.withoutSpans ∧
      ClauseReadAs w semicolon s ((parse source').diagnostics.map Diagnostic.span) := by
  have hyield : (parse source).tree.yield = gap.yieldBefore ++ gap.yieldAfter := by
    rw [htree, gap.yield_fill]
    rfl
  obtain ⟨hwell, hafter, hspells⟩ := spells_of_inserted hclean hyield hsource hplace htokens
  -- the tokens that were inserted stand in a row
  have hspan : (w.headD semicolon).span.start ≤ semicolon.span.stop := by
    have hmem : semicolon ∈ (tokenize source').tokens := by simp [htokens]
    have hstop := (span_of_mem_tokens hmem).1
    cases w with
    | nil => exact Nat.le_of_lt hstop
    | cons t w =>
      have hrow : (tokenize source').tokens = (before ++ t :: w) ++ semicolon :: after := by
        simpa using htokens
      have hstart := start_le_of_tokens_eq hrow t (by simp)
      exact Nat.le_trans hstart (Nat.le_of_lt hstop)
  have hclause : ReadsStatementAt [] (w ++ semicolon :: after) gap.yieldAfter fun s fs =>
      ClauseReadAs w semicolon s (fs.map fun f => (f.toDiagnostic source').span) :=
    hafter ▸ Parse.readsStatementAt_clause source' hw hsemicolon hspan
  obtain ⟨_, gap', s, htree', hgap, hread⟩ :=
    tree_parse_of_succeeds (Parse.succeeds_program_gap (htree ▸ hwell) hclause hspells)
  refine ⟨gap', s, htree', hgap, ?_⟩
  have hlength : ((Parse.program : Reader Empty Program) (startOf source')).faults.length ≤ 1 := by
    rw [← List.length_map fun f => (Fault.toDiagnostic source' f).span]
    exact hread.length_le
  rw [parse, diagnostics_analyze_of_length_le herrors hlength, List.map_map]
  exact hread

/-- A clause that breaks off at an `else` is inserted into the body of a `while`. -/
theorem parse_with_broken_clause_in_while :
    let source := "class M \x7b public static void main(String[] a) \x7b " ++
      "while (true) \x7b x = 1; y = 2; \x7d \x7d \x7d"
    let source' := "class M \x7b public static void main(String[] a) \x7b " ++
      "while (true) \x7b x = 1; x = else 3; y = 2; \x7d \x7d \x7d"
    let gap : Program.Gap := .inMain ⟨0, 82⟩ ⟨0, 82⟩ "M" "a"
      (.inWhile ⟨48, 78⟩ (.boolean ⟨55, 59⟩ true) (.block ⟨61, 78⟩
        [.assign ⟨63, 69⟩ "x" (.integer ⟨67, 68⟩ 1)] [.assign ⟨70, 76⟩ "y" (.integer ⟨74, 75⟩ 2)])) []
    let tokens := (tokenize source').tokens
    (parse source).diagnostics = [] ∧ (parse source).tree = gap.fill [] ∧
      (tokens.drop 23).take 5 = (tokens.drop 23).take 4 ++ [tokens.getD 27 default] ∧
      ∃ (gap' : Program.Gap) (s : Stmt), (parse source').tree = gap'.fill [s] ∧
        gap'.withoutSpans = gap.withoutSpans ∧
        ClauseReadAs ((tokens.drop 23).take 4) (tokens.getD 27 default) s
          ((parse source').diagnostics.map Diagnostic.span) := by
  intro source source' gap tokens
  have hclean : (parse source).diagnostics = [] :=
    diagnostics_analyze_eq_nil_iff.2 (by decide +kernel)
  have htree : (parse source).tree = gap.fill [] := by decide +kernel
  have ⟨hsource, hplace, htokens, herrors, hw, hsemicolon, hrow⟩ :
      terminalsOf source = (tokens.take 23).map Token.terminal ++
        (tokens.drop 28).map Token.terminal ∧
      (tokens.take 23).map Token.terminal = gap.yieldBefore ∧
      tokens = tokens.take 23 ++
        ((tokens.drop 23).take 4 ++ tokens.getD 27 default :: tokens.drop 28) ∧
      (tokenize source').errors = [] ∧
      (∀ t ∈ (tokens.drop 23).take 4, t.kind.isBoundary = false) ∧
      (tokens.getD 27 default).kind = .semicolon ∧
      (tokens.drop 23).take 5 = (tokens.drop 23).take 4 ++ [tokens.getD 27 default] := by
    decide +kernel
  exact ⟨hclean, htree, hrow, parse_with_inserted_clause hclean htree hsource hplace htokens herrors
    hw hsemicolon⟩

end MiniJava
