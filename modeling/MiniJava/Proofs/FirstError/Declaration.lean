import MiniJava.Proofs.FirstError.Statement
import MiniJava.Proofs.Parallel.Declaration

/-!
# Two readings of declarations of texts that begin alike

A local variable is told from an assignment by the second of two tokens. Where that is the token at
the cut, the two readings may take different ways, but then one of them takes its token. The items
of a method body may end at the cut of the first text only, where the other text neither goes on
with an item nor with what may follow the items: then the method lacks its result or its brace
there.
-/

namespace MiniJava.Parse

open Reader Reading

variable {ε : Type} [Failure ε] {k k' : Cut} {n start : Nat} {c d : Cursor}

/-! ## Variables -/

/-- What a type may start with. -/
def typeStart : List Expectation := [.token .intKw, .token .booleanKw, .token .identifier]

theorem opens_typeName : Opens typeName typeStart := by
  refine ⟨fun c h => ⟨fun hk => ?_, ?_⟩, fun c h => ?_, List.cons_ne_nil _ _⟩
  · simp [typeStart, Expectation.Admits, hk] at h
  · rw [typeName, look_bind]
    generalize hk : c.current.kind = kind
    split
    case h_4 => simp_all [typeStart, Expectation.Admits]
    all_goals exact from_advance_bind c
  · rw [typeName, look_bind]
    generalize hk : c.current.kind = kind
    split
    case h_4 => rfl
    all_goals simp_all [typeStart, Expectation.Admits]

theorem joint_typeName (h : k.Places k' n c d) :
    (typeName c).JointAny k k' (n + 1) (typeName d) := by
  refine joint_of_opens opens_typeName opens_typeName h fun hn => ?_
  rw [typeName, look_bind, look_bind, ← h.kind_eq hn]
  generalize hk : c.current.kind = kind
  split
  next =>
    refine joint_advance_bind h hn fun _ _ h' => ?_
    refine joint_eat_bind (by decide) h' (fun h' => ?_) fun _ _ => ?_
    · refine joint_expect_bind (by decide) h' fun _ _ h' => ?_
      exact joint_pure h' (by omega) trivial
    · exact joint_pure h' (by omega) trivial
  next =>
    refine joint_advance_bind h hn fun _ _ h' => ?_
    exact joint_pure h' (by omega) trivial
  next =>
    refine joint_advance_bind h hn fun _ _ h' => ?_
    exact joint_pure h' (by omega) trivial
  next => exact joint_failUnexpected h hn _

theorem joint_parameter (h : k.Places k' n c d) :
    (parameter c).JointAny k k' (n + 1) (parameter d) := by
  rw [parameter, look_bind, look_bind]
  refine joint_bind (joint_typeName h) fun t t' i c' d' h' hle _ => ?_
  refine joint_expectName_bind h' fun _ _ h' => ?_
  apply joint_spanFrom_bind
  intro s s'
  exact joint_pure h' (by omega) trivial

theorem answers_parameter (hc : c.In k k.size) : (parameter c).Answers k typeStart none := by
  rw [parameter, look_bind]
  exact opens_typeName.bind.answers hc

theorem joint_variableDecl (h : k.Places k' n c d) :
    (variableDecl c).JointAny k k' (n + 1) (variableDecl d) := by
  rw [variableDecl, look_bind, look_bind]
  refine joint_bind (joint_typeName h) fun t t' i c' d' h' hle _ => ?_
  refine joint_expectName_bind h' fun _ _ h' => ?_
  refine joint_expect_bind (by decide) h' fun _ _ h' => ?_
  apply joint_spanFrom_bind
  intro s s'
  exact joint_pure h' (by omega) trivial

theorem answers_variableDecl (hc : c.In k k.size) : (variableDecl c).Answers k typeStart none := by
  rw [variableDecl, look_bind]
  exact opens_typeName.bind.answers hc

theorem joint_parameters (h : k.Places k' n c d) :
    (parameters c).Joint k k' (k.next.kind = .rightParen) False n (fun _ _ => True)
      (parameters d) := by
  have hitems : ((withRoom (sepByComma parameter) : Reader Fault (List Variable)) c).JointAny k k' n
      (withRoom (sepByComma parameter) d) := by
    refine joint_withRoom (Joint.mono ?_ (Nat.le_succ n) fun _ _ h => h)
    exact joint_sepByComma (fun _ _ _ _ h => joint_parameter h) (Nat.le_refl n) h (Nat.le_refl _)
      (Nat.le_refl _)
  have hopening : c.In k k.size →
      ((withRoom (sepByComma parameter) : Reader Fault (List Variable)) c).Answers k typeStart
        none := by
    intro hc
    rw [withRoom, sepByComma_eq]
    exact (answers_parameter hc).mono (extends_bind _ _ c)
  refine joint_unlessClosed h hitems hopening ?_
  simp +contextual [typeStart, Expectation.Admits]

/-! ## Items of method bodies -/

/-- Two local variables, or two statements that are alike in whether they may end a method. -/
inductive BodyItem.Alike : BodyItem → BodyItem → Prop
  | local (v v' : Variable) : Alike (.local v) (.local v')
  | statement {s s' : Stmt} (h : s.Alike s') : Alike (.statement s) (.statement s')

/-- A local variable that stands where it should not is no objection to a token. -/
theorem joint_localDecl (started started' : Bool) (h : k.Places k' n c d) :
    (localDecl started c).Joint k k' False False (n + 1) (Option.Rel BodyItem.Alike)
      (localDecl started' d) := by
  refine joint_bind (joint_variableDecl h) fun v v' i c' d' h' hle _ => ?_
  refine joint_quiet_bind (quiet_reportIf _ _ _ _) (quiet_reportIf _ _ _ _) ?_
  exact joint_pure h' hle (.some (.local v v'))

/-- Read a local variable as an item of a method body; if it cannot be read, report and skip it. -/
def declItem (started : Bool) (origin : Cursor) : Reader ε (Option BodyItem) :=
  rescue (localDecl started) fun fault => do
    recover .statements origin fault
    return none

/-- Read a statement as an item of a method body. -/
def statementItem : Reader ε (Option BodyItem) := do
  let s ← recovering statement
  return some (.statement s)

omit [Failure ε] in
theorem bodyItem_of_decl {started : Bool} (hc : atVariableDecl c = true) :
    (bodyItem started : Reader ε (Option BodyItem)) c = declItem started c c := by
  rw [bodyItem, here_bind, if_pos hc]
  rfl

omit [Failure ε] in
theorem bodyItem_of_statement {started : Bool} (hc : atVariableDecl c = false) :
    (bodyItem started : Reader ε (Option BodyItem)) c = statementItem c := by
  rw [bodyItem, here_bind, if_neg (by rw [hc]; decide)]
  rfl

/-- Two readings of items of method bodies. -/
abbrev JointItem (k k' : Cut) (n : Nat) (r s : Reading ε (Option BodyItem)) : Prop :=
  r.Joint k k' False False n (Option.Rel BodyItem.Alike) s

theorem joint_declItem (started started' : Bool) (h : k.Places k' n c d) :
    JointItem k k' (n + 1) ((declItem started c : Reader ε (Option BodyItem)) c)
      (declItem started' d d) :=
  joint_rescue (extends_recover .statements c _) (extends_recover .statements d _)
    (joint_localDecl started started' h)

theorem joint_statementItem (h : k.Places k' n c d) :
    JointItem k k' (n + 1) ((statementItem : Reader ε (Option BodyItem)) c) (statementItem d) := by
  refine joint_bind (joint_recovering (jointInner_statement k k' n) (Nat.le_refl n) h)
    fun s s' i c' d' h' hle hs => ?_
  exact joint_pure h' hle (.some (.statement hs))

theorem joint_bodyItem_of_eq (started : Bool) (heq : atVariableDecl c = atVariableDecl d)
    (h : k.Places k' n c d) :
    JointItem k k' (n + 1) ((bodyItem started : Reader ε (Option BodyItem)) c)
      (bodyItem started d) := by
  cases hc : atVariableDecl c with
  | true =>
    rw [bodyItem_of_decl hc, bodyItem_of_decl (heq ▸ hc)]
    exact joint_declItem started started h
  | false =>
    rw [bodyItem_of_statement hc, bodyItem_of_statement (heq ▸ hc)]
    exact joint_statementItem h

theorem answers_declItem (started : Bool) (hc : c.In k k.size) :
    ((declItem started c : Reader ε (Option BodyItem)) c).Answers k typeStart none :=
  ((answers_variableDecl hc).mono (extends_bind _ _ c)).mono
    (extends_rescue (extends_recover .statements c _) c)

theorem answers_statementItem (hc : c.In k k.size) :
    ((statementItem : Reader ε (Option BodyItem)) c).Answers k statementStart none :=
  (answers_recovering (opens_statement.answers hc)).mono (extends_bind _ _ c)

/-- A second name after a first one is taken as that of a variable. -/
theorem passes_declItem_name (started : Bool) (hc : c.current.kind = .identifier)
    (hnext : (c.drop 1).In k k.size) (ht : k.next.kind = .identifier) :
    ((declItem started c : Reader ε (Option BodyItem)) c).Meets k .passes := by
  have htype : typeName c = ⟨.ok (.named c.current.lexeme), c.drop 1, []⟩ := by
    rw [typeName, look_bind, hc]
    rfl
  refine Meets.mono ?_ (extends_rescue (extends_recover .statements c _) c)
  refine Meets.mono ?_ (extends_bind _ _ c)
  rw [variableDecl, look_bind]
  refine Meets.mono ?_ (keeps_bind (a := .named c.current.lexeme) ?_ ?_).onward
  · rw [htype]
    exact meets_expectName_bind hnext ht
  · rw [htype]
  · rw [htype]
    rfl

/-- The kinds of tokens that a type may start with. -/
def StartsType (kind : TokenKind) : Prop :=
  kind = .intKw ∨ kind = .booleanKw ∨ kind = .identifier

theorem passes_bodyItem (started : Bool) (hc : c.In k k.size) (ht : StartsType k.next.kind) :
    ((bodyItem started : Reader ε (Option BodyItem)) c).Meets k .passes := by
  cases hdecl : atVariableDecl c with
  | true =>
    rw [bodyItem_of_decl hdecl]
    refine (answers_declItem started hc).takes ?_
    rcases ht with hk | hk | hk
    · exact ⟨_, .head _, .inl hk⟩
    · exact ⟨_, .tail _ (.head _), .inl hk⟩
    · exact ⟨_, .tail _ (.tail _ (.head _)), .inl hk⟩
  | false =>
    rw [bodyItem_of_statement hdecl]
    refine (answers_statementItem hc).takes ?_
    rw [atVariableDecl, hc.current_at] at hdecl
    rcases ht with hk | hk | hk
    · simp [hk] at hdecl
    · simp [hk] at hdecl
    · exact ⟨.token .identifier, by simp [statementStart], .inl hk⟩

theorem atVariableDecl_of_not (ht : ¬ StartsType c.current.kind) : atVariableDecl c = false := by
  unfold atVariableDecl
  split <;> simp_all [StartsType]

theorem atVariableDecl_name_iff (hc : c.In k n) (hn : n < k.size)
    (hname : c.current.kind = .identifier) :
    atVariableDecl c = true ↔ (c.drop 1).current.kind = .identifier := by
  rw [atVariableDecl, hname, hc.secondKind_eq hn, decide_eq_true_iff]

/-- After a name, the second of two tokens decides, which may be the one at the cut. -/
theorem joint_bodyItem_name (started : Bool) (h : k.Places k' n c d) (hn : n < k.size)
    (hname : c.current.kind = .identifier) :
    JointItem k k' (n + 1) ((bodyItem started : Reader ε (Option BodyItem)) c)
      (bodyItem started d) := by
  have hnext := h.drop_one hn
  have hdecl := atVariableDecl_name_iff h.left hn hname
  have hdecl' := atVariableDecl_name_iff h.right (h.lt_right hn) (h.kind_eq hn ▸ hname)
  rcases hnext.left.lt_or_eq with hlt | heq
  · refine joint_bodyItem_of_eq started (Bool.eq_iff_iff.2 ?_) h
    rw [hdecl, hdecl', hnext.kind_eq hlt]
  · have hc : (c.drop 1).In k k.size := heq ▸ hnext.left
    have hd : (d.drop 1).In k' k'.size := h.size_eq ▸ heq ▸ hnext.right
    refine .of_choice (A := (· = .identifier)) (fun ht => ?_) (fun hu => ?_) fun ht hu => ?_
    · rw [bodyItem_of_decl (hdecl.2 (hc.current_at ▸ ht))]
      exact passes_declItem_name started hname hc ht
    · rw [bodyItem_of_decl (hdecl'.2 (hd.current_at ▸ hu))]
      exact passes_declItem_name started (h.kind_eq hn ▸ hname) hd hu
    · refine joint_bodyItem_of_eq started (Bool.eq_iff_iff.2 ?_) h
      rw [hdecl, hdecl', hc.current_at, hd.current_at]
      exact iff_of_false ht hu

theorem joint_bodyItem (started : Bool) (h : k.Places k' n c d) :
    JointItem k k' (n + 1) ((bodyItem started : Reader ε (Option BodyItem)) c)
      (bodyItem started d) := by
  rcases h.left.lt_or_eq with hn | rfl
  · by_cases hname : c.current.kind = .identifier
    · exact joint_bodyItem_name started h hn hname
    · refine joint_bodyItem_of_eq started ?_ h
      rw [atVariableDecl, atVariableDecl, ← h.kind_eq hn]
      cases hk : c.current.kind <;> first | rfl | exact absurd hk hname
  · have hleft := congrArg Token.kind h.left.current_at
    have hright := congrArg Token.kind h.right_at.current_at
    refine .of_choice (A := StartsType) (passes_bodyItem started h.left)
      (passes_bodyItem started h.right_at) fun ht hu => ?_
    refine joint_bodyItem_of_eq started ?_ h
    rw [atVariableDecl_of_not (hleft ▸ ht), atVariableDecl_of_not (hright ▸ hu)]

/-! ## Bodies of methods -/

/-- The kinds of tokens before which the items of a method body end. -/
def endsBody (kind : TokenKind) : Bool := endsList kind || kind = .returnKw

theorem not_admits_of_endsBody {t : Token} (h : endsBody t.kind = true) :
    ∀ x ∈ statementStart, ¬ x.Admits t := by
  rcases Bool.or_eq_true_iff.1 h with h | h
  · exact not_admits_of_endsList h
  · simp [statementStart, Expectation.Admits, of_decide_eq_true h]

/-- The tokens at which a method body neither goes on with an item nor comes to its end. -/
structure StandsNowhere (t : Token) : Prop where
  ends : endsBody t.kind = false
  starts : ∀ x ∈ statementStart, ¬ x.Admits t

theorem jointItems_bodyItem (k k' : Cut) (start : Nat) :
    JointItems k k' start endsBody (StandsNowhere k'.next) False BodyItem.Alike
      (bodyItem : Bool → Reader ε (Option BodyItem)) bodyItem := by
  refine ⟨fun s n c d _ h _ _ => joint_bodyItem s h, fun s c _ hc _ hu => .inr ?_,
    fun s d _ hd _ hu => ?_⟩
  · by_cases ht : StartsType k.next.kind
    · exact ⟨_, passes_bodyItem s hc ht, trivial⟩
    · rw [← hc.current_at] at ht
      rw [bodyItem_of_statement (atVariableDecl_of_not ht)]
      exact (answers_statementItem hc).excused (not_admits_of_endsBody hu)
  · by_cases ht : StartsType k'.next.kind
    · exact .inr (passes_bodyItem s hd ht)
    · by_cases hs : ∃ x ∈ statementStart, x.Admits k'.next
      · rw [← hd.current_at] at ht
        rw [bodyItem_of_statement (atVariableDecl_of_not ht)]
        exact .inr ((answers_statementItem hd).takes hs)
      · exact .inl ⟨hu, fun x hx hadmits => hs ⟨x, hx, hadmits⟩⟩

theorem joint_returned (h : k.Places k' n c d) :
    (returned c).JointAny k k' (n + 1) (returned d) := by
  refine joint_expect_bind (by decide) h fun _ _ h' => ?_
  refine joint_bind (joint_expression h') fun e e' i c' d' h' hle _ => ?_
  refine joint_expect_bind (by decide) h' fun _ _ h' => ?_
  apply joint_spanFrom_bind
  intro s s'
  exact joint_pure h' (by omega) trivial

theorem joint_returnedRecovering (h : k.Places k' n c d) :
    ((returnedRecovering : Reader ε MethodResult) c).JointAny k k' (n + 1)
      (returnedRecovering d) := by
  rw [returnedRecovering, here_bind, here_bind]
  exact joint_rescue (extends_recover .statements c _) (extends_recover .statements d _)
    (joint_returned h)

theorem passes_returnedRecovering (hc : c.In k k.size) (ht : k.next.kind = .returnKw) :
    ((returnedRecovering : Reader ε MethodResult) c).Meets k .passes := by
  rw [returnedRecovering, here_bind]
  exact (meets_expect_bind (by decide) hc ht).mono
    (extends_rescue (extends_recover .statements c _) c)

section Result

variable {body body' : List Stmt}

omit [Failure ε] in
theorem methodResult_of_return (hk : c.current.kind = .returnKw) :
    (methodResult body : Reader ε (List Stmt × MethodResult)) c =
      (do let result ← returnedRecovering; return (body, result) : Reader ε _) c := by
  rw [methodResult, isAt_bind, if_pos (decide_eq_true hk)]

omit [Failure ε] in
theorem methodResult_of_trailing {result : MethodResult} (hk : c.current.kind ≠ .returnKw)
    (hlast : body.getLast?.bind (trailing? c) = some result) :
    (methodResult body : Reader ε (List Stmt × MethodResult)) c =
      ⟨.ok (body.dropLast, result), c, []⟩ := by
  rw [methodResult, isAt_bind, if_neg (by simpa using hk), here_bind, hlast]
  rfl

omit [Failure ε] in
theorem methodResult_of_missing (hk : c.current.kind ≠ .returnKw)
    (hlast : body.getLast?.bind (trailing? c) = none) :
    (methodResult body : Reader ε (List Stmt × MethodResult)) c =
      (do
        report (.unexpected c.current [.token .returnKw, .token .recurKw] (some .methodEnds))
        let span := Span.point c.current.span.start
        return (body, .returns span (.error span)) : Reader ε _) c := by
  rw [methodResult, isAt_bind, if_neg (by simpa using hk), here_bind, hlast]
  rfl

theorem not_admits_of_ne {t : Token} (hreturn : t.kind ≠ .returnKw) (hrecur : t.kind ≠ .recurKw) :
    ∀ x ∈ [Expectation.token .returnKw, .token .recurKw], ¬ x.Admits t := by
  simp [Expectation.Admits, hreturn, hrecur]

theorem answers_methodResult (hc : c.In k k.size) (hends : endsBody k.next.kind = true)
    (hlast : body.getLast?.bind (trailing? c) = none) :
    ((methodResult body : Reader ε (List Stmt × MethodResult)) c).Answers k
      [.token .returnKw, .token .recurKw] (some .methodEnds) := by
  have hnext := congrArg Token.kind hc.current_at
  have hrecur : k.next.kind ≠ .recurKw := fun hk => by
    rw [hk] at hends
    cases hends
  by_cases hk : k.next.kind = .returnKw
  · refine ⟨fun _ => ?_, fun h => absurd (.inl hk) (h _ (.head _))⟩
    rw [methodResult_of_return (hnext.trans hk)]
    exact (passes_returnedRecovering hc hk).mono (extends_bind _ _ c)
  · refine ⟨fun ⟨x, hx, hadmits⟩ => absurd hadmits (not_admits_of_ne hk hrecur x hx), fun _ => ?_⟩
    rw [methodResult_of_missing (hnext ▸ hk) hlast]
    exact meets_report_bind hc (List.cons_ne_nil _ _) _

theorem passes_methodResult (hc : c.In k k.size) (ht : k.next.kind = .returnKw) :
    ((methodResult body : Reader ε (List Stmt × MethodResult)) c).Meets k
      .passes := by
  rw [methodResult_of_return ((congrArg Token.kind hc.current_at).trans ht)]
  exact (passes_returnedRecovering hc ht).mono (extends_bind _ _ c)

/-- The two readings are alike as far as there is a `return`. -/
theorem joint_methodResult_of (h : k.Places k' n c d)
    (hno : c.current.kind ≠ .returnKw → d.current.kind ≠ .returnKw →
      ((methodResult body : Reader ε (List Stmt × MethodResult)) c).JointAny k k' n
        (methodResult body' d)) :
    ((methodResult body : Reader ε (List Stmt × MethodResult)) c).JointAny k k' n
      (methodResult body' d) := by
  rcases h.left.lt_or_eq with hn | rfl
  · by_cases hk : c.current.kind = .returnKw
    · rw [methodResult_of_return hk, methodResult_of_return (h.kind_eq hn ▸ hk)]
      refine joint_bind (joint_returnedRecovering h) fun r r' i c' d' h' hle _ => ?_
      exact joint_pure h' (by omega) trivial
    · exact hno hk (h.kind_eq hn ▸ hk)
  · rw [h.left.current_at, h.right_at.current_at] at hno
    exact .of_choice (A := (· = .returnKw)) (passes_methodResult h.left)
      (passes_methodResult h.right_at) hno

theorem joint_methodResult
    (hlast : Option.Rel (fun _ _ => True) (body.getLast?.bind (trailing? c))
      (body'.getLast?.bind (trailing? d)))
    (h : k.Places k' n c d) (hc : endsBody c.current.kind = true)
    (hd : endsBody d.current.kind = true) :
    ((methodResult body : Reader ε (List Stmt × MethodResult)) c).JointAny k k' n
      (methodResult body' d) := by
  refine joint_methodResult_of h fun hk hk' => ?_
  generalize hbody : body.getLast?.bind (trailing? c) = last at hlast
  generalize hbody' : body'.getLast?.bind (trailing? d) = last' at hlast
  cases hlast with
  | some =>
    rw [methodResult_of_trailing hk hbody, methodResult_of_trailing hk' hbody']
    exact joint_pure h (Nat.le_refl n) trivial
  | none =>
    rcases h.left.lt_or_eq with hn | rfl
    · rw [methodResult_of_missing hk hbody, methodResult_of_missing hk' hbody']
      exact .of_early (early_report_bind h.left hn _ _)
        (early_report_bind h.right (h.lt_right hn) _ _)
    · exact .of_answers (answers_methodResult h.left (h.left.current_at ▸ hc) hbody)
        (answers_methodResult h.right_at (h.right_at.current_at ▸ hd) hbody')

end Result

/-- Read what follows the result of a method. -/
def methodEnd {β : Type} (f : Unit → Reader ε β) : Reader ε β := do
  afterResult
  expectOrReport .rightBrace
  f ()

section End

variable {β : Type} {f g : Unit → Reader ε β}

omit [Failure ε] in
theorem methodEnd_of_end (hk : endsList c.current.kind = true) :
    methodEnd f c = (expectOrReport .rightBrace >>= f) c := by
  have hnone : (afterResult : Reader ε Unit) c = ⟨.ok (), c, []⟩ := by
    rw [afterResult, here_bind]
    exact congrFun (if_pos hk) c
  exact bind_apply_of_ok hnone

omit [Failure ε] in
theorem methodEnd_of_more (hk : endsList c.current.kind = false) :
    methodEnd f c = (do
      report (.unexpected c.current [.token .rightBrace] (some .resultIsLast))
      let _ ← statements
      expectOrReport .rightBrace
      f () : Reader ε β) c := by
  have hmore : (afterResult : Reader ε Unit) c = (do
      report (.unexpected c.current [.token .rightBrace] (some .resultIsLast))
      let _ ← statements
      return () : Reader ε Unit) c := by
    rw [afterResult, here_bind, if_neg (by rw [show atListEnd c = false from hk]; decide),
      look_bind]
  rw [methodEnd, bind_apply_congr hmore]
  simp only [bind_assoc, pure_bind]

variable [∀ u, Onward (f u)] [∀ u, Onward (g u)]

theorem answers_methodEnd (hc : c.In k k.size) :
    (methodEnd f c).Answers k [.token .rightBrace]
      (if endsList k.next.kind then none else some .resultIsLast) := by
  have hnext := congrArg Token.kind hc.current_at
  cases hk : endsList k.next.kind with
  | true =>
    rw [methodEnd_of_end (hnext ▸ hk)]
    exact answers_expectOrReport_bind (by decide) hc
  | false =>
    refine ⟨fun ⟨x, hx, hadmits⟩ => ?_, fun _ => ?_⟩
    · obtain rfl := List.mem_singleton.1 hx
      rw [(Exact.admits_iff (by decide)).1 hadmits] at hk
      cases hk
    · rw [methodEnd_of_more (hnext ▸ hk)]
      exact meets_report_bind hc (List.cons_ne_nil _ _) _

theorem joint_methodEnd {m : Nat} {V : β → β → Prop} (h : k.Places k' n c d)
    (hf : k.Places k' (n + 1) (c.drop 1) (d.drop 1) →
      (f () (c.drop 1)).Joint k k' False False m V (g () (d.drop 1))) :
    (methodEnd f c).Joint k k' False False m V (methodEnd g d) := by
  rcases h.left.lt_or_eq with hn | rfl
  · cases hk : endsList c.current.kind with
    | true =>
      rw [methodEnd_of_end hk, methodEnd_of_end (h.kind_eq hn ▸ hk)]
      exact joint_expectOrReport_bind (by decide) h hf
    | false =>
      rw [methodEnd_of_more hk, methodEnd_of_more (h.kind_eq hn ▸ hk)]
      exact .of_early (early_report_bind h.left hn _ _)
        (early_report_bind h.right (h.lt_right hn) _ _)
  · refine .of_answers_with (fun heq => ?_) (answers_methodEnd h.left)
      (answers_methodEnd h.right_at)
    have hkind : k.next.kind = k'.next.kind := congrArg Prod.fst heq
    rw [hkind]

end End

/-- What a method body consists of. -/
abbrev MethodBody : Type := List Variable × List Stmt × MethodResult

/-- Read what follows the result of a method. -/
def afterBody (items : List BodyItem) (read : List Stmt × MethodResult) :
    Reader ε MethodBody :=
  methodEnd fun _ => do
    reportRecurs (Stmt.recursList read.1)
    return (items.filterMap BodyItem.local?, read.1, read.2)

/-- Read what follows the items of a method body. -/
def afterItems (items : List BodyItem) : Reader ε MethodBody := do
  afterBody items (← methodResult (items.filterMap BodyItem.statement?))

instance {β : Type} (f : Unit → Reader ε β) [∀ u, Onward (f u)] : Onward (methodEnd f) := by
  unfold methodEnd
  infer_instance

instance (items : List BodyItem) (read : List Stmt × MethodResult) :
    Onward (afterBody items read : Reader ε MethodBody) := by
  unfold afterBody
  infer_instance

theorem trailing?_of_not {s : Stmt} (h : s.mayEndMethod = false) (c : Cursor) :
    trailing? c s = none := by
  cases s <;> first | rfl | cases h

theorem trailing?_alike {items items' : List BodyItem}
    (h : List.Forall₂ BodyItem.Alike items items') :
    Option.Rel (fun _ _ => True)
      ((items.filterMap BodyItem.statement?).getLast?.bind (trailing? c))
      ((items'.filterMap BodyItem.statement?).getLast?.bind (trailing? d)) := by
  have hbody : List.Forall₂ Stmt.Alike (items.filterMap BodyItem.statement?)
      (items'.filterMap BodyItem.statement?) := by
    induction h with
    | nil => exact .nil
    | cons hi _ ih =>
      cases hi with
      | «local» => exact ih
      | statement hs => exact .cons hs ih
  have hlast := List.Forall₂.getLast? hbody
  generalize (items.filterMap BodyItem.statement?).getLast? = last at hlast
  generalize (items'.filterMap BodyItem.statement?).getLast? = last' at hlast
  cases hlast with
  | none => exact .none
  | some hs =>
    cases hs with
    | recur r r' => exact .some trivial
    | other hs hs' =>
      rw [Option.bind_some, Option.bind_some, trailing?_of_not hs, trailing?_of_not hs']
      exact .none

theorem quiet_reportRecurs (recurs : List Recur) (c : Cursor) :
    ((reportRecurs recurs : Reader ε Unit) c).Quiet c () := by
  refine ⟨rfl, rfl, ?_⟩
  induction recurs with
  | nil => rfl
  | cons r rs ih => exact ih

/-- Where the items end but the other text goes on in no way, the result or the brace is missing. -/
theorem settled_afterItems {X : Prop} (items : List BodyItem) (hc : c.In k k.size)
    (ht : endsBody k.next.kind = true) (hu : StandsNowhere k'.next) :
    ((afterItems items : Reader ε MethodBody) c).Settled k k'.Excuses X := by
  have hends := hu.ends
  have hbrace : ∀ x ∈ [Expectation.token .rightBrace], ¬ x.Admits k'.next := by
    rw [List.forall_mem_singleton, Exact.admits_iff (by decide)]
    intro hk
    rw [hk] at hends
    cases hends
  have hresult : ∀ x ∈ [Expectation.token .returnKw, .token .recurKw], ¬ x.Admits k'.next := by
    refine not_admits_of_ne (fun hk => ?_) fun hk => ?_
    · rw [hk] at hends
      cases hends
    · exact hu.starts (.token .recurKw) (by simp [statementStart]) (.inl hk)
  by_cases hk : k.next.kind = .returnKw
  · exact ((passes_methodResult hc hk).mono (extends_bind _ _ c)).settled trivial
  · cases hlast : (items.filterMap BodyItem.statement?).getLast?.bind (trailing? c) with
    | none =>
      have hanswers := answers_methodResult (ε := ε) hc ht hlast
      exact .inl ((hanswers.mono (extends_bind _ _ c)).excused hresult)
    | some result =>
      have hgiven := methodResult_of_trailing (ε := ε) (hc.current_at ▸ hk) hlast
      refine Settled.of_keeps ?_ (keeps_bind (by rw [hgiven]) (by rw [hgiven]; rfl))
      rw [hgiven]
      exact .inl ((answers_methodEnd hc).excused hbrace)

theorem joint_afterItems {items items' : List BodyItem}
    (hitems : List.Forall₂ BodyItem.Alike items items') (h : k.Places k' n c d)
    (hc : endsBody c.current.kind = true) (hd : endsBody d.current.kind = true) :
    ((afterItems items : Reader ε MethodBody) c).JointAny k k' n (afterItems items' d) := by
  refine joint_bind (joint_methodResult (trailing?_alike hitems) h hc hd)
    fun read read' i c' d' h' hle _ => ?_
  refine joint_methodEnd h' fun h' => ?_
  refine joint_quiet_bind (quiet_reportRecurs _ _) (quiet_reportRecurs _ _) ?_
  exact joint_pure h' (by omega) trivial

theorem joint_methodBody (h : k.Places k' n c d) :
    ((methodBody : Reader ε MethodBody) c).JointAny k k' n (methodBody d) := by
  refine joint_manyFrom_bind (s := false) (fun _ => rfl) rfl ?_ (jointItems_bodyItem k k' n)
    (Nat.le_refl n) h c.length_le_room d.length_le_room
    (fun hu items c' hc ht => settled_afterItems items hc ht hu) False.elim
    fun items items' i c' d' h' hle hitems hc hd => (joint_afterItems hitems h' hc hd).mono hle
      fun _ _ h => h
  rintro s a b (_ | _) <;> rfl

/-! ## Members and classes -/

theorem joint_method (h : k.Places k' n c d) : (method c).JointAny k k' (n + 1) (method d) := by
  refine joint_expect_bind (by decide) h fun _ _ h' => ?_
  refine joint_bind (joint_typeName h') fun t t' i c' d' h' hle _ => ?_
  refine joint_expectName_bind h' fun _ _ h' => ?_
  refine joint_expect_bind (by decide) h' fun _ _ h' => ?_
  refine joint_bind_of_settled (joint_parameters h')
    (fun hk as c' hc' => (meets_expect_bind (by decide) hc' hk).settled trivial) False.elim
    fun as as' j c' d' h' hle' _ => ?_
  refine joint_expect_bind (by decide) h' fun _ _ h' => ?_
  refine joint_expect_bind (by decide) h' fun _ _ h' => ?_
  refine joint_bind (joint_methodBody h') fun b b' l c' d' h' hle'' _ => ?_
  apply joint_spanFrom_bind
  intro s s'
  exact joint_pure h' (by omega) trivial

/-- Two members of which both are fields or both are methods. -/
inductive Member.Alike : Member → Member → Prop
  | field (v v' : Variable) : Alike (.field v) (.field v')
  | method (m m' : Method) : Alike (.method m) (.method m')

/-- Two readings of members of classes. -/
abbrev JointMember (k k' : Cut) (n : Nat) (r s : Reading ε (Option Member)) : Prop :=
  r.Joint k k' False False n (Option.Rel Member.Alike) s

theorem joint_fieldDecl (seen : Bool) (h : k.Places k' n c d) :
    JointMember k k' (n + 1) (fieldDecl seen c) (fieldDecl seen d) := by
  refine joint_bind (joint_variableDecl h) fun v v' i c' d' h' hle _ => ?_
  refine joint_quiet_bind (quiet_reportIf _ _ _ _) (quiet_reportIf _ _ _ _) ?_
  exact joint_pure h' hle (.some (.field v v'))

theorem joint_methodDecl (h : k.Places k' n c d) :
    JointMember k k' (n + 1) (methodDecl c) (methodDecl d) := by
  refine joint_bind (joint_method h) fun m m' i c' d' h' hle _ => ?_
  exact joint_pure h' hle (.some (.method m m'))

/-- Read a member of a class with a reader; if it cannot be read, report that and skip it. -/
def memberWith (read : Reader Fault (Option Member)) (origin : Cursor) :
    Reader ε (Option Member) :=
  rescue read fun fault => do
    recover .members origin fault
    return none

omit [Failure ε] in
theorem member_of_public {seen : Bool} (hk : c.current.kind = .publicKw) :
    (member seen : Reader ε (Option Member)) c = memberWith methodDecl c c := by
  unfold member
  rw [here_bind, if_pos hk]
  rfl

omit [Failure ε] in
theorem member_of_field {seen : Bool} (hk : c.current.kind ≠ .publicKw) :
    (member seen : Reader ε (Option Member)) c = memberWith (fieldDecl seen) c c := by
  unfold member
  rw [here_bind, if_neg hk]
  rfl

theorem passes_member (seen : Bool) (hc : c.In k k.size) (ht : k.next.kind = .publicKw) :
    ((member seen : Reader ε (Option Member)) c).Meets k .passes := by
  rw [member_of_public ((congrArg Token.kind hc.current_at).trans ht)]
  refine Meets.mono ?_ (extends_rescue (extends_recover .members c _) c)
  exact (meets_expect_bind (by decide) hc ht).mono (extends_bind _ _ c)

theorem answers_member_field (seen : Bool) (hc : c.In k k.size) (ht : k.next.kind ≠ .publicKw) :
    ((member seen : Reader ε (Option Member)) c).Answers k typeStart none := by
  rw [member_of_field (hc.current_at ▸ ht)]
  refine Answers.mono ?_ (extends_rescue (extends_recover .members c _) c)
  exact (answers_variableDecl hc).mono (extends_bind _ _ c)

theorem joint_member (seen : Bool) (h : k.Places k' n c d) :
    JointMember k k' (n + 1) ((member seen : Reader ε (Option Member)) c) (member seen d) := by
  rcases h.left.lt_or_eq with hn | rfl
  · by_cases hk : c.current.kind = .publicKw
    · rw [member_of_public hk, member_of_public (h.kind_eq hn ▸ hk)]
      exact joint_rescue (extends_recover .members c _) (extends_recover .members d _)
        (joint_methodDecl h)
    · rw [member_of_field hk, member_of_field (h.kind_eq hn ▸ hk)]
      exact joint_rescue (extends_recover .members c _) (extends_recover .members d _)
        (joint_fieldDecl seen h)
  · exact .of_choice (A := (· = .publicKw)) (passes_member seen h.left)
      (passes_member seen h.right_at) fun ht hu =>
        .of_answers (answers_member_field seen h.left ht) (answers_member_field seen h.right_at hu)

/-- The kinds of tokens before which the members of a class end. -/
def endsMembers : TokenKind → Bool
  | .rightBrace | .endOfInput | .classKw => true
  | _ => false

theorem not_admits_of_endsMembers {t : Token} (h : endsMembers t.kind = true) :
    ∀ x ∈ typeStart, ¬ x.Admits t := by
  intro x hx hadmits
  simp only [typeStart, List.mem_cons, List.not_mem_nil, or_false] at hx
  rcases hx with rfl | rfl | rfl <;> simp_all [Expectation.Admits, endsMembers]

theorem jointItems_member (k k' : Cut) (start : Nat) :
    JointItems k k' start endsMembers (k'.next.kind ≠ .rightBrace) False Member.Alike
      (member : Bool → Reader ε (Option Member)) member := by
  refine ⟨fun s n c d _ h _ _ => joint_member s h, fun s c _ hc _ hu => .inr ?_,
    fun s d _ hd _ hu => .inl fun hk => ?_⟩
  · by_cases ht : k.next.kind = .publicKw
    · exact ⟨_, passes_member s hc ht, trivial⟩
    · exact (answers_member_field s hc ht).excused (not_admits_of_endsMembers hu)
  · rw [hk] at hu
    cases hu

/-- If the members end at the cut of the first text only, the class lacks its brace there. -/
theorem joint_members (h : k.Places k' n c d) :
    ((members : Reader ε (List Member)) c).Joint k k' (k'.next.kind ≠ .rightBrace) False n
      (List.Forall₂ Member.Alike) (members d) := by
  refine joint_withRoom (joint_manyFrom (fun _ => rfl) rfl ?_ (jointItems_member k k' n)
    (Nat.le_refl n) h (Nat.le_refl _) (Nat.le_refl _))
  rintro s a b (_ | _) <;> rfl

theorem joint_superclass (h : k.Places k' n c d) :
    (superclass c).JointAny k k' n (superclass d) := by
  refine joint_eat_bind (by decide) h (fun h' => ?_) fun _ _ => ?_
  · refine joint_expectName_bind h' fun _ _ h' => ?_
    exact joint_pure h' (by omega) trivial
  · exact joint_pure h (Nat.le_refl n) trivial

/-- A brace that is missing is objected to, and the other text has none there either. -/
theorem settled_expectOrReport_bind {β : Type} {f : Unit → Reader ε β} [∀ u, Onward (f u)]
    {X : Prop} (hc : c.In k k.size) (hu : k'.next.kind ≠ .rightBrace) :
    ((expectOrReport .rightBrace >>= f) c).Settled k k'.Excuses X := by
  refine .inl ((answers_expectOrReport_bind (by decide) hc).excused ?_)
  rw [List.forall_mem_singleton, Exact.admits_iff (by decide)]
  exact hu

theorem joint_classDecl (h : k.Places k' n c d) :
    (classDecl c).JointAny k k' (n + 1) (classDecl d) := by
  refine joint_expect_bind (by decide) h fun _ _ h' => ?_
  refine joint_expectName_bind h' fun _ _ h' => ?_
  refine joint_bind (joint_superclass h') fun p p' i c' d' h' hle _ => ?_
  refine joint_expect_bind (by decide) h' fun _ _ h' => ?_
  refine joint_bind_of_settled (joint_members h')
    (fun hu items c' hc' => settled_expectOrReport_bind hc' hu) False.elim
    fun items items' j c' d' h' hle' _ => ?_
  refine joint_expectOrReport_bind (by decide) h' fun h' => ?_
  apply joint_spanFrom_bind
  intro s s'
  exact joint_pure h' (by omega) trivial

end MiniJava.Parse
