import MiniJava.Proofs.Grammar.Yield

/-!
# Kinds of terminals in yields

Which kinds of terminals occur in what a tree yields. The keyword of a class starts a class and
stands nowhere else in it.
-/

namespace MiniJava

open Terminal

/-- Whether some terminals are all of kinds for which `p` holds. -/
def Terminal.allKinds (p : TokenKind → Bool) (ys : List Terminal) : Bool := ys.all fun y => p y.kind

/-- The kinds of terminals that occur in expressions. -/
def TokenKind.inExpression : TokenKind → Bool
  | lengthKw | trueKw | falseKw | thisKw | newKw | intKw | andAnd | lessThan | plus | minus | star
  | bang | leftParen | rightParen | leftBracket | rightBracket | comma | dot | identifier
  | integer _ => true
  | _ => false

/-- The kinds of terminals that occur in statements. -/
def TokenKind.inStatement : TokenKind → Bool
  | ifKw | elseKw | whileKw | printlnKw | recurKw | leftBrace | rightBrace | semicolon | assign
  | question | colon => true
  | kind => kind.inExpression

/-- The kinds of terminals that occur in classes after the first terminal. -/
def TokenKind.inClass : TokenKind → Bool
  | publicKw | returnKw | booleanKw | extendsKw => true
  | kind => kind.inStatement

section

variable {p q : TokenKind → Bool} {y : Terminal} {ys zs : List Terminal}

@[simp] theorem Terminal.allKinds_nil : allKinds p [] = true := rfl

@[simp] theorem Terminal.allKinds_cons : allKinds p (y :: ys) = (p y.kind && allKinds p ys) := rfl

@[simp] theorem Terminal.allKinds_append :
    allKinds p (ys ++ zs) = (allKinds p ys && allKinds p zs) := List.all_append

theorem Terminal.kind_of_allKinds (h : allKinds p ys) (hy : y ∈ ys) : p y.kind :=
  List.all_eq_true.1 h y hy

theorem Terminal.allKinds_mono (hpq : ∀ kind, p kind → q kind) (h : allKinds p ys) :
    allKinds q ys :=
  List.all_eq_true.2 fun y hy => hpq y.kind (kind_of_allKinds h hy)

theorem Terminal.allKinds_flatMap {α : Type} {yield : α → List Terminal} {as : List α}
    (h : ∀ a ∈ as, allKinds p (yield a)) : allKinds p (as.flatMap yield) := by
  induction as with
  | nil => rfl
  | cons a as ih =>
    rw [List.flatMap_cons, allKinds_append, h a List.mem_cons_self,
      ih fun b hb => h b (List.mem_cons_of_mem a hb)]
    rfl

end

theorem TokenKind.inStatement_of_inExpression (kind : TokenKind) (h : kind.inExpression) :
    kind.inStatement := by
  cases kind <;> first | exact h | rfl

theorem TokenKind.inClass_of_inStatement (kind : TokenKind) (h : kind.inStatement) :
    kind.inClass := by
  cases kind <;> first | exact h | rfl

/-! ## Expressions -/

mutual

theorem Expr.allKinds_yield : ∀ e : Expr, allKinds TokenKind.inExpression e.yield
  | .integer .. | .boolean _ true | .boolean _ false | .identifier .. | .this _ | .newObject ..
  | .error _ => rfl
  | .newArray _ e | .length _ e | .not _ e | .paren _ e => by
    simp only [Expr.yield, allKinds_cons, allKinds_append, e.allKinds_yield]
    rfl
  | .index _ a i => by
    simp only [Expr.yield, allKinds_cons, allKinds_append, a.allKinds_yield, i.allKinds_yield]
    rfl
  | .call _ r _ as => by
    simp only [Expr.yield, allKinds_cons, allKinds_append, r.allKinds_yield,
      Expr.allKinds_yieldList as]
    rfl
  | .binary _ l op r => by
    simp only [Expr.yield, allKinds_cons, allKinds_append, l.allKinds_yield, r.allKinds_yield]
    cases op <;> rfl

theorem Expr.allKinds_yieldList :
    ∀ es : List Expr, allKinds TokenKind.inExpression (Expr.yieldList es)
  | [] => rfl
  | e :: es => by
    simp only [Expr.yieldList, allKinds_append, e.allKinds_yield, Expr.allKinds_yieldMore es]
    rfl

theorem Expr.allKinds_yieldMore :
    ∀ es : List Expr, allKinds TokenKind.inExpression (Expr.yieldMore es)
  | [] => rfl
  | e :: es => by
    simp only [Expr.yieldMore, allKinds_cons, allKinds_append, e.allKinds_yield,
      Expr.allKinds_yieldMore es]
    rfl

end

theorem Expr.inStatement_yield (e : Expr) : allKinds TokenKind.inStatement e.yield :=
  allKinds_mono TokenKind.inStatement_of_inExpression e.allKinds_yield

/-- No semicolon stands in an expression. -/
theorem Expr.semicolon_notMem_yield (e : Expr) : word .semicolon ∉ e.yield := fun h => by
  cases kind_of_allKinds e.allKinds_yield h

theorem Expr.semicolon_notMem_yieldList (es : List Expr) : word .semicolon ∉ Expr.yieldList es :=
  fun h => by cases kind_of_allKinds (Expr.allKinds_yieldList es) h

/-! ## Statements -/

theorem Recur.allKinds_yield (r : Recur) : allKinds TokenKind.inStatement r.yield := by
  have hargs : allKinds TokenKind.inStatement (Expr.yieldList r.args) :=
    allKinds_mono TokenKind.inStatement_of_inExpression (Expr.allKinds_yieldList r.args)
  simp only [Recur.yield, allKinds_cons, allKinds_append, r.condition.inStatement_yield, hargs,
    r.fallback.inStatement_yield]
  rfl

mutual

theorem Stmt.allKinds_yield : ∀ s : Stmt, allKinds TokenKind.inStatement s.yield
  | .error _ => rfl
  | .recur r => r.allKinds_yield
  | .println _ e | .assign _ _ e => by
    simp only [Stmt.yield, allKinds_cons, allKinds_append, e.inStatement_yield]
    rfl
  | .assignElement _ _ i e => by
    simp only [Stmt.yield, allKinds_cons, allKinds_append, i.inStatement_yield,
      e.inStatement_yield]
    rfl
  | .block _ ss => by
    simp only [Stmt.yield, allKinds_cons, allKinds_append, Stmt.allKinds_yieldList ss]
    rfl
  | .whileLoop _ e t => by
    simp only [Stmt.yield, allKinds_cons, allKinds_append, e.inStatement_yield, t.allKinds_yield]
    rfl
  | .ifElse _ e t u => by
    simp only [Stmt.yield, allKinds_cons, allKinds_append, e.inStatement_yield, t.allKinds_yield,
      u.allKinds_yield]
    rfl

theorem Stmt.allKinds_yieldList :
    ∀ ss : List Stmt, allKinds TokenKind.inStatement (Stmt.yieldList ss)
  | [] => rfl
  | s :: ss => by
    simp only [Stmt.yieldList, allKinds_append, s.allKinds_yield, Stmt.allKinds_yieldList ss]
    rfl

end

/-! ## Declarations -/

theorem Expr.inClass_yield (e : Expr) : allKinds TokenKind.inClass e.yield :=
  allKinds_mono TokenKind.inClass_of_inStatement e.inStatement_yield

theorem Stmt.inClass_yield (s : Stmt) : allKinds TokenKind.inClass s.yield :=
  allKinds_mono TokenKind.inClass_of_inStatement s.allKinds_yield

theorem TypeName.allKinds_yield (t : TypeName) : allKinds TokenKind.inClass t.yield := by
  cases t <;> rfl

theorem Variable.allKinds_yield (v : Variable) : allKinds TokenKind.inClass v.yield := by
  simp only [Variable.yield, allKinds_append, v.type.allKinds_yield]
  rfl

theorem Variable.allKinds_yieldDecl (v : Variable) : allKinds TokenKind.inClass v.yieldDecl := by
  simp only [Variable.yieldDecl, allKinds_append, v.allKinds_yield]
  rfl

theorem allKinds_parameters (vs : List Variable) :
    allKinds TokenKind.inClass (commaSeparated Variable.yield vs) := by
  cases vs with
  | nil => rfl
  | cons v vs =>
    have hmore : allKinds TokenKind.inClass (vs.flatMap fun v => word .comma :: v.yield) :=
      allKinds_flatMap fun v _ => by
        simp only [allKinds_cons, v.allKinds_yield]
        rfl
    simp only [commaSeparated, allKinds_append, v.allKinds_yield, hmore]
    rfl

theorem MethodResult.allKinds_yield (r : MethodResult) :
    allKinds TokenKind.inClass r.yield := by
  cases r with
  | returns s e =>
    simp only [MethodResult.yield, allKinds_cons, allKinds_append, e.inClass_yield]
    rfl
  | recurs r => exact allKinds_mono TokenKind.inClass_of_inStatement r.allKinds_yield

theorem Method.allKinds_yield (m : Method) : allKinds TokenKind.inClass m.yield := by
  have hlocals : allKinds TokenKind.inClass (m.locals.flatMap Variable.yieldDecl) :=
    allKinds_flatMap fun v _ => v.allKinds_yieldDecl
  have hbody : allKinds TokenKind.inClass (m.body.flatMap Stmt.yield) :=
    allKinds_flatMap fun s _ => s.inClass_yield
  simp only [Method.yield, allKinds_cons, allKinds_append, m.returnType.allKinds_yield,
    allKinds_parameters, hlocals, hbody, m.result.allKinds_yield]
  rfl

/-- What a class yields after its keyword. -/
def ClassDecl.yieldTail (k : ClassDecl) : List Terminal :=
  ident k.name :: (yieldSuperclass k.superclass ++ word .leftBrace ::
    (k.fields.flatMap Variable.yieldDecl ++
      (k.methods.flatMap Method.yield ++ [word .rightBrace])))

theorem ClassDecl.yield_eq (k : ClassDecl) : k.yield = word .classKw :: k.yieldTail := rfl

theorem ClassDecl.allKinds_yieldTail (k : ClassDecl) :
    allKinds TokenKind.inClass k.yieldTail := by
  have hsuperclass : allKinds TokenKind.inClass (yieldSuperclass k.superclass) := by
    cases k.superclass <;> rfl
  have hfields : allKinds TokenKind.inClass (k.fields.flatMap Variable.yieldDecl) :=
    allKinds_flatMap fun v _ => v.allKinds_yieldDecl
  have hmethods : allKinds TokenKind.inClass (k.methods.flatMap Method.yield) :=
    allKinds_flatMap fun m _ => m.allKinds_yield
  simp only [yieldTail, allKinds_cons, allKinds_append, hsuperclass, hfields, hmethods]
  rfl

/-- The keyword of a class stands nowhere in it but at its start. -/
theorem ClassDecl.kind_ne_of_mem_yieldTail (k : ClassDecl) {y : Terminal} (hy : y ∈ k.yieldTail) :
    y.kind ≠ .classKw := by
  intro hk
  have hin := kind_of_allKinds k.allKinds_yieldTail hy
  rw [hk] at hin
  cases hin

end MiniJava
