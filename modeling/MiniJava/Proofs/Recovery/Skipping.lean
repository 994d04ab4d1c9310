import MiniJava.Proofs.Grammar.Kinds
import MiniJava.Proofs.Reading.Fails
import MiniJava.Proofs.Statement.Complete

/-!
# Where skipping ends

After a fault that came up behind the first token of a construct, skipping passes tokens up to one
of a kind that ends it. So it stops at once, or it takes one more clause of the text.
-/

namespace MiniJava

open Terminal

/-! ## Kinds of tokens -/

namespace Region

/-- Skipping passes the tokens of this kind, whether a token was taken before or not. -/
def Passes : Region → TokenKind → Prop
  | statements, kind => kind ≠ .rightBrace ∧ kind ≠ .semicolon ∧ opensStatement kind = false
  | members, kind =>
    kind ≠ .leftBrace ∧ kind ≠ .rightBrace ∧ kind ≠ .semicolon ∧ kind ≠ .publicKw ∧ kind ≠ .classKw
  | toplevel, kind => kind ≠ .classKw

/-- Once a token was taken, skipping ends before the tokens of this kind. -/
def EndsAt : Region → TokenKind → Prop
  | statements, kind => kind = .rightBrace ∨ opensStatement kind
  | members, kind => kind = .rightBrace ∨ kind = .publicKw ∨ kind = .classKw
  | toplevel, kind => kind = .classKw

variable {region : Region} {t : Token}

theorem skip_of_passes (h : region.Passes t.kind) (moved : Bool) (ts : List Token) :
    region.skip moved (t :: ts) = region.skip true ts + 1 := by
  cases region with
  | statements =>
    obtain ⟨hbrace, hsemicolon, hopens⟩ := h
    simp [skip, skipStatement, hbrace, hsemicolon, hopens]
  | members =>
    obtain ⟨hopen, hclose, hsemicolon, hpublic, hclass⟩ := h
    simp [skip, skipMember, hopen, hclose, hsemicolon, hpublic, hclass]
  | toplevel =>
    have hclass : t.kind ≠ .classKw := h
    simp [skip, skipToClass, hclass]

theorem skip_of_endsAt (h : region.EndsAt t.kind) (ts : List Token) :
    region.skip true (t :: ts) = 0 := by
  cases region with
  | statements =>
    rcases h with h | h
    · simp [skip, skipStatement, h]
    · have hsemicolon : t.kind ≠ .semicolon := fun hs => by rw [hs] at h; cases h
      simp [skip, skipStatement, hsemicolon, h]
  | members =>
    rcases h with h | h | h <;> simp [skip, skipMember, h]
  | toplevel =>
    have hclass : t.kind = .classKw := h
    simp [skip, skipToClass, hclass]

theorem skip_of_semicolon (hregion : region ≠ toplevel) (h : t.kind = .semicolon) (moved : Bool)
    (ts : List Token) : region.skip moved (t :: ts) = 1 := by
  cases region with
  | statements => simp [skip, skipStatement, h]
  | members => simp [skip, skipMember, h]
  | toplevel => exact absurd rfl hregion

end Region

/-! ## Landing -/

/-- Once a token was taken, skipping leads from `c` to where `ys` lies ahead. -/
def Cursor.LandsAt (region : Region) (c : Cursor) (ys : List Terminal) : Prop :=
  (c.drop (region.skip true c.ahead)).Sees ys

section Landing

variable {region : Region} {c : Cursor} {y : Terminal} {ys zs : List Terminal}

theorem landsAt_of_endsAt (hc : c.Sees ys) (h : region.EndsAt (headKind ys)) :
    c.LandsAt region ys := by
  cases ys with
  | nil => cases region <;> simp [Region.EndsAt, Region.opensStatement, headKind] at h
  | cons y ys =>
    obtain ⟨t, ts, hahead, rfl, -⟩ := List.map_eq_cons_iff.1 hc.terminals_eq
    rw [Cursor.LandsAt, hahead, Region.skip_of_endsAt h]
    exact ⟨hc.terminals_eq⟩

/-- One token is passed, and then others. -/
theorem landsAt_of_passes (hc : c.Sees (y :: ys)) (h : region.Passes y.kind)
    (hrest : (c.drop 1).LandsAt region zs) : c.LandsAt region zs := by
  obtain ⟨t, ts, hahead, rfl, -⟩ := List.map_eq_cons_iff.1 hc.terminals_eq
  refine ⟨?_⟩
  rw [← hrest.terminals_eq, hahead, Region.skip_of_passes h]
  simp [Cursor.terminals, hahead]

/-- What comes before a semicolon is passed, and the semicolon is taken. -/
theorem landsAt_clause (hregion : region ≠ .toplevel) (hys : ∀ y ∈ ys, region.Passes y.kind)
    (hc : c.Sees (ys ++ word .semicolon :: zs)) : c.LandsAt region zs := by
  induction ys generalizing c with
  | nil =>
    have hd := hc.drop_one
    obtain ⟨t, ts, hahead, ht, -⟩ := List.map_eq_cons_iff.1 hc.terminals_eq
    have hkind : t.kind = .semicolon := congrArg Terminal.kind ht
    rwa [Cursor.LandsAt, hahead, Region.skip_of_semicolon hregion hkind]
  | cons y ys ih =>
    obtain ⟨hy, hys⟩ := List.forall_mem_cons.1 hys
    exact landsAt_of_passes hc hy (ih hys hc.drop_one)

theorem Region.passes_of_inExpression (region : Region) {kind : TokenKind}
    (h : kind.inExpression) : region.Passes kind := by
  cases region <;> cases kind <;>
    simp [Region.Passes, Region.opensStatement, TokenKind.inExpression] at h ⊢

theorem passes_of_mem_yield (e : Expr) (hy : y ∈ e.yield) : region.Passes y.kind :=
  region.passes_of_inExpression (kind_of_allKinds e.allKinds_yield hy)

/-- The declaration of a variable is skipped as a whole. -/
theorem landsAt_variable (hregion : region ≠ .toplevel) {v : Variable}
    (hc : c.Sees (v.yieldDecl ++ zs)) : c.LandsAt region zs := by
  rw [Variable.yieldDecl, List.append_assoc] at hc
  apply landsAt_clause hregion _ hc
  obtain ⟨_, n, t⟩ := v
  cases region with
  | toplevel => exact absurd rfl hregion
  | statements =>
    cases t <;> simp [Variable.yield, TypeName.yield, Region.Passes, Region.opensStatement]
  | members => cases t <;> simp [Variable.yield, TypeName.yield, Region.Passes]

/-! ## Statements after a lost semicolon -/

/-- What is left of some statements when skipping starts with them: it takes an assignment. -/
def Stmt.afterSkip : List Stmt → List Stmt
  | .assign .. :: ss | .assignElement .. :: ss => ss
  | ss => ss

/-- The terminals of a second branch, with the keyword before it. -/
def Stmt.yieldElse (s : Stmt) : List Terminal := word .elseKw :: s.yield

theorem Stmt.mem_of_mem_afterSkip {s : Stmt} {ss : List Stmt} (h : s ∈ Stmt.afterSkip ss) :
    s ∈ ss := by
  unfold Stmt.afterSkip at h
  split at h
  · exact List.mem_cons_of_mem _ h
  · exact List.mem_cons_of_mem _ h
  · exact h

theorem landsAt_statements {ss : List Stmt} (hss : ∀ s ∈ ss, s.Readable)
    (hzs : Region.statements.EndsAt (headKind zs))
    (hblock : headKind (ss.flatMap Stmt.yield ++ zs) ≠ .leftBrace)
    (hc : c.Sees (ss.flatMap Stmt.yield ++ zs)) :
    c.LandsAt .statements ((Stmt.afterSkip ss).flatMap Stmt.yield ++ zs) := by
  cases ss with
  | nil => exact landsAt_of_endsAt hc hzs
  | cons s ss =>
    cases s with
    | block => exact absurd rfl hblock
    | ifElse | whileLoop | println | recur => exact landsAt_of_endsAt hc (.inr rfl)
    | error s => exact absurd (hss _ List.mem_cons_self) (Stmt.not_readable_error s)
    | assign s n v =>
      have hpasses : ∀ y ∈ ident n :: word .assign :: v.yield,
          Region.statements.Passes y.kind := by
        have hv : ∀ y ∈ v.yield, Region.statements.Passes y.kind := fun _ => passes_of_mem_yield v
        simpa [Region.Passes, Region.opensStatement] using hv
      exact landsAt_clause (by simp) hpasses (by simpa [Stmt.yield, Stmt.afterSkip] using hc)
    | assignElement s n i v =>
      have hpasses : ∀ y ∈ ident n :: word .leftBracket ::
          (i.yield ++ word .rightBracket :: word .assign :: v.yield),
          Region.statements.Passes y.kind := by
        have hi : ∀ y ∈ i.yield, Region.statements.Passes y.kind := fun _ => passes_of_mem_yield i
        have hv : ∀ y ∈ v.yield, Region.statements.Passes y.kind := fun _ => passes_of_mem_yield v
        simp only [List.forall_mem_cons, List.forall_mem_append]
        exact ⟨⟨by simp, by simp, rfl⟩, ⟨by simp, by simp, rfl⟩, hi, ⟨by simp, by simp, rfl⟩,
          ⟨by simp, by simp, rfl⟩, hv⟩
      exact landsAt_clause (by simp) hpasses (by simpa [Stmt.yield, Stmt.afterSkip] using hc)

/-- What comes after a lost semicolon lets reading find its way back. -/
structure FindsBack (ys : List Terminal) : Prop where
  /-- It is no block, since skipping would end inside. -/
  noBlock : headKind ys ≠ .leftBrace
  /-- If it is an `else`, its branch is no block, and no other `else` comes after the branch. -/
  lastElse : ∀ (u : Stmt) (zs : List Terminal), u.Readable → ys = u.yieldElse ++ zs →
    headKind u.yield ≠ .leftBrace ∧ headKind zs ≠ .elseKw
  /-- If it is an `else` at the end of the main method, its branch is an assignment. -/
  mainElse : ∀ (u : Stmt) (zs : List Terminal), u.Readable →
    ys = u.yieldElse ++ word .rightBrace :: word .rightBrace :: zs →
    headKind zs = .classKw ∨ headKind zs = .endOfInput → headKind u.yield = .identifier

/-- What starts with no brace and no `else` lets reading find its way back. -/
theorem FindsBack.of_headKind {ys : List Terminal} (hblock : headKind ys ≠ .leftBrace)
    (helse : headKind ys ≠ .elseKw) : FindsBack ys := by
  have hnone : ∀ (u : Stmt) (zs : List Terminal), ys ≠ u.yieldElse ++ zs := by
    rintro u zs rfl
    exact helse rfl
  exact ⟨hblock, fun u zs _ h => absurd h (hnone u zs), fun u zs _ h => absurd h (hnone u _)⟩

theorem headKind_append {ys : List Terminal} (h : ys ≠ []) (zs : List Terminal) :
    headKind (ys ++ zs) = headKind ys := by
  cases ys with
  | nil => exact absurd rfl h
  | cons y ys => rfl

/-- The branches of `if` statements that broke off are skipped, or read as statements. -/
theorem FindsBack.landsAt {us ss : List Stmt} (hus : ∀ u ∈ us, u.Readable)
    (hss : ∀ s ∈ ss, s.Readable) (hzs : Region.statements.EndsAt (headKind zs))
    (hc : c.Sees (us.flatMap Stmt.yieldElse ++ (ss.flatMap Stmt.yield ++ zs)))
    (h : FindsBack (us.flatMap Stmt.yieldElse ++ (ss.flatMap Stmt.yield ++ zs))) :
    c.LandsAt .statements ((Stmt.afterSkip (us ++ ss)).flatMap Stmt.yield ++ zs) := by
  obtain ⟨hblock, helse, -⟩ := h
  match us with
  | [] => exact landsAt_statements hss hzs hblock hc
  | [u] =>
    -- the keyword is skipped, and the branch is read as a statement
    have hu : u.Readable := hus u (List.mem_singleton_self u)
    obtain ⟨hbranch, -⟩ := helse u (ss.flatMap Stmt.yield ++ zs) hu (by simp)
    rw [← headKind_append hu.yield_ne_nil (ss.flatMap Stmt.yield ++ zs)] at hbranch
    simp only [List.flatMap_cons, List.flatMap_nil, List.append_nil, Stmt.yieldElse,
      List.cons_append] at hc
    have helse : Region.statements.Passes (word .elseKw).kind := ⟨by simp, by simp, rfl⟩
    exact landsAt_of_passes hc helse (landsAt_statements (List.forall_mem_cons.2 ⟨hu, hss⟩) hzs
      (by simpa using hbranch) (by simpa using hc.drop_one))
  | u :: u' :: us =>
    have hu : u.Readable := hus u List.mem_cons_self
    have hnone := helse u ((u' :: us).flatMap Stmt.yieldElse ++ (ss.flatMap Stmt.yield ++ zs)) hu
      (by simp)
    exact absurd rfl hnone.2

end Landing

end MiniJava
