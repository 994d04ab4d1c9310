import MiniJava.Proofs.Layout.Independence
import MiniJava.Proofs.Recovery.Around
import MiniJava.Proofs.Recovery.Border
import MiniJava.Proofs.Recovery.Clause

/-!
# Broken members inserted into classes

At a boundary between two members of a class some tokens are inserted: a method with a broken head,
or a clause that declares no field. One fault is reported, at one of these tokens, and all of them
are skipped. With a method goes its body, whatever it is, as long as its braces are balanced. The
rest of the program is read as before.
-/

namespace MiniJava

open Terminal

/-- Whether tokens of this kind bound a member of a class, or open a declaration. -/
def TokenKind.boundsMember : TokenKind → Bool
  | leftBrace | rightBrace | semicolon | classKw | publicKw => true
  | _ => false

theorem Region.passes_of_boundsMember {kind : TokenKind} (h : kind.boundsMember = false) :
    Region.members.Passes kind := by
  cases kind <;> simp [Region.Passes, TokenKind.boundsMember] at h ⊢

/-! ## Balanced braces -/

/-- Each brace that is opened is closed later, and no other brace is closed. -/
structure BracesBalanced (kinds : List TokenKind) : Prop where
  closed : BracesClosed kinds
  count_eq : kinds.count .leftBrace = kinds.count .rightBrace

instance (kinds : List TokenKind) : Decidable (BracesBalanced kinds) :=
  decidable_of_iff (BracesClosed kinds ∧ kinds.count .leftBrace = kinds.count .rightBrace)
    ⟨fun ⟨h, h'⟩ => ⟨h, h'⟩, fun ⟨h, h'⟩ => ⟨h, h'⟩⟩

namespace Region

variable {opening closing : Token} {h b after : List Token}

/-- Tokens that close all braces around them but one are skipped as a whole. -/
theorem skipMember_of_closed {ts : List Token} {depth : Nat}
    (hclosed : BracesClosed (ts.map Token.kind))
    (hdepth : depth + (ts.map Token.kind).count .leftBrace =
      (ts.map Token.kind).count .rightBrace + 1) :
    skipMember true depth (ts ++ after) = skipMember true 1 after + ts.length := by
  -- what is opened among the tokens is closed among them, so the depth never falls to 0
  induction ts generalizing depth with
  | nil =>
    obtain rfl : depth = 1 := by simpa using hdepth
    rfl
  | cons t ts ih =>
    have hrest : BracesClosed (ts.map Token.kind) := hclosed.of_suffix (List.suffix_cons _ _)
    have hle := hclosed.count_le
    have hle' := hrest.count_le
    rw [List.map_cons, List.count_cons, List.count_cons] at hdepth hle
    rw [List.cons_append, skipMember.eq_def, List.length_cons]
    dsimp only
    by_cases hopen : t.kind = .leftBrace
    · rw [if_pos hopen, ih hrest (by simp [hopen] at hdepth; omega), Nat.add_assoc]
    by_cases hclose : t.kind = .rightBrace
    · obtain ⟨n, rfl⟩ : ∃ n, depth = n + 2 := Nat.exists_eq_add_of_le' (by
        simp [hclose] at hdepth
        omega)
      have hskip := @ih (n + 1) hrest (by simp [hclose] at hdepth; omega)
      rw [if_neg hopen, if_pos hclose]
      show skipMember true (n + 1) (ts ++ after) + 1 = _
      rw [hskip, Nat.add_assoc]
    · have hdeep : depth ≠ 0 := by
        simp [hopen, hclose] at hdepth
        omega
      rw [if_neg hopen, if_neg hclose, if_neg (by simp [hdeep]), if_neg (by simp [hdeep]),
        ih hrest (by simpa [hopen, hclose] using hdepth), Nat.add_assoc]

/-- What is left of the head of a method is skipped, and then its body with both braces. -/
theorem skip_method (hh : ∀ t ∈ h, t.kind.boundsMember = false)
    (hopening : opening.kind = .leftBrace) (hclosing : closing.kind = .rightBrace)
    (hb : BracesBalanced (b.map Token.kind)) (moved : Bool) :
    members.skip moved ((h ++ opening :: (b ++ [closing])) ++ after) =
      (h ++ opening :: (b ++ [closing])).length := by
  induction h generalizing moved with
  | nil =>
    have hbody : skipMember true 1 (b ++ closing :: after) = 1 + b.length := by
      rw [skipMember_of_closed hb.closed (by rw [hb.count_eq, Nat.add_comm])]
      simp [skipMember, hclosing]
    simp [skip, skipMember, hopening, hbody]
    omega
  | cons t h ih =>
    obtain ⟨ht, hh⟩ := List.forall_mem_cons.1 hh
    rw [List.cons_append, List.cons_append, skip_of_passes (passes_of_boundsMember ht), ih hh true,
      List.length_cons]

end Region

/-! ## Boundaries between members -/

/-- A boundary between members of a class: no method is before it, or no field is after it. -/
structure ClassDecl.Boundary (k : ClassDecl) where
  fieldsBefore : List Variable
  fieldsAfter : List Variable
  methodsBefore : List Method
  methodsAfter : List Method
  fields_eq : k.fields = fieldsBefore ++ fieldsAfter
  methods_eq : k.methods = methodsBefore ++ methodsAfter
  ordered : methodsBefore = [] ∨ fieldsAfter = []

namespace ClassDecl.Boundary

variable {k : ClassDecl} (b : k.Boundary)

/-- The terminals of the class before the boundary. -/
def yieldBefore : List Terminal :=
  yieldHead k.name k.superclass ++
    (b.fieldsBefore.flatMap Variable.yieldDecl ++ b.methodsBefore.flatMap Method.yield)

/-- The terminals of the class after the boundary. -/
def yieldAfter : List Terminal :=
  b.fieldsAfter.flatMap Variable.yieldDecl ++
    (b.methodsAfter.flatMap Method.yield ++ [word .rightBrace])

theorem yield_eq : k.yield = b.yieldBefore ++ b.yieldAfter := by
  rcases b.ordered with h | h <;>
    simp [ClassDecl.yield, yieldBefore, yieldAfter, yieldHead, b.fields_eq, b.methods_eq, h]

end ClassDecl.Boundary

/-- A boundary between members of one of the classes after the main class. -/
structure Program.MemberBoundary (p : Program) where
  before : List ClassDecl
  owner : ClassDecl
  after : List ClassDecl
  classes_eq : p.classes = before ++ owner :: after
  inner : owner.Boundary

namespace Program.MemberBoundary

variable {p : Program} (b : p.MemberBoundary)

/-- The terminals of the program before the boundary. -/
def yieldBefore : List Terminal :=
  p.main.yield ++ (b.before.flatMap ClassDecl.yield ++ b.inner.yieldBefore)

/-- The terminals of the program after the boundary. -/
def yieldAfter : List Terminal := b.inner.yieldAfter ++ b.after.flatMap ClassDecl.yield

theorem yield_eq : p.yield = b.yieldBefore ++ b.yieldAfter := by
  simp [Program.yield, yieldBefore, yieldAfter, b.classes_eq, b.inner.yield_eq]

end Program.MemberBoundary

/-! ## Broken members -/

/-- Some terminals are those of a method up to its body. -/
def SpellsMethodHead (ys : List Terminal) : Prop :=
  ∃ (t : TypeName) (n : String) (ps : List Variable), Method.yieldHead t n ps = ys

/-- Some terminals are those of a field. -/
def SpellsField (ys : List Terminal) : Prop := ∃ v : Variable, v.yieldDecl = ys

/-- The head of a method ends at its only brace. -/
theorem Method.exists_yieldHead_eq (t : TypeName) (n : String) (ps : List Variable) :
    ∃ xs, Method.yieldHead t n ps = xs ++ [word .leftBrace] ∧ word .leftBrace ∉ xs := by
  have hvariable : ∀ v : Variable, word .leftBrace ∉ v.yield := by
    rintro ⟨_, n, t⟩
    cases t <;> simp [Variable.yield, TypeName.yield, word, ident]
  have hps : word .leftBrace ∉ commaSeparated Variable.yield ps := by
    cases ps <;> simp [commaSeparated, hvariable]
    simp [word]
  refine ⟨word .publicKw :: (t.yield ++ ident n :: word .leftParen ::
    (commaSeparated Variable.yield ps ++ [word .rightParen])), by simp [Method.yieldHead], ?_⟩
  cases t <;> simp [TypeName.yield, hps] <;> simp [word, ident]

/--
Tokens that look like a member of a class but are none: a clause that is no field, or `public` with
a head that no method has, on which reading of a method fails (`exists_error_method_iff`), and with
any body in which the braces are balanced.
-/
inductive BrokenMember : List Token → Prop
  | method {keyword opening closing : Token} {h b : List Token}
      (hkeyword : keyword.kind = .publicKw)
      (hopening : opening.kind = .leftBrace) (hclosing : closing.kind = .rightBrace)
      (hh : ∀ t ∈ h, t.kind.boundsMember = false) (hb : BracesBalanced (b.map Token.kind))
      (hnone : ¬ SpellsMethodHead ((keyword :: (h ++ [opening])).map Token.terminal)) :
      BrokenMember (keyword :: (h ++ opening :: (b ++ [closing])))
  | field {w : List Token} {semicolon : Token} (hsemicolon : semicolon.kind = .semicolon)
      (hw : ∀ t ∈ w, t.kind.boundsMember = false)
      (hnone : ¬ SpellsField ((w ++ [semicolon]).map Token.terminal)) :
      BrokenMember (w ++ [semicolon])

theorem BrokenMember.exists_eq_cons {inserted : List Token} (h : BrokenMember inserted) :
    ∃ t ts, inserted = t :: ts ∧
      (t.kind = .publicKw ∨ t.kind = .semicolon ∨ t.kind.boundsMember = false) := by
  cases h with
  | method hkeyword => exact ⟨_, _, rfl, .inl hkeyword⟩
  | @field w semicolon hsemicolon hw =>
    cases w with
    | nil => exact ⟨semicolon, [], rfl, .inr (.inl hsemicolon)⟩
    | cons t w => exact ⟨t, w ++ [semicolon], rfl, .inr (.inr (hw t List.mem_cons_self))⟩

/-- One fault is noted, at one of the tokens. -/
def FaultAmong (ts : List Token) (fs : List Fault) : Prop :=
  ∃ t ∈ ts, ∃ expected, fs = [.unexpected t expected none]

theorem FaultAmong.mono {ts us : List Token} {fs : List Fault} (h : FaultAmong ts fs)
    (hsubset : ts ⊆ us) : FaultAmong us fs := by
  obtain ⟨t, ht, expected, hfs⟩ := h
  exact ⟨t, hsubset ht, expected, hfs⟩

namespace Parse

open Reader Reading

variable {ε : Type} {c : Cursor} {tail h w rest after : List Token}
  {keyword opening semicolon : Token} {fault : Fault}

/-! ### Methods -/

/-- Nothing after the head of a method makes reading fail. -/
theorem succeeds_methodBody_of_regular (hc : c.Regular) :
    ((methodBody : Reader ε (List Variable × List Stmt × MethodResult)) c).Succeeds
      fun _ _ _ => True := by
  obtain ⟨b, hb⟩ := (parallel_methodBody hc.twin).exists_outcome
  exact ⟨b, hb, trivial⟩

theorem ensures_method_head (c : Cursor) : (method c).Ensures c fun ys _ _ _ =>
    ∃ t n ps zs, ys = Method.yieldHead t n ps ++ zs := by
  refine ensures_expect_bind rfl fun _ d _ => ensures_bind (ensures_typeName d) ?_
  rintro _ t d fs - ⟨-, rfl, -⟩
  refine ensures_expectName_bind fun n d _ _ => ensures_expect_bind rfl fun _ d _ => ?_
  apply ensures_bind (ensures_parameters d)
  rintro _ ps d fs - ⟨-, rfl, -⟩
  refine ensures_expect_bind rfl fun _ d _ => ensures_expect_bind rfl fun _ d _ => ?_
  apply ensures_bind (ensures_methodBody d)
  rintro ys ⟨vs, ss, r⟩ d fs - -
  dsimp only
  rw [spanFrom_bind]
  exact ensures_pure ⟨t, n, ps, ys, by simp [Method.yieldHead]⟩

/-- Reading of a method fails if and only if it does not start with the head of a method. -/
theorem exists_error_method_iff (hopening : opening.kind = .leftBrace)
    (hh : ∀ t ∈ keyword :: h, t.kind ≠ .leftBrace)
    (hc : c.Spells [] (keyword :: h ++ opening :: rest)) :
    (∃ fault, (method c).outcome = .error fault) ↔
      ¬ SpellsMethodHead ((keyword :: h ++ [opening]).map Token.terminal) := by
  constructor
  · rintro ⟨fault, hfault⟩ ⟨t, n, ps, hhead⟩
    have hspells : c.Spells (Method.yieldHead t n ps ++ []) rest := by
      rw [List.append_cons] at hc
      rw [List.append_nil, hhead]
      exact hc.map_terminal
    obtain ⟨m, hm, -⟩ := succeeds_method_of_body hspells fun d hd =>
      succeeds_methodBody_of_regular hd.regular
    cases hfault.symm.trans hm
  · intro hnone
    cases hr : (method c).outcome with
    | error fault => exact ⟨fault, rfl⟩
    | ok m =>
      obtain ⟨ys, hreach, hys⟩ := ensures_method_head c hc.regular
      obtain ⟨t, n, ps, zs, rfl⟩ := hys m hr
      obtain ⟨xs, hxs, hno⟩ := Method.exists_yieldHead_eq t n ps
      rw [hxs] at hreach
      obtain ⟨d, hd⟩ := hreach.exists_of_append
      exact absurd ⟨t, n, ps, hxs.trans (hd.eq_of_clause hno hc hh hopening rfl).1⟩ hnone

/-- Where reading of a method fails, it fails in the head or at the brace after it. -/
theorem exists_failsAt_method (hkeyword : keyword.kind = .publicKw)
    (hopening : opening.kind = .leftBrace) (hc : c.Spells [] (keyword :: (h ++ opening :: rest)))
    (hfault : (method c).outcome = .error fault) :
    ∃ h₁ h₂ t expected, h = h₁ ++ h₂ ∧ (method c).FailsAt fault (h₂ ++ opening :: rest) ∧
      t ∈ h₂ ++ [opening] ∧ fault = .unexpected t expected none := by
  have hk : c.current.kind = .publicKw := hc.current_eq ▸ hkeyword
  have hd : (c.drop 1).Spells [] (h ++ opening :: rest) :=
    (Cursor.Spells.map_terminal (w := [keyword]) hc).drop_one
  rw [method, bind_apply_of_ok (expect_of_kind hk)] at hfault ⊢
  refine FailsWithinClause.exists_failsAt ?_ hfault hd (by rw [hopening]; rfl)
  refine failsWithin_bind (within_typeName _) fun _ d => ?_
  refine failsWithin_bind (within_expectName d) fun _ d => ?_
  refine failsWithin_bind (within_expect rfl d) fun _ d => ?_
  refine failsWithin_bind (within_parameters d) fun _ d => ?_
  refine failsWithin_bind (within_expect rfl d) fun _ d => ?_
  apply failsWithin_expect_bind
  intro _ d hd
  refine Reading.Succeeds.exists_outcome (R := fun _ _ _ => True)
    (succeeds_bind (succeeds_methodBody_of_regular hd) ?_)
  exact fun _ _ _ _ => ⟨_, rfl, trivial⟩

/-! ### Members -/

/-- A member that fails in the tokens `w`, which are then skipped, is left out. -/
theorem succeeds_member_of_failsAt {seen : Bool} {t : Token} {expected : List Expectation}
    (hfails : ((if c.current.kind = .publicKw then methodDecl else fieldDecl seen) c).FailsAt
      (.unexpected t expected none) (w ++ after))
    (ht : t ∈ w) (hskip : ∀ moved, Region.members.skip moved (w ++ after) = w.length) :
    ((member seen : Reader ε (Option Member)) c).Succeeds fun item d fs =>
      item = none ∧ FaultAmong w fs ∧ d.Sees (after.map Token.terminal) := by
  rw [member, here_bind]
  apply succeeds_rescue_recover hfails hskip
  intro d hd
  exact succeeds_pure ⟨rfl, ⟨t, ht, expected, rfl⟩, hd.sees⟩

/-- A method with a broken head is left out as a whole, whatever its body is. -/
theorem succeeds_member_inserted_method {closing : Token} {b : List Token} (seen : Bool)
    (hkeyword : keyword.kind = .publicKw) (hopening : opening.kind = .leftBrace)
    (hclosing : closing.kind = .rightBrace) (hh : ∀ t ∈ h, t.kind.boundsMember = false)
    (hb : BracesBalanced (b.map Token.kind))
    (hnone : ¬ SpellsMethodHead ((keyword :: (h ++ [opening])).map Token.terminal))
    (hc : c.Spells [] (keyword :: (h ++ opening :: (b ++ closing :: after)))) :
    ((member seen : Reader ε (Option Member)) c).Succeeds fun item d fs =>
      item = none ∧ FaultAmong (keyword :: (h ++ opening :: (b ++ [closing]))) fs ∧
        d.Sees (after.map Token.terminal) := by
  have hk : c.current.kind = .publicKw := hc.current_eq ▸ hkeyword
  have hplain : ∀ t ∈ keyword :: h, t.kind ≠ .leftBrace := by
    refine List.forall_mem_cons.2 ⟨by rw [hkeyword]; nofun, fun t ht => ?_⟩
    exact TokenKind.ne_of_test (hh t ht) rfl
  obtain ⟨fault, hfault⟩ := (exists_error_method_iff hopening hplain hc).2 hnone
  obtain ⟨h₁, h₂, t, expected, rfl, hfails, ht, rfl⟩ :=
    exists_failsAt_method hkeyword hopening hc hfault
  have hrest : ∀ t ∈ h₂, t.kind.boundsMember = false := fun t ht =>
    hh t (List.mem_append_right h₁ ht)
  have hmember : (methodDecl c).FailsAt (.unexpected t expected none)
      ((h₂ ++ opening :: (b ++ [closing])) ++ after) := by
    rw [List.append_assoc, List.cons_append, List.append_assoc, List.singleton_append]
    exact failsAt_bind_of_failsAt hfails
  have htaken : t ∈ h₂ ++ opening :: (b ++ [closing]) := by
    rw [List.append_cons]
    exact List.mem_append_left _ ht
  refine (succeeds_member_of_failsAt (by rwa [if_pos hk]) htaken
    (Region.skip_method hrest hopening hclosing hb)).mono ?_
  rintro _ d fs ⟨rfl, hfs, hd⟩
  exact ⟨rfl, hfs.mono (by simp), hd⟩

/-- A clause that is no field is left out. -/
theorem succeeds_member_inserted_field (seen : Bool) (hsemicolon : semicolon.kind = .semicolon)
    (hw : ∀ t ∈ w, t.kind.boundsMember = false)
    (hnone : ¬ SpellsField ((w ++ [semicolon]).map Token.terminal))
    (hc : c.Spells [] (w ++ semicolon :: after)) :
    ((member seen : Reader ε (Option Member)) c).Succeeds fun item d fs =>
      item = none ∧ FaultAmong (w ++ [semicolon]) fs ∧ d.Sees (after.map Token.terminal) := by
  have hk : c.current.kind ≠ .publicKw := by
    rw [hc.current_of_clause]
    cases w with
    | nil => exact fun hpublic => by cases hsemicolon.symm.trans hpublic
    | cons t w => exact TokenKind.ne_of_test (hw t List.mem_cons_self) rfl
  have hplain : ∀ t ∈ w, t.kind ≠ .semicolon := fun t ht => TokenKind.ne_of_test (hw t ht) rfl
  cases hr : (variableDecl c).outcome with
  | ok v =>
    obtain ⟨ys, hreach, hread⟩ := ensures_variableDecl c hc.regular
    obtain ⟨-, rfl, -⟩ := hread v hr
    have hyield := (hreach.eq_of_clause v.semicolon_notMem_yield hc hplain hsemicolon rfl).1
    exact absurd ⟨v, hyield⟩ hnone
  | error fault =>
    obtain ⟨w₁, w₂, t, expected, rfl, hfails, ht, rfl⟩ :=
      (failsWithin_variableDecl c).exists_failsAt hr hc (by rw [hsemicolon]; rfl)
    have hpasses : ∀ t ∈ w₂, Region.members.Passes t.kind := fun t ht =>
      Region.passes_of_boundsMember (hw t (List.mem_append_right w₁ ht))
    have hmember : (fieldDecl seen c).FailsAt (.unexpected t expected none)
        ((w₂ ++ [semicolon]) ++ after) := by
      rw [List.append_assoc, List.singleton_append]
      exact failsAt_bind_of_failsAt hfails
    refine (succeeds_member_of_failsAt (by rwa [if_neg hk]) ht
      (Region.skip_clause (by simp) hpasses hsemicolon)).mono ?_
    rintro _ d fs ⟨rfl, hfs, hd⟩
    exact ⟨rfl, hfs.mono (by simp), hd⟩

/-- Broken members among the members of a class are left out. -/
theorem readsMemberAt_broken {inserted : List Token} (h : BrokenMember inserted) :
    ReadsMemberAt [] (inserted ++ after) (after.map Token.terminal) fun item fs =>
      item = none ∧ FaultAmong inserted fs where
  more c hc := by
    obtain ⟨t, ts, rfl, hmember⟩ := h.exists_eq_cons
    have hk : c.current.kind = t.kind := congrArg Token.kind hc.current_eq
    have hend : t.kind ≠ .endOfInput := (hc.regular.ahead t (by simp [hc.ahead_eq])).notEnd
    rw [atMembersEnd, hk]
    rcases hmember with hpublic | hsemicolon | hplain
    · rw [hpublic]
    · rw [hsemicolon]
    · split
      next h => exact absurd h (TokenKind.ne_of_test hplain rfl)
      next h => exact absurd h hend
      next h => exact absurd h (TokenKind.ne_of_test hplain rfl)
      next => rfl
  reads seen c hc := by
    cases h with
    | method hkeyword hopening hclosing hh hb hnone =>
      simp only [List.cons_append, List.append_assoc, List.nil_append] at hc
      simpa only [and_assoc] using
        succeeds_member_inserted_method seen hkeyword hopening hclosing hh hb hnone hc
    | field hsemicolon hw hnone =>
      rw [List.append_assoc, List.singleton_append] at hc
      simpa only [and_assoc] using succeeds_member_inserted_field seen hsemicolon hw hnone hc
  shorter := by
    obtain ⟨t, ts, rfl, -⟩ := h.exists_eq_cons
    simp only [List.length_map, List.length_nil, List.length_append, List.length_cons]
    omega

/-! ### Classes and programs -/

section Boundaries

variable {ys : List Terminal} {P : List Fault → Prop}

/-- Where nothing is read at a boundary, the class is read as it is. -/
theorem readsClassAt_boundary {k : ClassDecl} (b : k.Boundary) (hk : ∀ n ∈ k.nodes, n.WellFormed)
    (h : ReadsMemberAt [] tail (b.yieldAfter ++ ys) fun item fs => item = none ∧ P fs) :
    ReadsClassAt b.yieldBefore tail ys fun k' fs => k'.withoutSpans = k.withoutSpans ∧ P fs where
  kind c hc := hc.kind_current
  reads c hc := by
    have hms : ∀ m ∈ k.methods, ∀ n ∈ m.nodes, n.WellFormed := fun m hm n hn =>
      hk n (by simp [ClassDecl.nodes]; exact .inr (.inr ⟨m, hm, hn⟩))
    rw [b.methods_eq, List.forall_mem_append] at hms
    have hspells : c.Spells (ClassDecl.yieldHead k.name k.superclass ++
        (b.fieldsBefore.flatMap Variable.yieldDecl ++ (b.methodsBefore.flatMap Method.yield ++ [])))
        tail := by
      rwa [List.append_nil]
    simp only [ClassDecl.Boundary.yieldAfter, List.append_assoc, List.singleton_append] at h
    refine (succeeds_classDecl_of_members hspells fun d hd => succeeds_members_around_place hms.1
      hms.2 b.ordered (fun _ _ hP => .inl hP.1) h hd).mono ?_
    rintro ⟨span, n, s, vs, ms⟩ d fs ⟨⟨hn, hs, _, hvs, hms, items₁, _, items₂, rfl, hread₁, hread₂,
      rfl, hP⟩, hd⟩
    dsimp only at hn hs hvs hms
    have hread := hread₁.append hread₂
    rw [← b.fields_eq, ← b.methods_eq] at hread
    refine ⟨⟨?_, hP⟩, hd⟩
    rw [ClassDecl.withoutSpans, ClassDecl.withoutSpans, hn, hs, hvs, hms, ← hread.fields,
      ← hread.methods]
    rfl
  shorter := by
    have hshorter := h.shorter
    simp only [List.length_append, List.length_nil] at hshorter
    omega

/-- Where nothing is read at a boundary, the program is read as it is. -/
theorem succeeds_program_boundary {p : Program} (b : p.MemberBoundary) (hp : p.WellFormed)
    (h : ReadsMemberAt [] tail b.yieldAfter fun item fs => item = none ∧ P fs)
    (hc : c.Spells b.yieldBefore tail) :
    ((program : Reader ε Program) c).Succeeds fun p' _ fs =>
      p'.withoutSpans = p.withoutSpans ∧ P fs := by
  obtain ⟨-, hp⟩ := List.forall_mem_cons.1 hp
  obtain ⟨hmain, hks⟩ := List.forall_mem_append.1 hp
  rw [b.classes_eq, List.forall_mem_flatMap] at hks
  obtain ⟨hbefore, hks⟩ := List.forall_mem_append.1 hks
  obtain ⟨howner, hafter⟩ := List.forall_mem_cons.1 hks
  refine (succeeds_program_around_class hmain hbefore hafter
    (readsClassAt_boundary b.inner howner h) hc).mono ?_
  rintro p' d fs ⟨hm, ks₁, k, ks₂, hks', hsame₁, hsame₂, hk, hP⟩
  refine ⟨?_, hP⟩
  rw [Program.withoutSpans, Program.withoutSpans, hm, hks', b.classes_eq, List.map_append,
    List.map_cons, hsame₁, hk, hsame₂, List.map_append, List.map_cons]

end Boundaries

end Parse

/-- Where one fault is noted of a text, at one of some tokens, there is one diagnostic, at it too. -/
theorem diagnostics_parse_of_faultAmong {source : String} {ts : List Token}
    (herrors : (tokenize source).errors = [])
    (h : FaultAmong ts ((Parse.program : Reader Empty Program) (startOf source)).faults) :
    ∃ t ∈ ts, ∃ d, (parse source).diagnostics = [d] ∧ d.span = t.span := by
  obtain ⟨t, ht, expected, hfault⟩ := h
  refine ⟨t, ht, (Fault.unexpected t expected none).toDiagnostic source, ?_, rfl⟩
  have hlength := Nat.le_of_eq (congrArg List.length hfault)
  rw [parse, diagnostics_analyze_of_length_le herrors hlength, hfault, List.map_singleton]

/--
Into a text without faults a broken member is inserted, at a boundary between members of a class
after the main class. The tree of the new text is that of the old one, up to spans, and there is one
diagnostic, at one of the inserted tokens.
-/
theorem parse_with_broken_member {source source' : String} {before inserted after : List Token}
    (hclean : (parse source).diagnostics = []) (b : (parse source).tree.MemberBoundary)
    (hsource : terminalsOf source = before.map Token.terminal ++ after.map Token.terminal)
    (hplace : before.map Token.terminal = b.yieldBefore)
    (htokens : (tokenize source').tokens = before ++ (inserted ++ after))
    (herrors : (tokenize source').errors = []) (hbroken : BrokenMember inserted) :
    (parse source').tree.withoutSpans = (parse source).tree.withoutSpans ∧
      ∃ t ∈ inserted, ∃ d, (parse source').diagnostics = [d] ∧ d.span = t.span := by
  obtain ⟨hwell, hafter, hspells⟩ := spells_of_inserted hclean b.yield_eq hsource hplace htokens
  have hmember : Parse.ReadsMemberAt [] (inserted ++ after) b.yieldAfter fun item fs =>
      item = none ∧ FaultAmong inserted fs := hafter ▸ Parse.readsMemberAt_broken hbroken
  obtain ⟨-, htree, hamong⟩ :=
    tree_parse_of_succeeds (Parse.succeeds_program_boundary b hwell hmember hspells)
  exact ⟨htree, diagnostics_parse_of_faultAmong herrors hamong⟩

/-- A method that lacks a parenthesis is inserted behind a field. -/
theorem parse_with_unclosed_parameters_behind_field :
    let source := "class M\x7bpublic static void main(String[] a)\x7bx=1;\x7d\x7d class A\x7bint y;\x7d"
    let source' := "class M\x7bpublic static void main(String[] a)\x7bx=1;\x7d\x7d class A\x7bint y;" ++
      "public int f(int n\x7b\x7bn=0;\x7dpublic;\x7d\x7d"
    let inserted := ((tokenize source').tokens.drop 26).take 16
    (parse source).diagnostics = [] ∧ BrokenMember inserted ∧
      (parse source').tree.withoutSpans = (parse source).tree.withoutSpans ∧
        ∃ t ∈ inserted, ∃ d, (parse source').diagnostics = [d] ∧ d.span = t.span := by
  intro source source' inserted
  have hclean : (parse source).diagnostics = [] :=
    diagnostics_analyze_eq_nil_iff.2 (by decide +kernel)
  let owner := (parse source).tree.classes.headD default
  let b : (parse source).tree.MemberBoundary :=
    { before := []
      owner
      after := []
      classes_eq := by decide +kernel
      inner := ⟨owner.fields, [], [], owner.methods, by simp, by simp, .inl rfl⟩ }
  have hbroken : BrokenMember inserted := by
    let keyword := inserted.headD default
    let h := (inserted.drop 1).take 5
    let opening := inserted.getD 6 default
    let body := (inserted.drop 7).take 8
    have ⟨hinserted, hkeyword, hopening, hclosing, hh, hbody, hplain⟩ :
        inserted = keyword :: (h ++ opening :: (body ++ [inserted.getD 15 default])) ∧
        keyword.kind = .publicKw ∧ opening.kind = .leftBrace ∧
        (inserted.getD 15 default).kind = .rightBrace ∧
        (∀ t ∈ h, t.kind.boundsMember = false) ∧ BracesBalanced (body.map Token.kind) ∧
        ∀ t ∈ keyword :: h, t.kind ≠ .leftBrace := by
      decide +kernel
    -- reading of this method fails at its brace
    let c := (startOf source').drop 26
    have hahead : c.ahead = keyword :: h ++ opening :: c.ahead.drop 7 := by decide +kernel
    have hspells : c.Spells [] (keyword :: h ++ opening :: c.ahead.drop 7) :=
      hahead ▸ ((Cursor.reaches_drop _ 26).regular (startOf_regular source')).spells_ahead
    have hfails : (Parse.method c).outcome =
        .error (.unexpected opening [.token .rightParen] none) := by
      decide +kernel
    have hnone := (Parse.exists_error_method_iff hopening hplain hspells).1 ⟨_, hfails⟩
    exact hinserted ▸ .method hkeyword hopening hclosing hh hbody hnone
  have ⟨hsource, hplace, htokens, herrors⟩ :
      terminalsOf source = ((tokenize source').tokens.take 26).map Token.terminal ++
        ((tokenize source').tokens.drop 42).map Token.terminal ∧
      ((tokenize source').tokens.take 26).map Token.terminal = b.yieldBefore ∧
      (tokenize source').tokens = (tokenize source').tokens.take 26 ++
        (inserted ++ (tokenize source').tokens.drop 42) ∧
      (tokenize source').errors = [] := by
    decide +kernel
  exact ⟨hclean, hbroken, parse_with_broken_member hclean b hsource hplace htokens herrors hbroken⟩

end MiniJava
