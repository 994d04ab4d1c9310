import MiniJava.Proofs.Expression.Sound
import MiniJava.Tree.Spans

/-!
# Every expression is read back

Where the yield of a grouped expression lies ahead, that expression is read. To the left of an
operator an expression is read as part of a longer one, so the statement about it says how reading
goes on: with the same expression as what stands on the left.
-/

namespace MiniJava

theorem Terminal.operator?_binary (op : BinaryOp) (ys : List Terminal) :
    operator? (word op.tokenKind :: ys) = some (.binary op) := by
  cases op <;> rfl

/-- An expression whose nodes can be read back. -/
def Expr.Readable (e : Expr) : Prop := ∀ n ∈ e.nodes, n.Readable

/-- The yield of an expression starts with a token, which closes no list of arguments. -/
theorem Expr.Readable.yield_eq_cons :
    ∀ {e : Expr}, e.Readable → ∃ y ys, e.yield = y :: ys ∧ y.kind ≠ .rightParen
  | .integer .., _ | .identifier .., _ | .this _, _ | .newArray .., _ | .newObject .., _
  | .not .., _ | .paren .., _ => ⟨_, _, rfl, nofun⟩
  | .boolean _ true, _ | .boolean _ false, _ => ⟨_, _, rfl, nofun⟩
  | .index _ a i, h => by
    have ha : a.Readable := fun n hn => h n (by simp [Expr.nodes, hn])
    obtain ⟨y, ys, hy, hk⟩ := ha.yield_eq_cons
    exact ⟨y, _, by rw [Expr.yield, hy, List.cons_append], hk⟩
  | .length _ a, h => by
    have ha : a.Readable := fun n hn => h n (by simp [Expr.nodes, hn])
    obtain ⟨y, ys, hy, hk⟩ := ha.yield_eq_cons
    exact ⟨y, _, by rw [Expr.yield, hy, List.cons_append], hk⟩
  | .call _ r _ _, h => by
    have hr : r.Readable := fun n hn => h n (by simp [Expr.nodes, hn])
    obtain ⟨y, ys, hy, hk⟩ := hr.yield_eq_cons
    exact ⟨y, _, by rw [Expr.yield, hy, List.cons_append], hk⟩
  | .binary _ l _ _, h => by
    have hl : l.Readable := fun n hn => h n (by simp [Expr.nodes, hn])
    obtain ⟨y, ys, hy, hk⟩ := hl.yield_eq_cons
    exact ⟨y, _, by rw [Expr.yield, hy, List.cons_append], hk⟩
  | .error s, h => absurd trivial (h (.expr (.error s)) List.mem_cons_self).noError

namespace Parse

open Reader Reading Terminal

/-- The expression was read, up to where `rest` lies ahead. -/
def ReadAs (e : Expr) (rest : List Terminal) : Result Expr := fun e' d fs =>
  fs = [] ∧ e'.withoutSpans = e.withoutSpans ∧ d.Sees rest

/--
Reading an expression that starts with `e` comes to the point after `e`, unless the operator that
follows is too tight for `e` to be its operand.
-/
def Climbs (e : Expr) : Prop :=
  ∀ (room floor : Nat) (c : Cursor) (rest : List Terminal) (Q : Result Expr),
    floor ≤ e.strength → floor ≤ Operator.postfixLevel →
    (∀ op ∈ Terminal.operator? rest, op.grip ≤ e.strength) →
    c.Sees (e.yield ++ rest) → c.ahead.length ≤ room →
    (∀ (room' : Nat) (e' : Expr) (c' : Cursor), e'.withoutSpans = e.withoutSpans →
      c'.Sees rest → c'.ahead.length ≤ room' →
      (stageWithin room' (.after floor e') c').Succeeds Q) →
    (above (stageWithin room) floor c).Succeeds Q

/-- The expression is read where a single operand is asked for. -/
def ReadsOperand (e : Expr) : Prop :=
  ∀ (room : Nat) (c : Cursor) (rest : List Terminal),
    c.Sees (e.yield ++ rest) → c.ahead.length ≤ room →
    (stageWithin room .operand c).Succeeds (ReadAs e rest)

/-- What is to be shown of an expression that can be read back. -/
structure Reads (e : Expr) : Prop where
  climbs : Climbs e
  operand : Expr.atomic ≤ e.strength → ReadsOperand e

variable {room floor : Nat} {c : Cursor} {rest ys : List Terminal} {Q : Result Expr} {e : Expr}

theorem Reads.of_operand (h : ReadsOperand e) : Reads e := by
  refine ⟨fun room floor c rest Q _ _ _ hc hroom hQ => ?_, fun _ => h⟩
  apply succeeds_bind (h room c rest hc hroom)
  rintro e' d fs ⟨rfl, he, hd⟩
  exact hQ room e' d he hd (hc.length_ahead_le hd (by simp) hroom)

theorem Reads.of_climbs (h : Climbs e) (hs : e.strength ≤ Operator.postfixLevel) : Reads e :=
  ⟨h, fun h' => absurd (Nat.le_trans h' hs) (by decide)⟩

/-- If no operator may follow, the expression is all that is read. -/
theorem Climbs.whole (h : Climbs e) (hs : floor ≤ e.strength)
    (hfloor : floor ≤ Operator.postfixLevel)
    (hstop : ∀ op ∈ Terminal.operator? rest, op.leftPower < floor)
    (hc : c.Sees (e.yield ++ rest)) (hroom : c.ahead.length ≤ room) :
    (above (stageWithin room) floor c).Succeeds (ReadAs e rest) := by
  refine h room floor c rest _ hs hfloor (fun op hop => ?_) hc hroom ?_
  · have h' := hstop op hop
    simp only [Operator.grip]
    omega
  intro room' e' c' he hc' _
  have hop := hc'.operator?_eq
  rw [Cursor.operator?] at hop
  -- no operator is taken, whatever reads on behind one
  have hpass (read : StageReader) (n : Nat) :
      (operatorsFrom read n floor e' c').Succeeds (ReadAs e rest) := by
    rw [operatorsFrom, here_bind, hop]
    cases h' : Terminal.operator? rest with
    | none => exact succeeds_pure ⟨rfl, he, hc'⟩
    | some op =>
      dsimp only
      rw [if_pos (hstop op h')]
      exact succeeds_pure ⟨rfl, he, hc'⟩
  cases room' <;> exact hpass _ _

/-- An expression in parentheses or brackets ends where these close. -/
theorem Climbs.enclosed (h : Climbs e) (hstop : Terminal.operator? rest = none)
    (hc : c.Sees (e.yield ++ rest)) (hroom : c.ahead.length ≤ room) :
    (above (stageWithin room) 0 c).Succeeds (ReadAs e rest) :=
  h.whole (Nat.zero_le _) (Nat.zero_le _) (by rw [hstop]; nofun) hc hroom

/-! ## Operands -/

/-- An operand takes at least one token, so there is room for it. -/
theorem succeeds_operand {y : Terminal} (hc : c.Sees (y :: ys)) (hroom : c.ahead.length ≤ room)
    (h : ∀ n, c.ahead.length ≤ n + 1 → (operandFrom (stageWithin n) c).Succeeds Q) :
    (stageWithin room .operand c).Succeeds Q := by
  have hl := hc.length_eq
  rw [List.length_cons] at hl
  cases room with
  | zero => omega
  | succ n => exact h n hroom

theorem succeeds_leaf {build : Span → Expr} {y : Terminal} (hc : c.Sees (y :: rest))
    (h : ∀ s, (build s).withoutSpans = e.withoutSpans) :
    (leaf build c).Succeeds (ReadAs e rest) := by
  apply succeeds_advance_bind hc
  intro t d _ hd
  rw [spanFrom_bind]
  exact succeeds_pure ⟨rfl, h _, hd⟩

theorem readsOperand_integer (s : Span) (value : Int32) : ReadsOperand (.integer s value) := by
  intro room c rest hc hroom
  apply succeeds_operand hc hroom
  intro n _
  rw [operandFrom, look_bind, hc.kind_current]
  exact succeeds_leaf hc fun _ => rfl

theorem readsOperand_boolean (s : Span) (value : Bool) : ReadsOperand (.boolean s value) := by
  intro room c rest hc hroom
  cases value <;>
  · apply succeeds_operand hc hroom
    intro n _
    rw [operandFrom, look_bind, hc.kind_current]
    exact succeeds_leaf hc fun _ => rfl

theorem readsOperand_identifier (s : Span) (name : String) :
    ReadsOperand (.identifier s name) := by
  intro room c rest hc hroom
  apply succeeds_operand hc hroom
  intro n _
  rw [operandFrom, look_bind, hc.kind_current, hc.lexeme_current]
  exact succeeds_leaf hc fun _ => rfl

theorem readsOperand_this (s : Span) : ReadsOperand (.this s) := by
  intro room c rest hc hroom
  apply succeeds_operand hc hroom
  intro n _
  rw [operandFrom, look_bind, hc.kind_current]
  exact succeeds_leaf hc fun _ => rfl

theorem readsOperand_not (s : Span) (he : ReadsOperand e) : ReadsOperand (.not s e) := by
  intro room c rest hc hroom
  apply succeeds_operand hc hroom
  intro n hn
  rw [operandFrom, look_bind, hc.kind_current]
  apply succeeds_advance_bind hc
  intro t d _ hd
  apply succeeds_bind (he n d rest hd (hc.length_ahead_lt hd (by simp [Expr.yield]) hn))
  rintro e' d' fs ⟨rfl, he', hd'⟩
  rw [spanFrom_bind]
  exact succeeds_pure ⟨rfl, by simp [Expr.withoutSpans, he'], hd'⟩

theorem readsOperand_paren (s : Span) (he : Climbs e) : ReadsOperand (.paren s e) := by
  intro room c rest hc hroom
  simp only [Expr.yield, List.cons_append, List.append_assoc, List.nil_append] at hc
  apply succeeds_operand hc hroom
  intro n hn
  rw [operandFrom, look_bind, hc.kind_current]
  apply succeeds_advance_bind hc
  intro t d _ hd
  have hroom' : d.ahead.length ≤ n := hc.length_ahead_lt hd (by simp) hn
  apply succeeds_bind (he.enclosed rfl hd hroom')
  rintro e' d' fs ⟨rfl, he', hd'⟩
  apply succeeds_expect_bind hd'
  intro _ d'' hd''
  rw [spanFrom_bind]
  exact succeeds_pure ⟨rfl, by simp [Expr.withoutSpans, he'], hd''⟩

theorem readsOperand_newArray (s : Span) (he : Climbs e) : ReadsOperand (.newArray s e) := by
  intro room c rest hc hroom
  simp only [Expr.yield, List.cons_append, List.append_assoc, List.nil_append] at hc
  apply succeeds_operand hc hroom
  intro n hn
  rw [operandFrom, look_bind, hc.kind_current]
  apply succeeds_advance_bind hc
  intro t d _ hd
  rw [creationFrom, look_bind, hd.kind_current]
  refine succeeds_advance_bind hd fun _ d _ hd => succeeds_expect_bind hd fun _ d hd => ?_
  have hroom' : d.ahead.length ≤ n :=
    hc.length_ahead_lt hd (by simp only [List.length_append, List.length_cons]; omega) hn
  apply succeeds_bind (he.enclosed rfl hd hroom')
  rintro e' d' fs ⟨rfl, he', hd'⟩
  apply succeeds_expect_bind hd'
  intro _ d'' hd''
  rw [spanFrom_bind]
  exact succeeds_pure ⟨rfl, by simp [Expr.withoutSpans, he'], hd''⟩

theorem readsOperand_newObject (s : Span) (name : String) : ReadsOperand (.newObject s name) := by
  intro room c rest hc hroom
  simp only [Expr.yield, List.cons_append, List.nil_append] at hc
  apply succeeds_operand hc hroom
  intro n _
  rw [operandFrom, look_bind, hc.kind_current]
  apply succeeds_advance_bind hc
  intro t d _ hd
  rw [creationFrom, look_bind, hd.kind_current, hd.lexeme_current]
  apply succeeds_advance_bind hd
  intro _ d _ hd
  refine succeeds_expect_bind hd fun _ d hd => succeeds_expect_bind hd fun _ d hd => ?_
  rw [spanFrom_bind]
  exact succeeds_pure ⟨rfl, rfl, hd⟩

/-! ## Operators -/

/-- Where an operator follows that binds tightly enough, it takes in what stands on its left. -/
theorem succeeds_after {left : Expr} (op : Operator) {y : Terminal}
    (hop : Terminal.operator? (y :: ys) = some op) (hfloor : floor ≤ op.leftPower)
    (hc : c.Sees (y :: ys)) (hroom : c.ahead.length ≤ room)
    (h : ∀ n, c.ahead.length ≤ n + 1 → ((takeOperator (stageWithin n) n left op >>= fun folded =>
      stageWithin n (.after floor folded)) c).Succeeds Q) :
    (stageWithin room (.after floor left) c).Succeeds Q := by
  have hl := hc.length_eq
  rw [List.length_cons] at hl
  cases room with
  | zero => omega
  | succ n =>
    rw [stageWithin, operatorsFrom, here_bind]
    have hop' := hc.operator?_eq
    rw [Cursor.operator?, hop] at hop'
    rw [hop']
    dsimp only
    rw [if_neg (Nat.not_lt.2 hfloor)]
    exact h n hroom

theorem climbs_index (s : Span) {a i : Expr} (ha : Climbs a) (hi : Climbs i)
    (hs : Operator.postfixLevel ≤ a.strength) : Climbs (.index s a i) := by
  intro room floor c rest Q _ hfloor _ hc hroom hQ
  simp only [Expr.yield, List.cons_append, List.append_assoc, List.nil_append] at hc
  refine ha room floor c _ Q (Nat.le_trans hfloor hs) hfloor ?_ hc hroom ?_
  · exact fun op _ => Nat.le_trans op.grip_le hs
  intro room a' c ha' hc hroom
  apply succeeds_after .index rfl hfloor hc hroom
  intro n hn
  rw [takeOperator, bind_assoc]
  apply succeeds_advance_bind hc
  intro _ d _ hd
  have hroom' : d.ahead.length ≤ n := hc.length_ahead_lt hd (by simp) hn
  rw [bind_assoc]
  apply succeeds_bind (hi.enclosed rfl hd hroom')
  rintro i' d' fs ⟨rfl, hi', hd'⟩
  rw [bind_assoc]
  apply succeeds_expect_bind hd'
  intro _ d'' hd''
  rw [bind_assoc, spanFrom_bind, pure_bind]
  apply hQ n _ d'' (by simp [Expr.withoutSpans, ha', hi']) hd''
  exact hc.length_ahead_lt hd'' (by simp only [List.length_append, List.length_cons]; omega) hn

theorem climbs_length (s : Span) {a : Expr} (ha : Climbs a)
    (hs : Operator.postfixLevel ≤ a.strength) : Climbs (.length s a) := by
  intro room floor c rest Q _ hfloor _ hc hroom hQ
  simp only [Expr.yield, List.cons_append, List.append_assoc, List.nil_append] at hc
  refine ha room floor c _ Q (Nat.le_trans hfloor hs) hfloor ?_ hc hroom ?_
  · exact fun op _ => Nat.le_trans op.grip_le hs
  intro room a' c ha' hc hroom
  have hpower : floor ≤ Operator.length.leftPower := Nat.le_trans hfloor (by decide)
  apply succeeds_after _ rfl hpower hc hroom
  intro n hn
  rw [takeOperator, bind_assoc]
  apply succeeds_advance_bind hc
  intro _ d _ hd
  rw [bind_assoc]
  apply succeeds_advance_bind hd
  intro _ d' _ hd'
  rw [bind_assoc, spanFrom_bind, pure_bind]
  apply hQ n _ d' (by simp [Expr.withoutSpans, ha']) hd'
  exact hc.length_ahead_lt hd' (by simp only [List.length_cons]; omega) hn

theorem climbs_binary (s : Span) {l r : Expr} {sign : BinaryOp} (hl : Climbs l) (hr : Climbs r)
    (hsl : sign.precedence ≤ l.strength) (hsr : sign.precedence < r.strength) :
    Climbs (.binary s l sign r) := by
  intro room floor c rest Q hs hfloor hrest hc hroom hQ
  have hpower : floor ≤ (Operator.binary sign).leftPower := hs
  simp only [Expr.yield, List.cons_append, List.append_assoc] at hc
  -- reading starts in the left operand; the sign is what follows when that has been read
  refine hl room floor c _ Q (Nat.le_trans hs hsl) hfloor ?_ hc hroom ?_
  · intro op hop
    rw [operator?_binary, Option.mem_some] at hop
    subst hop
    rw [Operator.grip_binary]
    exact hsl
  intro room l' c hl' hc hroom
  refine succeeds_after _ (operator?_binary sign _) hpower hc hroom fun n hn => ?_
  rw [takeOperator, bind_assoc]
  apply succeeds_advance_bind hc
  intro _ d _ hd
  have hroom' : d.ahead.length ≤ n := hc.length_ahead_lt hd (by simp) hn
  rw [bind_assoc]
  -- what follows the right operand binds no tighter than the sign, so it is read no further
  refine succeeds_bind (hr.whole hsr (Operator.precedence_lt sign) (fun op hop => ?_) hd hroom') ?_
  · have hgrip := hrest op hop
    have hlt := Operator.precedence_lt sign
    simp only [Operator.grip, Expr.strength] at hgrip
    simp only [Operator.rightPower, Operator.leftPower] at *
    omega
  rintro r' d' fs ⟨rfl, hr', hd'⟩
  rw [bind_assoc, spanFrom_bind, pure_bind]
  apply hQ n _ d' (by simp [Expr.withoutSpans, hl', hr']) hd'
  exact hc.length_ahead_lt hd' (by simp only [List.length_append, List.length_cons]; omega) hn

/-- Arguments are read up to the parenthesis that closes them. -/
theorem succeeds_argumentsOf {item : Reader Fault Expr} {es : List Expr}
    (hes : ∀ e ∈ es, e.Readable)
    (hitem : ∀ e ∈ es, ∀ (d : Cursor) (zs : List Terminal), d.Sees (e.yield ++ zs) →
      EndsItem zs → d.ahead.length ≤ room → (item d).Succeeds (ReadAs e zs))
    (hc : c.Sees (Expr.yieldList es ++ word .rightParen :: rest)) (hroom : c.ahead.length ≤ room) :
    (argumentsOf item room c).Succeeds fun es' d fs =>
      fs = [] ∧ es'.map Expr.withoutSpans = es.map Expr.withoutSpans ∧
        d.Sees (word .rightParen :: rest) := by
  rw [argumentsOf, isAt_bind]
  cases es with
  | nil =>
    have hk : c.current.kind = .rightParen := hc.kind_current
    rw [if_pos (decide_eq_true hk)]
    exact succeeds_pure ⟨rfl, rfl, hc⟩
  | cons e es =>
    obtain ⟨y, ys, hy, hk⟩ := (hes e List.mem_cons_self).yield_eq_cons
    have hk' : c.current.kind ≠ .rightParen := by
      rw [hc.kind_current_eq, Expr.yieldList, hy]
      exact hk
    have hrounds : es.length ≤ room := by
      have h := List.length_le_length_flatMap (fun e => word .comma :: Expr.yield e) es (by simp)
      have hl := hc.length_eq
      rw [Expr.yieldList, Expr.yieldMore_eq] at hl
      simp only [List.length_append] at hl
      omega
    rw [if_neg (by simpa using hk')]
    rw [Expr.yieldList_eq] at hc
    exact succeeds_sepByComma hitem hrounds hroom hc

theorem operator?_of_endsItem (h : EndsItem rest) : Terminal.operator? rest = none := by
  obtain ⟨zs, rfl | rfl⟩ := h <;> rfl

theorem climbs_call (s : Span) {r : Expr} (m : String) {es : List Expr} (hr : Climbs r)
    (hes : ∀ e ∈ es, e.Readable ∧ Climbs e) (hs : Operator.postfixLevel ≤ r.strength) :
    Climbs (.call s r m es) := by
  intro room floor c rest Q _ hfloor _ hc hroom hQ
  simp only [Expr.yield, List.cons_append, List.append_assoc, List.nil_append] at hc
  refine hr room floor c _ Q (Nat.le_trans hfloor hs) hfloor ?_ hc hroom ?_
  · exact fun op _ => Nat.le_trans op.grip_le hs
  intro room r' c hr' hc hroom
  have hpower : floor ≤ Operator.call.leftPower := Nat.le_trans hfloor (by decide)
  apply succeeds_after _ rfl hpower hc hroom
  intro n hn
  rw [takeOperator, bind_assoc]
  apply succeeds_advance_bind hc
  intro _ d _ hd
  rw [bind_assoc]
  apply succeeds_expectName_bind hd
  intro d hd
  rw [bind_assoc]
  apply succeeds_expect_bind hd
  intro _ d hd
  have hroom' : d.ahead.length ≤ n :=
    hc.length_ahead_lt hd (by simp only [List.length_append, List.length_cons]; omega) hn
  rw [bind_assoc]
  refine succeeds_bind (succeeds_argumentsOf (fun e he => (hes e he).1)
    (fun e he d zs hd hzs => (hes e he).2.enclosed (operator?_of_endsItem hzs) hd) hd hroom') ?_
  rintro es' d' fs ⟨rfl, hes', hd'⟩
  rw [bind_assoc]
  apply succeeds_expect_bind hd'
  intro _ d'' hd''
  rw [bind_assoc, spanFrom_bind, pure_bind]
  refine hQ n _ d'' ?_ hd'' ?_
  · simp [Expr.withoutSpans, Expr.withoutSpansList_eq, hr', hes']
  · exact hc.length_ahead_lt hd'' (by simp only [List.length_append, List.length_cons]; omega) hn

/-! ## All expressions -/

mutual

/-- Every expression with readable nodes is read back, one case for each form. -/
theorem reads : ∀ e : Expr, e.Readable → Reads e
  | .integer s v, _ => .of_operand (readsOperand_integer s v)
  | .boolean s v, _ => .of_operand (readsOperand_boolean s v)
  | .identifier s n, _ => .of_operand (readsOperand_identifier s n)
  | .this s, _ => .of_operand (readsOperand_this s)
  | .newObject s n, _ => .of_operand (readsOperand_newObject s n)
  | .newArray s e, h => by
    obtain ⟨-, he⟩ := List.forall_mem_cons.1 h
    exact .of_operand (readsOperand_newArray s (reads e he).climbs)
  | .not s e, h => by
    obtain ⟨hn, he⟩ := List.forall_mem_cons.1 h
    exact .of_operand (readsOperand_not s ((reads e he).operand hn.grouped))
  | .paren s e, h => by
    obtain ⟨-, he⟩ := List.forall_mem_cons.1 h
    exact .of_operand (readsOperand_paren s (reads e he).climbs)
  | .index s a i, h => by
    obtain ⟨hn, h⟩ := List.forall_mem_cons.1 h
    obtain ⟨ha, hi⟩ := List.forall_mem_append.1 h
    exact .of_climbs (climbs_index s (reads a ha).climbs (reads i hi).climbs hn.grouped)
      (Nat.le_refl _)
  | .length s a, h => by
    obtain ⟨hn, ha⟩ := List.forall_mem_cons.1 h
    exact .of_climbs (climbs_length s (reads a ha).climbs hn.grouped) (Nat.le_refl _)
  | .call s r m es, h => by
    obtain ⟨hn, h⟩ := List.forall_mem_cons.1 h
    obtain ⟨hr, hes⟩ := List.forall_mem_append.1 h
    exact .of_climbs (climbs_call s m (reads r hr).climbs (readsList es hes) hn.grouped)
      (Nat.le_refl _)
  | .binary s l op r, h => by
    obtain ⟨hn, h⟩ := List.forall_mem_cons.1 h
    obtain ⟨hl, hr⟩ := List.forall_mem_append.1 h
    obtain ⟨hsl, hsr⟩ : op.precedence ≤ l.strength ∧ op.precedence < r.strength := hn.grouped
    exact .of_climbs (climbs_binary s (reads l hl).climbs (reads r hr).climbs hsl hsr)
      (Nat.le_of_lt (Operator.precedence_lt op))
  | .error s, h => absurd trivial (h (.expr (.error s)) List.mem_cons_self).noError

theorem readsList :
    ∀ es : List Expr, (∀ n ∈ Expr.nodesList es, n.Readable) → ∀ e ∈ es, e.Readable ∧ Climbs e
  | [], _ => nofun
  | e :: es, h => by
    obtain ⟨he, hes⟩ := List.forall_mem_append.1 h
    exact List.forall_mem_cons.2 ⟨⟨he, (reads e he).climbs⟩, readsList es hes⟩

end

theorem succeeds_expression (he : e.Readable) (hstop : Terminal.operator? rest = none)
    (hc : c.Sees (e.yield ++ rest)) : (expression c).Succeeds (ReadAs e rest) :=
  (reads e he).climbs.enclosed hstop hc c.length_le_room

theorem succeeds_arguments {es : List Expr} (hes : ∀ e ∈ es, e.Readable)
    (hc : c.Sees (Expr.yieldList es ++ word .rightParen :: rest)) :
    (arguments c).Succeeds fun es' d fs =>
      fs = [] ∧ es'.map Expr.withoutSpans = es.map Expr.withoutSpans ∧
        d.Sees (word .rightParen :: rest) :=
  succeeds_argumentsOf hes (fun e he _ _ hd hzs _ =>
    succeeds_expression (hes e he) (operator?_of_endsItem hzs) hd) hc c.length_le_room

theorem succeeds_parenthesized (he : e.Readable)
    (hc : c.Sees (word .leftParen :: (e.yield ++ word .rightParen :: rest))) :
    (parenthesized c).Succeeds (ReadAs e rest) := by
  apply succeeds_expect_bind hc
  intro _ d hd
  apply succeeds_bind (succeeds_expression he rfl hd)
  rintro e' d' fs ⟨rfl, he', hd'⟩
  exact succeeds_expect_bind hd' fun _ d'' hd'' => succeeds_pure ⟨rfl, he', hd''⟩

end Parse

end MiniJava
