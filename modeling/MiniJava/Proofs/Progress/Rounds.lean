import MiniJava.Proofs.Extents.Program
import MiniJava.Proofs.Progress.Bounds

/-!
# Loops that go on only after taking a token

`Reader.Loops` runs the rounds of a loop one after the other, with no bound on their number. A round
fails, leaves the loop, or goes on, and it goes on only with fewer tokens ahead. Each loop of the
grammar and each way of skipping is such a loop, so that the bounds on their rounds never matter.
-/

namespace MiniJava

variable {ε α β σ : Type}

namespace Reader

/--
The rounds of a loop from a state and a place on, up to the reading that the loop gives. A round that
leaves the loop gives the value of the loop, and one that goes on has taken a token.
-/
inductive Loops (round : σ → Reader ε (σ ⊕ β)) : σ → Cursor → Reading ε β → Prop
  | fails {s : σ} {c d : Cursor} {e : ε} {journal : List Entry}
      (h : round s c = ⟨.error e, d, journal⟩) : Loops round s c ⟨.error e, d, journal⟩
  | leaves {s : σ} {c d : Cursor} {b : β} {journal : List Entry}
      (h : round s c = ⟨.ok (.inr b), d, journal⟩) : Loops round s c ⟨.ok b, d, journal⟩
  | goesOn {s s' : σ} {c d : Cursor} {journal : List Entry} {r : Reading ε β}
      (h : round s c = ⟨.ok (.inl s'), d, journal⟩)
      (htaken : d.ahead.length < c.ahead.length) (hrest : Loops round s' d r) :
      Loops round s c ⟨r.outcome, r.cursor, journal ++ r.journal⟩

/-- A round of a loop that reads items until `stop` holds. -/
def whileRound (stop : Cursor → Bool) (item : σ → Reader ε (Option α)) (next : σ → α → σ) :
    σ × List α → Reader ε ((σ × List α) ⊕ List α)
  | (s, as) => do
    if stop (← here) then return .inr as
    else
      match ← item s with
      | some a => return .inl (next s a, as ++ [a])
      | none => return .inl (s, as)

/-- A round of a loop that reads items with commas between them. -/
def commaRound (item : Reader ε α) : List α → Reader ε (List α ⊕ List α)
  | as => do
    let a ← item
    if ← eat .comma then return .inl (as ++ [a])
    else return .inr (as ++ [a])

instance (item : Reader Fault α) [Taking item] (as : List α) : Taking (commaRound item as) := by
  unfold commaRound
  infer_instance

section Rules

variable {source : String} {c : Cursor} {rounds : Nat}

theorem nil_append_map (p : Reader ε (List α)) : ([] ++ ·) <$> p = p := id_map p

/-- What follows a round of a loop: more rounds, or nothing. -/
def goOn (rest : σ → Reader ε β) : σ ⊕ β → Reader ε β
  | .inl s => rest s
  | .inr b => return b

/-- One round, and the others after it. -/
theorem loops_round {round : σ → Reader ε (σ ⊕ β)} {rest : σ → Reader ε β} {s : σ}
    (h : ∀ s', (round s c).outcome = .ok (.inl s') →
      (round s c).cursor.ahead.length < c.ahead.length ∧
        Loops round s' (round s c).cursor (rest s' (round s c).cursor)) :
    Loops round s c ((round s >>= goOn rest) c) := by
  rcases hround : round s c with ⟨e | s' | b, d, journal⟩
  · rw [bind_apply_of_error hround]
    exact .fails hround
  · rw [hround] at h
    rw [bind_apply_of_ok hround]
    obtain ⟨htaken, hrest⟩ := h s' rfl
    exact .goesOn hround htaken hrest
  · rw [bind_apply_of_ok hround]
    have hleaves : Loops round s c ⟨.ok b, d, journal⟩ := .leaves hround
    rwa [← List.append_nil journal] at hleaves

theorem manyFrom_eq_round (stop : Cursor → Bool) (item : σ → Reader ε (Option α))
    (next : σ → α → σ) (rounds : Nat) (s : σ) (as : List α) :
    (as ++ ·) <$> manyFrom stop item next (rounds + 1) s = whileRound stop item next (s, as) >>=
      goOn fun (s, as) => (as ++ ·) <$> manyFrom stop item next rounds s := by
  rw [manyFrom, whileRound, map_bind, bind_assoc]
  congr 1
  funext c
  split
  · rw [map_pure, pure_bind, List.append_nil, goOn]
  · rw [map_bind, bind_assoc]
    congr 1
    funext a
    cases a with
    | none => rw [pure_bind, goOn]
    | some a =>
      rw [pure_bind, goOn]
      simp only [Functor.map_map, List.append_assoc, List.singleton_append]

theorem whileRound_of_stop {stop : Cursor → Bool} {item : σ → Reader ε (Option α)}
    {next : σ → α → σ} (hs : stop c = true) (s : σ) (as : List α) :
    whileRound stop item next (s, as) c = ⟨.ok (.inr as), c, []⟩ := by
  rw [whileRound, here_bind, if_pos hs]
  rfl

/-- A round that goes on has read an item. -/
theorem item_of_whileRound {stop : Cursor → Bool} {item : σ → Reader ε (Option α)}
    {next : σ → α → σ} {s : σ} {as : List α} {x : σ × List α}
    (h : (whileRound stop item next (s, as) c).outcome = .ok (.inl x)) :
    stop c = false ∧ (∃ a, (item s c).outcome = .ok a) ∧
      (whileRound stop item next (s, as) c).cursor = (item s c).cursor := by
  cases hs : stop c with
  | true => rw [whileRound_of_stop hs] at h; cases h
  | false =>
    rw [whileRound, here_bind, hs] at h ⊢
    rcases hitem : item s c with ⟨e | a, d, journal⟩
    · rw [if_neg Bool.false_ne_true, bind_apply_of_error hitem] at h
      cases h
    · rw [if_neg Bool.false_ne_true, bind_apply_of_ok hitem]
      exact ⟨rfl, ⟨a, rfl⟩, by cases a <;> rfl⟩

/-- Items that each take a token are read in rounds. -/
theorem loops_manyFrom {stop : Cursor → Bool} {item : σ → Reader ε (Option α)}
    {next : σ → α → σ} [∀ s, Taking (item s)]
    (hend : ∀ c : Cursor, c.Of source → c.ahead = [] → stop c = true)
    (htakes : ∀ s (c : Cursor), c.Of source → stop c = false → ∀ a, (item s c).outcome = .ok a →
      (item s c).cursor.ahead.length < c.ahead.length)
    (s : σ) (as : List α) (hc : c.Of source) (hr : c.ahead.length ≤ rounds) :
    Loops (whileRound stop item next) (s, as) c
      (((as ++ ·) <$> manyFrom stop item next rounds s) c) := by
  induction rounds generalizing s as c with
  | zero =>
    have hs := hend c hc (List.length_eq_zero_iff.1 (Nat.le_zero.1 hr))
    have hnone : manyFrom stop item next 0 s c = ⟨.ok [], c, []⟩ := manyFrom_of_stop hs 0 s
    simp only [Functor.map, Reader.map, hnone, List.append_nil]
    exact .leaves (whileRound_of_stop hs s as)
  | succ rounds ih =>
    rw [manyFrom_eq_round]
    refine loops_round fun x hx => ?_
    obtain ⟨hs, ⟨a, ha⟩, hcursor⟩ := item_of_whileRound hx
    have htaken := htakes s c hc hs a ha
    rw [hcursor]
    exact ⟨htaken, ih x.1 x.2 (Taking.of_cursor (item s) hc).1 (by omega)⟩

theorem sepByComma_eq_round (item : Reader Fault α) (rounds : Nat) (as : List α) :
    (as ++ ·) <$> sepByComma item (rounds + 1) = commaRound item as >>=
      goOn fun as => (as ++ ·) <$> sepByComma item rounds := by
  rw [sepByComma, commaRound, map_bind, bind_assoc]
  congr 1
  funext a
  rw [map_bind, bind_assoc]
  congr 1
  funext comma
  cases comma with
  | false => rfl
  | true =>
    rw [if_pos rfl, if_pos rfl, pure_bind, goOn]
    simp only [Functor.map_map, List.append_assoc, List.singleton_append]

/-- A round that goes on has taken a comma. -/
theorem length_commaRound_lt {item : Reader Fault α} [Taking item] {as bs : List α}
    (hc : c.Of source) (h : (commaRound item as c).outcome = .ok (.inl bs)) :
    (commaRound item as c).cursor.ahead.length < c.ahead.length := by
  obtain ⟨hd, hle⟩ := Taking.of_cursor item hc
  rw [commaRound] at h ⊢
  rcases hitem : item c with ⟨e | a, d, journal⟩
  · rw [bind_apply_of_error hitem] at h
    cases h
  · rw [hitem] at hd hle
    rw [bind_apply_of_ok hitem] at h ⊢
    by_cases hk : d.current.kind = .comma
    · rw [eat_bind_of_kind hk]
      exact (Cursor.length_ahead_drop_one_lt (by simp [hk])).trans_le hle
    · rw [eat_bind_of_ne hk] at h
      cases h

/-- Items with commas between them are read in rounds. -/
theorem loops_sepByComma {item : Reader Fault α} [Taking item] (as : List α) (hc : c.Of source)
    (hr : c.ahead.length ≤ rounds) :
    Loops (commaRound item) as c (((as ++ ·) <$> sepByComma item rounds) c) := by
  generalize hn : c.ahead.length = n at hr
  induction n using Nat.strongRecOn generalizing as c rounds with
  | ind n ih =>
    have hmore : sepByComma item rounds c = sepByComma item (rounds + 1) c :=
      agree_sepByComma (.refl item) hr (Nat.le_succ_of_le hr) c hc (Nat.le_of_eq hn)
    rw [map_congr (as ++ ·) hmore, sepByComma_eq_round]
    refine loops_round fun bs hbs => ?_
    have htaken := length_commaRound_lt hc hbs
    have hof := (Taking.of_cursor (commaRound item as) hc).1
    exact ⟨htaken, ih _ (hn ▸ htaken) bs hof rfl (by omega)⟩

end Rules

end Reader

namespace Parse

open Reader Reading

variable {source : String} {c : Cursor}

/-! ## Operators -/

/-- A round of the loop that reads the operators which bind at least as tightly as `floor`. -/
def operatorRound (floor : Nat) : Expr → Reader Fault (Expr ⊕ Expr)
  | left => do
    let cursor ← here
    match Operator.at? cursor.current.kind cursor.secondKind with
    | none => return .inr left
    | some op =>
      if op.leftPower < floor then return .inr left
      else .inl <$> withRoom fun room => takeOperator (stageWithin room) room left op

instance (floor : Nat) (left : Expr) :
    Built AnyRule Fault.ObjectsAt (operatorRound floor left) := by
  unfold operatorRound
  refine built_bind fun cursor => ?_
  split <;> infer_instance

theorem length_takeOperator_lt (read : StageReader)
    [∀ stage, Built AnyRule Fault.ObjectsAt (read stage)] (room : Nat)
    (left : Expr) (op : Operator) (hc : c.Of source) (hk : c.current.kind ≠ .endOfInput) :
    (takeOperator read room left op c).cursor.ahead.length < c.ahead.length := by
  have hlen := Cursor.length_ahead_drop_one_lt hk
  have hafter : ∀ {f : Token → Reader Fault Expr} [∀ t, Taking (f t)],
      ((advance >>= f) c).cursor.ahead.length < c.ahead.length := by
    intro f _
    rw [advance_bind]
    exact (Taking.of_cursor (f c.current) (hc.drop 1)).2.trans_lt hlen
  cases op <;> exact hafter

/-- Whatever the bound, taking an operator reads on in the same way. -/
theorem takeOperator_eq_withRoom {room : Nat} (hc : c.Of source) (hr : c.ahead.length ≤ room)
    (left : Expr) (op : Operator) :
    takeOperator (stageWithin room) room left op c =
      withRoom (fun room => takeOperator (stageWithin room) room left op) c := by
  have hroom := c.length_le_room
  have h := agree_takeOperator_bind (fun stage => agree_stageWithin source hr hroom stage) hr hroom
    left op (k := pure) (fun _ => .refl _) c hc (Nat.le_succ _)
  rwa [bind_pure, bind_pure] at h

theorem stageWithin_after_eq_round {room : Nat} (hc : c.Of source) (hr : c.ahead.length ≤ room)
    (floor : Nat) (left : Expr) :
    stageWithin room (.after floor left) c =
      (operatorRound floor left >>= goOn fun e => stageWithin room (.after floor e)) c := by
  rw [agree_stageWithin source hr (Nat.le_succ_of_le hr) _ c hc (Nat.le_refl _)]
  change operatorsFrom (stageWithin room) room floor left c = _
  rw [operatorsFrom, operatorRound, bind_assoc, here_bind, here_bind]
  cases Operator.at? c.current.kind c.secondKind with
  | none => rfl
  | some op =>
    dsimp only
    split
    · rfl
    · rw [bind_map_left]
      exact bind_congr (takeOperator_eq_withRoom hc hr left op) fun _ _ => rfl

/-- A round that goes on has taken an operator. -/
theorem length_operatorRound_lt {floor : Nat} {left e : Expr} (hc : c.Of source)
    (h : (operatorRound floor left c).outcome = .ok (.inl e)) :
    (operatorRound floor left c).cursor.ahead.length < c.ahead.length := by
  rw [operatorRound, here_bind] at h ⊢
  cases hop : Operator.at? c.current.kind c.secondKind with
  | none => rw [hop] at h; cases h
  | some op =>
    rw [hop] at h
    dsimp only at h ⊢
    split at h
    · cases h
    · rename_i hpower
      have hk : c.current.kind ≠ .endOfInput := by
        intro hend
        rw [hend] at hop
        cases hop
      rw [if_neg hpower, cursor_map]
      exact length_takeOperator_lt (stageWithin c.room) c.room left op hc hk

/-- The operators after an operand are read in rounds. -/
theorem loops_operators {room : Nat} (floor : Nat) (left : Expr) (hc : c.Of source)
    (hr : c.ahead.length ≤ room) :
    Loops (operatorRound floor) left c (stageWithin room (.after floor left) c) := by
  generalize hn : c.ahead.length = n at hr
  induction n using Nat.strongRecOn generalizing left c with
  | ind n ih =>
    rw [stageWithin_after_eq_round hc (hn ▸ hr)]
    refine loops_round fun e he => ?_
    have htaken := length_operatorRound_lt hc he
    have hof := (Taking.of_cursor (operatorRound floor left) hc).1
    exact ⟨htaken, ih _ (hn ▸ htaken) e hof rfl (by omega)⟩

/-! ## Items -/

theorem length_lt_of_advances {α ε : Type} {E : ε → Prop} {r : Reading ε α} {Q : Post α} {a : α}
    (h : r.Advances source E c Q) (hQ : ∀ ys a d fs, Q ys a d fs → ys ≠ []) (hc : c.Of source)
    (ha : r.outcome = .ok a) : r.cursor.ahead.length < c.ahead.length := by
  obtain ⟨-, -, ys, hp, hread⟩ := h hc
  have hpos := List.length_pos_iff.2 (hQ _ _ _ _ (hread a ha))
  have hlen := hp.reaches.length_eq
  omega

/-! ## Skipping -/

end Parse

/-- What skipping does about the next token. -/
inductive Move where
  | stop
  /-- Take the token, and stop. -/
  | last
  /-- Take the token, and go on with so many braces open. -/
  | on (depth : Nat)

/-- What to do about the next token. -/
def Region.move (moved : Bool) (depth : Nat) (kind : TokenKind) : Region → Move
  | .statements =>
    if kind = .endOfInput ∨ kind = .rightBrace then .stop
    else if kind = .semicolon then .last
    else if moved ∧ opensStatement kind then .stop
    else .on depth
  | .members =>
    if kind = .endOfInput then .stop
    else if kind = .leftBrace then .on (depth + 1)
    else if kind = .rightBrace then
      match depth with
      | 0 => .stop
      | 1 => .last
      | depth + 2 => .on (depth + 1)
    else if depth = 0 ∧ kind = .semicolon then .last
    else if depth = 0 ∧ moved ∧ (kind = .publicKw ∨ kind = .classKw) then .stop
    else .on depth
  | .toplevel => if kind = .endOfInput ∨ moved ∧ kind = .classKw then .stop else .on depth

/-- How many tokens to skip with so many braces open. -/
def Region.skipFrom (moved : Bool) (depth : Nat) (ts : List Token) : Region → Nat
  | .statements => skipStatement moved ts
  | .members => skipMember moved depth ts
  | .toplevel => skipToClass moved ts

theorem Region.skip_eq_skipFrom (region : Region) (moved : Bool) (ts : List Token) :
    region.skip moved ts = region.skipFrom moved 0 ts := by
  cases region <;> rfl

theorem Region.skipFrom_cons (region : Region) (moved : Bool) (depth : Nat) {t : Token}
    (ts : List Token) (ht : t.kind ≠ .endOfInput) :
    region.skipFrom moved depth (t :: ts) =
      match region.move moved depth t.kind with
      | .stop => 0
      | .last => 1
      | .on depth => region.skipFrom true depth ts + 1 := by
  cases region with
  | statements =>
    rw [skipFrom, skipStatement, move]
    split_ifs <;> simp_all [skipFrom]
  | members =>
    rw [skipFrom, skipMember.eq_def, move.eq_def]
    dsimp only
    split_ifs <;> first | rcases depth with _ | _ | depth | skip
    all_goals simp_all [skipFrom]
  | toplevel =>
    rw [skipFrom, skipToClass, move]
    split_ifs <;> simp_all [skipFrom]

namespace Parse

open Reader

variable {source : String} {c : Cursor}

/-- A round of the loop that skips tokens after a fault in what began where `origin` is. -/
def skipRound (region : Region) (origin : Cursor) : Nat → Reader ε (Nat ⊕ Unit)
  | depth => do
    let c ← here
    match region.move (origin.pos < c.pos) depth c.current.kind with
    | .stop => return .inr ()
    | .last =>
      let _ ← advance
      return .inr ()
    | .on depth =>
      let _ ← advance
      return .inl depth

theorem skipRound_apply (region : Region) (origin : Cursor) (depth : Nat) :
    (skipRound region origin depth c : Reading ε (Nat ⊕ Unit)) =
      match region.move (origin.pos < c.pos) depth c.current.kind with
      | .stop => ⟨.ok (.inr ()), c, []⟩
      | .last => ⟨.ok (.inr ()), c.drop 1, []⟩
      | .on depth => ⟨.ok (.inl depth), c.drop 1, []⟩ := by
  rw [skipRound, here_bind]
  cases region.move (origin.pos < c.pos) depth c.current.kind <;> rfl

/-- Skipping takes its tokens in rounds, each of which takes one or leaves. -/
theorem loops_skipFrom (region : Region) {origin : Cursor} (depth : Nat) (hc : c.Of source)
    (hpos : origin.pos ≤ c.pos) :
    Loops (skipRound region origin) depth c
      (⟨.ok (), c.drop (region.skipFrom (origin.pos < c.pos) depth c.ahead), []⟩ :
        Reading ε Unit) := by
  generalize hn : c.ahead.length = n
  induction n generalizing depth c with
  | zero =>
    have hnil := List.length_eq_zero_iff.1 hn
    have hstop : region.move (origin.pos < c.pos) depth c.current.kind = .stop := by
      rw [Cursor.kind_current_of_ahead_eq_nil hnil]
      cases region <;> rfl
    rw [Cursor.drop_of_ahead_eq_nil hnil]
    apply Loops.leaves
    rw [skipRound_apply, hstop]
  | succ n ih =>
    obtain ⟨t, ts, hts⟩ := List.exists_cons_of_length_eq_add_one hn
    have hcurrent : c.current = t := by rw [Cursor.current_eq, hts, List.headD_cons]
    have ht : t.kind ≠ .endOfInput := (hc.regular.ahead t (by simp [hts])).notEnd
    have hless : origin.pos < (c.drop 1).pos := by
      rw [c.pos_drop, hn]
      omega
    rw [hts, region.skipFrom_cons _ _ _ ht]
    cases hmove : region.move (origin.pos < c.pos) depth t.kind with
    | stop => exact .leaves (by rw [skipRound_apply, hcurrent, hmove]; rfl)
    | last => exact .leaves (by rw [skipRound_apply, hcurrent, hmove])
    | on depth' =>
      have hrest := ih depth' (hc.drop 1) (Nat.le_of_lt hless)
        (by rw [Cursor.ahead_drop, List.length_drop, hn]; rfl)
      have htail : (c.drop 1).ahead = ts := by rw [Cursor.ahead_drop, hts]; rfl
      rw [decide_eq_true hless, htail, Cursor.drop_drop, Nat.add_comm] at hrest
      refine .goesOn (by rw [skipRound_apply, hcurrent, hmove]) ?_ hrest
      rw [htail, hts]
      exact Nat.lt_succ_self _

end Parse

end MiniJava
