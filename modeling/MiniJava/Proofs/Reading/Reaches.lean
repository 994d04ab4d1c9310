import MiniJava.Parsing.Analysis
import MiniJava.Proofs.Grammar.Terminal
import MiniJava.Proofs.Lines.Search

/-!
# Places among the tokens

`Cursor.Reaches` says how one place is come to from another: tokens are taken from the front, and
what they spell is kept. A place is regular if what lies ahead of it came from some text.
-/

namespace MiniJava

/-- The kind of the first terminal; after the last one, the mark of the end. -/
def Terminal.headKind (ys : List Terminal) : TokenKind := (ys.head?.map kind).getD .endOfInput

/-- The operator that some terminals start with. -/
def Terminal.operator? (ys : List Terminal) : Option Operator :=
  Operator.at? (headKind ys) (headKind ys.tail)

namespace Cursor

/-- What lies ahead, as the grammar sees it. -/
def terminals (c : Cursor) : List Terminal := c.ahead.map Token.terminal

/-- The tokens ahead are regular, and all tokens start one after the other. -/
structure Regular (c : Cursor) : Prop where
  ahead : ∀ t ∈ c.ahead, t.Regular
  starts : Increasing c.starts

/-- From `c` one comes to `d` by taking tokens that spell `ys`. -/
def Reaches (c : Cursor) (ys : List Terminal) (d : Cursor) : Prop :=
  ∃ taken, c.ahead = taken ++ d.ahead ∧ taken.map Token.terminal = ys ∧ d.tokens = c.tokens

/-- Ahead of `c` lie tokens that spell `ys`. -/
structure Sees (c : Cursor) (ys : List Terminal) : Prop where
  terminals_eq : c.terminals = ys

/-- The operator that what lies ahead starts with. -/
def operator? (c : Cursor) : Option Operator := Operator.at? c.current.kind c.secondKind

variable {c d e : Cursor} {ys zs : List Terminal} {y : Terminal}

/-! ## Reaching -/

theorem Reaches.refl (c : Cursor) : c.Reaches [] c := ⟨[], rfl, rfl, rfl⟩

theorem Reaches.trans (h : c.Reaches ys d) (h' : d.Reaches zs e) : c.Reaches (ys ++ zs) e := by
  obtain ⟨taken, ha, rfl, hf⟩ := h
  obtain ⟨taken', ha', rfl, hf'⟩ := h'
  exact ⟨taken ++ taken', by rw [ha, ha', List.append_assoc], List.map_append, hf'.trans hf⟩

/-- What was taken is known from the places alone. -/
theorem Reaches.unique (h : c.Reaches ys d) (h' : c.Reaches zs d) : ys = zs := by
  obtain ⟨taken, ha, rfl, -⟩ := h
  obtain ⟨taken', ha', rfl, -⟩ := h'
  rw [List.append_cancel_right (ha.symm.trans ha')]

theorem reaches_drop (c : Cursor) (n : Nat) :
    c.Reaches ((c.ahead.take n).map Token.terminal) (c.drop n) :=
  ⟨c.ahead.take n, by rw [ahead_drop, List.take_append_drop], rfl, c.tokens_drop n⟩

theorem Reaches.terminals_eq (h : c.Reaches ys d) : c.terminals = ys ++ d.terminals := by
  obtain ⟨taken, ha, rfl, -⟩ := h
  rw [terminals, ha, List.map_append, terminals]

theorem Reaches.length_eq (h : c.Reaches ys d) : c.ahead.length = ys.length + d.ahead.length := by
  obtain ⟨taken, ha, rfl, -⟩ := h
  rw [ha, List.length_append, List.length_map]

theorem Reaches.length_ahead_le {n : Nat} (h : c.Reaches ys d) (hc : c.ahead.length ≤ n) :
    d.ahead.length ≤ n := by
  have hl := h.length_eq
  omega

/-- After some tokens were taken, fewer are ahead. -/
theorem Reaches.length_ahead_lt {n : Nat} (h : c.Reaches ys d) (hys : ys ≠ [])
    (hc : c.ahead.length ≤ n + 1) : d.ahead.length ≤ n := by
  have hl := h.length_eq
  have hpos := List.length_pos_iff.2 hys
  omega

/-- There is a place after the first of the tokens that were taken. -/
theorem Reaches.exists_of_append (h : c.Reaches (ys ++ zs) e) : ∃ d, c.Reaches ys d := by
  have hall := h.terminals_eq
  have hd := c.reaches_drop ys.length
  rw [List.map_take, ← terminals, hall, List.append_assoc, List.take_left] at hd
  exact ⟨_, hd⟩

theorem Reaches.regular (h : c.Reaches ys d) (hc : c.Regular) : d.Regular := by
  obtain ⟨taken, ha, -, htokens⟩ := h
  refine ⟨fun t ht => hc.ahead t ?_, ?_⟩
  · rw [ha]
    exact List.mem_append_right _ ht
  · rw [Cursor.starts, htokens]
    exact hc.starts

/-! ## The next token -/

/-- The next token is the first of those that are taken. -/
theorem Reaches.kind_current (h : c.Reaches (y :: ys) d) : c.current.kind = y.kind := by
  obtain ⟨taken, hahead, htaken, -⟩ := h
  obtain ⟨t, ts, rfl, rfl, -⟩ := List.map_eq_cons_iff.1 htaken
  rw [current_eq, hahead, List.cons_append, List.headD_cons, Token.kind_terminal]

theorem kind_current_of_ahead_eq_nil (h : c.ahead = []) : c.current.kind = .endOfInput := by
  rw [current_eq, h]
  exact c.kind_final

theorem exists_ahead_eq (h : c.current.kind ≠ .endOfInput) :
    ∃ ts, c.ahead = c.current :: ts := by
  cases ha : c.ahead with
  | nil => exact absurd (kind_current_of_ahead_eq_nil ha) h
  | cons t ts => exact ⟨ts, by rw [current_eq, ha, List.headD_cons]⟩

theorem Regular.current (hc : c.Regular) (h : c.current.kind ≠ .endOfInput) :
    c.current.Regular := by
  obtain ⟨ts, ha⟩ := exists_ahead_eq h
  exact hc.ahead _ (ha ▸ List.mem_cons_self)

theorem reaches_drop_one (h : c.current.kind ≠ .endOfInput) :
    c.Reaches [c.current.terminal] (c.drop 1) := by
  obtain ⟨ts, ha⟩ := exists_ahead_eq h
  have hd := c.reaches_drop 1
  rwa [ha, List.take_succ_cons, List.take_zero, List.map_singleton] at hd

/-- Taking a keyword, an operator or a punctuation mark. -/
theorem Regular.reaches_word {kind : TokenKind} (hc : c.Regular) (h : c.current.kind = kind)
    (hs : kind.spelling?.isSome) : c.Reaches [.word kind] (c.drop 1) := by
  have hne : c.current.kind ≠ .endOfInput := by
    rintro he
    rw [← h, he] at hs
    exact absurd hs (by decide)
  rw [← (hc.current hne).terminal_word h hs]
  exact reaches_drop_one hne

theorem kind_current_drop_one {kind : TokenKind} (h : c.secondKind = kind)
    (hk : kind ≠ .endOfInput) : (c.drop 1).current.kind = kind := by
  rw [secondKind_eq_match] at h
  split at h
  next t t' ts ha => rwa [current_eq, ahead_drop, ha]
  next => exact absurd h.symm hk

theorem Regular.ahead_eq_nil (hc : c.Regular) (h : c.current.kind = .endOfInput) :
    c.ahead = [] := by
  cases ha : c.ahead with
  | nil => rfl
  | cons t ts =>
    have ht : c.current = t := by rw [Cursor.current_eq, ha, List.headD_cons]
    exact absurd (ht ▸ h) (hc.ahead t (ha ▸ List.mem_cons_self)).notEnd

/-! ## Looking a token up -/

theorem current_mem_tokens (c : Cursor) : c.current ∈ c.tokens.toList := by
  rw [toList_tokens, current_eq]
  cases ha : c.ahead with
  | nil => exact List.mem_append_right _ List.mem_cons_self
  | cons t ts =>
    have ht : t ∈ c.ahead := ha ▸ List.mem_cons_self
    exact List.mem_append_left _ (List.mem_of_mem_drop ht)

/-- Each token is found where it starts. -/
theorem Regular.kindAt_of_mem (hc : c.Regular) {t : Token} (ht : t ∈ c.tokens.toList) :
    c.kindAt t.span.start = some t.kind := by
  obtain ⟨i, hi, rfl⟩ := List.mem_iff_getElem.1 ht
  have hget : c.tokens[i]? = some c.tokens.toList[i] := by
    rw [← Array.getElem?_toList, List.getElem?_eq_getElem hi]
  have hstart : c.starts[i]? = some c.tokens.toList[i].span.start := by
    rw [Cursor.starts, Array.getElem?_map, hget, Option.map_some]
  have htells := Slot.tells_search_all hc.starts c.tokens.toList[i].span.start
  apply kindAt_of_kindAt?
  rw [kindAt?]
  cases hslot : Slot.search c.starts c.tokens.toList[i].span.start 0 c.starts.size
    (Nat.le_refl _) with
  | found index =>
    rw [hslot, Slot.Tells] at htells
    -- no other token starts there
    obtain rfl : index = i := by
      rcases Nat.lt_trichotomy index i with hlt | heq | hlt
      · exact absurd (hc.starts hlt htells hstart) (Nat.lt_irrefl _)
      · exact heq
      · exact absurd (hc.starts hlt hstart htells) (Nat.lt_irrefl _)
    dsimp only
    rw [tokenAt, hget]
    rfl
  | gap index =>
    rw [hslot, Slot.Tells] at htells
    obtain ⟨-, hbelow, habove⟩ := htells
    rcases Nat.lt_or_ge i index with hlt | hge
    · exact absurd (hbelow i _ hlt hstart) (Nat.lt_irrefl _)
    · exact absurd (habove i _ hge hstart) (Nat.lt_irrefl _)

/-- What is found at an offset is a token that starts there, and nothing else. -/
theorem Regular.kindAt_eq_some_iff (hc : c.Regular) {offset : Nat} {kind : TokenKind} :
    c.kindAt offset = some kind ↔
      ∃ t ∈ c.tokens.toList, t.span.start = offset ∧ t.kind = kind := by
  constructor
  · intro h
    have htells := Slot.tells_search_all hc.starts offset
    cases hslot : Slot.search c.starts offset 0 c.starts.size (Nat.le_refl _) with
    | found index =>
      rw [hslot, Slot.Tells, Cursor.starts, Array.getElem?_map, Option.map_eq_some_iff] at htells
      obtain ⟨t, hget, rfl⟩ := htells
      have ht : t ∈ c.tokens.toList := List.mem_of_getElem? ((Array.getElem?_toList).trans hget)
      rw [hc.kindAt_of_mem ht] at h
      exact ⟨t, ht, rfl, Option.some.inj h⟩
    | gap index =>
      have hnone : c.kindAt offset = none := kindAt_of_kindAt? (by rw [kindAt?, hslot])
      rw [hnone] at h
      cases h
  · rintro ⟨t, ht, rfl, rfl⟩
    exact hc.kindAt_of_mem ht

/-- The next token is found where it starts. -/
theorem Regular.kindAt_current (hc : c.Regular) :
    c.kindAt c.current.span.start = some c.current.kind :=
  hc.kindAt_eq_some_iff.2 ⟨c.current, c.current_mem_tokens, rfl, rfl⟩

/-! ## Places with given terminals ahead -/

theorem Sees.terminal_current (h : c.Sees (y :: ys)) : c.current.terminal = y := by
  obtain ⟨t, ts, ha, ht, -⟩ := List.map_eq_cons_iff.1 h.terminals_eq
  rw [current_eq, ha, List.headD_cons, ht]

theorem Sees.kind_current (h : c.Sees (y :: ys)) : c.current.kind = y.kind := by
  rw [← h.terminal_current, Token.kind_terminal]

theorem Sees.lexeme_current {n : String} (h : c.Sees (.ident n :: ys)) : c.current.lexeme = n := by
  have ht := h.terminal_current
  rw [Token.terminal_ident h.kind_current] at ht
  simpa [Terminal.ident] using ht

theorem Sees.drop_one (h : c.Sees (y :: ys)) : (c.drop 1).Sees ys := by
  obtain ⟨t, ts, ha, -, hts⟩ := List.map_eq_cons_iff.1 h.terminals_eq
  refine ⟨?_⟩
  rw [terminals, ahead_drop, ha, List.drop_succ_cons, List.drop_zero, hts]

theorem Sees.length_eq (h : c.Sees ys) : c.ahead.length = ys.length := by
  rw [← h.terminals_eq, terminals, List.length_map]

theorem Sees.length_ahead_le {n : Nat} (hc : c.Sees ys) (hd : d.Sees zs)
    (h : zs.length ≤ ys.length) (hroom : c.ahead.length ≤ n) : d.ahead.length ≤ n := by
  rw [hc.length_eq] at hroom
  rw [hd.length_eq]
  omega

theorem Sees.length_ahead_lt {n : Nat} (hc : c.Sees ys) (hd : d.Sees zs)
    (h : zs.length < ys.length) (hroom : c.ahead.length ≤ n + 1) : d.ahead.length ≤ n := by
  rw [hc.length_eq] at hroom
  rw [hd.length_eq]
  omega

theorem Sees.kind_current_eq (h : c.Sees ys) : c.current.kind = Terminal.headKind ys := by
  cases ys with
  | nil =>
    have hnil : c.ahead = [] := List.map_eq_nil_iff.1 h.terminals_eq
    rw [kind_current_of_ahead_eq_nil hnil]
    rfl
  | cons y ys => exact h.kind_current

theorem Sees.secondKind_eq (h : c.Sees ys) : c.secondKind = Terminal.headKind ys.tail := by
  rw [← h.terminals_eq, terminals, secondKind_eq_match]
  rcases c.ahead with _ | ⟨t, _ | ⟨t', ts⟩⟩ <;> rfl

theorem Sees.operator?_eq (h : c.Sees ys) : c.operator? = Terminal.operator? ys := by
  rw [operator?, h.kind_current_eq, h.secondKind_eq, Terminal.operator?]

end Cursor

end MiniJava
