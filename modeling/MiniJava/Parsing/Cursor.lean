import MiniJava.Lexical.Lexer
import MiniJava.Source.LineTable

/-!
# Places among the tokens

A `Cursor` is a place among the tokens of a text. Going on stops before the mark of the end, and
every access to the tokens is checked. No check ever fails: see `Cursor.current?_eq` and
`Cursor.isSome_kindAt?`.
-/

namespace MiniJava

/-- The last of some tokens marks the end of a text, and no other does. -/
def MarksEnd (tokens : List Token) : Prop :=
  ∃ front final, tokens = front ++ [final] ∧ final.kind = .endOfInput ∧
    ∀ t ∈ front, t.kind ≠ .endOfInput

/-- A place among the tokens of a text. -/
structure Cursor where
  /-- All tokens of the text, and the mark of its end. -/
  tokens : Array Token
  marksEnd : MarksEnd tokens.toList
  /-- The index of the next token. -/
  pos : Nat
  /-- Where the last token taken ends. -/
  lastStop : Nat

/-- The start of a text. -/
def startOf (source : String) : Cursor where
  tokens := (tokenize source).all.toArray
  marksEnd := ⟨(tokenize source).tokens, endToken source, rfl, rfl, fun _ => kind_ne_of_mem_tokens⟩
  pos := 0
  lastStop := 0

namespace Cursor

/-- The token at an index. -/
def tokenAt (c : Cursor) (index : Nat) : Except AccessFault Token :=
  (c.tokens[index]?).elim (.error .pastEnd) .ok

/-- The next token. From the last one on, which marks the end, it is always that one. -/
def current? (c : Cursor) : Except AccessFault Token :=
  match c.tokens.size with
  | 0 => .error .belowZero
  | last + 1 => c.tokenAt (min c.pos last)

/-! ### What lies ahead -/

/-- The tokens of the text without the mark of its end. -/
def front (c : Cursor) : List Token := c.tokens.toList.dropLast

theorem toList_tokens_ne_nil (c : Cursor) : c.tokens.toList ≠ [] := by
  obtain ⟨front, final, htokens, -⟩ := c.marksEnd
  rw [htokens]
  exact List.append_ne_nil_of_right_ne_nil _ (List.cons_ne_nil _ _)

/-- The mark of the end. -/
def final (c : Cursor) : Token := c.tokens.toList.getLast c.toList_tokens_ne_nil

/-- The tokens ahead, without the mark of the end. -/
def ahead (c : Cursor) : List Token := c.front.drop c.pos

/-- How many tokens are ahead. -/
def room (c : Cursor) : Nat := c.tokens.size - 1 - c.pos

theorem toList_tokens (c : Cursor) : c.tokens.toList = c.front ++ [c.final] :=
  (List.dropLast_concat_getLast _).symm

theorem front_startOf (source : String) : (startOf source).front = (tokenize source).tokens :=
  List.dropLast_concat

theorem ahead_startOf (source : String) : (startOf source).ahead = (tokenize source).tokens :=
  front_startOf source

theorem final_startOf (source : String) : (startOf source).final = endToken source :=
  List.getLast_concat

theorem kind_final (c : Cursor) : c.final.kind = .endOfInput := by
  obtain ⟨front, final, htokens, hfinal, -⟩ := c.marksEnd
  rw [toList_tokens] at htokens
  rwa [(List.append_inj' htokens rfl).2 |> List.singleton_inj.1]

theorem kind_ne_of_mem_front {c : Cursor} {t : Token} (ht : t ∈ c.front) :
    t.kind ≠ .endOfInput := by
  obtain ⟨front, final, htokens, -, hfront⟩ := c.marksEnd
  rw [toList_tokens] at htokens
  exact hfront t ((List.append_inj' htokens rfl).1 ▸ ht)

theorem kind_ne_of_mem_ahead {c : Cursor} {t : Token} (ht : t ∈ c.ahead) : t.kind ≠ .endOfInput :=
  kind_ne_of_mem_front (List.mem_of_mem_drop ht)

theorem size_tokens (c : Cursor) : c.tokens.size = c.front.length + 1 := by
  rw [← Array.length_toList, toList_tokens, List.length_append, List.length_singleton]

theorem room_eq (c : Cursor) : c.room = c.ahead.length := by
  rw [room, ahead, size_tokens, List.length_drop, Nat.add_sub_cancel]

theorem length_le_room (c : Cursor) : c.ahead.length ≤ c.room := Nat.le_of_eq c.room_eq.symm

theorem getElem?_tokens (c : Cursor) (index : Nat) :
    c.tokens[index]? = (c.front ++ [c.final])[index]? := by
  rw [← toList_tokens, Array.getElem?_toList]

/-- The next token is found, wherever the place is. -/
theorem current?_eq (c : Cursor) : c.current? = .ok (c.ahead.headD c.final) := by
  rw [current?, size_tokens]
  dsimp only
  rw [tokenAt, getElem?_tokens, ahead]
  rcases Nat.lt_or_ge c.pos c.front.length with hlt | hge
  · rw [Nat.min_eq_left (Nat.le_of_lt hlt), List.getElem?_append_left hlt,
      List.getElem?_eq_getElem hlt, List.drop_eq_getElem_cons hlt]
    rfl
  · rw [Nat.min_eq_right hge, List.getElem?_concat_length, List.drop_eq_nil_of_le hge]
    rfl

theorem isSome_current? (c : Cursor) : c.current?.toOption.isSome := by
  rw [current?_eq]
  rfl

/-- The next token; after the last one, the mark of the end. -/
def current (c : Cursor) : Token := c.current?.toOption.get c.isSome_current?

theorem current_eq (c : Cursor) : c.current = c.ahead.headD c.final := by
  simp only [current, current?_eq]
  rfl

/-- The kind of the token after the next one. -/
def secondKind (c : Cursor) : TokenKind := (c.tokens[c.pos + 1]?).elim .endOfInput Token.kind

theorem secondKind_eq_match (c : Cursor) :
    c.secondKind =
      match c.ahead with
      | _ :: t :: _ => t.kind
      | _ => .endOfInput := by
  rw [secondKind, getElem?_tokens, ahead]
  rcases Nat.lt_or_ge (c.pos + 1) c.front.length with hlt | hge
  · have hpos : c.pos < c.front.length := Nat.lt_of_succ_lt hlt
    rw [List.getElem?_append_left hlt, List.getElem?_eq_getElem hlt,
      List.drop_eq_getElem_cons hpos, List.drop_eq_getElem_cons hlt]
    rfl
  · have hlength : (c.front.drop c.pos).length ≤ 1 := by
      rw [List.length_drop]
      omega
    have hend : ((c.front ++ [c.final])[c.pos + 1]?).elim .endOfInput Token.kind = .endOfInput := by
      rw [List.getElem?_append_right hge]
      cases c.pos + 1 - c.front.length with
      | zero => exact c.kind_final
      | succ n => rfl
    rw [hend]
    match c.front.drop c.pos, hlength with
    | [], _ | [_], _ => rfl

/-! ### Looking a token up -/

/-- The byte offsets at which the tokens start. -/
def starts (c : Cursor) : Array Nat := c.tokens.map (·.span.start)

/-- The kind of the token that starts at a byte offset, if one does. -/
def kindAt? (c : Cursor) (offset : Nat) : Except AccessFault (Option TokenKind) :=
  match Slot.search c.starts offset 0 c.starts.size (Nat.le_refl _) with
  | .found index => (c.tokenAt index).map fun t => some t.kind
  | .gap _ => .ok none

/-- Looking a token up does not leave the tokens, at whatever offset. -/
theorem isSome_kindAt? (c : Cursor) (offset : Nat) : (c.kindAt? offset).toOption.isSome := by
  rw [kindAt?]
  cases hslot : Slot.search c.starts offset 0 c.starts.size (Nat.le_refl _) with
  | found index =>
    have hlt := Slot.lt_size_of_search hslot
    rw [starts, Array.size_map] at hlt
    dsimp only
    rw [tokenAt, Array.getElem?_eq_getElem hlt]
    rfl
  | gap index => rfl

/-- The kind of the token that starts at a byte offset, if one does. -/
def kindAt (c : Cursor) (offset : Nat) : Option TokenKind :=
  (c.kindAt? offset).toOption.get (c.isSome_kindAt? offset)

theorem kindAt_of_kindAt? {c : Cursor} {offset : Nat} {found : Option TokenKind}
    (h : c.kindAt? offset = .ok found) : c.kindAt offset = found := by
  simp only [kindAt, h]
  rfl

theorem kindAt?_eq (c : Cursor) (offset : Nat) : c.kindAt? offset = .ok (c.kindAt offset) := by
  have hsome := c.isSome_kindAt? offset
  cases hkind : c.kindAt? offset with
  | error fault => rw [hkind] at hsome; cases hsome
  | ok found => rw [kindAt_of_kindAt? hkind]

/-- Where in the text a place is does not matter. -/
theorem kindAt_congr {c d : Cursor} (h : c.tokens = d.tokens) (offset : Nat) :
    c.kindAt offset = d.kindAt offset := by
  simp only [kindAt, kindAt?, starts, tokenAt, h]

/-! ### Going on -/

/-- The place after the next token. The mark of the end is never passed. -/
def next (c : Cursor) : Cursor :=
  if c.current.kind = .endOfInput then c
  else { c with pos := c.pos + 1, lastStop := c.current.span.stop }

/-- The place after some more tokens. -/
def drop (c : Cursor) : Nat → Cursor
  | 0 => c
  | n + 1 => c.next.drop n

theorem next_of_ahead_eq_nil {c : Cursor} (h : c.ahead = []) : c.next = c := by
  rw [next, current_eq, h]
  exact if_pos c.kind_final

theorem next_of_ahead_eq_cons {c : Cursor} {t : Token} {ts : List Token} (h : c.ahead = t :: ts) :
    c.next = { c with pos := c.pos + 1, lastStop := t.span.stop } := by
  have ht : t.kind ≠ .endOfInput := kind_ne_of_mem_ahead (h ▸ List.mem_cons_self)
  rw [next, current_eq, h]
  exact if_neg ht

@[simp] theorem tokens_next (c : Cursor) : c.next.tokens = c.tokens := by
  unfold next
  split <;> rfl

@[simp] theorem ahead_next (c : Cursor) : c.next.ahead = c.ahead.tail := by
  cases h : c.ahead with
  | nil => rw [next_of_ahead_eq_nil h, h, List.tail_nil]
  | cons t ts =>
    rw [next_of_ahead_eq_cons h, List.tail_cons]
    change c.front.drop (c.pos + 1) = ts
    rw [← List.tail_drop]
    exact congrArg List.tail h

theorem lastStop_next (c : Cursor) :
    c.next.lastStop = (c.ahead.head?.map (·.span.stop)).getD c.lastStop := by
  cases h : c.ahead with
  | nil => rw [next_of_ahead_eq_nil h, List.head?_nil, Option.map_none, Option.getD_none]
  | cons t ts => rw [next_of_ahead_eq_cons h, List.head?_cons, Option.map_some, Option.getD_some]

theorem drop_zero (c : Cursor) : c.drop 0 = c := rfl

theorem drop_drop (c : Cursor) (m n : Nat) : (c.drop m).drop n = c.drop (m + n) := by
  induction m generalizing c with
  | zero => rw [drop_zero, Nat.zero_add]
  | succ m ih => rw [Nat.succ_add, drop, drop, ih]

/-- At the end of the text no token is taken. -/
theorem drop_of_ahead_eq_nil {c : Cursor} (h : c.ahead = []) (n : Nat) : c.drop n = c := by
  induction n with
  | zero => rfl
  | succ n ih => rw [drop, next_of_ahead_eq_nil h, ih]

@[simp] theorem tokens_drop (c : Cursor) (n : Nat) : (c.drop n).tokens = c.tokens := by
  induction n generalizing c with
  | zero => rfl
  | succ n ih => rw [drop, ih, tokens_next]

theorem final_congr {c d : Cursor} (h : c.tokens = d.tokens) : c.final = d.final := by
  simp only [final, h]

@[simp] theorem final_drop (c : Cursor) (n : Nat) : (c.drop n).final = c.final :=
  final_congr (c.tokens_drop n)

@[simp] theorem ahead_drop (c : Cursor) (n : Nat) : (c.drop n).ahead = c.ahead.drop n := by
  induction n generalizing c with
  | zero => rfl
  | succ n ih => rw [drop, ih, ahead_next, List.drop_tail]

theorem lastStop_drop (c : Cursor) (n : Nat) :
    (c.drop n).lastStop = ((c.ahead.take n).getLast?.map (·.span.stop)).getD c.lastStop := by
  induction n generalizing c with
  | zero => rfl
  | succ n ih =>
    rw [drop, ih, ahead_next, lastStop_next]
    cases c.ahead with
    | nil => simp
    | cons t ts =>
      rw [List.tail_cons, List.take_succ_cons, List.getLast?_cons]
      cases (ts.take n).getLast? <;> rfl

/-- Where fewer tokens of the same text are ahead, some were passed. -/
theorem pos_lt_pos {c d : Cursor} (h : d.tokens = c.tokens) (hlt : d.room < c.room) :
    c.pos < d.pos := by
  rw [room, room, h] at hlt
  omega

theorem room_lt_room {c d : Cursor} (h : d.tokens = c.tokens) (hmore : c.ahead ≠ [])
    (hlt : c.pos < d.pos) : d.room < c.room := by
  have hpos := List.length_pos_iff.2 hmore
  rw [← room_eq, room] at hpos
  rw [room, room, h]
  omega

theorem pos_drop (c : Cursor) (n : Nat) : (c.drop n).pos = c.pos + min n c.ahead.length := by
  induction n generalizing c with
  | zero => rw [drop_zero, Nat.zero_min, Nat.add_zero]
  | succ n ih =>
    rw [drop, ih, ahead_next, List.length_tail]
    cases h : c.ahead with
    | nil => rw [next_of_ahead_eq_nil h, List.length_nil, Nat.zero_sub, Nat.min_zero, Nat.min_zero]
    | cons t ts =>
      rw [next_of_ahead_eq_cons h, List.length_cons, Nat.add_sub_cancel, Nat.add_assoc,
        Nat.succ_min_succ, Nat.add_comm 1]

end Cursor

end MiniJava
