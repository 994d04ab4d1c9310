import MiniJava.Proofs.Lexing.Tiling
import MiniJava.Proofs.Reading.Analysis

/-!
# Places of a text

A place of a text has some of its tokens behind and the others ahead. A passage leads from one place
to another: the tokens between them tell where in the text it starts and where it ends.
-/

namespace MiniJava

namespace Cursor

/-- Where the next token starts. -/
def nextStart (c : Cursor) : Nat := c.current.span.start

/-- Where the last of some tokens ends. -/
def stopOf (ts : List Token) : Nat := (ts.getLast?.map (·.span.stop)).getD 0

/-- The place is one of a text: some of its tokens were taken, and the others lie ahead. -/
structure Of (c : Cursor) (source : String) : Prop where
  tokens : c.tokens.toList = (tokenize source).all
  pos_le : c.pos ≤ (tokenize source).tokens.length
  lastStop : c.lastStop = stopOf ((tokenize source).tokens.take c.pos)

theorem of_startOf (source : String) : (startOf source).Of source := ⟨rfl, Nat.zero_le _, rfl⟩

namespace Of

variable {source : String} {c d : Cursor}

theorem front_eq (h : c.Of source) : c.front = (tokenize source).tokens := by
  rw [front, h.tokens, Tokenization.all, List.dropLast_concat]

theorem final_eq (h : c.Of source) : c.final = endToken source := by
  have hall := c.toList_tokens
  rw [h.tokens, h.front_eq] at hall
  exact (List.singleton_inj.1 (List.append_cancel_left hall)).symm

theorem ahead_eq (h : c.Of source) : c.ahead = (tokenize source).tokens.drop c.pos := by
  rw [ahead, h.front_eq]

/-- Some of the tokens were taken. -/
theorem exists_taken (h : c.Of source) :
    ∃ taken, (tokenize source).tokens = taken ++ c.ahead ∧ c.lastStop = stopOf taken :=
  ⟨_, by rw [h.ahead_eq, List.take_append_drop], h.lastStop⟩

theorem next (h : c.Of source) : c.next.Of source := by
  cases hahead : c.ahead with
  | nil => rwa [next_of_ahead_eq_nil hahead]
  | cons t ts =>
    have hdrop := h.ahead_eq.symm.trans hahead
    have hlt : c.pos < (tokenize source).tokens.length := by
      by_contra hge
      rw [List.drop_eq_nil_of_le (Nat.le_of_not_lt hge)] at hdrop
      cases hdrop
    rw [next_of_ahead_eq_cons hahead]
    refine ⟨h.tokens, hlt, ?_⟩
    rw [List.drop_eq_getElem_cons hlt] at hdrop
    rw [List.take_succ_eq_append_getElem hlt, (List.cons.inj hdrop).1, stopOf,
      List.getLast?_concat]
    rfl

theorem drop (h : c.Of source) (n : Nat) : (c.drop n).Of source := by
  induction n generalizing c with
  | zero => exact h
  | succ n ih => exact ih h.next

theorem regular (h : c.Of source) : c.Regular := by
  refine ⟨fun t ht => ?_, .of_pairwise ?_⟩
  · rw [h.ahead_eq] at ht
    exact regular_of_mem_tokens (List.mem_of_mem_drop ht)
  · rw [Cursor.starts, Array.toList_map, h.tokens]
    exact starts_increasing source

theorem current_mem (h : c.Of source) : c.current ∈ (tokenize source).all := by
  obtain ⟨taken, htokens, -⟩ := h.exists_taken
  rw [Tokenization.all, htokens, current_eq]
  cases c.ahead with
  | nil =>
    rw [List.headD_nil, h.final_eq]
    exact List.mem_append_right _ List.mem_cons_self
  | cons t ts => exact List.mem_append_left _ (List.mem_append_right _ List.mem_cons_self)

theorem isValid_nextStart (h : c.Of source) : String.Pos.Raw.IsValid source ⟨c.nextStart⟩ :=
  (valid_span_of_mem_all h.current_mem).start_boundary

theorem isValid_lastStop (h : c.Of source) : String.Pos.Raw.IsValid source ⟨c.lastStop⟩ := by
  obtain ⟨taken, htokens, hstop⟩ := h.exists_taken
  rw [hstop, stopOf]
  cases hlast : taken.getLast? with
  | none => exact isValid_of_toList_eq (List.nil_append source.toList).symm
  | some t =>
    have ht : t ∈ (tokenize source).tokens := by
      rw [htokens]
      exact List.mem_append_left _ (List.mem_of_getLast? hlast)
    exact (valid_span_of_mem_tokens ht).stop_boundary

/-- The tokens behind end before the next one starts. -/
theorem lastStop_le (h : c.Of source) : c.lastStop ≤ c.nextStart := by
  obtain ⟨taken, htokens, hstop⟩ := h.exists_taken
  rw [hstop, stopOf]
  cases hlast : taken.getLast? with
  | none => exact Nat.zero_le _
  | some t =>
    have hordered := ordered_tokens source
    rw [Tokenization.all, htokens, List.append_assoc] at hordered
    apply ((List.pairwise_append.1 hordered).2.2 t (List.mem_of_getLast? hlast) c.current ?_).2
    rw [current_eq]
    cases c.ahead with
    | nil => simp [h.final_eq, tokenize]
    | cons u us => exact List.mem_cons_self

theorem lastStop_le_size (h : c.Of source) : c.lastStop ≤ source.utf8ByteSize :=
  h.isValid_lastStop.le_rawEndPos

theorem nextStart_le_size (h : c.Of source) : c.nextStart ≤ source.utf8ByteSize :=
  h.isValid_nextStart.le_rawEndPos

/-- What goes from the start of a token to the end of one is a span of the text. -/
theorem valid_span (hc : c.Of source) (hd : d.Of source) (h : c.nextStart ≤ d.lastStop) :
    (⟨c.nextStart, d.lastStop⟩ : Span).Valid source :=
  ⟨h, hd.lastStop_le_size, hc.isValid_nextStart, hd.isValid_lastStop⟩

/-- A span from where a token starts up to the last token taken is one of the text. -/
theorem valid_spanFrom (hc : c.Of source) (hd : d.Of source) :
    (⟨c.nextStart, max c.nextStart d.lastStop⟩ : Span).Valid source := by
  rcases Nat.le_total c.nextStart d.lastStop with h | h
  · rw [Nat.max_eq_right h]
    exact hc.valid_span hd h
  · rw [Nat.max_eq_left h]
    exact ⟨Nat.le_refl _, hc.nextStart_le_size, hc.isValid_nextStart, hc.isValid_nextStart⟩

theorem valid_point (h : c.Of source) : (Span.point c.nextStart).Valid source :=
  ⟨Nat.le_refl _, h.nextStart_le_size, h.isValid_nextStart, h.isValid_nextStart⟩

end Of

end Cursor

/-- From a place `c` of a text one comes to its place `d` by taking tokens that spell `ys`. -/
structure Passage (source : String) (c : Cursor) (ys : List Terminal) (d : Cursor) : Prop where
  origin : c.Of source
  goal : d.Of source
  reaches : c.Reaches ys d

namespace Passage

variable {source : String} {c d e : Cursor} {ys zs : List Terminal}

theorem refl (h : c.Of source) : Passage source c [] c := ⟨h, h, .refl c⟩

theorem trans (h : Passage source c ys d) (h' : Passage source d zs e) :
    Passage source c (ys ++ zs) e :=
  ⟨h.origin, h'.goal, h.reaches.trans h'.reaches⟩

theorem drop (h : c.Of source) (n : Nat) :
    Passage source c ((c.ahead.take n).map Token.terminal) (c.drop n) :=
  ⟨h, h.drop n, c.reaches_drop n⟩

/-- The tokens that are taken stand in a row in the text. -/
theorem exists_segment (h : Passage source c ys d) : ∃ before ts,
    (tokenize source).tokens = before ++ (ts ++ d.ahead) ∧ c.ahead = ts ++ d.ahead ∧
      ts.map Token.terminal = ys ∧
        d.lastStop = (ts.getLast?.map (·.span.stop)).getD c.lastStop := by
  obtain ⟨horigin, hgoal, ts, hahead, hts, -⟩ := h
  obtain ⟨before, hc, hcstop⟩ := horigin.exists_taken
  obtain ⟨taken, hd, hdstop⟩ := hgoal.exists_taken
  refine ⟨before, ts, by rw [hc, hahead], hahead, hts, ?_⟩
  rw [hc, hahead, ← List.append_assoc] at hd
  obtain rfl := List.append_cancel_right hd
  rw [hdstop, hcstop, Cursor.stopOf, Cursor.stopOf, List.getLast?_append]
  cases ts.getLast? <;> rfl

/-- A passage that takes tokens ends after the start of the first one. -/
theorem lt (h : Passage source c ys d) (hys : ys ≠ []) : c.nextStart < d.lastStop := by
  obtain ⟨before, ts, htokens, hahead, hts, hstop⟩ := h.exists_segment
  cases ts with
  | nil => exact absurd hts.symm hys
  | cons first ts =>
    have hordered := pairwise_tokens source
    rw [htokens] at hordered
    have hmem : ∀ t ∈ first :: ts, t ∈ (tokenize source).tokens := by
      intro t ht
      rw [htokens]
      exact List.mem_append_right _ (List.mem_append_left _ ht)
    have hfirst : c.nextStart = first.span.start := by
      rw [Cursor.nextStart, Cursor.current_eq, hahead]
      rfl
    obtain ⟨last, hlast⟩ := List.getLast?_isSome.2 (List.cons_ne_nil first ts) |>
      Option.isSome_iff_exists.1
    have hlt := (span_of_mem_tokens (hmem first List.mem_cons_self)).1
    have hlt' := (span_of_mem_tokens (hmem last (List.mem_of_getLast? hlast))).1
    rw [hfirst, hstop, hlast, Option.map_some, Option.getD_some]
    rcases List.mem_cons.1 (List.mem_of_getLast? hlast) with rfl | hrest
    · exact hlt
    · have hpairs := ((List.pairwise_append.1 hordered).2.1)
      have hle := List.rel_of_pairwise_cons hpairs (List.mem_append_left _ hrest)
      omega

theorem lastStop_mono (h : Passage source c ys d) : c.lastStop ≤ d.lastStop := by
  cases ys with
  | nil =>
    obtain ⟨before, ts, -, -, hts, hstop⟩ := h.exists_segment
    obtain rfl := List.map_eq_nil_iff.1 hts
    exact Nat.le_of_eq hstop.symm
  | cons y ys =>
    have hlt := h.lt (List.cons_ne_nil y ys)
    have hle := h.origin.lastStop_le
    omega

theorem nextStart_mono (h : Passage source c ys d) : c.nextStart ≤ d.nextStart := by
  cases ys with
  | nil =>
    obtain ⟨taken, hahead, hnil, htokens⟩ := h.reaches
    obtain rfl := List.map_eq_nil_iff.1 hnil
    rw [Cursor.nextStart, Cursor.nextStart, Cursor.current_eq, Cursor.current_eq, hahead,
      Cursor.final_congr htokens]
    exact Nat.le_refl _
  | cons y ys =>
    have hlt := h.lt (List.cons_ne_nil y ys)
    have hle := h.goal.lastStop_le
    omega

end Passage

end MiniJava
