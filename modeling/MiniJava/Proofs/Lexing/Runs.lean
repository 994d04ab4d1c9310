import MiniJava.Proofs.Lexing.Tiling

/-!
# Runs of a lexer

A lexer can be asked for its next token or for all that are left, it can be started again, copied,
and asked for positions, in any order. At each moment the tokens that it gave since its last start
and those that a copy would still give make up the tokens of the text, and the errors that it shows
are those that begin before the end of the last token given.
-/

namespace MiniJava

/--
Of the errors of a text, those that begin before the end of the last of the tokens `given`. There
are none as long as no token was given.
-/
def Tokenization.errorsBefore (t : Tokenization) (given : List Token) : List LexicalError :=
  match given.getLast? with
  | none => []
  | some last => t.errors.filter fun e => e.span.start < last.span.stop

theorem Tokenization.errorsBefore_eq {t : Tokenization} {given : List Token} {last : Token}
    (h : given.getLast? = some last) :
    t.errorsBefore given = t.errors.filter fun e => e.span.start < last.span.stop := by
  rw [errorsBefore, h]

namespace Lexer

/-! ## Requests and answers -/

/-- What a lexer can be asked for. -/
inductive Request where
  | next
  | collect
  | restart
  /-- To copy the lexer and to run the copy to its end. -/
  | fork
  | position (offset : Nat)

/-- What a lexer answers. -/
inductive Answer where
  | next (token : Option Token)
  | collected (tokens : List Token)
  | restarted
  /-- The tokens that a copy gave, and the errors that it shows at its end. -/
  | forked (tokens : List Token) (errors : List LexicalError)
  | position (p : Position)
deriving DecidableEq

/-- The answer to a request, and the lexer after it. -/
def answer (l : Lexer) : Request → Answer × Lexer
  | .next => (.next l.next.1, l.next.2)
  | .collect => (.collected l.collect.1, l.collect.2)
  | .restart => (.restarted, l.restart)
  | .fork => (.forked l.collect.1 l.collect.2.errors, l)
  | .position offset => (.position (l.position offset), l)

/-- The answers to some requests, one after the other, and the lexer after them. -/
def run (l : Lexer) : List Request → List Answer × Lexer
  | [] => ([], l)
  | r :: rs => ((l.answer r).1 :: ((l.answer r).2.run rs).1, ((l.answer r).2.run rs).2)

/-- The tokens given since the last start, if `given` were given before this answer. -/
def Answer.givenAfter (given : List Token) : Answer → List Token
  | next token => given ++ token.toList
  | collected tokens => given ++ tokens
  | restarted => []
  | forked .. | position _ => given

/-- The tokens that some answers gave since the last start. -/
def givenBy (answers : List Answer) : List Token := answers.foldl Answer.givenAfter []

/-! ## Where a lexer stands -/

/-- Where a lexer stands that has given some tokens of a text since its last start. -/
inductive Stands (source : String) : List Token → Lexer → Prop
  /-- It has read some elements, the last of which gave a token. -/
  | reading (seen pending : List Placed) (hplaced : placedElements source = seen ++ pending)
      (hlast : ∀ p, seen.getLast? = some p → p.token?.isSome) :
      Stands source (seen.filterMap Placed.token?)
        ⟨source, pending, seen.filterMap Placed.error?, false⟩
  /-- It has given the mark of the end. -/
  | ended : Stands source (tokenize source).all ⟨source, [], (tokenize source).errors, true⟩

variable {source : String} {given : List Token} {l : Lexer}

theorem stands_start (source : String) : Stands source [] (start source) :=
  .reading [] (placedElements source) rfl nofun

/-- Up to the next token there are errors only, unless there is no next token. -/
theorem scan_eq (ps : List Placed) :
    (∃ ps₁ p rest t, ps = ps₁ ++ p :: rest ∧ p.token? = some t ∧
      ps₁.filterMap Placed.token? = [] ∧
      scan ps = ⟨some t, (ps₁ ++ [p]).filterMap Placed.error?, rest⟩) ∨
    ps.filterMap Placed.token? = [] ∧ scan ps = ⟨none, ps.filterMap Placed.error?, []⟩ := by
  induction ps with
  | nil => exact .inr ⟨rfl, rfl⟩
  | cons p ps ih =>
    cases hp : p.token? with
    | some t =>
      refine .inl ⟨[], p, ps, t, rfl, hp, rfl, ?_⟩
      cases he : p.error? <;> simp [scan, hp, he]
    | none =>
      rcases ih with ⟨ps₁, q, rest, t, rfl, ht, hnone, hscan⟩ | ⟨hnone, hscan⟩
      · refine .inl ⟨p :: ps₁, q, rest, t, rfl, ht, by rw [List.filterMap_cons_none hp, hnone], ?_⟩
        cases he : p.error? <;> simp [scan, hp, hscan, he]
      · refine .inr ⟨by rw [List.filterMap_cons_none hp, hnone], ?_⟩
        cases he : p.error? <;> simp [scan, hp, hscan, he]

/-! ## What one request does -/

theorem stands_next (h : Stands source given l) :
    Stands source (given ++ l.next.1.toList) l.next.2 := by
  cases h with
  | ended => simpa [next] using Stands.ended
  | reading seen pending hplaced hlast =>
    rcases scan_eq pending with ⟨ps, p, rest, t, rfl, ht, hnone, hscan⟩ | ⟨hnone, hscan⟩
    · have hread : Stands source ((seen ++ (ps ++ [p])).filterMap Placed.token?)
          ⟨source, rest, (seen ++ (ps ++ [p])).filterMap Placed.error?, false⟩ := by
        refine .reading _ rest (by simp [hplaced]) fun q hq => ?_
        rw [← List.append_assoc, List.getLast?_concat] at hq
        cases hq
        rw [ht]
        rfl
      simpa [next, hscan, hnone, ht] using hread
    · have hall : (tokenize source).all = seen.filterMap Placed.token? ++ [endToken source] := by
        simp [Tokenization.all, tokenize, hplaced, hnone]
      have herrors : (tokenize source).errors =
          seen.filterMap Placed.error? ++ pending.filterMap Placed.error? := by
        simp [tokenize, hplaced]
      have hend : Stands source (tokenize source).all
          ⟨source, [], (tokenize source).errors, true⟩ := .ended
      rw [hall, herrors] at hend
      simpa [next, hscan] using hend

/-- Collecting gives what is left, and leads to the end. -/
theorem collect_of_stands (h : Stands source given l) :
    (tokenize source).all = given ++ l.collect.1 ∧
      l.collect.2 = ⟨source, [], (tokenize source).errors, true⟩ := by
  cases h with
  | ended => simp [collect]
  | reading seen pending hplaced hlast => simp [collect, Tokenization.all, tokenize, hplaced]

/-- A request leads from where a lexer stands to where it stands. -/
theorem stands_answer (h : Stands source given l) (r : Request) :
    Stands source ((l.answer r).1.givenAfter given) (l.answer r).2 := by
  cases r with
  | next => exact stands_next h
  | collect =>
    obtain ⟨hall, hafter⟩ := collect_of_stands h
    rw [answer, Answer.givenAfter, ← hall, hafter]
    exact .ended
  | restart =>
    have hsource : l.source = source := by cases h <;> rfl
    rw [answer, restart, hsource]
    exact stands_start source
  | fork => exact h
  | position offset => exact h

/-- So do any requests, one after the other. -/
theorem stands_run (h : Stands source given l) (requests : List Request) :
    Stands source ((l.run requests).1.foldl Answer.givenAfter given) (l.run requests).2 := by
  induction requests generalizing given l with
  | nil => exact h
  | cons r rs ih => exact ih (stands_answer h r)

/-! ## What a lexer shows -/

section LastToken

variable {init pending : List Placed} {p : Placed} {t : Token} {e : LexicalError}

/-- Up to a token all errors begin before its end. -/
theorem start_lt_stop (hplaced : placedElements source = init ++ [p] ++ pending)
    (ht : p.token? = some t) (he : e ∈ (init ++ [p]).filterMap Placed.error?) :
    e.span.start < t.span.stop := by
  have hpairs : (placedElements source).Pairwise fun p q => p.stop ≤ q.position.offset :=
    Placed.pairwise_layOut _ _
  have hlt : ∀ q ∈ placedElements source, q.position.offset < q.stop := fun q hq =>
    lt_stop_of_mem_placedElements hq
  rw [hplaced] at hpairs hlt
  have hbefore := (List.pairwise_append.1 (List.pairwise_append.1 hpairs).1).2.2
  obtain ⟨q, hq, hqe⟩ := List.mem_filterMap.1 he
  obtain ⟨fault, -, rfl⟩ := Option.map_eq_some_iff.1 hqe
  have hpstop := hlt p (by simp)
  have hqstop := hlt q (List.mem_append_left _ hq)
  rw [Placed.span_of_token? ht]
  rcases List.mem_append.1 hq with hq | hq
  · exact (hqstop.trans_le (hbefore q hq p List.mem_cons_self)).trans hpstop
  · rwa [List.mem_singleton.1 hq]

/-- Behind a token no error begins before its end. -/
theorem stop_le_start (hplaced : placedElements source = init ++ [p] ++ pending)
    (ht : p.token? = some t) (he : e ∈ pending.filterMap Placed.error?) :
    t.span.stop ≤ e.span.start := by
  have hpairs : (placedElements source).Pairwise fun p q => p.stop ≤ q.position.offset :=
    Placed.pairwise_layOut _ _
  rw [hplaced] at hpairs
  obtain ⟨q, hq, hqe⟩ := List.mem_filterMap.1 he
  obtain ⟨fault, -, rfl⟩ := Option.map_eq_some_iff.1 hqe
  rw [Placed.span_of_token? ht]
  exact (List.pairwise_append.1 hpairs).2.2 p (by simp) q hq

end LastToken

/-- The errors of the elements up to a token are those before the end of that token. -/
theorem errors_of_reading {seen pending : List Placed}
    (hplaced : placedElements source = seen ++ pending)
    (hlast : ∀ p, seen.getLast? = some p → p.token?.isSome) :
    seen.filterMap Placed.error? =
      (tokenize source).errorsBefore (seen.filterMap Placed.token?) := by
  rcases List.eq_nil_or_concat seen with rfl | ⟨init, p, rfl⟩
  · rfl
  rw [List.concat_eq_append] at hplaced hlast ⊢
  obtain ⟨t, ht⟩ := Option.isSome_iff_exists.1 (hlast p List.getLast?_concat)
  have hgiven : ((init ++ [p]).filterMap Placed.token?).getLast? = some t := by
    simp [List.filterMap_append, ht]
  have herrors : (tokenize source).errors =
      (init ++ [p]).filterMap Placed.error? ++ pending.filterMap Placed.error? := by
    show (placedElements source).filterMap Placed.error? = _
    rw [hplaced, List.filterMap_append]
  rw [Tokenization.errorsBefore_eq hgiven, herrors, List.filter_append]
  rw [List.filter_eq_self.2 fun e he => decide_eq_true (start_lt_stop hplaced ht he)]
  rw [List.filter_eq_nil_iff.2 fun e he => by simpa using stop_le_start hplaced ht he]
  rw [List.append_nil]

/-- All errors of a text begin before its end. -/
theorem errorsBefore_all (source : String) :
    (tokenize source).errorsBefore (tokenize source).all = (tokenize source).errors := by
  have hinside : ∀ e ∈ (tokenize source).errors, e.span.start < source.utf8ByteSize := by
    intro e he
    obtain ⟨p, hp, -, hspan⟩ := exists_placed_of_mem_errors he
    have hlt := lt_stop_of_mem_placedElements hp
    have hle := (valid_span_of_mem_errors he).inside
    rw [← hspan] at hle ⊢
    exact hlt.trans_le hle
  rw [Tokenization.all, Tokenization.errorsBefore_eq List.getLast?_concat]
  exact List.filter_eq_self.2 fun e he => decide_eq_true (hinside e he)

theorem errors_of_stands (h : Stands source given l) :
    l.errors = (tokenize source).errorsBefore given := by
  cases h with
  | reading seen pending hplaced hlast => exact errors_of_reading hplaced hlast
  | ended => exact (errorsBefore_all source).symm

/-- What a lexer answers that has given some tokens of a text and has others left. -/
structure Shows (l : Lexer) (source : String) (given rest : List Token) : Prop where
  all : (tokenize source).all = given ++ rest
  errors : l.errors = (tokenize source).errorsBefore given
  next : (l.answer .next).1 = .next rest.head?
  collect : (l.answer .collect).1 = .collected rest
  restart : l.answer .restart = (.restarted, start source)
  fork : l.answer .fork = (.forked rest (tokenize source).errors, l)
  position : ∀ offset,
    l.answer (.position offset) = (.position ((Source.ofString source).position offset), l)
  /-- Nothing is left exactly when the mark of the end was given. -/
  ended : (∃ t ∈ given, t.kind = .endOfInput) ↔ rest = []
  /-- Asking for the next token when nothing is left changes nothing. -/
  still : rest = [] → l.answer .next = (.next none, l)

theorem shows_of_stands (h : Stands source given l) : l.Shows source given l.collect.1 := by
  obtain ⟨hall, hafter⟩ := collect_of_stands h
  have hsource : l.source = source := by cases h <;> rfl
  have hnext : l.next.1 = l.collect.1.head? := by
    rw [collect_eq l]
    rcases l.next with ⟨_ | t, after⟩ <;> rfl
  have hnone : ∀ t ∈ (tokenize source).tokens, t.kind ≠ .endOfInput := fun t ht =>
    (regular_of_mem_tokens ht).notEnd
  refine ⟨hall, errors_of_stands h, congrArg Answer.next hnext, rfl, ?_, ?_, fun offset => ?_, ?_, ?_⟩
  · rw [answer, Lexer.restart, hsource]
  · rw [answer, hafter]
  · rw [answer, Lexer.position, hsource]
  · cases h with
    | ended =>
      refine ⟨fun _ => rfl, fun _ => ⟨endToken source, ?_, rfl⟩⟩
      exact List.mem_append_right _ (List.mem_singleton_self _)
    | reading seen pending hplaced hlast =>
      refine ⟨fun ⟨t, ht, hend⟩ => absurd hend (hnone t ?_), fun hrest => ?_⟩
      · rw [tokenize, hplaced, List.filterMap_append]
        exact List.mem_append_left _ ht
      · simp [Lexer.collect] at hrest
  · intro hrest
    cases h with
    | ended => rfl
    | reading seen pending hplaced hlast => simp [Lexer.collect] at hrest

/--
After any requests to one lexer, the tokens given since its last start are the first ones of the
text, what a copy gives are the others, and the errors shown are those before the end of the last
token given.
-/
theorem run_replays (source : String) (requests : List Request) :
    ∃ rest, ((start source).run requests).2.Shows source
      (givenBy ((start source).run requests).1) rest :=
  ⟨_, shows_of_stands (stands_run (stands_start source) requests)⟩

/-- An error stands before the second token, and it is shown once that token was given. -/
example :
    let l := ((start "a # b").run [.next, .fork, .next, .restart, .next]).2
    (l.errors.length, ((l.answer .next).2.errors).length) = (0, 1) := by
  decide +kernel

end Lexer

end MiniJava
