import Mathlib.Data.List.Chain
import Mathlib.Data.List.Range
import MiniJava.Proofs.Reading.Built
import MiniJava.Proofs.Reading.Passage

/-!
# The places that reading comes through

`Reader.Trail` lists the places that a reader comes through, from where it starts to where it ends.
Each place is the one before it or the next one. Every reader of the grammar has a trail, along the
way in which it is built.
-/

namespace MiniJava

variable {ε ε' α β σ : Type}

/-! ## Going on token by token -/

namespace Cursor

variable {c d e : Cursor} {cs ds : List Cursor}

/-- From `c` one comes to `d` through places each of which is the one before it or the next. -/
structure Leads (c d : Cursor) (cs : List Cursor) : Prop where
  head : cs.head? = some c
  last : cs.getLast? = some d
  chain : cs.IsChain fun c d => d = c ∨ d = c.next

theorem Leads.refl (c : Cursor) : c.Leads c [c] := ⟨rfl, rfl, .singleton c⟩

theorem Leads.next (c : Cursor) : c.Leads c.next [c, c.next] :=
  ⟨rfl, rfl, .cons_cons (.inr rfl) (.singleton _)⟩

theorem Leads.trans (h : c.Leads d cs) (h' : d.Leads e ds) : c.Leads e (cs ++ ds) where
  head := by
    rw [List.head?_append, h.head]
    rfl
  last := by
    rw [List.getLast?_append, h'.last]
    rfl
  chain := by
    refine List.isChain_append.2 ⟨h.chain, h'.chain, fun a ha b hb => .inl ?_⟩
    rw [h.last] at ha
    rw [h'.head] at hb
    exact (Option.some.inj hb).symm.trans (Option.some.inj ha)

/-- The places after each number of tokens up to `n`. -/
theorem Leads.drop (c : Cursor) (n : Nat) :
    c.Leads (c.drop n) ((List.range (n + 1)).map c.drop) where
  head := by
    rw [List.range_succ_eq_map, List.map_cons, List.head?_cons]
    rfl
  last := by rw [List.range_succ, List.map_append, List.map_singleton, List.getLast?_concat]
  chain := by
    refine List.isChain_map_of_isChain _ ?_ ((List.isChain_range_succ _ _).2 fun m _ => rfl)
    rintro m _ rfl
    exact .inr (c.drop_drop m 1).symm

/-- What is kept by going on holds of each place on the way. -/
theorem Leads.forall_mem {P : Cursor → Prop} (h : c.Leads d cs) (hc : P c)
    (hnext : ∀ e : Cursor, P e → P e.next) : ∀ e ∈ cs, P e := by
  obtain ⟨hhead, -, hchain⟩ := h
  cases cs with
  | nil => cases hhead
  | cons c' cs =>
    obtain rfl := Option.some.inj hhead
    induction cs generalizing c' with
    | nil => exact List.forall_mem_singleton.2 hc
    | cons e cs ih =>
      obtain ⟨hstep, hrest⟩ := List.isChain_cons_cons.1 hchain
      have he : P e := by
        rcases hstep with rfl | rfl
        · exact hc
        · exact hnext _ hc
      exact List.forall_mem_cons.2 ⟨hc, ih e hrest he rfl⟩

end Cursor

/-! ## Trails -/

namespace Reader

/--
The places that a reader comes through from some place. Readers that take nothing stay where they
are, the next token leads one further on, and skipping takes one token after another.
-/
inductive Trail : {ε α : Type} → Reader ε α → Cursor → List Cursor → Prop
  | pure {ε α : Type} (a : α) (c : Cursor) : Trail (pure a : Reader ε α) c [c]
  | fail {ε α : Type} (e : ε) (c : Cursor) : Trail (fail e : Reader ε α) c [c]
  | noteAll {ε : Type} (entries : List Entry) (c : Cursor) :
      Trail (noteAll entries : Reader ε Unit) c [c]
  | here {ε : Type} (c : Cursor) : Trail (here : Reader ε Cursor) c [c]
  | look {ε : Type} (c : Cursor) : Trail (look : Reader ε Token) c [c]
  | isAt {ε : Type} (kind : TokenKind) (c : Cursor) : Trail (isAt kind : Reader ε Bool) c [c]
  | spanFrom {ε : Type} (start : Nat) (c : Cursor) :
      Trail (spanFrom start : Reader ε Span) c [c]
  | advance {ε : Type} (c : Cursor) : Trail (advance : Reader ε Token) c [c, c.next]
  | resync {ε : Type} (region : Region) (origin c : Cursor) :
      Trail (resync region origin : Reader ε Unit) c
        ((List.range (region.skip (origin.pos < c.pos) c.ahead + 1)).map c.drop)
  | withRoom {ε α : Type} {p : Nat → Reader ε α} {c : Cursor} {cs : List Cursor}
      (h : Trail (p c.room) c cs) : Trail (withRoom p) c cs
  | map {ε α β : Type} {p : Reader ε α} {c : Cursor} {cs : List Cursor} (g : α → β)
      (h : Trail p c cs) : Trail (g <$> p) c cs
  | bindError {ε α β : Type} {p : Reader ε α} {f : α → Reader ε β} {c d : Cursor} {e : ε}
      {journal : List Entry} {cs : List Cursor} (hp : Trail p c cs)
      (h : p c = ⟨.error e, d, journal⟩) : Trail (p >>= f) c cs
  | bindOk {ε α β : Type} {p : Reader ε α} {f : α → Reader ε β} {c d : Cursor} {a : α}
      {journal : List Entry} {cs ds : List Cursor} (hp : Trail p c cs)
      (h : p c = ⟨.ok a, d, journal⟩) (hf : Trail (f a) d ds) : Trail (p >>= f) c (cs ++ ds)
  | rescueOk {ε ε' α : Type} {p : Reader ε α} {handle : ε → Reader ε' α} {c d : Cursor} {a : α}
      {journal : List Entry} {cs : List Cursor} (hp : Trail p c cs)
      (h : p c = ⟨.ok a, d, journal⟩) : Trail (rescue p handle) c cs
  | rescueError {ε ε' α : Type} {p : Reader ε α} {handle : ε → Reader ε' α} {c d : Cursor} {e : ε}
      {journal : List Entry} {cs ds : List Cursor} (hp : Trail p c cs)
      (h : p c = ⟨.error e, d, journal⟩) (hh : Trail (handle e) d ds) :
      Trail (rescue p handle) c (cs ++ ds)

theorem cursor_map (g : α → β) (p : Reader ε α) (c : Cursor) :
    ((g <$> p) c).cursor = (p c).cursor := by
  rcases hp : p c with ⟨_ | _, d, journal⟩ <;> simp only [Functor.map, Reader.map, hp]

/-- A trail leads from where the reader starts to where it ends. -/
theorem Trail.leads {p : Reader ε α} {c : Cursor} {cs : List Cursor} (h : p.Trail c cs) :
    c.Leads (p c).cursor cs := by
  induction h with
  | pure _ c | fail _ c | noteAll _ c | here c | look c | isAt _ c | spanFrom _ c => exact .refl c
  | advance c => exact .next c
  | resync region origin c => exact .drop c _
  | withRoom _ ih => exact ih
  | map _ _ ih =>
    rwa [cursor_map]
  | bindError _ hp ih =>
    rw [hp] at ih
    rwa [bind_apply_of_error hp]
  | bindOk _ hp _ ih ih' =>
    rw [hp] at ih
    rw [bind_apply_of_ok hp]
    exact ih.trans ih'
  | rescueOk _ hp ih =>
    rw [hp] at ih
    rwa [rescue_apply_of_ok hp]
  | rescueError _ hp _ ih ih' =>
    rw [hp] at ih
    rw [rescue_apply_of_error hp]
    exact ih.trans ih'

theorem exists_trail_bind {p : Reader ε α} {f : α → Reader ε β} {c : Cursor}
    (hp : ∃ cs, p.Trail c cs) (hf : ∀ a d, ∃ ds, (f a).Trail d ds) :
    ∃ cs, (p >>= f).Trail c cs := by
  obtain ⟨cs, hcs⟩ := hp
  rcases h : p c with ⟨e | a, d, journal⟩
  · exact ⟨cs, .bindError hcs h⟩
  · obtain ⟨ds, hds⟩ := hf a d
    exact ⟨cs ++ ds, .bindOk hcs h hds⟩

theorem Built.exists_trail {R : OrderRule → Prop} {E : ε → Cursor → Prop} {p : Reader ε α}
    (h : Built R E p) (c : Cursor) : ∃ cs, p.Trail c cs := by
  induction h generalizing c with
  | pure a => exact ⟨_, .pure a c⟩
  | failUnexpected => exact exists_trail_bind ⟨_, .look c⟩ fun t d => ⟨_, .fail _ d⟩
  | noteAll | exhaustIf => exact ⟨_, .noteAll _ c⟩
  | here => exact ⟨_, .here c⟩
  | look => exact ⟨_, .look c⟩
  | isAt kind => exact ⟨_, .isAt kind c⟩
  | spanFrom start => exact ⟨_, .spanFrom start c⟩
  | advance => exact ⟨_, .advance c⟩
  | resync region origin => exact ⟨_, .resync region origin c⟩
  | object _ _ _ ih =>
    exact exists_trail_bind ⟨_, .look c⟩ fun t d =>
      exists_trail_bind ⟨_, .noteAll _ d⟩ fun _ e => ih t e
  | withRoom _ ih =>
    obtain ⟨cs, hcs⟩ := ih c.room c
    exact ⟨cs, .withRoom hcs⟩
  | map g _ ih =>
    obtain ⟨cs, hcs⟩ := ih c
    exact ⟨cs, .map g hcs⟩
  | bind _ _ ihp ihf => exact exists_trail_bind (ihp c) ihf
  | @rescue _ _ _ p _ _ _ ihp ihk =>
    obtain ⟨cs, hcs⟩ := ihp c
    rcases hp : p c with ⟨fault | a, d, journal⟩
    · obtain ⟨ds, hds⟩ := exists_trail_bind ⟨_, .noteAll [.fault fault] d⟩ fun _ e => ihk fault e
      exact ⟨cs ++ ds, .rescueError hcs hp hds⟩
    · exact ⟨cs, .rescueOk hcs hp⟩

/-- A place to which a reader comes is one of the text, with no more tokens ahead. -/
theorem Taking.of_cursor {source : String} {c : Cursor} (p : Reader ε α) [hp : Taking p]
    (hc : c.Of source) :
    (p c).cursor.Of source ∧ (p c).cursor.ahead.length ≤ c.ahead.length := by
  obtain ⟨n, hn⟩ := hp.exists_drop c
  rw [hn]
  refine ⟨hc.drop n, ?_⟩
  rw [Cursor.ahead_drop, List.length_drop]
  exact Nat.sub_le _ _

end Reader

end MiniJava
