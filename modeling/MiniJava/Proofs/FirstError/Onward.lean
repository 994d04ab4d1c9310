import MiniJava.Proofs.Reading.Built

/-!
# Reading goes on

An objection says that a token was found where others were expected. A reader never goes back, so
it objects only to tokens that were still ahead when it started: this is `Reader.Onward`, and it
holds of each reader because of the way in which it is built.
-/

namespace MiniJava

variable {ε ε' α β σ : Type}

/-! ## Objections -/

/-- A token that was found where others were expected. -/
structure Objection where
  found : Token
  expected : List Expectation
  hint : Option Hint

/-- The objection that a fault makes; one about the order of constructs makes none. -/
def Fault.objection? : Fault → Option Objection
  | unexpected found expected hint => some ⟨found, expected, hint⟩
  | misplaced .. => none

/-- Failures that stand for faults. -/
class Failure (ε : Type) where
  faults : ε → List Fault

instance : Failure Fault := ⟨fun fault => [fault]⟩

instance : Failure Empty := ⟨nofun⟩

namespace Reading

/-- The objections that were noted. -/
def noted (r : Reading ε α) : List Objection := r.faults.filterMap Fault.objection?

/-- The objections with which reading failed. -/
def raised [Failure ε] (r : Reading ε α) : List Objection :=
  match r.outcome with
  | .ok _ => []
  | .error e => (Failure.faults e).filterMap Fault.objection?

/-- All objections, in the order in which they were made. -/
def objections [Failure ε] (r : Reading ε α) : List Objection := r.noted ++ r.raised

theorem noted_append (o : Except ε α) (c : Cursor) (journal journal' : List Entry) :
    (⟨o, c, journal ++ journal'⟩ : Reading ε α).noted =
      (⟨o, c, journal⟩ : Reading ε α).noted ++ (⟨o, c, journal'⟩ : Reading ε α).noted := by
  simp only [noted, faults, List.filterMap_append]

end Reading

/-! ## Going on -/

namespace Cursor

/-- The tokens that are left: those ahead, and the mark of the end. -/
def left (c : Cursor) : List Token := c.ahead ++ [c.final]

/-- From `c` one comes to `d` by taking tokens. -/
def Onto (c d : Cursor) : Prop := ∃ n, d = c.drop n

variable {c d e : Cursor}

theorem Onto.refl (c : Cursor) : c.Onto c := ⟨0, rfl⟩

theorem Onto.trans (h : c.Onto d) (h' : d.Onto e) : c.Onto e := by
  obtain ⟨m, rfl⟩ := h
  obtain ⟨n, rfl⟩ := h'
  exact ⟨m + n, c.drop_drop m n⟩

theorem Onto.left_subset (h : c.Onto d) : d.left ⊆ c.left := by
  obtain ⟨n, rfl⟩ := h
  rw [left, left, ahead_drop, final_drop]
  exact List.append_subset.2 ⟨fun t ht => List.mem_append_left _ (List.mem_of_mem_drop ht),
    List.subset_append_right _ _⟩

theorem current_mem_left (c : Cursor) : c.current ∈ c.left := by
  rw [current_eq, left]
  cases c.ahead <;> simp

end Cursor

/-- An objection to what lies ahead, which tells what else could have stood there. -/
structure Objection.Ahead (o : Objection) (c : Cursor) : Prop where
  found : o.found ∈ c.left
  expected : o.expected ≠ []

theorem Cursor.Onto.ahead_of_ahead {c d : Cursor} {o : Objection} (h : c.Onto d) (ho : o.Ahead d) :
    o.Ahead c :=
  ⟨h.left_subset ho.found, ho.expected⟩

theorem Cursor.ahead_current (c : Cursor) {expected : List Expectation} (hint : Option Hint)
    (hne : expected ≠ []) : Objection.Ahead ⟨c.current, expected, hint⟩ c :=
  ⟨c.current_mem_left, hne⟩

namespace Reading

variable [Failure ε] [Failure ε']

/-- Reading `s` goes on from where `r` stopped, and objects to what lies ahead from there on. -/
structure Extends (r : Reading ε α) (s : Reading ε' β) : Prop where
  cursor : r.cursor.Onto s.cursor
  objections : ∃ later, s.objections = r.objections ++ later ∧
    ∀ o ∈ later, o.Ahead r.cursor

theorem Extends.of_eq {r : Reading ε α} {s : Reading ε' β} (hcursor : r.cursor.Onto s.cursor)
    (h : s.objections = r.objections) : r.Extends s :=
  ⟨hcursor, [], by rw [h, List.append_nil], List.forall_mem_nil _⟩

theorem Extends.trans {ε'' γ : Type} [Failure ε''] {r : Reading ε α} {s : Reading ε' β}
    {t : Reading ε'' γ} (h : r.Extends s) (h' : s.Extends t) : r.Extends t := by
  obtain ⟨hcursor, later, heq, hlater⟩ := h
  obtain ⟨hcursor', later', heq', hlater'⟩ := h'
  refine ⟨hcursor.trans hcursor', later ++ later', by rw [heq', heq, List.append_assoc], ?_⟩
  exact List.forall_mem_append.2 ⟨hlater, fun o ho => hcursor.ahead_of_ahead (hlater' o ho)⟩

end Reading

/-- Reading takes tokens from the front, and objects to no token before where it starts. -/
structure Reading.From [Failure ε] (r : Reading ε α) (c : Cursor) : Prop where
  cursor : c.Onto r.cursor
  objections : ∀ o ∈ r.objections, o.Ahead c

/-- A reader that never goes back, wherever it starts. -/
class Reader.Onward [Failure ε] (p : Reader ε α) : Prop where
  from_start : ∀ c, (p c).From c

theorem Reading.Extends.from_start [Failure ε] [Failure ε'] {r : Reading ε α} {s : Reading ε' β}
    {c : Cursor} (h : r.Extends s) (hr : r.From c) : s.From c := by
  refine ⟨hr.cursor.trans h.cursor, fun o ho => ?_⟩
  obtain ⟨later, heq, hlater⟩ := h.objections
  rw [heq, List.mem_append] at ho
  rcases ho with ho | ho
  · exact hr.objections o ho
  · exact hr.cursor.ahead_of_ahead (hlater o ho)

namespace Reader

open Reading

variable [Failure ε] [Failure ε'] {p : Reader ε α} {f : α → Reader ε β}

theorem extends_bind (p : Reader ε α) (f : α → Reader ε β) [∀ a, Onward (f a)] (c : Cursor) :
    (p c).Extends ((p >>= f) c) := by
  rcases h : p c with ⟨e | a, d, journal⟩
  · rw [bind_apply_of_error h]
    exact .of_eq (.refl d) rfl
  · rw [bind_apply_of_ok h]
    have hrest : (f a d).From d := Onward.from_start d
    refine ⟨hrest.cursor, (f a d).objections, ?_, hrest.objections⟩
    simp only [objections, noted, raised, faults, List.filterMap_append, List.append_nil,
      List.append_assoc]

/-- Reading after a failure goes on if its handler takes the failure up. -/
theorem extends_rescue {handle : ε → Reader ε' α}
    (hh : ∀ e d, (⟨.error e, d, []⟩ : Reading ε α).Extends (handle e d)) (c : Cursor) :
    (p c).Extends (rescue p handle c) := by
  rcases h : p c with ⟨e | a, d, journal⟩
  · rw [rescue_apply_of_error h]
    obtain ⟨hcursor, later, heq, hlater⟩ := hh e d
    refine ⟨hcursor, later, ?_, hlater⟩
    simp only [objections, noted, raised, faults, List.filterMap_append, List.filterMap_nil,
      List.nil_append] at heq ⊢
    rw [List.append_assoc, heq, List.append_assoc]
  · rw [rescue_apply_of_ok h]
    exact .of_eq (.refl d) rfl

/-! ## Readers of the grammar -/

theorem ahead_of_noted {ε α : Type} {R : OrderRule → Prop} {E : ε → Cursor → Prop}
    {p : Reader ε α} (h : Built R E p) {c : Cursor} {o : Objection} (ho : o ∈ (p c).noted) :
    o.Ahead c := by
  obtain ⟨fault, hfault, heq⟩ := List.mem_filterMap.1 ho
  rcases (h.abides c).faults fault hfault with ⟨n, expected, hint, hne, rfl⟩ | ⟨_, _, _, rfl⟩
  · cases heq
    exact Cursor.Onto.ahead_of_ahead ⟨n, rfl⟩ ((c.drop n).ahead_current hint hne)
  · cases heq

instance (p : Reader Fault α) [h : Built AnyRule Fault.ObjectsAt p] : Onward p where
  from_start c := by
    have habides := h.abides c
    refine ⟨habides.cursor, fun o ho => ?_⟩
    rcases List.mem_append.1 ho with ho | ho
    · exact ahead_of_noted h ho
    · rcases hr : p c with ⟨fault | a, d, journal⟩ <;> rw [hr] at ho habides
      · obtain ⟨expected, hint, hne, hfault⟩ := habides.failure fault rfl
        rw [raised, hfault] at ho
        obtain rfl := List.mem_singleton.1 ho
        exact Cursor.Onto.ahead_of_ahead habides.cursor (d.ahead_current hint hne)
      · cases ho

instance (p : Reader ε α) [h : Built AnyRule Unfailing p] : Onward p where
  from_start c := by
    have habides := h.abides c
    refine ⟨habides.cursor, fun o ho => ?_⟩
    rcases List.mem_append.1 ho with ho | ho
    · exact ahead_of_noted h ho
    · rcases hr : p c with ⟨e | a, d, journal⟩ <;> rw [hr] at ho habides
      · exact (habides.failure e rfl).elim
      · cases ho

/-! ## Readers made of others -/

variable {q : Reader ε β}

theorem onward_bind [Onward p] (hf : ∀ a, Onward (f a)) : Onward (p >>= f) :=
  ⟨fun c => (extends_bind p f c).from_start (Onward.from_start c)⟩

instance [Onward p] [∀ a, Onward (f a)] : Onward (p >>= f) := onward_bind fun _ => inferInstance

/-- Where a value is not used, the search need not go on under a binder. -/
instance [Onward p] [Onward q] : Onward (p >>= fun _ => q) := onward_bind fun _ => inferInstance

instance (g : α → β) [Onward p] : Onward (g <$> p) := by
  rw [map_eq_pure_bind]
  infer_instance

instance (P : Prop) [Decidable P] (p' : Reader ε α) [Onward p] [Onward p'] :
    Onward (if P then p else p') := by
  split <;> infer_instance

instance (stop : Cursor → Bool) (item : σ → Reader ε (Option α)) (next : σ → α → σ)
    [∀ s, Onward (item s)] (rounds : Nat) (s : σ) : Onward (manyFrom stop item next rounds s) := by
  induction rounds generalizing s with
  | zero =>
    unfold manyFrom
    infer_instance
  | succ rounds ih =>
    unfold manyFrom
    have hrest : ∀ a : Option α, Onward (match a with
        | some a => (a :: ·) <$> manyFrom stop item next rounds (next s a)
        | none => manyFrom stop item next rounds s) := by
      rintro (_ | a) <;> infer_instance
    infer_instance

instance [Onward p] (rounds : Nat) : Onward (sepByComma p rounds) := by
  induction rounds with
  | zero =>
    unfold sepByComma
    infer_instance
  | succ rounds ih =>
    unfold sepByComma
    infer_instance

/-! ## Faults as objections -/

theorem from_failUnexpected {expected : List Expectation} (hne : expected ≠ []) (c : Cursor) :
    ((failUnexpected expected : Reader Fault α) c).From c := by
  refine ⟨.refl c, fun o ho => ?_⟩
  obtain rfl := List.mem_singleton.1 ho
  exact c.ahead_current none hne

/-- A fault that is reported makes the objection that it would make as a failure. -/
theorem extends_report (fault : Fault) (d : Cursor) :
    (⟨.error fault, d, []⟩ : Reading Fault α).Extends (report fault d : Reading ε Unit) := by
  refine .of_eq (.refl d) ?_
  cases fault <;> rfl

/-- Reading that notes an objection to the next token. -/
theorem from_report {expected : List Expectation} (hne : expected ≠ []) (hint : Option Hint)
    (c : Cursor) : (report (.unexpected c.current expected hint) c : Reading ε Unit).From c := by
  refine ⟨.refl c, fun o ho => ?_⟩
  obtain rfl := List.mem_singleton.1 ho
  exact c.ahead_current hint hne

/-- A fault is reported before anything is skipped. -/
theorem extends_recover (region : Region) (origin : Cursor) (k : Unit → Reader ε β)
    [∀ u, Onward (k u)] (fault : Fault) (d : Cursor) :
    (⟨.error fault, d, []⟩ : Reading Fault α).Extends
      ((Parse.recover region origin fault >>= k) d) := by
  have hnext : (report fault d : Reading ε Unit).Extends (Parse.recover region origin fault d) :=
    extends_bind _ _ d
  exact ((extends_report fault d).trans hnext).trans (extends_bind _ _ d)

end Reader

end MiniJava
