import MiniJava.Proofs.Declaration.Sound
import MiniJava.Proofs.Extents.Nodes
import MiniJava.Proofs.Order.Breaches

/-!
# Declarations that come late

The parser notes a late declaration when it has already seen what should have come after it. A tree
no longer shows in which order the items of its two lists were read, but it has their spans: a
declaration is late if one of the others starts before it.
-/

namespace MiniJava

/-! ## What a tree shows -/

/-- The local variables before which a statement or the result of the method starts. -/
def Method.lateLocals (m : Method) : List Variable :=
  m.locals.filter fun v =>
    m.body.any (fun s => s.span.start < v.span.start) || m.result.span.start < v.span.start

/-- The fields before which a method of the class starts. -/
def ClassDecl.lateFields (k : ClassDecl) : List Variable :=
  k.fields.filter fun v => k.methods.any fun m => m.span.start < v.span.start

/-- Where a method breaks a rule. -/
def Method.breaches (rule : OrderRule) (m : Method) : List Span :=
  (if .localsFirst = rule then m.lateLocals.map Variable.span else []) ++
    (if .recurEndsMethod = rule then m.recurs.map Recur.span else [])

/-- Where a class breaks a rule. -/
def ClassDecl.breaches (rule : OrderRule) (k : ClassDecl) : List Span :=
  if .fieldsFirst = rule then k.lateFields.map Variable.span
  else k.methods.flatMap (Method.breaches rule)

/-- Where a program breaks a rule, except for how many statements its main method may have. -/
def Program.breaches (rule : OrderRule) (p : Program) : List Span :=
  (if .recurEndsMethod = rule then p.main.body.recurs.map Recur.span else []) ++
    p.classes.flatMap (ClassDecl.breaches rule)

theorem Method.breaches_fieldsFirst (m : Method) : m.breaches .fieldsFirst = [] := rfl

theorem Method.breaches_localsFirst (m : Method) :
    m.breaches .localsFirst = m.lateLocals.map Variable.span :=
  List.append_nil _

theorem ClassDecl.breaches_recurEndsMethod (k : ClassDecl) :
    k.breaches .recurEndsMethod = k.recurs.map Recur.span :=
  List.map_flatMap.symm

theorem ClassDecl.breaches_localsFirst (k : ClassDecl) : k.breaches .localsFirst =
    k.methods.flatMap fun m => m.lateLocals.map Variable.span := by
  simp only [← Method.breaches_localsFirst]
  rfl

theorem Program.breaches_recurEndsMethod (p : Program) :
    p.breaches .recurEndsMethod = p.recurs.map Recur.span := by
  rw [Program.recurs, List.map_append, List.map_flatMap]
  simp only [← ClassDecl.breaches_recurEndsMethod]
  rfl

theorem Program.breaches_fieldsFirst (p : Program) : p.breaches .fieldsFirst =
    p.classes.flatMap fun k => k.lateFields.map Variable.span := rfl

theorem Program.breaches_localsFirst (p : Program) : p.breaches .localsFirst =
    p.classes.flatMap fun k => k.methods.flatMap fun m => m.lateLocals.map Variable.span := by
  simp only [← ClassDecl.breaches_localsFirst]
  rfl

/-- The result of the method starts after all its statements end. -/
def Method.ResultLast (m : Method) : Prop := ∀ s ∈ m.body, s.span.stop ≤ m.result.span.start

/-- The method starts with its parameters and ends with its result. -/
structure Method.InOrder (m : Method) : Prop where
  paramsFirst : m.ParamsFirst
  resultLast : m.ResultLast

/-! ## Items that were read in a row -/

namespace Span.Row

variable {s t : Span} {ts us : List Span}

theorem sublist (h : s.Row ts) (hus : us.Sublist ts) : s.Row us :=
  ⟨fun u hu => h.within u (hus.subset hu), fun u hu => h.nonempty u (hus.subset hu),
    h.ordered.sublist hus⟩

theorem tail (h : s.Row (t :: ts)) : s.Row ts := h.sublist (List.sublist_cons_self t ts)

/-- The first span starts before all others. -/
theorem start_lt (h : s.Row (t :: ts)) {u : Span} (hu : u ∈ ts) : t.start < u.start :=
  Nat.lt_of_lt_of_le (h.nonempty t List.mem_cons_self) (List.rel_of_pairwise_cons h.ordered hu)

end Span.Row

namespace Layout

variable {α β γ : Type} (l : Layout α β γ)

/-- Whether a late item was seen, after one more item. -/
def next (seen : Bool) (a : α) : Bool := seen || (l.late? a).isSome

/--
What is owed for an item, after a late one was seen or not: an early one owes its span if it comes
after a late one and that is against the rule, and a late one owes what it owes by itself.
-/
def owed (against : Bool) (spanEarly : β → Span) (late : γ → List Span) (seen : Bool) (a : α) :
    List Span :=
  (if seen ∧ against then ((l.early? a).map spanEarly).toList else []) ++
    ((l.late? a).map late).getD []

/-- Each item is of one kind, and the spans of both kinds are those of the items. -/
structure Spanned (span : α → Span) (spanEarly : β → Span) (spanLate : γ → Span) : Prop where
  early : ∀ a b, l.early? a = some b → spanEarly b = span a ∧ l.late? a = none
  late : ∀ a g, l.late? a = some g → spanLate g = span a ∧ l.early? a = none

variable {l} {span : α → Span} {spanEarly : β → Span} {spanLate : γ → Span} {s : Span}
  {as : List α}

/-- Where early items may come after late ones, all is owed that late ones owe by themselves. -/
theorem owedBy_not_against (late : γ → List Span) (seen : Bool) (as : List α) :
    Reader.owedBy l.next (l.owed false spanEarly late) seen as =
      (as.filterMap l.late?).flatMap late := by
  induction as generalizing seen with
  | nil => rfl
  | cons a as ih =>
    rw [Reader.owedBy, ih, owed]
    cases hl : l.late? a with
    | none => simp [hl]
    | some g => simp [hl]

/-- An early item comes after a late one in the list just if a late one starts before it. -/
theorem owedBy_against (h : l.Spanned span spanEarly spanLate) (hrow : s.Row (as.map span))
    (seen : Bool) :
    Reader.owedBy l.next (l.owed true spanEarly fun _ => []) seen as =
      ((as.filterMap l.early?).filter fun b =>
        seen || (as.filterMap l.late?).any fun g => (spanLate g).start < (spanEarly b).start).map
          spanEarly := by
  induction as generalizing seen with
  | nil => rfl
  | cons a as ih =>
    rw [Reader.owedBy, ih hrow.tail]
    cases he : l.early? a with
    | some b =>
      obtain ⟨hspan, hl⟩ := h.early a b he
      -- what comes behind the item starts after it, so only what was seen before counts
      have hnone : ((as.filterMap l.late?).any fun g =>
          (spanLate g).start < (spanEarly b).start) = false := by
        refine List.any_eq_false.2 fun g hg hlt => ?_
        obtain ⟨x, hx, hxg⟩ := List.mem_filterMap.1 hg
        have hbefore := of_decide_eq_true hlt
        rw [(h.late x g hxg).1, hspan] at hbefore
        exact Nat.lt_asymm hbefore (hrow.start_lt (List.mem_map_of_mem hx))
      rw [List.filterMap_cons_some he, List.filterMap_cons_none hl, List.filter_cons, hnone]
      cases seen <;> simp [owed, next, he, hl]
    | none =>
      rw [List.filterMap_cons_none he]
      cases hl : l.late? a with
      | none =>
        rw [List.filterMap_cons_none hl]
        simp [owed, next, he, hl]
      | some g =>
        rw [List.filterMap_cons_some hl]
        -- all early items behind start after this late one
        have hall : ∀ b ∈ as.filterMap l.early?, (spanLate g).start < (spanEarly b).start := by
          intro b hb
          obtain ⟨x, hx, hxb⟩ := List.mem_filterMap.1 hb
          rw [(h.early x b hxb).1, (h.late a g hl).1]
          exact hrow.start_lt (List.mem_map_of_mem hx)
        have hlast : ∀ b ∈ as.filterMap l.early?,
            (seen || (g :: as.filterMap l.late?).any fun g =>
              (spanLate g).start < (spanEarly b).start) = true := by
          intro b hb
          simp [hall b hb]
        rw [List.filter_eq_self.2 hlast]
        simp [owed, next, he, hl]

end Layout

end MiniJava
