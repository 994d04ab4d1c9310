import Mathlib.Data.List.Forall2
import Mathlib.Data.List.Sort
import MiniJava.Report.Collector

/-!
# Sorting diagnostics

Diagnostics are sorted by the places where they start, and those that start at the same place keep
their order. So the diagnostics of one kind come out as if they had been sorted by themselves, and
the order depends on how places compare only.
-/

namespace MiniJava

namespace Diagnostic

/-- One diagnostic starts before another, or where it starts. -/
def NotAfter (d e : Diagnostic) : Prop := d.span.start ≤ e.span.start

instance : DecidableRel NotAfter := fun d e => Nat.decLe d.span.start e.span.start

instance : Std.Total NotAfter := ⟨fun d e => Nat.le_total d.span.start e.span.start⟩

instance : IsTrans Diagnostic NotAfter := ⟨fun _ _ _ => Nat.le_trans⟩

end Diagnostic

open Diagnostic (NotAfter)

variable {d e : Diagnostic} {ds es : List Diagnostic}

/-- Putting a diagnostic in its place among sorted ones keeps those before it that start earlier. -/
theorem orderedInsert_eq_append (hsorted : (ds ++ d :: es).Pairwise NotAfter)
    (hbefore : ∀ e ∈ ds, ¬ NotAfter d e) :
    (ds ++ es).orderedInsert NotAfter d = ds ++ d :: es := by
  induction ds with
  | nil =>
    cases es with
    | nil => rfl
    | cons e es =>
      have hle : NotAfter d e := List.rel_of_pairwise_cons hsorted List.mem_cons_self
      rw [List.nil_append, List.orderedInsert_cons_of_le NotAfter es hle, List.nil_append]
  | cons b ds ih =>
    have hb : ¬ NotAfter d b := hbefore b List.mem_cons_self
    have hrest := ih hsorted.tail fun e he => hbefore e (List.mem_cons_of_mem b he)
    rw [List.cons_append, List.orderedInsert_of_not_le NotAfter _ hb, hrest, List.cons_append]

/-- Sorting puts one diagnostic after the other in its place, from the last one on. -/
theorem toList_sorted_eq_insertionSort (ds : List Diagnostic) :
    (Collector.sorted ⟨ds⟩).toList = ds.insertionSort NotAfter := by
  have htrans : ∀ a b c : Diagnostic, decide (a.span.start ≤ b.span.start) →
      decide (b.span.start ≤ c.span.start) → decide (a.span.start ≤ c.span.start) := by
    intro a b c hab hbc
    simp only [decide_eq_true_eq] at hab hbc ⊢
    omega
  have htotal : ∀ a b : Diagnostic,
      decide (a.span.start ≤ b.span.start) || decide (b.span.start ≤ a.span.start) := by
    intro a b
    simp only [Bool.or_eq_true, decide_eq_true_eq]
    omega
  induction ds with
  | nil => simp [Collector.sorted]
  | cons d ds ih =>
    obtain ⟨before, after, hsort, hrest, hbefore⟩ := List.mergeSort_cons htrans htotal d ds
    have hsorted := List.pairwise_mergeSort htrans htotal (d :: ds)
    simp only [Collector.sorted] at ih ⊢
    rw [List.insertionSort_cons, ← ih, hrest, hsort]
    rw [hsort] at hsorted
    symm
    apply orderedInsert_eq_append
    · exact hsorted.imp of_decide_eq_true
    · intro e he hle
      have hno := hbefore e he
      simp only [Bool.not_eq_true', decide_eq_false_iff_not] at hno
      exact hno hle

/-! ## Diagnostics of one kind -/

theorem orderedInsert_eq_cons (h : ∀ e ∈ ds, NotAfter d e) :
    ds.orderedInsert NotAfter d = d :: ds := by
  cases ds with
  | nil => rfl
  | cons e ds => exact List.orderedInsert_cons_of_le NotAfter ds (h e List.mem_cons_self)

theorem filter_orderedInsert (p : Diagnostic → Bool) (hsorted : ds.Pairwise NotAfter) :
    (ds.orderedInsert NotAfter d).filter p =
      if p d then (ds.filter p).orderedInsert NotAfter d else ds.filter p := by
  induction ds with
  | nil => cases hp : p d <;> simp [hp]
  | cons e ds ih =>
    have ih := ih hsorted.tail
    by_cases hle : NotAfter d e
    · have hall : ∀ b ∈ e :: ds, NotAfter d b := by
        intro b hb
        rcases List.mem_cons.1 hb with rfl | hb
        · exact hle
        · exact Nat.le_trans hle (List.rel_of_pairwise_cons hsorted hb)
      rw [orderedInsert_eq_cons hall, List.filter_cons,
        orderedInsert_eq_cons fun b hb => hall b (List.mem_of_mem_filter hb)]
    · rw [List.orderedInsert_of_not_le NotAfter ds hle, List.filter_cons, List.filter_cons, ih]
      cases p d <;> cases p e <;> simp [hle]

/-- The diagnostics of one kind are sorted by themselves. -/
theorem filter_sorted (p : Diagnostic → Bool) (ds : List Diagnostic) :
    (Collector.sorted ⟨ds⟩).toList.filter p = (Collector.sorted ⟨ds.filter p⟩).toList := by
  rw [toList_sorted_eq_insertionSort, toList_sorted_eq_insertionSort]
  induction ds with
  | nil => rfl
  | cons d ds ih =>
    have hsorted := List.pairwise_insertionSort NotAfter ds
    rw [List.insertionSort_cons, filter_orderedInsert p hsorted, ih, List.filter_cons]
    cases p d <;> rfl

/-! ## Diagnostics that start at corresponding places -/

variable {R : Diagnostic → Diagnostic → Prop} {d' : Diagnostic} {ds' : List Diagnostic}

theorem forall₂_orderedInsert (hR : ∀ d d' e e', R d d' → R e e' → (NotAfter d e ↔ NotAfter d' e'))
    (hd : R d d') (hds : List.Forall₂ R ds ds') :
    List.Forall₂ R (ds.orderedInsert NotAfter d) (ds'.orderedInsert NotAfter d') := by
  induction hds with
  | nil => exact .cons hd .nil
  | @cons e e' ds ds' he hds ih =>
    by_cases hle : NotAfter d e
    · rw [List.orderedInsert_cons_of_le NotAfter ds hle,
        List.orderedInsert_cons_of_le NotAfter ds' ((hR d d' e e' hd he).1 hle)]
      exact .cons hd (.cons he hds)
    · rw [List.orderedInsert_of_not_le NotAfter ds hle,
        List.orderedInsert_of_not_le NotAfter ds' fun h => hle ((hR d d' e e' hd he).2 h)]
      exact .cons he ih

/-- Sorting keeps a correspondence of diagnostics that tells how their places compare. -/
theorem forall₂_sorted (hR : ∀ d d' e e', R d d' → R e e' → (NotAfter d e ↔ NotAfter d' e'))
    (hds : List.Forall₂ R ds ds') :
    List.Forall₂ R (Collector.sorted ⟨ds⟩).toList (Collector.sorted ⟨ds'⟩).toList := by
  rw [toList_sorted_eq_insertionSort, toList_sorted_eq_insertionSort]
  induction hds with
  | nil => exact .nil
  | cons hd _ ih => exact forall₂_orderedInsert hR hd ih

end MiniJava
