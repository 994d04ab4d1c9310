import Mathlib.Data.List.DropRight
import MiniJava.Proofs.Reading.Analysis
import MiniJava.Proofs.Report.Sorting

/-!
# Runs of a collector

Diagnostics come into a collector over time, and in between it may be sorted, emptied and asked how
many it holds. What it gives when it is sorted at the end are the diagnostics that came in since it
was last emptied, sorted once: sorting in between does not show, and nothing is lost or doubled.
-/

namespace MiniJava

open Diagnostic (NotAfter)

/-! ## Stable sorting -/

/-- The diagnostics that start at a place. -/
def startingAt (ds : List Diagnostic) (start : Nat) : List Diagnostic :=
  ds.filter (·.span.start = start)

/--
The diagnostics `es` are `ds` sorted: each is there as often as in `ds`, none starts before one that
it follows, and those that start at the same place have the order that they have in `ds`.
-/
structure StablySorted (ds es : List Diagnostic) : Prop where
  perm : es.Perm ds
  ordered : es.Pairwise NotAfter
  stable : ∀ start, startingAt es start = startingAt ds start

section Starting

variable {d e : Diagnostic} {ds es fs : List Diagnostic}

theorem startingAt_append (ds es : List Diagnostic) (start : Nat) :
    startingAt (ds ++ es) start = startingAt ds start ++ startingAt es start :=
  List.filter_append ..

theorem startingAt_cons_self (d : Diagnostic) (ds : List Diagnostic) :
    startingAt (d :: ds) d.span.start = d :: startingAt ds d.span.start :=
  List.filter_cons_of_pos (by simp)

/-- What starts at each place tells which diagnostics there are. -/
theorem perm_of_startingAt_eq (h : ∀ start, startingAt es start = startingAt ds start) :
    es.Perm ds := by
  rw [List.perm_iff_count]
  intro d
  have hcount : ∀ fs, (startingAt fs d.span.start).count d = fs.count d := fun fs =>
    List.count_filter (by simp)
  rw [← hcount es, h, hcount]

theorem startingAt_tail_eq (hstart : d.span.start = e.span.start)
    (h : ∀ start, startingAt (d :: ds) start = startingAt (e :: es) start) :
    d = e ∧ ∀ start, startingAt ds start = startingAt es start := by
  have hhead := h d.span.start
  rw [startingAt_cons_self, hstart, startingAt_cons_self] at hhead
  obtain ⟨rfl, htail⟩ := List.cons.inj hhead
  refine ⟨rfl, fun start => ?_⟩
  by_cases hd : d.span.start = start
  · rwa [← hd]
  · simpa [startingAt, hd] using h start

/-- In the order of the places, what starts at each place tells the whole list. -/
theorem eq_of_startingAt_eq (hds : ds.Pairwise NotAfter) (hes : es.Pairwise NotAfter)
    (h : ∀ start, startingAt ds start = startingAt es start) : ds = es := by
  induction ds generalizing es with
  | nil => exact (List.nil_perm.1 (perm_of_startingAt_eq h)).symm
  | cons d ds ih =>
    have hperm := perm_of_startingAt_eq h
    cases es with
    | nil => exact absurd hperm.length_eq (Nat.succ_ne_zero _)
    | cons e es =>
      -- each of the two heads is in the other list, where the other head comes first
      have hde : NotAfter d e := by
        rcases List.mem_cons.1 (hperm.mem_iff.2 List.mem_cons_self) with rfl | he
        · exact Nat.le_refl _
        · exact List.rel_of_pairwise_cons hds he
      have hed : NotAfter e d := by
        rcases List.mem_cons.1 (hperm.mem_iff.1 List.mem_cons_self) with rfl | hd
        · exact Nat.le_refl _
        · exact List.rel_of_pairwise_cons hes hd
      obtain ⟨rfl, htail⟩ := startingAt_tail_eq (Nat.le_antisymm hde hed) h
      exact congrArg (d :: ·) (ih hds.tail hes.tail htail)

/-- A list is sorted in one way. -/
theorem StablySorted.unique (hes : StablySorted ds es) (hfs : StablySorted ds fs) : es = fs :=
  eq_of_startingAt_eq hes.ordered hfs.ordered fun start =>
    (hes.stable start).trans (hfs.stable start).symm

theorem pairwise_sorted (ds : List Diagnostic) :
    (Collector.sorted ⟨ds⟩).toList.Pairwise NotAfter := by
  rw [toList_sorted_eq_insertionSort]
  exact List.pairwise_insertionSort NotAfter ds

theorem startingAt_sorted (ds : List Diagnostic) (start : Nat) :
    startingAt (Collector.sorted ⟨ds⟩).toList start = startingAt ds start := by
  have hall : (startingAt ds start).Pairwise NotAfter := by
    refine List.pairwise_of_forall_mem_list fun d hd e he => ?_
    have hd := of_decide_eq_true (List.mem_filter.1 hd).2
    have he := of_decide_eq_true (List.mem_filter.1 he).2
    exact Nat.le_of_eq (hd.trans he.symm)
  rw [startingAt, filter_sorted, toList_sorted_eq_insertionSort]
  exact hall.insertionSort_eq

theorem stablySorted_sorted (ds : List Diagnostic) :
    StablySorted ds (Collector.sorted ⟨ds⟩).toList where
  perm := perm_of_startingAt_eq (startingAt_sorted ds)
  ordered := pairwise_sorted ds
  stable := startingAt_sorted ds

end Starting

namespace Collector

/-! ## Operations -/

/-- What can be done with a collector. -/
inductive Operation where
  | add (d : Diagnostic)
  | addAll (ds : List Diagnostic)
  | sort
  | clear
  /-- To ask how many diagnostics of a kind there are. -/
  | count (kind : DiagnosticKind)
deriving DecidableEq

namespace Operation

/-- The diagnostics that an operation brings in. -/
def given : Operation → List Diagnostic
  | add d => [d]
  | addAll ds => ds
  | sort | clear | count _ => []

/-- The diagnostics that came in since the last `clear`, if `ds` were there before the operation. -/
def addedAfter (ds : List Diagnostic) (op : Operation) : List Diagnostic :=
  if op = clear then [] else ds ++ op.given

end Operation

/-- The diagnostics that some operations brought in since the last `clear` among them. -/
def added (ops : List Operation) : List Diagnostic :=
  (ops.rtakeWhile (· ≠ .clear)).flatMap Operation.given

/-- The collector after an operation. -/
def apply (c : Collector) : Operation → Collector
  | .add d => c.add d
  | .addAll ds => c.addAll ds
  | .sort => c.sorted
  | .clear => empty
  | .count _ => c

/-- The number that an operation asks for. -/
def answer? (c : Collector) : Operation → Option Nat
  | .count kind => some (c.count kind)
  | .add _ | .addAll _ | .sort | .clear => none

/-- The collector after some operations, one after the other. -/
def run (c : Collector) (ops : List Operation) : Collector := ops.foldl apply c

/-- The numbers that some operations ask for, one after the other. -/
def answers (c : Collector) : List Operation → List Nat
  | [] => []
  | op :: ops => (c.answer? op).toList ++ (c.apply op).answers ops

theorem run_concat (c : Collector) (ops : List Operation) (op : Operation) :
    c.run (ops ++ [op]) = (c.run ops).apply op :=
  List.foldl_concat ..

theorem added_concat (ops : List Operation) (op : Operation) :
    added (ops ++ [op]) = op.addedAfter (added ops) := by
  unfold added Operation.addedAfter
  by_cases h : op = .clear
  · rw [if_pos h, List.rtakeWhile_concat_neg _ _ _ (by simp [h])]
    rfl
  · rw [if_neg h, List.rtakeWhile_concat_pos _ _ _ (by simp [h]), List.flatMap_append]
    simp

/-- Going through the operations, what was added is known from what was added before. -/
theorem added_eq_foldl (ops : List Operation) : added ops = ops.foldl Operation.addedAfter [] := by
  induction ops using List.reverseRecOn with
  | nil => rfl
  | append_singleton ops op ih => rw [added_concat, ih, List.foldl_concat]

/-- Sorting adds nothing. -/
theorem addedAfter_sort (ds : List Diagnostic) : Operation.sort.addedAfter ds = ds := by
  simp [Operation.addedAfter, Operation.given]

theorem foldl_addedAfter_filter (ds : List Diagnostic) (ops : List Operation) :
    (ops.filter (· ≠ .sort)).foldl Operation.addedAfter ds =
      ops.foldl Operation.addedAfter ds := by
  induction ops generalizing ds with
  | nil => rfl
  | cons op ops ih =>
    by_cases h : op = .sort
    · rw [List.filter_cons_of_neg (by simp [h]), ih, h, List.foldl_cons, addedAfter_sort]
    · rw [List.filter_cons_of_pos (by simp [h]), List.foldl_cons, ih, List.foldl_cons]

/-! ## What a collector holds -/

/-- The collector holds `ds`, and what starts at one place is in the order that it has there. -/
def Holds (c : Collector) (ds : List Diagnostic) : Prop :=
  ∀ start, startingAt c.toList start = startingAt ds start

namespace Holds

variable {c c' : Collector} {ds : List Diagnostic}

theorem refl (c : Collector) : c.Holds c.toList := fun _ => rfl

theorem perm (h : c.Holds ds) : c.toList.Perm ds := perm_of_startingAt_eq h

theorem sorted (h : c.Holds ds) : c.sorted.Holds ds := fun start =>
  (startingAt_sorted c.toList start).trans (h start)

theorem addAll (h : c.Holds ds) (es : List Diagnostic) : (c.addAll es).Holds (ds ++ es) := by
  intro start
  rw [Collector.addAll, startingAt_append, startingAt_append, h start]

/-- Sorting a collector is sorting what it holds. -/
theorem stablySorted (h : c.Holds ds) : StablySorted ds c.sorted.toList where
  perm := h.sorted.perm
  ordered := pairwise_sorted c.toList
  stable := h.sorted

theorem count_eq (h : c.Holds ds) (h' : c'.Holds ds) (kind : DiagnosticKind) :
    c.count kind = c'.count kind :=
  (h.perm.trans h'.perm.symm).countP_eq _

/-- An operation leads from what a collector holds to what it holds. -/
theorem apply (h : c.Holds ds) (op : Operation) : (c.apply op).Holds (op.addedAfter ds) := by
  cases op with
  | add d => exact h.addAll [d]
  | addAll es => exact h.addAll es
  | sort =>
    rw [addedAfter_sort]
    exact h.sorted
  | clear => exact refl empty
  | count kind => simpa [Collector.apply, Operation.addedAfter, Operation.given] using h

/-- So do any operations, one after the other. -/
theorem run (h : c.Holds ds) (ops : List Operation) :
    (c.run ops).Holds (ops.foldl Operation.addedAfter ds) := by
  induction ops generalizing c ds with
  | nil => exact h
  | cons op ops ih => exact ih (h.apply op)

/-- Whoever asks for numbers cannot tell whether there was sorting in between. -/
theorem answers_filter (h : c.Holds ds) (h' : c'.Holds ds) (ops : List Operation) :
    c'.answers (ops.filter (· ≠ .sort)) = c.answers ops := by
  induction ops generalizing c c' ds with
  | nil => rfl
  | cons op ops ih =>
    by_cases hop : op = .sort
    · have hsorted := h.apply op
      rw [hop, addedAfter_sort] at hsorted
      rw [List.filter_cons_of_neg (by simp [hop]), ih hsorted h', hop]
      rfl
    · have hanswer : c'.answer? op = c.answer? op := by
        cases op with
        | count kind => exact congrArg some (h'.count_eq h kind)
        | add | addAll | sort | clear => rfl
      rw [List.filter_cons_of_pos (by simp [hop]), answers, answers, hanswer,
        ih (h.apply op) (h'.apply op)]

end Holds

theorem holds_run (ops : List Operation) : (empty.run ops).Holds (added ops) := by
  rw [added_eq_foldl]
  exact (Holds.refl empty).run ops

/-- After any operations, sorting gives what was added since the last `clear`, sorted. -/
theorem stablySorted_run (ops : List Operation) :
    StablySorted (added ops) (empty.run (ops ++ [.sort])).toList := by
  rw [run_concat]
  exact (holds_run ops).stablySorted

/-- If the same was added, the same comes out. -/
theorem run_congr {ops ops' : List Operation} (h : added ops = added ops') :
    empty.run (ops ++ [.sort]) = empty.run (ops' ++ [.sort]) := by
  have hsorted := stablySorted_run ops
  rw [h] at hsorted
  exact congrArg Collector.mk (hsorted.unique (stablySorted_run ops'))

/--
The diagnostics of a text are those of a collector to which the errors of its characters and then
the faults that reading noted were added, in any portions and sorted in between or not.
-/
theorem diagnostics_analyze_eq_run {α : Type} {reader : Reader Empty α} {source : String}
    {ops : List Operation}
    (h : added ops = (tokenize source).errors.map LexicalError.toDiagnostic ++
      (reader (startOf source)).faults.map (Fault.toDiagnostic source)) :
    (analyze reader source).diagnostics = (empty.run (ops ++ [.sort])).toList := by
  have hsorted := stablySorted_run ops
  rw [h] at hsorted
  exact (stablySorted_sorted _).unique hsorted

/--
After any operations on a collector that was empty, sorting gives what was added since the last
`clear`, stably sorted. All sorting in between can be left out: the same comes out at the end, and
the same counts are given on the way. At each moment the collector holds what was added, in some
order, and the numbers of diagnostics of the two kinds add up to the number of all.
-/
theorem run_sorts_once (ops : List Operation) :
    (∀ es, StablySorted (added ops) es ↔ es = (empty.run (ops ++ [.sort])).toList) ∧
      (empty.run (ops.filter (· ≠ .sort) ++ [.sort]) = empty.run (ops ++ [.sort]) ∧
        empty.answers (ops.filter (· ≠ .sort)) = empty.answers ops) ∧
      ∀ n, (empty.run (ops.take n)).toList.Perm (added (ops.take n)) ∧
        (empty.run (ops.take n)).count .lexical + (empty.run (ops.take n)).count .syntactic =
          (empty.run (ops.take n)).size := by
  have hadded : added (ops.filter (· ≠ .sort)) = added ops := by
    rw [added_eq_foldl, foldl_addedAfter_filter, ← added_eq_foldl]
  refine ⟨fun es => ⟨fun h => h.unique (stablySorted_run ops), ?_⟩, ⟨run_congr hadded, ?_⟩, ?_⟩
  · rintro rfl
    exact stablySorted_run ops
  · exact (Holds.refl empty).answers_filter (Holds.refl empty) ops
  · exact fun n => ⟨(holds_run _).perm, count_add_count _⟩

end Collector

end MiniJava
