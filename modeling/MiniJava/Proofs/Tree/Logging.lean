import MiniJava.Proofs.Tree.Listing
import MiniJava.Proofs.Tree.Erasing

/-!
# Visitors that write down what they meet

A visitor that keeps count of where it is writes down the nodes that it meets with their paths. One
that only knows the nodes themselves writes down the same nodes.
-/

namespace MiniJava

open Node

/-! ## Visitors that know the path -/

/-- What a visitor has written down, and the path to the node that is met next, from its end. -/
structure Log where
  entries : List (List Nat × Node) := []
  here : List Nat := []

namespace Log

/-- The path to the next part of the same node, from its end. The whole tree is not a part. -/
def next : List Nat → List Nat
  | [] => []
  | i :: path => (i + 1) :: path

/-- Write down a node, make the walk below it unless it is one to stop at, and go on. -/
def act (stop : List Nat → Node → Bool) {α : Type} (n : Node) (self : α) (below : StateM Log α) :
    StateM Log α := do
  let log ← get
  let path := log.here.reverse
  set { entries := log.entries ++ [(path, n)], here := 0 :: log.here : Log }
  let left ← if stop path n then pure self else below
  modify fun log' => { log' with here := next log.here }
  return left

/-- What is done at a node, whatever kind it is of. -/
def look (stop : List Nat → Node → Bool) (n : Node) (below : StateM Log Unit) : StateM Log Unit :=
  act stop n () below

variable (stop : List Nat → Node → Bool)

theorem act_eq {α : Type} (n : Node) (self : α) (below : StateM Log Unit) :
    act stop n self (do below; return self) = do look stop n below; return self := by
  simp only [act, look, bind_assoc, pure_bind]
  refine bind_congr fun log => bind_congr fun _ => ?_
  cases stop log.here.reverse n <;> simp

end Log

/-- Write down each node with its path, and go no further at those at which `stop` holds. -/
def Visits.logging (stop : List Nat → Node → Bool) : Visits (StateM Log) := .each (Log.act stop)

theorem Visits.looks_logging (stop : List Nat → Node → Bool) :
    (Visits.logging stop).Looks (Log.look stop) where
  program p := Log.act_eq stop (.program p) p
  classDecl c := Log.act_eq stop (.classDecl c) c
  method d := Log.act_eq stop (.method d) d
  var x := Log.act_eq stop (.var x) x
  param x := Log.act_eq stop (.param x) x
  stmt s := Log.act_eq stop (.stmt s) s
  recur r := Log.act_eq stop (.recur r) r
  expr e := Log.act_eq stop (.expr e) e

namespace Log

variable (stop : List Nat → Node → Bool)

theorem run_look (n : Node) (below : StateM Log Unit) (entries : List (List Nat × Node))
    (here : List Nat) : (look stop n below).run ⟨entries, here⟩ =
      ((), ⟨if stop here.reverse n then entries ++ [(here.reverse, n)]
        else (below.run ⟨entries ++ [(here.reverse, n)], 0 :: here⟩).2.entries, next here⟩) := by
  cases hstop : stop here.reverse n <;> simp [act, look, hstop] <;> rfl

theorem run_tourAll {ns : List Node}
    (h : ∀ n ∈ ns, ∀ entries here, (n.tour (look stop)).run ⟨entries, here⟩ =
      ((), ⟨entries ++ n.listing stop here.reverse, next here⟩))
    (entries : List (List Nat × Node)) (i : Nat) (path : List Nat) :
    (tourAll (look stop) ns).run ⟨entries, i :: path⟩ =
      ((), ⟨entries ++ listingFrom stop path.reverse i ns, (i + ns.length) :: path⟩) := by
  induction ns generalizing entries i with
  | nil =>
    rw [tourAll_nil, listingFrom_nil, List.append_nil]
    rfl
  | cons n ns ih =>
    rw [List.forall_mem_cons] at h
    have hrest := ih h.2 (entries ++ n.listing stop (path.reverse ++ [i])) (i + 1)
    rw [List.append_assoc, ← listingFrom_cons, Nat.add_assoc, Nat.add_comm 1] at hrest
    rw [tourAll_cons, StateT.run_bind, h.1, List.reverse_cons]
    exact hrest

/-- A tour writes down what is listed. -/
theorem run_tour (n : Node) : ∀ entries here, (n.tour (look stop)).run ⟨entries, here⟩ =
    ((), ⟨entries ++ n.listing stop here.reverse, next here⟩) := by
  induction n using Node.induction with
  | step n ih =>
    intro entries here
    rw [tour_eq, run_look, run_tourAll stop ih, listing_eq]
    split <;> simp

end Log

/-- Whatever the program, the walk leaves it as it is and writes down what is listed. -/
theorem Program.run_visit_logging (stop : List Nat → Node → Bool) (p : Program) :
    (p.visit (.logging stop)).run {} = (p, ⟨(Node.program p).listing stop [], []⟩) := by
  have htour := Log.run_tour stop (.program p) [] []
  rw [p.visit_of_looks (Visits.looks_logging stop), StateT.run_bind, htour]
  rfl

/-! ## Visitors that know the node only -/

namespace Visitor

section

variable {m : Type → Type} [Monad m] [LawfulMonad m]

/-- What a visitor that renames nothing does at a node. -/
def look (enter : Node → m Bool) (n : Node) (below : m Unit) : m Unit := do
  if ← enter n then below

theorem meet_eq (enter : Node → m Bool) {α : Type} (n : Node) (self : α) (below : m Unit) :
    meet { enter } n self (do below; return self) = do look enter n below; return self := by
  simp only [meet, look, bind_assoc]
  refine bind_congr fun goes => ?_
  cases goes <;> simp

theorem looks_visits (enter : Node → m Bool) :
    ({ enter } : Visitor m).visits.Looks (look enter) where
  program p := meet_eq enter (.program p) p
  classDecl c := meet_eq enter (.classDecl c) c
  method d := meet_eq enter (.method d) d
  var x := meet_eq enter (.var x) x
  param x := meet_eq enter (.param x) x
  stmt s := meet_eq enter (.stmt s) s
  recur r := meet_eq enter (.recur r) r
  expr e below := by
    simp only [visits, Expr.renameSelf_id, bind_pure]
    exact meet_eq enter (.expr e) e below

end

/-- Write down the node, and go on below it unless `stops` holds. -/
def note (stops : Node → Bool) (n : Node) : StateM (List Node) Bool := do
  modify (· ++ [n])
  return !stops n

/-- Write down each node, and go no further at those at which `stops` holds. -/
def logging (stops : Node → Bool) : Visitor (StateM (List Node)) := { enter := note stops }

variable (stops : Node → Bool)

theorem run_look (n : Node) (below : StateM (List Node) Unit) (met : List Node) :
    (look (note stops) n below).run met =
      ((), if stops n then met ++ [n] else (below.run (met ++ [n])).2) := by
  cases hstop : stops n <;> simp [look, note, hstop] <;> rfl

/-- Whatever has been met before, the second walk writes down the nodes that the first one does. -/
def Notes (x : StateM Log Unit) (y : StateM (List Node) Unit) : Prop :=
  ∀ log : Log, y.run (log.entries.map Prod.snd) = ((), (x.run log).2.entries.map Prod.snd)

theorem notes_look {below : StateM Log Unit} {below' : StateM (List Node) Unit}
    (h : Notes below below') (n : Node) :
    Notes (Log.look (fun _ => stops) n below) (look (note stops) n below') := by
  intro log
  have hbelow := h ⟨log.entries ++ [(log.here.reverse, n)], 0 :: log.here⟩
  rw [List.map_append, List.map_singleton] at hbelow
  rw [run_look, Log.run_look, hbelow]
  cases stops n with
  | true => simp
  | false => rfl

theorem notes_tourAll {ns : List Node}
    (h : ∀ n ∈ ns, Notes (n.tour (Log.look fun _ => stops)) (n.tour (look (note stops)))) :
    Notes (tourAll (Log.look fun _ => stops) ns) (tourAll (look (note stops)) ns) := by
  induction ns with
  | nil => exact fun _ => rfl
  | cons n ns ih =>
    intro log
    rw [List.forall_mem_cons] at h
    rw [tourAll_cons, tourAll_cons, StateT.run_bind, StateT.run_bind, h.1 log]
    exact ih h.2 _

/-- On a tour the path is of no use to a visitor that does not ask for it. -/
theorem notes_tour (n : Node) :
    Notes (n.tour (Log.look fun _ => stops)) (n.tour (look (note stops))) := by
  induction n using Node.induction with
  | step n ih =>
    rw [tour_eq, tour_eq]
    exact notes_look stops (notes_tourAll stops ih) n

end Visitor

/-- The same for a visitor that decides where to stop by the node alone. -/
theorem Program.run_walk_logging (stops : Node → Bool) (p : Program) :
    (p.walk (.logging stops)).run [] =
      (p, ((Node.program p).listing (fun _ => stops) []).map Prod.snd) := by
  have htour := Visitor.notes_tour stops (.program p) {}
  rw [Log.run_tour] at htour
  rw [Program.walk, Visitor.logging, p.visit_of_looks (Visitor.looks_visits _), StateT.run_bind]
  exact congrArg (fun r => (p, r.2)) htour

end MiniJava
