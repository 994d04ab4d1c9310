import MiniJava.Proofs.Tree.Tours
import Mathlib.Data.List.Lex

/-!
# What a walk meets

The nodes that a walk meets are those to which a path leads without passing a node at which it
stops, in the order of their paths, where a path comes before those that go on from it. A visitor
that writes down what it meets finds just these.
-/

namespace MiniJava

namespace Node

/-! ## Listing -/

/-- The rows that belong to the parts of the node at `path`, from the part with number `i` on. -/
def rowsFrom {β : Type} (path : List Nat) : Nat → List (List Nat → List β) → List β
  | _, [] => []
  | i, row :: rows => row (path ++ [i]) ++ rowsFrom path (i + 1) rows

/--
The node at `path` and those below it, with their paths. Below a node at which `stop` holds there
are none.
-/
def listing (stop : List Nat → Node → Bool) : Node → List Nat → List (List Nat × Node) :=
  fold fun n rows path => (path, n) :: if stop path n then [] else rowsFrom path 0 rows

variable (stop : List Nat → Node → Bool)

/-- The parts of the node at `path`, from the one with number `i` on, and the nodes below them. -/
def listingFrom (path : List Nat) (i : Nat) (ns : List Node) : List (List Nat × Node) :=
  rowsFrom path i (ns.map (listing stop))

theorem listing_eq (n : Node) (path : List Nat) : n.listing stop path =
    (path, n) :: if stop path n then [] else listingFrom stop path 0 n.parts := by
  rw [listing, fold_eq]
  rfl

theorem listingFrom_nil (path : List Nat) (i : Nat) : listingFrom stop path i [] = [] := rfl

theorem listingFrom_cons (path : List Nat) (i : Nat) (n : Node) (ns : List Node) :
    listingFrom stop path i (n :: ns) =
      n.listing stop (path ++ [i]) ++ listingFrom stop path (i + 1) ns := rfl

variable {stop} {path : List Nat} {i : Nat} {n : Node} {ns : List Node} {x : List Nat × Node}

theorem mem_listingFrom : x ∈ listingFrom stop path i ns ↔
    ∃ (j : Nat) (n : Node), ns[j]? = some n ∧ x ∈ n.listing stop (path ++ [i + j]) := by
  induction ns generalizing i with
  | nil => simp [listingFrom_nil]
  | cons n ns ih =>
    rw [listingFrom_cons, List.mem_append, ih]
    constructor
    · rintro (hx | ⟨j, k, hk, hx⟩)
      · exact ⟨0, n, rfl, hx⟩
      · refine ⟨j + 1, k, hk, ?_⟩
        rwa [Nat.add_right_comm] at hx
    · rintro ⟨_ | j, k, hk, hx⟩
      · cases hk
        exact .inl hx
      · refine .inr ⟨j, k, hk, ?_⟩
        rwa [Nat.add_right_comm]

/-- From `n`, which is at `path`, the walk comes to the node at `rest`. -/
def Met (stop : List Nat → Node → Bool) (path : List Nat) (n : Node) (rest : List Nat) : Prop :=
  ∀ before k, before <+: rest → before ≠ rest → n.at? before = some k →
    stop (path ++ before) k = false

theorem met_nil : Met stop path n [] := by
  intro before k hbefore hne
  exact absurd (List.prefix_nil.1 hbefore) hne

theorem met_cons {j : Nat} {rest : List Nat} {k : Node} (hk : n.parts[j]? = some k) :
    Met stop path n (j :: rest) ↔ stop path n = false ∧ Met stop (path ++ [j]) k rest := by
  constructor
  · intro h
    refine ⟨?_, fun before l hbefore hne hl => ?_⟩
    · have hself := h [] n (List.nil_prefix) (by simp) rfl
      rwa [List.append_nil] at hself
    · have hbelow := h (j :: before) l (List.cons_prefix_cons.2 ⟨rfl, hbefore⟩) (by simpa using hne)
        (by rw [at?, hk]; exact hl)
      rwa [List.append_assoc]
  · rintro ⟨hstop, h⟩ before l hbefore hne hl
    cases before with
    | nil =>
      cases hl
      rwa [List.append_nil]
    | cons i before =>
      obtain ⟨rfl, hpre⟩ := List.cons_prefix_cons.1 hbefore
      rw [at?, hk] at hl
      have hbelow := h before l hpre (by simpa using hne) hl
      rwa [List.append_assoc] at hbelow

/-- What is listed are the nodes that are met, each with its path. -/
theorem mem_listing (n : Node) : ∀ {path : List Nat}, x ∈ n.listing stop path ↔
    ∃ rest, x.1 = path ++ rest ∧ n.at? rest = some x.2 ∧ Met stop path n rest := by
  induction n using Node.induction with
  | step n ih =>
    intro path
    rw [listing_eq, List.mem_cons]
    constructor
    · rintro (rfl | hx)
      · exact ⟨[], (List.append_nil path).symm, rfl, met_nil⟩
      · cases hstop : stop path n with
        | true => simp [hstop] at hx
        | false =>
          rw [hstop, if_neg Bool.false_ne_true, mem_listingFrom] at hx
          obtain ⟨j, k, hk, hx⟩ := hx
          rw [Nat.zero_add, ih k (List.mem_of_getElem? hk)] at hx
          obtain ⟨rest, hpath, hat, hmet⟩ := hx
          refine ⟨j :: rest, ?_, ?_, (met_cons hk).2 ⟨hstop, hmet⟩⟩
          · rw [hpath, List.append_assoc]
            rfl
          · rw [at?, hk]
            exact hat
    · rintro ⟨_ | ⟨j, rest⟩, hpath, hat, hmet⟩
      · cases hat
        rw [List.append_nil] at hpath
        exact .inl (Prod.ext hpath rfl)
      · rw [at?] at hat
        obtain ⟨k, hk, hat⟩ := Option.bind_eq_some_iff.1 hat
        obtain ⟨hstop, hmet⟩ := (met_cons hk).1 hmet
        rw [hstop, if_neg Bool.false_ne_true, mem_listingFrom]
        refine .inr ⟨j, k, hk, ?_⟩
        rw [Nat.zero_add, ih k (List.mem_of_getElem? hk)]
        exact ⟨rest, by rw [hpath, List.append_assoc]; rfl, hat, hmet⟩

/-! ## The order of the list -/

theorem lt_append_cons (path : List Nat) (i : Nat) (rest : List Nat) :
    path < path ++ i :: rest := by
  have h : path ++ [] < path ++ i :: rest := List.append_left_lt (List.nil_lt_cons i rest)
  rwa [List.append_nil] at h

theorem append_cons_lt {j : Nat} (h : i < j) (path rest rest' : List Nat) :
    path ++ i :: rest < path ++ j :: rest' :=
  List.append_left_lt (List.cons_lt_cons_iff.2 (.inl h))

theorem exists_of_mem_listingFrom (hx : x ∈ listingFrom stop path i ns) :
    ∃ j rest, i ≤ j ∧ x.1 = path ++ j :: rest := by
  obtain ⟨j, n, -, hx⟩ := mem_listingFrom.1 hx
  obtain ⟨rest, hpath, -⟩ := n.mem_listing.1 hx
  exact ⟨i + j, rest, Nat.le_add_right i j, by rw [hpath, List.append_assoc]; rfl⟩

theorem pairwise_listingFrom
    (h : ∀ n ∈ ns, ∀ path, (n.listing stop path).Pairwise fun x y => x.1 < y.1) :
    (listingFrom stop path i ns).Pairwise fun x y => x.1 < y.1 := by
  induction ns generalizing i with
  | nil => exact .nil
  | cons n ns ih =>
    rw [List.forall_mem_cons] at h
    rw [listingFrom_cons]
    refine List.pairwise_append.2 ⟨h.1 _, ih h.2, fun x hx y hy => ?_⟩
    obtain ⟨rest, hxpath, -⟩ := n.mem_listing.1 hx
    obtain ⟨j, rest', hij, hypath⟩ := exists_of_mem_listingFrom hy
    rw [hxpath, hypath, List.append_assoc]
    exact append_cons_lt hij path rest rest'

/-- A node is listed before those below it, and these in the order of the parts. -/
theorem pairwise_listing (stop : List Nat → Node → Bool) (n : Node) : ∀ path : List Nat,
    (n.listing stop path).Pairwise fun x y => x.1 < y.1 := by
  induction n using Node.induction with
  | step n ih =>
    intro path
    rw [listing_eq]
    refine List.pairwise_cons.2 ⟨fun x hx => ?_, ?_⟩
    · split at hx
      · cases hx
      · obtain ⟨j, rest, -, hpath⟩ := exists_of_mem_listingFrom hx
        rw [hpath]
        exact lt_append_cons path j rest
    · split
      · exact .nil
      · exact pairwise_listingFrom ih

/-! ## The nodes in the list -/

theorem sublist_listingFrom (h : ∀ n ∈ ns, ∀ path,
    ((n.listing stop path).map Prod.snd).Sublist n.nodes) :
    ((listingFrom stop path i ns).map Prod.snd).Sublist (ns.flatMap nodes) := by
  induction ns generalizing i with
  | nil => exact .slnil
  | cons n ns ih =>
    rw [List.forall_mem_cons] at h
    rw [listingFrom_cons, List.map_append, List.flatMap_cons]
    exact (h.1 _).append (ih h.2)

/-- What is listed are some of the nodes, in the same order. -/
theorem sublist_listing (stop : List Nat → Node → Bool) (n : Node) : ∀ path : List Nat,
    ((n.listing stop path).map Prod.snd).Sublist n.nodes := by
  induction n using Node.induction with
  | step n ih =>
    intro path
    rw [listing_eq, nodes_eq, List.map_cons]
    refine .cons_cons n ?_
    split
    · exact List.nil_sublist _
    · exact sublist_listingFrom ih

theorem map_snd_listingFrom (h : ∀ n ∈ ns, ∀ path, (n.listing stop path).map Prod.snd = n.nodes) :
    (listingFrom stop path i ns).map Prod.snd = ns.flatMap nodes := by
  induction ns generalizing i with
  | nil => rfl
  | cons n ns ih =>
    rw [List.forall_mem_cons] at h
    rw [listingFrom_cons, List.map_append, List.flatMap_cons, h.1, ih h.2]

/-- If the walk does not stop anywhere, all nodes are listed. -/
theorem map_snd_listing (h : ∀ path n, stop path n = false) (n : Node) : ∀ path : List Nat,
    (n.listing stop path).map Prod.snd = n.nodes := by
  induction n using Node.induction with
  | step n ih =>
    intro path
    rw [listing_eq, nodes_eq, h, if_neg Bool.false_ne_true, List.map_cons, map_snd_listingFrom ih]

end Node

end MiniJava
