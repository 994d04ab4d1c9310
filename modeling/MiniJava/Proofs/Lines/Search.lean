import MiniJava.Source.LineTable

/-!
# Looking into increasing tables

In a table of which the numbers increase, halving finds each number that is there. Where it finds
none, it tells where the number would stand.
-/

namespace MiniJava

/-- The numbers of a table increase. -/
def Increasing (xs : Array Nat) : Prop :=
  ∀ ⦃i j y z : Nat⦄, i < j → xs[i]? = some y → xs[j]? = some z → y < z

theorem Increasing.of_pairwise {xs : Array Nat} (h : xs.toList.Pairwise (· < ·)) :
    Increasing xs := by
  intro i j y z hlt hy hz
  rw [← Array.getElem?_toList] at hy hz
  obtain ⟨hi, rfl⟩ := List.getElem?_eq_some_iff.1 hy
  obtain ⟨hj, rfl⟩ := List.getElem?_eq_some_iff.1 hz
  exact List.pairwise_iff_getElem.1 h i j hi hj hlt

namespace Slot

/-- What a slot says of a table and a number. -/
def Tells (xs : Array Nat) (x : Nat) : Slot → Prop
  | .found index => xs[index]? = some x
  | .gap index => index ≤ xs.size ∧ (∀ i y, i < index → xs[i]? = some y → y < x) ∧
      ∀ i y, index ≤ i → xs[i]? = some y → x < y

variable {xs : Array Nat} {x low high : Nat}

/-- A search keeps what is known of the table below `low` and from `high` on. -/
theorem tells_search (hxs : Increasing xs) (h : high ≤ xs.size) (hle : low ≤ high)
    (hlow : ∀ i y, i < low → xs[i]? = some y → y < x)
    (hhigh : ∀ i y, high ≤ i → xs[i]? = some y → x < y) :
    (search xs x low high h).Tells xs x := by
  fun_induction search xs x low high h with
  | case1 low high h hlt middle hmiddle heq =>
    rw [Tells, Array.getElem?_eq_getElem hmiddle, heq]
  | case2 low high h hlt middle hmiddle hne hless ih =>
    have hget := Array.getElem?_eq_getElem hmiddle
    refine ih (by omega) (fun i y hi hy => ?_) hhigh
    rcases Nat.lt_or_eq_of_le (Nat.le_of_lt_succ hi) with hi | rfl
    · exact Nat.lt_trans (hxs hi hy hget) hless
    · rwa [← Option.some.inj (hget.symm.trans hy)]
  | case3 low high h hlt middle hmiddle hne hless ih =>
    have hget := Array.getElem?_eq_getElem hmiddle
    have hmore : x < xs[middle] := by omega
    refine ih (by omega) hlow fun i y hi hy => ?_
    rcases Nat.lt_or_eq_of_le hi with hi | rfl
    · exact Nat.lt_trans hmore (hxs hi hget hy)
    · rwa [← Option.some.inj (hget.symm.trans hy)]
  | case4 low high h hlt =>
    obtain rfl : low = high := by omega
    exact ⟨h, hlow, hhigh⟩

/-- A search of the whole table. -/
theorem tells_search_all (hxs : Increasing xs) (x : Nat) :
    (search xs x 0 xs.size (Nat.le_refl _)).Tells xs x := by
  refine tells_search hxs _ (Nat.zero_le _) (fun i y hi => absurd hi (Nat.not_lt_zero i)) ?_
  intro i y hi hy
  rw [Array.getElem?_eq_none hi] at hy
  cases hy

end Slot

end MiniJava
