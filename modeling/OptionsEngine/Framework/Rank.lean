import Mathlib.Data.List.Basic

/-! # Order statistics

    The `k`-th smallest element of a list, counting from 0, under a total
    preorder `le`:

    * `kth`: what stands at place `k` of the sorted list.
    * `lt_countP_iff`: more than `k` elements satisfy a predicate that is closed
      downwards exactly if the `k`-th smallest does.  Counting the elements up
      to a bound so locates the `k`-th smallest among the bounds.
    * `kth_mono`: larger ranks have larger elements. -/

namespace Rank

variable {α : Type}

/-- The `k`-th smallest element, counting from 0. -/
def kth (le : α → α → Bool) (xs : List α) (k : Nat) : Option α := (xs.mergeSort le)[k]?

variable {le : α → α → Bool} {xs : List α} {x : α} {k : Nat}

theorem kth_mem (h : kth le xs k = some x) : x ∈ xs :=
  List.mem_mergeSort.mp (List.mem_of_getElem? h)

theorem exists_kth (hk : k < xs.length) : ∃ x, kth le xs k = some x := by
  have hlen : k < (xs.mergeSort le).length := by rwa [List.length_mergeSort]
  exact ⟨_, List.getElem?_eq_getElem hlen⟩

/-- In a sorted list, what satisfies a downward closed predicate comes first. -/
theorem lt_countP_of_pairwise {p : α → Bool} (hp : ∀ a b, le a b → p b → p a) :
    ∀ {ys : List α} {k : Nat}, ys.Pairwise (fun a b => le a b) →
      (k < ys.countP p ↔ ∃ y, ys[k]? = some y ∧ p y) := by
  intro ys
  induction ys with
  | nil => simp
  | cons y ys ih =>
    intro k hsorted
    obtain ⟨hhead, htail⟩ := List.pairwise_cons.mp hsorted
    by_cases hy : p y
    · rw [List.countP_cons_of_pos hy]
      cases k with
      | zero => simp [hy]
      | succ k => simpa using ih htail
    · -- nothing behind `y` satisfies it either
      have hnone : ys.countP p = 0 := by
        rw [List.countP_eq_zero]
        exact fun z hz hpz => hy (hp y z (hhead z hz) hpz)
      rw [List.countP_cons_of_neg hy, hnone]
      constructor
      · exact fun h => absurd h (Nat.not_lt_zero k)
      · rintro ⟨z, hz, hpz⟩
        rcases List.mem_cons.mp (List.mem_of_getElem? hz) with rfl | hz'
        · exact absurd hpz hy
        · exact absurd (hp y z (hhead z hz') hpz) hy

section order

variable (htrans : ∀ a b c : α, le a b → le b c → le a c) (htotal : ∀ a b : α, le a b || le b a)
include htrans htotal

theorem lt_countP_iff {p : α → Bool} (hp : ∀ a b, le a b → p b → p a)
    (h : kth le xs k = some x) : k < xs.countP p ↔ p x := by
  have hsorted := List.pairwise_mergeSort htrans htotal xs
  rw [← (List.mergeSort_perm xs le).countP_eq p, lt_countP_of_pairwise hp hsorted]
  constructor
  · rintro ⟨y, hy, hpy⟩
    obtain rfl : y = x := Option.some.inj (hy.symm.trans h)
    exact hpy
  · exact fun hpx => ⟨x, h, hpx⟩

theorem kth_mono {y : α} {l : Nat} (h : kth le xs k = some x) (h' : kth le xs l = some y)
    (hlt : k < l) : le x y := by
  have hsorted := List.pairwise_mergeSort htrans htotal xs
  rw [List.pairwise_iff_getElem] at hsorted
  obtain ⟨hk, rfl⟩ := List.getElem?_eq_some_iff.mp h
  obtain ⟨hl, rfl⟩ := List.getElem?_eq_some_iff.mp h'
  exact hsorted k l hk hl hlt

end order

end Rank
