import Mathlib.Logic.Function.Basic
import Mathlib.Data.List.Basic

/-! # Arrays with a live prefix

    A fixed array of which only the first `n` cells are in use, as a function
    from indices together with its live prefix `live f n`, a list.  The cells
    behind the prefix hold whatever was left there.

    `memmove` is the block copy of the C library (overlap allowed).  The three
    updates of a live prefix (overwrite a cell, open a gap, close a gap) are
    stated on lists split at the position concerned, so that several arrays
    updated in parallel split alike. -/

namespace LiveArray

open Function

variable {α β : Type _}

/-- The live prefix of an array. -/
def live (f : Nat → α) (n : Nat) : List α := (List.range n).map f

@[simp] theorem length_live (f : Nat → α) (n : Nat) : (live f n).length = n := by
  simp [live]

theorem live_eq_iff (f : Nat → α) (n : Nat) (xs : List α) :
    live f n = xs ↔ n = xs.length ∧ ∀ i (h : i < xs.length), f i = xs.get ⟨i, h⟩ := by
  constructor
  · rintro rfl
    refine ⟨by simp, ?_⟩
    intro i h
    simp [live]
  · rintro ⟨rfl, h⟩
    apply List.ext_getElem
    · simp
    · intro i _ h₂
      simpa [live] using h i h₂

/-- Reading the cell where a live prefix splits. -/
theorem live_split {f : Nat → α} {n : Nat} {xs ys : List α} {x : α}
    (h : live f n = xs ++ x :: ys) : f xs.length = x ∧ xs.length < n := by
  obtain ⟨hn, hget⟩ := (live_eq_iff _ _ _).mp h
  constructor
  · rw [hget xs.length (by simp)]
    simp
  · rw [hn]
    simp

/-- Copy `n` cells from `src` on to `dst` on. -/
def memmove (f : Nat → α) (dst src n : Nat) : Nat → α :=
  fun i => if dst ≤ i ∧ i < dst + n then f (src + (i - dst)) else f i

/-- Overwrite the cell where a live prefix splits. -/
theorem live_update {f : Nat → α} {n : Nat} {xs ys : List α} {x : α} (y : α)
    (h : live f n = xs ++ x :: ys) : live (update f xs.length y) n = xs ++ y :: ys := by
  obtain ⟨hn, hget⟩ := (live_eq_iff _ _ _).mp h
  rw [live_eq_iff]
  refine ⟨by simpa using hn, ?_⟩
  intro i hi
  have hi' : i < (xs ++ x :: ys).length := by simpa using hi
  have hold := hget i hi'
  by_cases he : i = xs.length
  · subst he
    simp
  · rw [update_of_ne he, hold]
    simp only [List.get_eq_getElem, List.getElem_append, List.getElem_cons]
    split
    · rfl
    · have : i - xs.length ≠ 0 := by omega
      simp [this]

/-- Open a gap in a live prefix and fill it. -/
theorem live_insert {f : Nat → α} {n : Nat} {xs ys : List α} (y : α)
    (h : live f n = xs ++ ys) :
    live (update (memmove f (xs.length + 1) xs.length (n - xs.length)) xs.length y) (n + 1)
      = xs ++ y :: ys := by
  obtain ⟨hn, hget⟩ := (live_eq_iff _ _ _).mp h
  have hlen : n = xs.length + ys.length := by simpa using hn
  rw [live_eq_iff]
  refine ⟨by simp; omega, ?_⟩
  intro i hi
  have hi' : i < xs.length + (ys.length + 1) := by simpa using hi
  simp only [List.get_eq_getElem]
  rcases Nat.lt_trichotomy i xs.length with hlt | heq | hgt
  · have hold := hget i (by simp; omega)
    rw [update_of_ne (by omega), memmove, if_neg (by omega), hold]
    simp [hlt]
  · subst heq
    simp
  · have hold := hget (i - 1) (by simp; omega)
    rw [update_of_ne (by omega), memmove, if_pos (by omega),
      show xs.length + (i - (xs.length + 1)) = i - 1 by omega, hold]
    have h1 : ¬ i - 1 < xs.length := by omega
    have h2 : ¬ i < xs.length := by omega
    have h3 : i - xs.length = i - 1 - xs.length + 1 := by omega
    simp [List.getElem_append, h1, h2, h3]

/-- Close the gap left by a cell of a live prefix. -/
theorem live_erase {f : Nat → α} {n : Nat} {xs ys : List α} {x : α}
    (h : live f n = xs ++ x :: ys) :
    live (memmove f xs.length (xs.length + 1) (n - xs.length - 1)) (n - 1) = xs ++ ys := by
  obtain ⟨hn, hget⟩ := (live_eq_iff _ _ _).mp h
  have hlen : n = xs.length + (ys.length + 1) := by simpa using hn
  rw [live_eq_iff]
  refine ⟨by simp; omega, ?_⟩
  intro i hi
  have hi' : i < xs.length + ys.length := by simpa using hi
  simp only [List.get_eq_getElem, memmove]
  by_cases hlt : i < xs.length
  · have hold := hget i (by simp; omega)
    rw [if_neg (by omega), hold]
    simp [hlt]
  · have hold := hget (i + 1) (by simp; omega)
    rw [if_pos (by omega), show xs.length + 1 + (i - xs.length) = i + 1 by omega, hold]
    have h1 : ¬ i + 1 < xs.length := by omega
    have h2 : i + 1 - xs.length = i - xs.length + 1 := by omega
    simp [List.getElem_append, hlt, h1, h2]

/-- A linear search over the live cells finds the first match. -/
theorem find_live (f : Nat → α) (n : Nat) (p : α → Bool) :
    (List.range n).find? (fun i => p (f i)) = (live f n).findIdx? p := by
  induction n with
  | zero => rfl
  | succ n ih =>
    have hsnoc : live f (n + 1) = live f n ++ [f n] := by simp [live, List.range_succ]
    rw [List.range_succ, List.find?_append, hsnoc, List.findIdx?_append, ih]
    cases h : p (f n) <;> simp [h]

end LiveArray
