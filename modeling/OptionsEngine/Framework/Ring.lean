import Mathlib.Data.Nat.ModEq
import Mathlib.Logic.Function.Basic

/-! # Ring buffers

    Positions that only grow, stored in the slots of a ring at their residue
    modulo the capacity:

    * `Capacity`: the sizes a ring indexed with a bit mask may have.
    * `eq_of_mod_eq`: within one turn of the ring a slot stands for one
      position.
    * `Window buffer C n items`: the ring stores `items` at the positions from
      `n` on.  `Window.update`, `Window.push` and `Window.pop` are its rules
      for a write outside the window, at its end and for its first position
      left behind.
    * `Agree v w i`: a copy of `w` into `v` that has done its first `i` words.
-/

namespace Ring

/-- A capacity of 64 bits, greater than one and a power of two, as a bit test
    says it. -/
structure Capacity where
  size : Nat
  one_lt : 1 < size
  pow_two : size &&& (size - 1) = 0
  fits : size < 2 ^ 64
  deriving DecidableEq

namespace Capacity

variable (C : Capacity)

def mask : Nat := C.size - 1

theorem exists_pow : ∃ k, C.size = 2 ^ k := by
  have hne : C.size ≠ 0 := by have := C.one_lt; omega
  exact (Nat.and_sub_one_eq_zero_iff_isPowerOfTwo hne).mp C.pow_two

theorem and_mask (pos : Nat) : pos &&& C.mask = pos % C.size := by
  obtain ⟨k, hk⟩ := C.exists_pow
  rw [mask, hk, Nat.and_two_pow_sub_one_eq_mod]

theorem pos : 0 < C.size := by
  have := C.one_lt
  omega

theorem mask_add_one : C.mask + 1 = C.size := by
  have := C.one_lt
  unfold mask
  omega

theorem size_le : C.size ≤ 2 ^ 63 := by
  obtain ⟨k, hk⟩ := C.exists_pow
  have hfits : 2 ^ k < 2 ^ 64 := hk ▸ C.fits
  rw [hk]
  exact Nat.pow_le_pow_right (by omega) (by have := (Nat.pow_lt_pow_iff_right (by omega)).mp hfits; omega)

end Capacity

/-- Two positions less than a turn apart share a slot only if they are equal. -/
theorem eq_of_mod_eq {a b n : Nat} (hab : a ≤ b) (hb : b < a + n) (h : a % n = b % n) : a = b := by
  obtain ⟨d, rfl⟩ := Nat.exists_eq_add_of_le hab
  have hmod : (a + 0) % n = (a + d) % n := h
  have hd : 0 % n = d % n := Nat.ModEq.add_left_cancel' a hmod
  rw [Nat.zero_mod, Nat.mod_eq_of_lt (by omega)] at hd
  omega

/-- Neighbouring positions have different slots. -/
theorem succ_mod_ne {n : Nat} (hn : 1 < n) (a : Nat) : (a + 1) % n ≠ a % n := by
  intro heq
  have := eq_of_mod_eq (Nat.le_succ a) (by omega) heq.symm
  omega

/-! ## Windows of a ring -/

variable {T : Type _} {buffer : Nat → T} {C n : Nat} {items : List T} {x : T}

/-- The ring stores `items` at the positions `n`, `n + 1`, and so on. -/
def Window (buffer : Nat → T) (C n : Nat) (items : List T) : Prop :=
  ∀ i (h : i < items.length), buffer ((n + i) % C) = items[i]

theorem Window.nil : Window buffer C n [] := by
  intro i h
  simp at h

theorem Window.head (h : Window buffer C n (x :: items)) : buffer (n % C) = x := h 0 (by simp)

theorem Window.pop (h : Window buffer C n (x :: items)) : Window buffer C (n + 1) items := by
  intro i hi
  have hnext := h (i + 1) (by simpa using hi)
  rw [show n + 1 + i = n + (i + 1) by omega, hnext]
  simp

/-- The slot after a window that is not a whole turn is free to be written. -/
theorem Window.update (h : Window buffer C n items) (hfree : items.length < C) (x : T) :
    Window (Function.update buffer ((n + items.length) % C) x) C n items := by
  intro i hi
  have hne : (n + i) % C ≠ (n + items.length) % C := by
    intro heq
    have := eq_of_mod_eq (by omega) (by omega) heq
    omega
  rw [Function.update_of_ne hne]
  exact h i hi

theorem Window.push (h : Window buffer C n items)
    (hlast : buffer ((n + items.length) % C) = x) : Window buffer C n (items ++ [x]) := by
  intro i hi
  rcases Nat.lt_or_ge i items.length with hlt | hge
  · rw [List.getElem_append_left hlt]
    exact h i hlt
  · have : i = items.length := by simp at hi; omega
    subst this
    simpa using hlast

/-- A window's items are what its slots store. -/
theorem Window.eq_map (h : Window buffer C n items) :
    (List.range items.length).map (fun i => buffer ((n + i) % C)) = items := by
  apply List.ext_getElem
  · simp
  · intro i _ hi
    simpa using h i hi

/-! ## Payloads copied word by word -/

/-- A payload of `W` machine words. -/
abbrev Item (α : Type _) (W : Nat) := Vector α W

variable {α : Type _} {W : Nat} {v w : Item α W} {i : Nat}

/-- The first `i` words of two payloads agree. -/
def Agree (v w : Item α W) (i : Nat) : Prop := ∀ j (h : j < W), j < i → v[j] = w[j]

theorem Agree.zero (v w : Item α W) : Agree v w 0 := by
  intro j _ hj
  omega

/-- Copying the next word. -/
theorem Agree.set (h : Agree v w i) (hi : i < W) : Agree (v.set i w[i]) w (i + 1) := by
  intro j hj hlt
  rcases Nat.lt_or_ge j i with hji | hge
  · rw [Vector.getElem_set_ne _ _ (by omega)]
    exact h j hj hji
  · obtain rfl : j = i := by omega
    rw [Vector.getElem_set_self]

/-- A copy that has reached the end is complete. -/
theorem Agree.eq (h : Agree v w i) (hi : ¬ i < W) : v = w := by
  apply Vector.ext
  intro j hj
  exact h j hj (by omega)

end Ring
