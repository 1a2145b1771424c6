import Mathlib.Logic.Basic

/-! # Lanes of a 256-bit register

    The vector instructions a search for an equal 64-bit word needs, lane by
    lane as their documentation has them:

    * `mm256_set1_epi64x`, `mm256_loadu_si256`: a word in every lane; four
      words from memory.
    * `mm256_cmpeq_epi64`: all ones in the lanes that agree, zero in the others.
    * `mm256_movemask_epi8`: the top bit of each of the 32 bytes.

    In the mask of a comparison a lane that agrees has eight equal bits, so the
    lowest set bit lies in the first lane that agrees (`lane_of_ctz`), and the
    mask is zero if none does (`mask_eq_zero_iff`). -/

namespace Simd

abbrev Word := BitVec 64

/-- `__m256i` as four lanes. -/
abbrev M256i := Fin 4 → Word

def mm256_set1_epi64x (x : Word) : M256i := fun _ => x

def mm256_loadu_si256 (mem : Nat → Word) (i : Nat) : M256i := fun k => mem (i + k)

def mm256_cmpeq_epi64 (a b : M256i) : M256i := fun k =>
  if a k = b k then BitVec.allOnes 64 else 0

/-- The top bit of byte `j`, which is byte `j % 8` of lane `j / 8`. -/
def topBit (v : M256i) (j : Nat) : Bool := (v (Fin.ofNat 4 (j / 8))).getLsbD (8 * (j % 8) + 7)

def mm256_movemask_epi8 (v : M256i) : BitVec 32 :=
  (BitVec.ofBoolListLE ((List.range 32).map (topBit v))).setWidth 32

variable {a b : M256i}

/-- A bit of the mask tells whether its lane agrees. -/
theorem getLsbD_mask {j : Nat} (hj : j < 32) :
    (mm256_movemask_epi8 (mm256_cmpeq_epi64 a b)).getLsbD j =
      decide (a (Fin.ofNat 4 (j / 8)) = b (Fin.ofNat 4 (j / 8))) := by
  have hbit : (mm256_movemask_epi8 (mm256_cmpeq_epi64 a b)).getLsbD j =
      topBit (mm256_cmpeq_epi64 a b) j := by
    rw [mm256_movemask_epi8, BitVec.getLsbD_setWidth, BitVec.getLsbD_ofBoolListLE,
      decide_eq_true hj, Bool.true_and]
    simp [hj]
  rw [hbit, topBit, mm256_cmpeq_epi64]
  split
  · next heq =>
    rw [BitVec.getLsbD_allOnes, decide_eq_true heq]
    exact decide_eq_true (by omega)
  · next hne =>
    rw [decide_eq_false hne]
    exact BitVec.getLsbD_zero

theorem getLsbD_mask_lane (k : Fin 4) :
    (mm256_movemask_epi8 (mm256_cmpeq_epi64 a b)).getLsbD (8 * k) = decide (a k = b k) := by
  have hlane : Fin.ofNat 4 (8 * (k : Nat) / 8) = k := by
    apply Fin.ext
    rw [Fin.val_ofNat]
    omega
  rw [getLsbD_mask (by omega), hlane]

theorem mask_eq_zero_iff :
    mm256_movemask_epi8 (mm256_cmpeq_epi64 a b) = 0#32 ↔ ∀ k, a k ≠ b k := by
  constructor
  · intro hzero k heq
    have hbit := getLsbD_mask_lane (a := a) (b := b) k
    rw [hzero, BitVec.getLsbD_zero, decide_eq_true heq] at hbit
    exact Bool.false_ne_true hbit
  · intro hne
    apply BitVec.eq_of_getLsbD_eq
    intro j hj
    rw [getLsbD_mask hj, decide_eq_false (hne _), BitVec.getLsbD_zero]

/-- The lowest set bit of the mask lies in the first lane that agrees. -/
theorem lane_of_ctz (h : mm256_movemask_epi8 (mm256_cmpeq_epi64 a b) ≠ 0#32) :
    ∃ k : Fin 4, (mm256_movemask_epi8 (mm256_cmpeq_epi64 a b)).ctz.toNat / 8 = k ∧ a k = b k ∧
      ∀ k' < k, a k' ≠ b k' := by
  have hset := BitVec.getLsbD_true_ctz_of_ne_zero h
  have hlt := BitVec.lt_of_getLsbD hset
  rw [getLsbD_mask hlt] at hset
  refine ⟨Fin.ofNat 4 _, ?_, of_decide_eq_true hset, ?_⟩
  · rw [Fin.val_ofNat]
    omega
  intro k hk heq
  -- the first bit of an earlier lane that agrees would be set, and lower
  have hlane : (k : Nat) < (mm256_movemask_epi8 (mm256_cmpeq_epi64 a b)).ctz.toNat / 8 := by
    rw [Fin.lt_def, Fin.val_ofNat] at hk
    omega
  have hbit := getLsbD_mask_lane (a := a) (b := b) k
  rw [BitVec.getLsbD_false_of_lt_ctz (by omega), decide_eq_true heq] at hbit
  exact Bool.false_ne_true hbit

end Simd
