import Mathlib.Algebra.GroupWithZero.Nat
import OptionsEngine.Framework.Simd
import OptionsEngine.OrderBook

/-! # The vector search for a level

    Where the build has AVX2, `Side::find_level` calls `find_level_avx2`: four
    prices at a time are compared with the target, and a tail of up to three is
    searched one by one.  It is modelled on the machine's own integers, with
    the indices of the elements it loads.

    The scalar loop is `Side.find_level`.  Both return the same `int32_t`, for
    every array whose indices fit in one (`vector_search_eq_scalar`). -/

namespace OptionsEngine

open Loop Simd

/-! ## Section 1: Model -/

/-- A search under way: the cursor, and the elements loaded so far. -/
structure Scan where
  i : UInt32
  loads : List Nat

section model

variable (prices : Nat → Int64) (count : UInt32) (target : Int64)

/-- One pass of the vector loop; it leaves with a result, or with the cursor
    for the tail. -/
def avx2_chunk (s : Scan) : Option (LoopStep Scan (Option Int32 × Scan)) :=
  -- the sum is taken in `uint32_t`
  if s.i + 4 ≤ count then
    let vtarget := mm256_set1_epi64x target.toBitVec
    let chunk := mm256_loadu_si256 (fun j => (prices j).toBitVec) s.i.toNat
    let loads := s.loads ++ [s.i.toNat, s.i.toNat + 1, s.i.toNat + 2, s.i.toNat + 3]
    let msk := mm256_movemask_epi8 (mm256_cmpeq_epi64 chunk vtarget)
    if msk ≠ 0#32 then
      some (.exit (some (s.i + UInt32.ofNat (msk.ctz.toNat / 8)).toInt32, ⟨s.i, loads⟩))
    else some (.next ⟨s.i + 4, loads⟩)
  else some (.exit (none, s))

/-- One pass of the loop over the tail. -/
def avx2_tail (s : Scan) : Option (LoopStep Scan (Int32 × List Nat)) :=
  if s.i < count then
    let loads := s.loads ++ [s.i.toNat]
    if prices s.i.toNat = target then some (.exit (s.i.toInt32, loads))
    else some (.next ⟨s.i + 1, loads⟩)
  else some (.exit (-1, s.loads))

/-- The result, and the indices of the elements loaded. -/
def find_level_avx2 : Option (Int32 × List Nat) :=
  (loop (avx2_chunk prices count target) (count.toNat + 1) ⟨0, []⟩).bind fun
    | (some r, s) => some (r, s.loads)
    | (none, s) => loop (avx2_tail prices count target) (count.toNat + 1) s

end model

/-- A side with the given prices. -/
def OrderBook.Side.withPrices (s : OrderBook.Side) (prices : Nat → Int64) (count : UInt32) :
    OrderBook.Side :=
  { s with prices := fun i => (prices i).toInt, count := count.toNat }

/-- What the scalar loop returns for the position it stops at. -/
def returned : Option Nat → Int32
  | some i => (UInt32.ofNat i).toInt32
  | none => -1

/-! ## Section 2: The two loops -/

/-- The least index below `count` with the target. -/
def First (prices : Nat → Int64) (count : UInt32) (target : Int64) (i : Nat) : Prop :=
  i < count.toNat ∧ prices i = target ∧ ∀ j < i, prices j ≠ target

/-- What a search should return and load. -/
structure Searched (prices : Nat → Int64) (count : UInt32) (target : Int64) (r : Int32)
    (loads : List Nat) : Prop where
  inside : ∀ i ∈ loads, i < count.toNat
  result : (∃ i, First prices count target i ∧ r = (UInt32.ofNat i).toInt32) ∨
    (∀ i < count.toNat, prices i ≠ target) ∧ r = -1

/-- The elements before the cursor were compared, and are not the target. -/
structure Passed (prices : Nat → Int64) (count : UInt32) (target : Int64) (s : Scan) : Prop where
  inside : ∀ i ∈ s.loads, i < count.toNat
  cursor : s.i.toNat ≤ count.toNat
  before : ∀ j < s.i.toNat, prices j ≠ target

variable {prices : Nat → Int64} {count : UInt32} {target : Int64} {s : Scan}

theorem toNat_add_small (hcount : count.toNat ≤ 2 ^ 31) (hi : s.i.toNat ≤ count.toNat) {k : Nat}
    (hk : k ≤ 4) : (s.i + UInt32.ofNat k).toNat = s.i.toNat + k := by
  rw [UInt32.toNat_add, UInt32.toNat_ofNat']
  omega

/-- The search of the tail. -/
theorem Passed.tail (hcount : count.toNat ≤ 2 ^ 31) (n : Nat) :
    ∀ {s : Scan}, Passed prices count target s → count.toNat - s.i.toNat = n →
      ∃ r loads, loop (avx2_tail prices count target) (n + 1) s = some (r, loads) ∧
        Searched prices count target r loads := by
  induction n with
  | zero =>
    intro s h hn
    have hstop : ¬ s.i < count := by
      rw [UInt32.lt_iff_toNat_lt]
      omega
    have hpass : avx2_tail prices count target s = some (.exit (-1, s.loads)) := if_neg hstop
    have hcur := h.cursor
    refine ⟨-1, s.loads, loop_exit hpass _, h.inside, .inr ⟨?_, rfl⟩⟩
    exact fun i hi => h.before i (by omega)
  | succ n ih =>
    intro s h hn
    have hgo : s.i < count := by
      rw [UInt32.lt_iff_toNat_lt]
      omega
    have hinside : ∀ i ∈ s.loads ++ [s.i.toNat], i < count.toNat := by
      intro i hi
      rcases List.mem_append.mp hi with hi | hi
      · exact h.inside i hi
      · rw [List.mem_singleton.mp hi]
        omega
    by_cases heq : prices s.i.toNat = target
    · have hpass : avx2_tail prices count target s =
          some (.exit (s.i.toInt32, s.loads ++ [s.i.toNat])) := by
        simp only [avx2_tail, if_pos hgo, if_pos heq]
      refine ⟨_, _, loop_exit hpass _, hinside, .inl ⟨s.i.toNat, ⟨by omega, heq, h.before⟩, ?_⟩⟩
      rw [UInt32.ofNat_toNat]
    · have hpass : avx2_tail prices count target s =
          some (.next ⟨s.i + 1, s.loads ++ [s.i.toNat]⟩) := by
        simp only [avx2_tail, if_pos hgo, if_neg heq]
      have hnext : (s.i + 1).toNat = s.i.toNat + 1 := toNat_add_small hcount h.cursor (by decide)
      rw [loop_next hpass]
      refine ih ⟨hinside, by rw [hnext]; omega, ?_⟩ (by rw [hnext]; omega)
      intro j hj
      rw [hnext] at hj
      rcases Nat.lt_succ_iff_lt_or_eq.mp hj with hj | rfl
      · exact h.before j hj
      · exact heq

/-- The elements a pass of the vector loop has loaded when it is over. -/
def Scan.loaded (s : Scan) : List Nat :=
  s.loads ++ [s.i.toNat, s.i.toNat + 1, s.i.toNat + 2, s.i.toNat + 3]

theorem avx2_chunk_stop (hstop : ¬ s.i + 4 ≤ count) :
    avx2_chunk prices count target s = some (.exit (none, s)) := if_neg hstop

/-- A pass finds nothing among its four elements, or the first of them that is
    the target. -/
theorem avx2_chunk_cases (prices : Nat → Int64) (target : Int64) (hgo : s.i + 4 ≤ count) :
    avx2_chunk prices count target s = some (.next ⟨s.i + 4, s.loaded⟩) ∧
        (∀ k < 4, prices (s.i.toNat + k) ≠ target) ∨
      ∃ k < 4, avx2_chunk prices count target s =
          some (.exit (some (s.i + UInt32.ofNat k).toInt32, ⟨s.i, s.loaded⟩)) ∧
        prices (s.i.toNat + k) = target ∧ ∀ k' < k, prices (s.i.toNat + k') ≠ target := by
  unfold avx2_chunk
  simp only
  rw [if_pos hgo]
  split
  · next hmask =>
    obtain ⟨k, hlane, heq, hbefore⟩ := lane_of_ctz hmask
    rw [hlane]
    refine .inr ⟨k, k.isLt, rfl, Int64.toBitVec_inj.mp heq, ?_⟩
    intro k' hk' hc
    exact hbefore ⟨k', Nat.lt_trans hk' k.isLt⟩ hk' (congrArg Int64.toBitVec hc)
  · next hmask =>
    have hnone := mask_eq_zero_iff.mp (not_not.mp hmask)
    refine .inl ⟨rfl, ?_⟩
    intro k hk hc
    exact hnone ⟨k, hk⟩ (congrArg Int64.toBitVec hc)

/-- The vector loop ends with a result or with the cursor of the tail. -/
theorem Passed.chunks (hcount : count.toNat ≤ 2 ^ 31) (n : Nat) :
    ∀ {s : Scan}, Passed prices count target s → count.toNat - s.i.toNat ≤ n →
      (∃ r s', loop (avx2_chunk prices count target) (n + 1) s = some (some r, s') ∧
        Searched prices count target r s'.loads) ∨
      ∃ s', loop (avx2_chunk prices count target) (n + 1) s = some (none, s') ∧
        Passed prices count target s' := by
  induction n with
  | zero =>
    intro s h hn
    have hcur := h.cursor
    have hadd : (s.i + 4).toNat = s.i.toNat + 4 := toNat_add_small hcount hcur (Nat.le_refl 4)
    have hstop : ¬ s.i + 4 ≤ count := by
      rw [UInt32.le_iff_toNat_le]
      omega
    exact .inr ⟨s, loop_exit (avx2_chunk_stop hstop) _, h⟩
  | succ n ih =>
    intro s h hn
    have hcur := h.cursor
    have hadd : (s.i + 4).toNat = s.i.toNat + 4 := toNat_add_small hcount hcur (Nat.le_refl 4)
    by_cases hgo : s.i + 4 ≤ count
    · have hroom : s.i.toNat + 4 ≤ count.toNat := by
        rw [← hadd]
        exact UInt32.le_iff_toNat_le.mp hgo
      have hinside : ∀ i ∈ s.loaded, i < count.toNat := by
        intro i hi
        rcases List.mem_append.mp hi with hi | hi
        · exact h.inside i hi
        · simp only [List.mem_cons, List.not_mem_nil, or_false] at hi
          omega
      rcases avx2_chunk_cases prices target hgo with
        ⟨hpass, hnone⟩ | ⟨k, hk, hpass, heq, hbefore⟩
      · rw [loop_next hpass]
        refine ih ⟨hinside, by rw [hadd]; omega, ?_⟩ (by rw [hadd]; omega)
        intro j hj
        rw [hadd] at hj
        by_cases hold : j < s.i.toNat
        · exact h.before j hold
        · have hlane := hnone (j - s.i.toNat) (by omega)
          rwa [Nat.add_sub_cancel' (by omega)] at hlane
      · refine .inl ⟨_, _, loop_exit hpass _, hinside, .inl ⟨s.i.toNat + k, ⟨by omega, heq, ?_⟩, ?_⟩⟩
        · intro j hj
          by_cases hold : j < s.i.toNat
          · exact h.before j hold
          · have hlane := hbefore (j - s.i.toNat) (by omega)
            rwa [Nat.add_sub_cancel' (by omega)] at hlane
        · rw [← toNat_add_small hcount hcur (Nat.le_of_lt hk), UInt32.ofNat_toNat]
    · exact .inr ⟨s, loop_exit (avx2_chunk_stop hgo) _, h⟩

/-! ## Section 3: Both searches -/

theorem searched_avx2 (prices : Nat → Int64) (target : Int64) (hcount : count.toNat ≤ 2 ^ 31) :
    ∃ r loads, find_level_avx2 prices count target = some (r, loads) ∧
      Searched prices count target r loads := by
  have hstart : Passed prices count target ⟨0, []⟩ :=
    ⟨fun _ hi => absurd hi List.not_mem_nil, Nat.zero_le _, fun _ hj => absurd hj (Nat.not_lt_zero _)⟩
  rcases hstart.chunks hcount count.toNat (Nat.sub_le _ _) with ⟨r, s, hrun, hdone⟩ | ⟨s, hrun, h⟩
  · exact ⟨r, s.loads, by rw [find_level_avx2, hrun]; rfl, hdone⟩
  · obtain ⟨r, loads, htail, hdone⟩ := h.tail hcount _ rfl
    have hfuel : count.toNat - s.i.toNat + 1 ≤ count.toNat + 1 := by omega
    refine ⟨r, loads, ?_, hdone⟩
    rw [find_level_avx2, hrun]
    exact loop_le _ htail hfuel

/-- The scalar loop stops at the first index with the target. -/
theorem find_level_first {mem : OrderBook.Side} {i : Nat} (h : First prices count target i) :
    (mem.withPrices prices count).find_level target.toInt = some i := by
  unfold OrderBook.Side.find_level
  rw [List.find?_range_eq_some]
  refine ⟨?_, List.mem_range.mpr h.1, ?_⟩
  · simp [OrderBook.Side.withPrices, h.2.1]
  · intro j hj
    have hne : (prices j).toInt ≠ target.toInt := fun hc => h.2.2 j hj (Int64.toInt_inj.mp hc)
    simp [OrderBook.Side.withPrices, hne]

theorem find_level_none {mem : OrderBook.Side} (h : ∀ i < count.toNat, prices i ≠ target) :
    (mem.withPrices prices count).find_level target.toInt = none := by
  unfold OrderBook.Side.find_level
  rw [List.find?_range_eq_none]
  intro i hi
  have hne : (prices i).toInt ≠ target.toInt := fun hc => h i hi (Int64.toInt_inj.mp hc)
  simp [OrderBook.Side.withPrices, hne]

/-- The vector search returns what the scalar loop returns, the least index
    with the target or -1, and loads nothing at or beyond the count. -/
theorem vector_search_eq_scalar (mem : OrderBook.Side) (prices : Nat → Int64) (count : UInt32)
    (target : Int64) (hcount : count.toNat ≤ 2 ^ 31) :
    ∃ r loads, find_level_avx2 prices count target = some (r, loads) ∧
      r = returned ((mem.withPrices prices count).find_level target.toInt) ∧
      ((∃ i, First prices count target i ∧ r.toInt = i) ∨
        (∀ i < count.toNat, prices i ≠ target) ∧ r = -1) ∧
      ∀ i ∈ loads, i < count.toNat := by
  obtain ⟨r, loads, hrun, hdone⟩ := searched_avx2 prices target hcount
  refine ⟨r, loads, hrun, ?_, ?_, hdone.inside⟩
  · rcases hdone.result with ⟨i, hfirst, hr⟩ | ⟨hnone, hr⟩
    · rw [find_level_first hfirst]
      exact hr
    · rw [find_level_none hnone]
      exact hr
  · rcases hdone.result with ⟨i, hfirst, hr⟩ | hnone
    · have hi := hfirst.1
      refine .inl ⟨i, hfirst, ?_⟩
      have hval : (UInt32.ofNat i).toInt32.toInt = (i : Int) := by
        have hbits : (UInt32.ofNat i).toInt32.toInt = (i : Int).bmod (2 ^ 32) :=
          BitVec.toInt_ofNat i
        rw [hbits, Int.bmod_eq_of_le (by omega) (by omega)]
      rw [hr, hval]
    · exact .inr hnone

/-- Seven prices, with the target in the tail. -/
theorem vector_search_tail :
    let prices : Nat → Int64 := fun i => [5, 4, 3, 2, 1, -1, -9223372036854775808].getD i 0
    (7 : UInt32).toNat ≤ 2 ^ 31 ∧ ∃ r loads, find_level_avx2 prices 7 (-1) = some (r, loads) ∧
      r.toInt = 5 ∧ ∀ i ∈ loads, i < 7 := by
  intro prices
  refine ⟨by decide, ?_⟩
  obtain ⟨r, loads, hrun, -, hresult, hinside⟩ := vector_search_eq_scalar
    ⟨fun _ => 0, fun _ => 0, fun _ => 0, fun _ => 0, fun _ => 0, 0⟩ prices 7 (-1) (by decide)
  refine ⟨r, loads, hrun, ?_, hinside⟩
  rcases hresult with ⟨i, ⟨hi, heq, _⟩, hr⟩ | ⟨hnone, _⟩
  · have hfive : ∀ j < 7, prices j = -1 → j = 5 := by decide
    rw [hr, hfive i hi heq]
    rfl
  · exact absurd (by decide) (hnone 5 (by decide))

end OptionsEngine
