import Mathlib.Algebra.Group.Int.Defs
import Mathlib.Algebra.GroupWithZero.Nat
import Mathlib.Tactic.SplitIfs
import OptionsEngine.LatencyHistogram

/-! # The buckets partition the latencies

    `bucket_index` sends a latency to its bucket, `bucket_lower_ns` and
    `bucket_upper_ns` give a bucket's bounds.  The three know the five zones of
    the layout independently of each other.

    They agree on every bucket but the last: the upper bound of a bucket is
    taken from the one behind it, and behind the overflow bucket there is none
    (`buckets_partition_iff`). -/

namespace OptionsEngine.LatencyHistogram

/-! ## Section 1: The three functions on integers -/

theorem kTotalBuckets_eq : kTotalBuckets = 1271 := rfl

theorem bucket_index_eq (ns : UInt64) :
    bucket_index ns =
      if ns.toNat < 1000 then (ns.toNat : Int)
      else if ns.toNat < 10000 then 990 + (ns.toNat / 100 : Nat)
      else if ns.toNat < 100000 then 1080 + (ns.toNat / 1000 : Nat)
      else if ns.toNat < 1000000 then 1170 + (ns.toNat / 10000 : Nat)
      else 1270 := by
  simp only [bucket_index, UInt64.lt_iff_toNat_lt, UInt64.toNat_div, UInt64.reduceToNat,
    kTotalBuckets, kSubMicroBuckets, kLowMicroBuckets, kMidMicroBuckets, kHighMicroBuckets,
    kOverflowBucket]
  split_ifs <;> omega

theorem toNat_ofInt_mul {i : Int} {c : UInt64} (h : 0 ≤ i) (h' : i < 2 ^ 16)
    (hc : c.toNat ≤ 2 ^ 16) : ((UInt64.ofInt i * c).toNat : Int) = i * c.toNat := by
  obtain ⟨n, rfl⟩ := Int.eq_ofNat_of_zero_le h
  have hlt : n * c.toNat < 2 ^ 64 := by
    have hle : n * c.toNat ≤ 2 ^ 16 * 2 ^ 16 := Nat.mul_le_mul (by omega) hc
    omega
  have hn : (UInt64.ofInt n).toNat = n := by
    rw [UInt64.ofInt, UInt64.toNat_ofNat']
    omega
  rw [UInt64.toNat_mul, hn, Nat.mod_eq_of_lt hlt, Int.natCast_mul]

theorem toNat_bucket_lower {i : Int} (h : 0 ≤ i) :
    ((bucket_lower_ns i).toNat : Int) =
      if i < 1000 then i
      else if i < 1090 then (i - 990) * 100
      else if i < 1180 then (i - 1080) * 1000
      else if i < 1270 then (i - 1170) * 10000
      else 1000000 := by
  have hsub : kSubMicroBuckets = 1000 := rfl
  have hlow : kLowMicroBuckets = 90 := rfl
  have hmid : kMidMicroBuckets = 90 := rfl
  have hhigh : kHighMicroBuckets = 90 := rfl
  unfold bucket_lower_ns
  simp only
  by_cases h1 : i < 1000
  · have hone := toNat_ofInt_mul (c := 1) h (by omega) (by decide)
    rw [if_pos h1, if_pos (by omega)]
    simpa using hone
  rw [if_neg h1, if_neg (by omega)]
  by_cases h2 : i < 1090
  · rw [if_pos h2, if_pos (by omega), toNat_ofInt_mul (by omega) (by omega) (by decide)]
    simp only [UInt64.reduceToNat]
    omega
  rw [if_neg h2, if_neg (by omega)]
  by_cases h3 : i < 1180
  · rw [if_pos h3, if_pos (by omega), toNat_ofInt_mul (by omega) (by omega) (by decide)]
    simp only [UInt64.reduceToNat]
    omega
  rw [if_neg h3, if_neg (by omega)]
  by_cases h4 : i < 1270
  · rw [if_pos h4, if_pos (by omega), toNat_ofInt_mul (by omega) (by omega) (by decide)]
    simp only [UInt64.reduceToNat]
    omega
  rw [if_neg h4, if_neg (by omega)]
  rfl

/-- The width of a bucket below the overflow bucket. -/
theorem toNat_bucket_next {i : Int} (h : 0 ≤ i) (h' : i < 1270) :
    ((bucket_lower_ns (i + 1)).toNat : Int) =
      (bucket_lower_ns i).toNat +
        if i < 1000 then 1 else if i < 1090 then 100 else if i < 1180 then 1000 else 10000 := by
  rw [toNat_bucket_lower h, toNat_bucket_lower (by omega)]
  -- also where `i` is the last bucket of a zone
  split_ifs <;> omega

theorem bucket_lower_mono {i j : Int} (h : 0 ≤ i) (hle : i ≤ j) :
    bucket_lower_ns i ≤ bucket_lower_ns j := by
  have hi := toNat_bucket_lower h
  have hj := toNat_bucket_lower (Int.le_trans h hle)
  rw [UInt64.le_iff_toNat_le]
  split_ifs at hi hj <;> omega

/-! ## Section 2: The partition -/

theorem bucket_index_range (ns : UInt64) : 0 ≤ bucket_index ns ∧ bucket_index ns < kTotalBuckets := by
  rw [bucket_index_eq, kTotalBuckets_eq]
  split_ifs <;> omega

theorem bucket_index_mono {ns ns' : UInt64} (h : ns ≤ ns') : bucket_index ns ≤ bucket_index ns' := by
  rw [UInt64.le_iff_toNat_le] at h
  rw [bucket_index_eq, bucket_index_eq]
  -- the zones follow each other, and inside one the index grows with the latency
  split_ifs <;> omega

/-- The latencies of a bucket are those from its lower bound to below the next. -/
theorem bucket_index_eq_iff {ns : UInt64} {i : Int} (h : 0 ≤ i) (h' : i < 1270) :
    bucket_index ns = i ↔
      (bucket_lower_ns i).toNat ≤ ns.toNat ∧ ns.toNat < (bucket_lower_ns (i + 1)).toNat := by
  have hlo := toNat_bucket_lower h
  have hnext := toNat_bucket_next h h'
  rw [bucket_index_eq]
  by_cases h1 : i < 1000
  · rw [if_pos h1] at hlo hnext
    split_ifs <;> omega
  rw [if_neg h1] at hlo hnext
  by_cases h2 : i < 1090
  · rw [if_pos h2] at hlo hnext
    split_ifs <;> omega
  rw [if_neg h2] at hlo hnext
  by_cases h3 : i < 1180
  · rw [if_pos h3] at hlo hnext
    split_ifs <;> omega
  rw [if_neg h3] at hlo hnext
  rw [if_pos h'] at hlo
  split_ifs <;> omega

theorem bucket_index_overflow_iff (ns : UInt64) :
    bucket_index ns = kTotalBuckets - 1 ↔ 1000000 ≤ ns := by
  rw [bucket_index_eq, kTotalBuckets_eq, UInt64.le_iff_toNat_le]
  simp only [UInt64.reduceToNat]
  split_ifs <;> omega

theorem bucket_lower_le (ns : UInt64) : bucket_lower_ns (bucket_index ns) ≤ ns := by
  obtain ⟨h0, h1⟩ := bucket_index_range ns
  rw [kTotalBuckets_eq] at h1
  by_cases hover : bucket_index ns = 1270
  · have hlo : bucket_lower_ns 1270 = 1000000 := by decide
    rw [hover, hlo]
    exact (bucket_index_overflow_iff ns).mp hover
  · rw [UInt64.le_iff_toNat_le]
    exact ((bucket_index_eq_iff h0 (by omega)).mp rfl).1

/-- Below a millisecond the lower bound of its bucket is within a tenth of a
    latency. -/
theorem bucket_lower_near {ns : UInt64} (h : ns < 1000000) :
    10 * (ns.toNat - (bucket_lower_ns (bucket_index ns)).toNat) ≤ ns.toNat := by
  obtain ⟨h0, h1⟩ := bucket_index_range ns
  have hover : bucket_index ns ≠ 1270 := by
    intro hc
    exact absurd h (UInt64.not_lt.mpr ((bucket_index_overflow_iff ns).mp hc))
  have hlt : bucket_index ns < 1270 := by
    rw [kTotalBuckets_eq] at h1
    omega
  have hlo := toNat_bucket_lower h0
  have hnext := toNat_bucket_next h0 hlt
  obtain ⟨hle, hbelow⟩ := (bucket_index_eq_iff h0 hlt).mp rfl
  -- from the second zone on a bucket starts at ten times its width or more
  split_ifs at hlo hnext <;> omega

/-- The range of bounds of bucket `i` is not empty, and holds exactly the
    latencies that are counted there. -/
def Partitions (i : Int) : Prop :=
  bucket_lower_ns i ≤ bucket_upper_ns i ∧
    ∀ ns, bucket_lower_ns i ≤ ns ∧ ns ≤ bucket_upper_ns i ↔ bucket_index ns = i

/-- The bounds of the overflow bucket are those of an empty range. -/
theorem overflow_bounds :
    bucket_lower_ns (kTotalBuckets - 1) = 1000000 ∧ bucket_upper_ns (kTotalBuckets - 1) = 999999 := by
  decide

theorem partitions_of_lt {i : Int} (h : 0 ≤ i) (h' : i < 1270) : Partitions i := by
  -- the next bucket starts further up, so that one below it is no wrap-around
  have hnext : (bucket_lower_ns i).toNat < (bucket_lower_ns (i + 1)).toNat := by
    have hwidth := toNat_bucket_next h h'
    split_ifs at hwidth <;> omega
  have hupper : (bucket_upper_ns i).toNat = (bucket_lower_ns (i + 1)).toNat - 1 := by
    rw [bucket_upper_ns, UInt64.toNat_sub_of_le]
    · rfl
    · rw [UInt64.le_iff_toNat_le]
      exact Nat.lt_of_le_of_lt (Nat.zero_le _) hnext
  refine ⟨?_, ?_⟩
  · rw [UInt64.le_iff_toNat_le, hupper]
    omega
  · intro ns
    rw [bucket_index_eq_iff h h', UInt64.le_iff_toNat_le, UInt64.le_iff_toNat_le, hupper]
    omega

/-- Every latency has a bucket, at or above whose lower bound it is; the bucket
    grows with the latency; and the bounds of a bucket are right exactly if it
    is not the overflow bucket, which counts all latencies from a millisecond on. -/
theorem buckets_partition_iff (ns ns' : UInt64) (i : Int) :
    (0 ≤ bucket_index ns ∧ bucket_index ns < kTotalBuckets ∧
      bucket_lower_ns (bucket_index ns) ≤ ns) ∧
    (ns ≤ ns' → bucket_index ns ≤ bucket_index ns') ∧
    (bucket_index ns = kTotalBuckets - 1 ↔ 1000000 ≤ ns) ∧
    (0 ≤ i → i < kTotalBuckets → (Partitions i ↔ i ≠ kTotalBuckets - 1)) := by
  obtain ⟨h0, h1⟩ := bucket_index_range ns
  refine ⟨⟨h0, h1, bucket_lower_le ns⟩, bucket_index_mono, bucket_index_overflow_iff ns, ?_⟩
  intro h0 h1
  rw [kTotalBuckets_eq] at h1 ⊢
  constructor
  · rintro ⟨hle, _⟩ rfl
    obtain ⟨hlo, hhi⟩ := overflow_bounds
    rw [kTotalBuckets_eq] at hlo hhi
    rw [hlo, hhi] at hle
    exact absurd hle (by decide)
  · intro hne
    exact partitions_of_lt h0 (by omega)

/-- A millisecond is counted in the overflow bucket and lies outside its bounds. -/
theorem overflow_range_empty :
    bucket_index 1000000 = kTotalBuckets - 1 ∧
      ¬ (bucket_lower_ns (kTotalBuckets - 1) ≤ bucket_upper_ns (kTotalBuckets - 1)) ∧
      ¬ ((1000000 : UInt64) ≤ bucket_upper_ns (kTotalBuckets - 1)) := by
  decide

end OptionsEngine.LatencyHistogram
