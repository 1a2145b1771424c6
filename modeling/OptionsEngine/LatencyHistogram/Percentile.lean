import Mathlib.Data.List.Induction
import OptionsEngine.Framework.Rank
import OptionsEngine.LatencyHistogram.Buckets

/-! # Percentiles are order statistics

    A snapshot does not have the latencies that were recorded, only how many
    fell into each bucket.  The scan of `percentile` adds up the buckets until
    it has more than the target rank: since a larger latency has no smaller
    bucket, that happens in the bucket of the order statistic of that rank.

    `Holds h xs` says what a histogram keeps of the latencies `xs`; it holds
    after recording them one after the other (`holds_recordAll`), and the rest
    follows from it (`percentile_order_statistic`). -/

namespace OptionsEngine.LatencyHistogram

open Function Rank

/-! ## Section 1: What a histogram keeps -/

structure Holds (h : LatencyHistogram) (xs : List UInt64) : Prop where
  buckets : ∀ i, h.buckets i = .ofNat (xs.countP fun ns => bucket_index ns = i)
  total : h.total = .ofNat xs.length
  bound : ∀ ns ∈ xs, ns ≤ h.max_ns
  /-- The maximum was recorded, or nothing was. -/
  attained : h.max_ns ∈ xs ∨ xs = [] ∧ h.max_ns = 0

theorem raise_max_eq (cur_max latency_ns : UInt64) (spurious : Nat) :
    raise_max cur_max latency_ns spurious = if latency_ns > cur_max then latency_ns else cur_max := by
  induction spurious with
  | zero => rfl
  | succ spurious ih =>
    rw [raise_max, ih]
    split <;> rfl

variable {h : LatencyHistogram} {xs : List UInt64}

theorem holds_fresh : Holds fresh [] where
  buckets := fun _ => rfl
  total := rfl
  bound := fun _ hns => absurd hns List.not_mem_nil
  attained := .inr ⟨rfl, rfl⟩

theorem Holds.record (hh : Holds h xs) (ns : UInt64) (spurious : Nat) :
    Holds (h.record ns spurious) (xs ++ [ns]) where
  buckets := by
    intro i
    show update h.buckets (bucket_index ns) (h.buckets (bucket_index ns) + 1) i = _
    rw [List.countP_append]
    by_cases hi : i = bucket_index ns
    · subst hi
      rw [update_self, hh.buckets, UInt64.ofNat_add]
      simp
    · rw [update_of_ne hi, hh.buckets]
      simp [Ne.symm hi]
  total := by
    show h.total + 1 = _
    rw [hh.total, List.length_append, UInt64.ofNat_add]
    rfl
  bound := by
    intro x hx
    show x ≤ raise_max h.max_ns ns spurious
    rw [raise_max_eq]
    rcases List.mem_append.mp hx with hx | hx
    · have hle := hh.bound x hx
      split
      · next hgt => exact UInt64.le_trans hle (UInt64.le_of_lt hgt)
      · exact hle
    · rw [List.mem_singleton.mp hx]
      split
      · exact UInt64.le_refl ns
      · next hle => exact UInt64.not_lt.mp hle
  attained := by
    left
    show raise_max h.max_ns ns spurious ∈ xs ++ [ns]
    rw [raise_max_eq]
    split
    · simp
    · next hle =>
      rcases hh.attained with hmem | ⟨_, hzero⟩
      · exact List.mem_append_left _ hmem
      · -- nothing recorded before: only 0 does not exceed the initial maximum
        have hns : ns = 0 := by
          rw [hzero] at hle
          exact UInt64.le_zero_iff.mp (UInt64.not_lt.mp hle)
        simp [hzero, hns]

/-- What a sequence of calls records. -/
def latencies (calls : List (UInt64 × Nat)) : List UInt64 := calls.map Prod.fst

theorem holds_recordAll (calls : List (UInt64 × Nat)) :
    Holds (fresh.recordAll calls) (latencies calls) := by
  induction calls using List.reverseRecOn with
  | nil => exact holds_fresh
  | append_singleton calls call ih =>
    rw [recordAll, List.foldl_append, latencies, List.map_append]
    exact ih.record call.1 call.2

/-! ## Section 2: The scan -/

/-- The recorded latencies in buckets before `i`. -/
def below (xs : List UInt64) (i : Int) : Nat := xs.countP fun ns => bucket_index ns < i

theorem below_succ (xs : List UInt64) (i : Int) :
    below xs (i + 1) = below xs i + xs.countP fun ns => bucket_index ns = i := by
  unfold below
  induction xs with
  | nil => rfl
  | cons x xs ih =>
    simp only [List.countP_cons, ih, decide_eq_true_eq]
    split_ifs <;> omega

theorem below_le (xs : List UInt64) (i : Int) : below xs i ≤ xs.length := List.countP_le_length

/-- A pass of the scan adds up one more bucket. -/
theorem Holds.toNat_add (hh : Holds h xs) (hn : xs.length < 2 ^ 64) {i : Int} {cumulative : UInt64}
    (hc : cumulative.toNat = below xs i) :
    (cumulative + h.take_snapshot.counts i).toNat = below xs (i + 1) := by
  have hle := below_le xs (i + 1)
  have hsucc := below_succ xs i
  show (cumulative + h.buckets i).toNat = _
  rw [UInt64.toNat_add, hh.buckets, UInt64.toNat_ofNat', hc]
  omega

/-- The order of latencies. -/
def leNs (a b : UInt64) : Bool := a ≤ b

theorem leNs_trans (a b c : UInt64) (h : leNs a b) (h' : leNs b c) : leNs a c := by
  simp only [leNs, decide_eq_true_eq] at *
  exact UInt64.le_trans h h'

theorem leNs_total (a b : UInt64) : (leNs a b || leNs b a) = true := by
  simp only [leNs, Bool.or_eq_true, decide_eq_true_eq]
  exact UInt64.le_total a b

theorem lt_below_iff {k : Nat} {x : UInt64} (hx : kth leNs xs k = some x) (i : Int) :
    k < below xs i ↔ bucket_index x < i := by
  have hdown : ∀ a b : UInt64, leNs a b → decide (bucket_index b < i) = true →
      decide (bucket_index a < i) = true := by
    intro a b hab hb
    have hmono := bucket_index_mono (of_decide_eq_true hab)
    exact decide_eq_true (Int.lt_of_le_of_lt hmono (of_decide_eq_true hb))
  rw [below, lt_countP_iff leNs_trans leNs_total hdown hx, decide_eq_true_eq]

/-- The scan stops in the bucket of the order statistic. -/
theorem Holds.scan_kth (hh : Holds h xs) (hn : xs.length < 2 ^ 64) {k x : UInt64}
    (hx : kth leNs xs k.toNat = some x) (left : Nat) :
    ∀ {i : Int} {cumulative : UInt64}, i + left = kTotalBuckets → i ≤ bucket_index x →
      cumulative.toNat = below xs i →
      h.take_snapshot.scan k left i cumulative = bucket_lower_ns (bucket_index x) := by
  induction left with
  | zero =>
    intro i cumulative hi hle _
    have hlt := (bucket_index_range x).2
    omega
  | succ left ih =>
    intro i cumulative hi hle hc
    have hsum := hh.toNat_add hn hc
    -- more than `k` by now exactly if the order statistic lies in this bucket
    have hstop : cumulative + h.take_snapshot.counts i > k ↔ bucket_index x < i + 1 := by
      rw [gt_iff_lt, UInt64.lt_iff_toNat_lt, hsum, lt_below_iff hx]
    rw [Snapshot.scan]
    simp only [hstop]
    split
    · next hlt =>
      have heq : i = bucket_index x := by omega
      rw [heq]
    · next hge => exact ih (by omega) (by omega) hsum

/-- With a rank beyond the latencies recorded the scan finds nothing. -/
theorem Holds.scan_beyond (hh : Holds h xs) (hn : xs.length < 2 ^ 64) {k : UInt64}
    (hk : xs.length ≤ k.toNat) (left : Nat) :
    ∀ {i : Int} {cumulative : UInt64}, cumulative.toNat = below xs i →
      h.take_snapshot.scan k left i cumulative = h.max_ns := by
  induction left with
  | zero => exact fun _ => rfl
  | succ left ih =>
    intro i cumulative hc
    have hsum := hh.toNat_add hn hc
    have hle := below_le xs (i + 1)
    have hgo : ¬ cumulative + h.take_snapshot.counts i > k := by
      rw [gt_iff_lt, UInt64.lt_iff_toNat_lt, hsum]
      omega
    rw [Snapshot.scan]
    simp only [if_neg hgo]
    exact ih hsum

/-! ## Section 3: Percentiles -/

theorem Holds.percentile_eq (hh : Holds h xs) (hn : xs.length < 2 ^ 64) (hne : xs ≠ [])
    (k : UInt64) :
    h.take_snapshot.percentile k = h.take_snapshot.scan k kTotalBuckets.toNat 0 0 := by
  have hpos : 0 < xs.length := List.length_pos_iff.mpr hne
  have htotal : h.take_snapshot.total ≠ 0 := by
    show h.total ≠ 0
    rw [hh.total]
    intro hc
    have hzero := congrArg UInt64.toNat hc
    rw [UInt64.toNat_ofNat', UInt64.toNat_zero] at hzero
    omega
  exact if_neg htotal

theorem below_zero (xs : List UInt64) : below xs 0 = 0 := by
  rw [below, List.countP_eq_zero]
  intro ns _
  have hge := (bucket_index_range ns).1
  simpa using hge

theorem Holds.percentile_kth (hh : Holds h xs) (hn : xs.length < 2 ^ 64) {k x : UInt64}
    (hx : kth leNs xs k.toNat = some x) :
    h.take_snapshot.percentile k = bucket_lower_ns (bucket_index x) := by
  have hne : xs ≠ [] := List.ne_nil_of_mem (kth_mem hx)
  rw [hh.percentile_eq hn hne]
  exact hh.scan_kth hn hx _ rfl (bucket_index_range x).1 (below_zero xs).symm

theorem Holds.percentile_beyond (hh : Holds h xs) (hn : xs.length < 2 ^ 64) (hne : xs ≠ [])
    {k : UInt64} (hk : xs.length ≤ k.toNat) : h.take_snapshot.percentile k = h.max_ns := by
  rw [hh.percentile_eq hn hne]
  exact hh.scan_beyond hn hk _ (below_zero xs).symm

theorem percentile_nil (hh : Holds h []) (k : UInt64) : h.take_snapshot.percentile k = 0 :=
  if_pos hh.total

theorem Holds.percentile_mono (hh : Holds h xs) (hn : xs.length < 2 ^ 64) {k k' : UInt64}
    (hle : k ≤ k') : h.take_snapshot.percentile k ≤ h.take_snapshot.percentile k' := by
  by_cases hne : xs = []
  · subst hne
    rw [percentile_nil hh, percentile_nil hh]
    exact UInt64.le_refl 0
  rw [UInt64.le_iff_toNat_le] at hle
  by_cases hk : k.toNat < xs.length
  · obtain ⟨x, hx⟩ : ∃ x, kth leNs xs k.toNat = some x := exists_kth hk
    rw [hh.percentile_kth hn hx]
    by_cases hk' : k'.toNat < xs.length
    · obtain ⟨y, hy⟩ : ∃ y, kth leNs xs k'.toNat = some y := exists_kth hk'
      have hxy : x ≤ y := by
        rcases Nat.lt_or_eq_of_le hle with hlt | heq
        · exact of_decide_eq_true (kth_mono leNs_trans leNs_total hx hy hlt)
        · rw [heq, hy] at hx
          rw [Option.some.inj hx]
          exact UInt64.le_refl x
      rw [hh.percentile_kth hn hy]
      exact bucket_lower_mono (bucket_index_range x).1 (bucket_index_mono hxy)
    · rw [hh.percentile_beyond hn hne (Nat.not_lt.mp hk')]
      exact UInt64.le_trans (bucket_lower_le x) (hh.bound x (kth_mem hx))
  · rw [hh.percentile_beyond hn hne (by omega), hh.percentile_beyond hn hne (by omega)]
    exact UInt64.le_refl _

/-- After recording any sequence of latencies, the percentile of rank `k` is the
    lower bound of the bucket of the `k`-th smallest of them, which it does not
    exceed and below a millisecond misses by at most a tenth; ranks beyond the
    last give the largest latency; and larger ranks have no smaller percentile. -/
theorem percentile_order_statistic (calls : List (UInt64 × Nat))
    (hlen : (latencies calls).length < 2 ^ 64) :
    let xs := latencies calls
    let s := (fresh.recordAll calls).take_snapshot
    (∀ k, k.toNat < xs.length → ∃ x, kth leNs xs k.toNat = some x ∧
      s.percentile k = bucket_lower_ns (bucket_index x) ∧ s.percentile k ≤ x ∧
      (x < 1000000 → 10 * (x.toNat - (s.percentile k).toNat) ≤ x.toNat)) ∧
    (∀ k, xs ≠ [] → xs.length ≤ k.toNat →
      s.percentile k = s.max_ns ∧ s.max_ns ∈ xs ∧ ∀ x ∈ xs, x ≤ s.max_ns) ∧
    ∀ k k', k ≤ k' → s.percentile k ≤ s.percentile k' := by
  intro xs s
  have hh : Holds (fresh.recordAll calls) xs := holds_recordAll calls
  refine ⟨?_, ?_, fun k k' hle => hh.percentile_mono hlen hle⟩
  · intro k hk
    obtain ⟨x, hx⟩ : ∃ x, kth leNs xs k.toNat = some x := exists_kth hk
    have hp := hh.percentile_kth hlen hx
    refine ⟨x, hx, hp, ?_, ?_⟩
    · rw [hp]
      exact bucket_lower_le x
    · intro hlt
      rw [hp]
      exact bucket_lower_near hlt
  · intro k hne hk
    refine ⟨hh.percentile_beyond hlen hne hk, ?_, hh.bound⟩
    rcases hh.attained with hmem | ⟨hnil, _⟩
    · exact hmem
    · exact absurd hnil hne

/-- Three latencies, the middle one in a bucket of 100 ns. -/
theorem percentile_three :
    let calls : List (UInt64 × Nat) := [(7, 0), (1234, 1), (2000000, 0)]
    (latencies calls).length < 2 ^ 64 ∧ (fresh.recordAll calls).take_snapshot.percentile 1 = 1200 := by
  intro calls
  refine ⟨by decide, ?_⟩
  obtain ⟨x, hx, hp, _⟩ := (percentile_order_statistic calls (by decide)).1 1 (by decide)
  have hkth : kth leNs (latencies calls) 1 = some 1234 := by
    rw [kth, List.mergeSort_of_pairwise (by decide)]
    rfl
  obtain rfl : x = 1234 := Option.some.inj (hx.symm.trans hkth)
  exact hp

end OptionsEngine.LatencyHistogram
