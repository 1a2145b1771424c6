import Mathlib.Logic.Function.Basic

/-! # The latency histogram (`util/histogram.hpp`)

    Fixed buckets of increasing width, one counter each, and the total, the sum
    and the maximum of what was recorded.  Indices are the source's `int`,
    latencies and counters its `uint64_t`.

    `percentile` takes the target rank: the source gets it from a fraction, by
    rounding a floating-point product down.  `mean_ns` and the printing
    functions have no part in the model. -/

namespace OptionsEngine

open Function

structure LatencyHistogram where
  buckets : Int → UInt64
  total : UInt64
  sum_ns : UInt64
  max_ns : UInt64

namespace LatencyHistogram

/-! ## Bucket layout -/

/-- 0 to 999 ns, 1 ns each. -/
def kSubMicroBuckets : Int := 1000

/-- 1 to 10 us, 100 ns each. -/
def kLowMicroBuckets : Int := 90

/-- 10 to 100 us, 1 us each. -/
def kMidMicroBuckets : Int := 90

/-- 100 to 1000 us, 10 us each. -/
def kHighMicroBuckets : Int := 90

def kOverflowBucket : Int := 1

def kTotalBuckets : Int :=
  kSubMicroBuckets + kLowMicroBuckets + kMidMicroBuckets + kHighMicroBuckets + kOverflowBucket

def bucket_index (ns : UInt64) : Int :=
  if ns < 1000 then ns.toNat
  else if ns < 10000 then kSubMicroBuckets + (ns / 100).toNat - 10
  else if ns < 100000 then kSubMicroBuckets + kLowMicroBuckets + (ns / 1000).toNat - 10
  else if ns < 1000000 then
    kSubMicroBuckets + kLowMicroBuckets + kMidMicroBuckets + (ns / 10000).toNat - 10
  else kTotalBuckets - 1

def bucket_lower_ns (idx : Int) : UInt64 :=
  if idx < kSubMicroBuckets then .ofInt idx
  else
    let idx := idx - kSubMicroBuckets
    if idx < kLowMicroBuckets then .ofInt (idx + 10) * 100
    else
      let idx := idx - kLowMicroBuckets
      if idx < kMidMicroBuckets then .ofInt (idx + 10) * 1000
      else
        let idx := idx - kMidMicroBuckets
        if idx < kHighMicroBuckets then .ofInt (idx + 10) * 10000
        else 1000000

/-- One below the next bucket. -/
def bucket_upper_ns (idx : Int) : UInt64 := bucket_lower_ns (idx + 1) - 1

/-! ## Recording -/

/-- The counters start at zero. -/
def fresh : LatencyHistogram := ⟨fun _ => 0, 0, 0, 0⟩

/-- The lock-free update of the maximum, with as many spurious failures of the
    exchange as given; with one thread recording it fails in no other way. -/
def raise_max (cur_max latency_ns : UInt64) : Nat → UInt64
  | 0 => if latency_ns > cur_max then latency_ns else cur_max
  | spurious + 1 =>
    -- a failed exchange reloads the maximum it found
    if latency_ns > cur_max then raise_max cur_max latency_ns spurious else cur_max

def record (h : LatencyHistogram) (latency_ns : UInt64) (spurious : Nat) : LatencyHistogram :=
  let idx := bucket_index latency_ns
  { buckets := update h.buckets idx (h.buckets idx + 1)
    total := h.total + 1
    sum_ns := h.sum_ns + latency_ns
    max_ns := raise_max h.max_ns latency_ns spurious }

/-- A sequence of calls of `record`. -/
def recordAll (h : LatencyHistogram) (calls : List (UInt64 × Nat)) : LatencyHistogram :=
  calls.foldl (fun h call => h.record call.1 call.2) h

/-! ## Snapshots -/

structure Snapshot where
  counts : Int → UInt64
  total : UInt64
  sum_ns : UInt64
  max_ns : UInt64

/-- A snapshot with nobody recording. -/
def take_snapshot (h : LatencyHistogram) : Snapshot := ⟨h.buckets, h.total, h.sum_ns, h.max_ns⟩

namespace Snapshot

/-- The loop of `percentile`, with so many buckets left from `i` on. -/
def scan (s : Snapshot) (target : UInt64) : Nat → Int → UInt64 → UInt64
  | 0, _, _ => s.max_ns
  | left + 1, i, cumulative =>
    let cumulative := cumulative + s.counts i
    if cumulative > target then bucket_lower_ns i else s.scan target left (i + 1) cumulative

def percentile (s : Snapshot) (target : UInt64) : UInt64 :=
  if s.total = 0 then 0 else s.scan target kTotalBuckets.toNat 0 0

end Snapshot

end LatencyHistogram

end OptionsEngine
