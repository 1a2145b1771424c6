import Mathlib.Data.List.Perm.Subperm
import OptionsEngine.Framework.Loop
import OptionsEngine.LatencyHistogram.Percentile

/-! # Threads recording at once

    Any number of threads, named by a type `ι`, run `record` and
    `take_snapshot`, cut into their atomic steps.  A schedule is a list of
    turns: the thread whose turn it is takes its next step, a thread between
    calls begins the call the turn names, and at the exchange of the maximum the
    turn says whether it fails spuriously.

    * `Recorded`: how far the calls of `record` have come.  A thread counts
      its latency in the bucket, in the total and in the sum, one after the
      other, and other threads may see it in between.
    * `recorded_concurrently`: once no call is left in the middle, the histogram
      is the one that the same latencies give one after the other, in any
      order. -/

namespace OptionsEngine.LatencyHistogram.Concurrent

open Function Loop

/-! ## Section 1: The threads -/

inductive Call where
  | record (latency_ns : UInt64)
  | take_snapshot

/-- Where a thread stands: each constructor but the first names the atomic
    access that comes next. -/
inductive Pc where
  | idle
  | bucket (latency_ns : UInt64)
  | total (latency_ns : UInt64)
  | sum (latency_ns : UInt64)
  | load_max (latency_ns : UInt64)
  /-- `record` at the head of its loop. -/
  | raise (latency_ns cur_max : UInt64)
  /-- `take_snapshot` has read the buckets before `i`. -/
  | read_counts (s : Snapshot) (i : Int)
  | read_sum (s : Snapshot)
  | read_max (s : Snapshot)

/-- The points of a call of `record` at which the model notes it down. -/
inductive Stage where
  | begun
  | bucketed
  | totalled
  | summed
  | finished
  deriving DecidableEq

/-- A finished `take_snapshot`, with the calls that had returned when it began
    and those that had begun when it returned. -/
structure Taken (ι : Type) where
  before : List (ι × UInt64)
  snapshot : Snapshot
  after : List (ι × UInt64)

/-- The histogram, the threads, and what they have done so far. -/
structure Config (ι : Type) where
  hist : LatencyHistogram
  pc : ι → Pc
  /-- The calls of `record` that have come to a stage, in their order there. -/
  log : Stage → List (ι × UInt64)
  /-- What had returned when the last snapshot of a thread began. -/
  since : ι → List (ι × UInt64)
  taken : List (Taken ι)

structure Turn (ι : Type) where
  thread : ι
  call : Call
  spurious : Bool

variable {ι : Type} [DecidableEq ι]

namespace Config

def start : Config ι := ⟨fresh, fun _ => .idle, fun _ => [], fun _ => [], []⟩

def goto (c : Config ι) (t : ι) (pc : Pc) : Config ι := { c with pc := update c.pc t pc }

/-- Note down that the thread's call has come to the stage. -/
def pass (c : Config ι) (t : ι) (k : Stage) (latency_ns : UInt64) : Config ι :=
  { c with log := update c.log k (c.log k ++ [(t, latency_ns)]) }

def begin_call (c : Config ι) (t : ι) : Call → Config ι
  | .record latency_ns => (c.pass t .begun latency_ns).goto t (.bucket latency_ns)
  | .take_snapshot =>
    { c with since := update c.since t (c.log .finished) }.goto t
      (.read_counts ⟨fun _ => 0, 0, 0, 0⟩ 0)

/-- One step of the thread whose turn it is. -/
def step (c : Config ι) (turn : Turn ι) : Config ι :=
  let t := turn.thread
  let h := c.hist
  match c.pc t with
  | .idle => c.begin_call t turn.call
  | .bucket ns =>
    let idx := bucket_index ns
    ({ c with hist.buckets := update h.buckets idx (h.buckets idx + 1) }.pass t .bucketed ns).goto t
      (.total ns)
  | .total ns => ({ c with hist.total := h.total + 1 }.pass t .totalled ns).goto t (.sum ns)
  | .sum ns => ({ c with hist.sum_ns := h.sum_ns + ns }.pass t .summed ns).goto t (.load_max ns)
  | .load_max ns => c.goto t (.raise ns h.max_ns)
  | .raise ns cur_max =>
    if ns > cur_max then
      if h.max_ns = cur_max ∧ turn.spurious = false then
        ({ c with hist.max_ns := ns }.pass t .finished ns).goto t .idle
      else
        -- a failed exchange reloads the maximum it found
        c.goto t (.raise ns h.max_ns)
    else (c.pass t .finished ns).goto t .idle
  | .read_counts s i =>
    if i < kTotalBuckets then
      c.goto t (.read_counts { s with counts := update s.counts i (h.buckets i) } (i + 1))
    else c.goto t (.read_sum { s with total := h.total })
  | .read_sum s => c.goto t (.read_max { s with sum_ns := h.sum_ns })
  | .read_max s =>
    { c with
      taken := c.taken ++ [Taken.mk (c.since t) { s with max_ns := h.max_ns } (c.log .begun)] }.goto t
        .idle

def run (c : Config ι) (schedule : List (Turn ι)) : Config ι := schedule.foldl step c

end Config

/-! ## Section 2: How far the calls have come -/

/-- The call a thread is in, at each stage it has passed. -/
def Pc.pending : Pc → Stage → List UInt64
  | .bucket ns, .begun => [ns]
  | .total ns, .begun | .total ns, .bucketed => [ns]
  | .sum ns, .begun | .sum ns, .bucketed | .sum ns, .totalled => [ns]
  | .load_max _, .finished | .raise _ _, .finished => []
  | .load_max ns, _ | .raise ns _, _ => [ns]
  | _, _ => []

/-- What a log has of one thread. -/
def ofThread (log : List (ι × UInt64)) (t : ι) : List UInt64 :=
  (log.filter fun r => r.1 = t).map Prod.snd

/-- The thread is not in the middle of a `record`. -/
def Pc.Settled (pc : Pc) : Prop := pc.pending .begun = []

instance (pc : Pc) : Decidable pc.Settled := inferInstanceAs (Decidable (_ = _))

/-- At every stage the log has of a thread the calls that returned and, if it
    has passed the stage, the one it is in. -/
def Recorded (c : Config ι) : Prop :=
  ∀ k t, ofThread (c.log k) t = ofThread (c.log .finished) t ++ (c.pc t).pending k

omit [DecidableEq ι] in
theorem Pc.pending_finished (pc : Pc) : pc.pending .finished = [] := by
  cases pc <;> rfl

variable {c : Config ι} {t : ι} {ns : UInt64} {pc : Pc}

theorem ofThread_append_self (log : List (ι × UInt64)) (t : ι) (ns : UInt64) :
    ofThread (log ++ [(t, ns)]) t = ofThread log t ++ [ns] := by
  simp [ofThread]

theorem ofThread_append_ne (log : List (ι × UInt64)) {t t' : ι} (h : t' ≠ t) (ns : UInt64) :
    ofThread (log ++ [(t, ns)]) t' = ofThread log t' := by
  simp [ofThread, Ne.symm h]

/-- A step that passes no stage. -/
theorem Recorded.goto (h : Recorded c) {pc₀ : Pc} (hpc : c.pc t = pc₀)
    (hsame : ∀ k, pc.pending k = pc₀.pending k) : Recorded (c.goto t pc) := by
  intro k t'
  show ofThread (c.log k) t' = ofThread (c.log .finished) t' ++ (update c.pc t pc t').pending k
  by_cases ht : t' = t
  · subst ht
    rw [update_self, hsame, ← hpc]
    exact h k t'
  · rw [update_of_ne ht]
    exact h k t'

/-- A step that passes a stage before the last. -/
theorem Recorded.pass (h : Recorded c) {pc₀ : Pc} (hpc : c.pc t = pc₀) {k : Stage}
    (hk : k ≠ .finished) (hold : pc₀.pending k = [])
    (hnew : ∀ k', pc.pending k' = if k' = k then [ns] else pc₀.pending k') :
    Recorded ((c.pass t k ns).goto t pc) := by
  intro k' t'
  show ofThread (update c.log k (c.log k ++ [(t, ns)]) k') t' =
    ofThread (update c.log k (c.log k ++ [(t, ns)]) .finished) t' ++
      (update c.pc t pc t').pending k'
  have hrec := h k' t'
  rw [update_of_ne (Ne.symm hk)]
  by_cases ht : t' = t
  · subst ht
    rw [update_self, hnew]
    rw [hpc] at hrec
    by_cases hk' : k' = k
    · subst hk'
      rw [update_self, ofThread_append_self, hrec, hold, List.append_nil, if_pos rfl]
    · rw [update_of_ne hk', if_neg hk']
      exact hrec
  · rw [update_of_ne ht]
    by_cases hk' : k' = k
    · subst hk'
      rw [update_self, ofThread_append_ne _ ht]
      exact hrec
    · rw [update_of_ne hk']
      exact hrec

/-- The last step of a call. -/
theorem Recorded.finish (h : Recorded c) {pc₀ : Pc} (hpc : c.pc t = pc₀)
    (hold : ∀ k, pc₀.pending k = if k = .finished then [] else [ns]) :
    Recorded ((c.pass t .finished ns).goto t .idle) := by
  intro k t'
  show ofThread (update c.log .finished (c.log .finished ++ [(t, ns)]) k) t' =
    ofThread (update c.log .finished (c.log .finished ++ [(t, ns)]) .finished) t' ++
      (update c.pc t .idle t').pending k
  have hrec := h k t'
  rw [update_self]
  by_cases ht : t' = t
  · subst ht
    have hidle : Pc.idle.pending k = [] := by cases k <;> rfl
    rw [hpc, hold] at hrec
    rw [update_self, hidle, List.append_nil, ofThread_append_self]
    by_cases hk : k = .finished
    · rw [hk, update_self, ofThread_append_self]
    · rw [update_of_ne hk, hrec, if_neg hk]
  · rw [update_of_ne ht, ofThread_append_ne _ ht]
    by_cases hk : k = .finished
    · rw [hk, update_self, ofThread_append_ne _ ht, (c.pc t').pending_finished, List.append_nil]
    · rw [update_of_ne hk]
      exact hrec

/-! ## Section 3: Steps -/

/-- What the turn of a thread can do. -/
inductive Move (c : Config ι) (t : ι) : Config ι → Prop where
  | begin_record (ns : UInt64) (hpc : c.pc t = .idle) :
    Move c t ((c.pass t .begun ns).goto t (.bucket ns))
  | begin_snapshot (hpc : c.pc t = .idle) :
    Move c t ({ c with since := update c.since t (c.log .finished) }.goto t
      (.read_counts ⟨fun _ => 0, 0, 0, 0⟩ 0))
  | bucket {ns : UInt64} (hpc : c.pc t = .bucket ns) :
    Move c t (({ c with
      hist.buckets := update c.hist.buckets (bucket_index ns) (c.hist.buckets (bucket_index ns) + 1)
      }.pass t .bucketed ns).goto t (.total ns))
  | total {ns : UInt64} (hpc : c.pc t = .total ns) :
    Move c t (({ c with hist.total := c.hist.total + 1 }.pass t .totalled ns).goto t (.sum ns))
  | sum {ns : UInt64} (hpc : c.pc t = .sum ns) :
    Move c t (({ c with hist.sum_ns := c.hist.sum_ns + ns }.pass t .summed ns).goto t (.load_max ns))
  /-- The first load of the maximum, or the load of a failed exchange. -/
  | look {ns : UInt64} (hpc : c.pc t = .load_max ns ∨ ∃ cur_max, c.pc t = .raise ns cur_max) :
    Move c t (c.goto t (.raise ns c.hist.max_ns))
  | raise {ns : UInt64} (hpc : c.pc t = .raise ns c.hist.max_ns) (hgt : c.hist.max_ns < ns) :
    Move c t (({ c with hist.max_ns := ns }.pass t .finished ns).goto t .idle)
  | keep {ns cur_max : UInt64} (hpc : c.pc t = .raise ns cur_max) (hle : ns ≤ cur_max) :
    Move c t ((c.pass t .finished ns).goto t .idle)
  | read_count {s : Snapshot} {i : Int} (hpc : c.pc t = .read_counts s i) (hi : i < kTotalBuckets) :
    Move c t (c.goto t
      (.read_counts { s with counts := update s.counts i (c.hist.buckets i) } (i + 1)))
  | read_total {s : Snapshot} {i : Int} (hpc : c.pc t = .read_counts s i) (hi : kTotalBuckets ≤ i) :
    Move c t (c.goto t (.read_sum { s with total := c.hist.total }))
  | read_sum {s : Snapshot} (hpc : c.pc t = .read_sum s) :
    Move c t (c.goto t (.read_max { s with sum_ns := c.hist.sum_ns }))
  | read_max {s : Snapshot} (hpc : c.pc t = .read_max s) :
    Move c t ({ c with
      taken := c.taken ++
        [Taken.mk (c.since t) { s with max_ns := c.hist.max_ns } (c.log .begun)] }.goto t .idle)

theorem step_move (c : Config ι) (turn : Turn ι) : Move c turn.thread (c.step turn) := by
  rw [Config.step]
  cases hpc : c.pc turn.thread with
  | idle =>
    show Move c turn.thread (c.begin_call turn.thread turn.call)
    cases turn.call with
    | record ns => exact .begin_record ns hpc
    | take_snapshot => exact .begin_snapshot hpc
  | bucket ns => exact .bucket hpc
  | total ns => exact .total hpc
  | sum ns => exact .sum hpc
  | load_max ns => exact .look (.inl hpc)
  | raise ns cur_max =>
    dsimp only
    split_ifs with hgt hcas
    · obtain ⟨rfl, -⟩ := hcas
      exact .raise hpc hgt
    · exact .look (.inr ⟨cur_max, hpc⟩)
    · exact .keep hpc (UInt64.not_lt.mp hgt)
  | read_counts s i =>
    dsimp only
    split_ifs with hi
    · exact .read_count hpc hi
    · exact .read_total hpc (Int.not_lt.mp hi)
  | read_sum s => exact .read_sum hpc
  | read_max s => exact .read_max hpc

variable {c' : Config ι}

theorem Recorded.move (h : Recorded c) (hm : Move c t c') : Recorded c' := by
  -- Each step passes one stage or none, and says so of its own thread only.
  cases hm with
  | begin_record _ hpc => exact h.pass hpc (by decide) rfl (by intro k; cases k <;> rfl)
  | begin_snapshot hpc =>
    exact Recorded.goto (c := { c with since := _ }) h hpc (by intro k; cases k <;> rfl)
  | bucket hpc =>
    exact Recorded.pass (c := { c with hist := _ }) h hpc (by decide) rfl
      (by intro k; cases k <;> rfl)
  | total hpc =>
    exact Recorded.pass (c := { c with hist := _ }) h hpc (by decide) rfl
      (by intro k; cases k <;> rfl)
  | sum hpc =>
    exact Recorded.pass (c := { c with hist := _ }) h hpc (by decide) rfl
      (by intro k; cases k <;> rfl)
  | look hpc =>
    rcases hpc with hpc | ⟨_, hpc⟩
    · exact h.goto hpc (by intro k; cases k <;> rfl)
    · exact h.goto hpc (by intro k; cases k <;> rfl)
  | raise hpc _ =>
    exact Recorded.finish (c := { c with hist := _ }) h hpc (by intro k; cases k <;> rfl)
  | keep hpc _ => exact h.finish hpc (by intro k; cases k <;> rfl)
  | read_count hpc _ => exact h.goto hpc (by intro k; cases k <;> rfl)
  | read_total hpc _ => exact h.goto hpc (by intro k; cases k <;> rfl)
  | read_sum hpc => exact h.goto hpc (by intro k; cases k <;> rfl)
  | read_max hpc =>
    exact Recorded.goto (c := { c with taken := _ }) h hpc (by intro k; cases k <;> rfl)

/-! ## Section 4: The counters -/

/-- The sum of the latencies in a log. -/
def weight (log : List (ι × UInt64)) : Nat := (log.map fun r => r.2.toNat).sum

/-- The latencies of a log that fall into one bucket. -/
def hits (log : List (ι × UInt64)) (i : Int) : Nat := log.countP fun r => bucket_index r.2 = i

/-- Each counter is that of the calls that have passed it. -/
structure Tallied (c : Config ι) : Prop where
  buckets : ∀ i, c.hist.buckets i = .ofNat (hits (c.log .bucketed) i)
  total : c.hist.total = .ofNat (c.log .totalled).length
  sum : c.hist.sum_ns = .ofNat (weight (c.log .summed))

omit [DecidableEq ι] in
theorem ofNat_hits_append (log : List (ι × UInt64)) (t : ι) (ns : UInt64) (i : Int) :
    UInt64.ofNat (hits (log ++ [(t, ns)]) i) =
      update (fun i => UInt64.ofNat (hits log i)) (bucket_index ns)
        (.ofNat (hits log (bucket_index ns)) + 1) i := by
  rw [hits, List.countP_append]
  by_cases hi : i = bucket_index ns
  · subst hi
    rw [update_self, UInt64.ofNat_add]
    simp [hits]
  · rw [update_of_ne hi]
    simp [hits, Ne.symm hi]

theorem Tallied.move (h : Tallied c) (hm : Move c t c') : Tallied c' := by
  cases hm with
  | bucket hpc =>
    refine ⟨?_, h.total, h.sum⟩
    intro i
    show update c.hist.buckets _ _ i = .ofNat (hits (c.log .bucketed ++ [(t, _)]) i)
    have hb : c.hist.buckets = fun i => UInt64.ofNat (hits (c.log .bucketed) i) := funext h.buckets
    rw [ofNat_hits_append, hb]
  | total hpc =>
    refine ⟨h.buckets, ?_, h.sum⟩
    show c.hist.total + 1 = .ofNat (c.log .totalled ++ [(t, _)]).length
    rw [h.total, List.length_append, UInt64.ofNat_add]
    rfl
  | sum hpc =>
    refine ⟨h.buckets, h.total, ?_⟩
    show c.hist.sum_ns + _ = .ofNat (weight (c.log .summed ++ [(t, _)]))
    rw [h.sum, weight, weight, List.map_append, List.sum_append, UInt64.ofNat_add]
    simp
  | _ => exact ⟨h.buckets, h.total, h.sum⟩

/-- The maximum is one of the latencies of the calls that have begun, no less
    than those of the calls that have returned. -/
structure Maximal (c : Config ι) : Prop where
  bound : ∀ r ∈ c.log .finished, r.2 ≤ c.hist.max_ns
  attained : c.hist.max_ns = 0 ∨ ∃ r ∈ c.log .begun, r.2 = c.hist.max_ns
  /-- What a thread has seen as the maximum has not been lowered since. -/
  seen : ∀ t ns cur_max, c.pc t = .raise ns cur_max → cur_max ≤ c.hist.max_ns

/-- A call in the middle has begun. -/
theorem Recorded.mem_begun (h : Recorded c) (hpc : (c.pc t).pending .begun = [ns]) :
    (t, ns) ∈ c.log .begun := by
  have hmem : ns ∈ ofThread (c.log .begun) t := by
    rw [h .begun t, hpc]
    exact List.mem_append_right _ (List.mem_singleton_self ns)
  obtain ⟨⟨t', ns'⟩, hfilter, rfl⟩ := List.mem_map.mp hmem
  obtain ⟨hlog, ht⟩ := List.mem_filter.mp hfilter
  obtain rfl : t' = t := of_decide_eq_true ht
  exact hlog

theorem seen_goto {max_ns : UInt64}
    (hseen : ∀ t ns cur_max, c.pc t = .raise ns cur_max → cur_max ≤ max_ns)
    (hpc : ∀ ns cur_max, pc = .raise ns cur_max → cur_max ≤ max_ns) :
    ∀ t' ns cur_max, update c.pc t pc t' = .raise ns cur_max → cur_max ≤ max_ns := by
  intro t' ns cur_max hraise
  by_cases ht : t' = t
  · subst ht
    rw [update_self] at hraise
    exact hpc ns cur_max hraise
  · rw [update_of_ne ht] at hraise
    exact hseen t' ns cur_max hraise

theorem Maximal.move (h : Maximal c) (hrec : Recorded c) (hm : Move c t c') : Maximal c' := by
  cases hm with
  | begin_record ns hpc =>
    refine ⟨h.bound, ?_, seen_goto h.seen (by intro _ _ hc; cases hc)⟩
    rcases h.attained with hzero | ⟨r, hr, hmax⟩
    · exact .inl hzero
    · exact .inr ⟨r, List.mem_append_left _ hr, hmax⟩
  | look hpc =>
    refine ⟨h.bound, h.attained, seen_goto h.seen ?_⟩
    intro _ _ hraise
    cases hraise
    exact UInt64.le_refl _
  | @raise ns hpc hgt =>
    refine ⟨?_, ?_, ?_⟩
    · intro r hr
      rcases List.mem_append.mp hr with hr | hr
      · exact UInt64.le_trans (h.bound r hr) (UInt64.le_of_lt hgt)
      · rw [List.mem_singleton.mp hr]
        exact UInt64.le_refl _
    -- The new maximum is the latency of this call, which has begun.
    · exact .inr ⟨(t, ns), hrec.mem_begun (by rw [hpc]; rfl), rfl⟩
    · refine seen_goto ?_ (by intro _ _ hc; cases hc)
      -- What the others have loaded is below the old maximum.
      intro t' ns' cur_max hraise
      exact UInt64.le_trans (h.seen t' ns' cur_max hraise) (UInt64.le_of_lt hgt)
  | keep hpc hle =>
    refine ⟨?_, h.attained, seen_goto h.seen (by intro _ _ hc; cases hc)⟩
    intro r hr
    rcases List.mem_append.mp hr with hr | hr
    · exact h.bound r hr
    · -- another thread may have raised the maximum further
      rw [List.mem_singleton.mp hr]
      exact UInt64.le_trans hle (h.seen t _ _ hpc)
  | _ => exact ⟨h.bound, h.attained, seen_goto h.seen (by intro _ _ hc; cases hc)⟩

/-! ## Section 5: Logs side by side -/

theorem count_ofThread (log : List (ι × UInt64)) (t : ι) (ns : UInt64) :
    (ofThread log t).count ns = log.count (t, ns) := by
  induction log with
  | nil => rfl
  | cons r log ih =>
    obtain ⟨t', ns'⟩ := r
    rw [List.count_cons, ← ih]
    by_cases ht : t' = t
    · subst ht
      simp [ofThread, List.count_cons]
    · simp [ofThread, ht]

theorem subperm_of_ofThread {xs ys : List (ι × UInt64)}
    (h : ∀ t, (ofThread xs t).Sublist (ofThread ys t)) : xs.Subperm ys := by
  rw [List.subperm_ext_iff]
  intro r _
  rw [← count_ofThread xs r.1 r.2, ← count_ofThread ys r.1 r.2]
  exact (h r.1).count_le r.2

omit [DecidableEq ι] in
theorem Pc.pending_sublist (pc : Pc) (k : Stage) : (pc.pending k).Sublist (pc.pending .begun) := by
  cases pc <;> cases k <;> simp [Pc.pending]

/-- A set of calls with all of `before` and no other than those of `after`. -/
def Between (before after xs : List (ι × UInt64)) : Prop := before.Subperm xs ∧ xs.Subperm after

/-- Every stage has all the calls that returned, and only calls that have
    begun. -/
theorem Recorded.between (h : Recorded c) (k : Stage) :
    Between (c.log .finished) (c.log .begun) (c.log k) := by
  constructor
  · apply subperm_of_ofThread
    intro t
    rw [h k t]
    exact List.sublist_append_left _ _
  · apply subperm_of_ofThread
    intro t
    rw [h k t, h .begun t]
    exact ((c.pc t).pending_sublist k).append_left _

omit [DecidableEq ι] in
theorem Between.mono {before before' after after' xs : List (ι × UInt64)}
    (h : Between before after xs) (hb : before'.Subperm before) (ha : after.Subperm after') :
    Between before' after' xs :=
  ⟨hb.trans h.1, h.2.trans ha⟩

theorem Recorded.perm (h : Recorded c) (hset : ∀ t, (c.pc t).Settled) (k : Stage) :
    (c.log k).Perm (c.log .begun) := by
  have hall : ∀ k t, ofThread (c.log k) t = ofThread (c.log .finished) t := by
    intro k t
    have hnil : (c.pc t).pending k = [] := by
      have hsub := (c.pc t).pending_sublist k
      rw [hset t] at hsub
      exact List.sublist_nil.mp hsub
    rw [h k t, hnil, List.append_nil]
  -- With no call in the middle, all stages have the same calls.
  apply List.Subperm.antisymm
  · exact (h.between k).2
  · apply subperm_of_ofThread
    intro t
    rw [hall k t, hall .begun t]

/-! ## Section 6: When the calls have returned -/

omit [DecidableEq ι] in
theorem hits_eq (log : List (ι × UInt64)) (i : Int) :
    hits log i = (log.map Prod.snd).countP fun ns => bucket_index ns = i := by
  rw [List.countP_map]
  rfl

omit [DecidableEq ι] in
theorem hits_perm {xs ys : List (ι × UInt64)} (h : xs.Perm ys) (i : Int) : hits xs i = hits ys i :=
  h.countP_eq _

omit [DecidableEq ι] in
theorem weight_perm {xs ys : List (ι × UInt64)} (h : xs.Perm ys) : weight xs = weight ys :=
  (h.map _).sum_nat

/-- The invariant of the counters. -/
structure Counting (c : Config ι) : Prop where
  recorded : Recorded c
  tallied : Tallied c
  maximal : Maximal c

theorem counting_start : Counting (Config.start (ι := ι)) := by
  refine ⟨?_, ⟨fun _ => rfl, rfl, rfl⟩, ?_, .inl rfl, ?_⟩
  · intro k t
    cases k <;> rfl
  · intro r hr
    cases hr
  · intro t ns cur_max hpc
    cases hpc

theorem Counting.move (h : Counting c) (hm : Move c t c') : Counting c' :=
  ⟨h.recorded.move hm, h.tallied.move hm, h.maximal.move h.recorded hm⟩

theorem counting_run (schedule : List (Turn ι)) : Counting (Config.start.run schedule) := by
  apply foldl_keeps
  · intro c turn h
    exact h.move (step_move c turn)
  · exact counting_start

/-- What the histogram keeps of latencies does not depend on their order. -/
theorem holds_perm {h : LatencyHistogram} {xs ys : List UInt64} (hh : Holds h xs)
    (hp : xs.Perm ys) : Holds h ys where
  buckets := by
    intro i
    rw [hh.buckets, hp.countP_eq]
  total := by rw [hh.total, hp.length_eq]
  bound := by
    intro ns hns
    exact hh.bound ns (hp.mem_iff.mpr hns)
  attained := by
    rcases hh.attained with hmem | ⟨rfl, hzero⟩
    · exact .inl (hp.mem_iff.mp hmem)
    · exact .inr ⟨hp.nil_eq.symm, hzero⟩

theorem holds_max_le {h h' : LatencyHistogram} {xs : List UInt64} (hh : Holds h xs)
    (hh' : Holds h' xs) : h.max_ns ≤ h'.max_ns := by
  rcases hh.attained with hmem | ⟨_, hzero⟩
  · exact hh'.bound _ hmem
  · rw [hzero]
    exact UInt64.zero_le

theorem holds_eq {h h' : LatencyHistogram} {xs : List UInt64} (hh : Holds h xs) (hh' : Holds h' xs)
    (hsum : h.sum_ns = h'.sum_ns) : h = h' := by
  have hbuckets : h.buckets = h'.buckets := by
    funext i
    rw [hh.buckets, hh'.buckets]
  have htotal : h.total = h'.total := hh.total.trans hh'.total.symm
  have hmax : h.max_ns = h'.max_ns := UInt64.le_antisymm (holds_max_le hh hh') (holds_max_le hh' hh)
  obtain ⟨buckets, total, sum_ns, max_ns⟩ := h
  obtain ⟨buckets', total', sum_ns', max_ns'⟩ := h'
  cases hbuckets
  cases htotal
  cases hmax
  cases hsum
  rfl

theorem sum_recordAll (calls : List (UInt64 × Nat)) :
    (fresh.recordAll calls).sum_ns = .ofNat ((latencies calls).map UInt64.toNat).sum := by
  induction calls using List.reverseRecOn with
  | nil => rfl
  | append_singleton calls call ih =>
    rw [recordAll, List.foldl_append, latencies, List.map_append, List.map_append, List.sum_append,
      UInt64.ofNat_add]
    show (fresh.recordAll calls).sum_ns + call.1 = _
    rw [ih]
    simp [latencies]

/-- The latencies of a log. -/
def latenciesOf (log : List (ι × UInt64)) : List UInt64 := log.map Prod.snd

omit [DecidableEq ι] in
/-- A histogram with the counters of a log holds its latencies. -/
theorem holds_log {h : LatencyHistogram} {log : List (ι × UInt64)}
    (hbuckets : ∀ i, h.buckets i = .ofNat (hits log i)) (htotal : h.total = .ofNat log.length)
    (hbound : ∀ r ∈ log, r.2 ≤ h.max_ns) (hmax : h.max_ns = 0 ∨ ∃ r ∈ log, r.2 = h.max_ns) :
    Holds h (latenciesOf log) where
  buckets := by
    intro i
    rw [hbuckets i, hits_eq]
    rfl
  total := by rw [htotal, latenciesOf, List.length_map]
  bound := by
    intro ns hns
    obtain ⟨r, hr, rfl⟩ := List.mem_map.mp hns
    exact hbound r hr
  attained := by
    rcases hmax with hzero | ⟨r, hr, hmax⟩
    · -- a maximum of 0 is one of the latencies, unless there are none
      cases log with
      | nil => exact .inr ⟨rfl, hzero⟩
      | cons r rest =>
        have hle := hbound r List.mem_cons_self
        rw [hzero, UInt64.le_zero_iff] at hle
        left
        rw [hzero, ← hle]
        exact List.mem_map_of_mem List.mem_cons_self
    · left
      rw [← hmax]
      exact List.mem_map_of_mem hr

theorem Counting.holds (h : Counting c) (hset : ∀ t, (c.pc t).Settled) :
    Holds c.hist (latenciesOf (c.log .begun)) := by
  have hperm := h.recorded.perm hset
  apply holds_log
  · intro i
    rw [h.tallied.buckets i, hits_perm (hperm .bucketed)]
  · rw [h.tallied.total, (hperm .totalled).length_eq]
  · intro r hr
    exact h.maximal.bound r ((hperm .finished).mem_iff.mpr hr)
  · exact h.maximal.attained

theorem Counting.eq_recordAll (h : Counting c) (hset : ∀ t, (c.pc t).Settled)
    {calls : List (UInt64 × Nat)} (hcalls : (latencies calls).Perm (latenciesOf (c.log .begun))) :
    c.hist = fresh.recordAll calls := by
  apply holds_eq (holds_perm (h.holds hset) hcalls.symm) (holds_recordAll calls)
  -- The sum is the one counter that `Holds` says nothing of.
  rw [h.tallied.sum, weight_perm (h.recorded.perm hset .summed), sum_recordAll, (hcalls.map _).sum_nat,
    latenciesOf, List.map_map]
  rfl

/-- Whatever the interleaving of the atomic steps of `record` and
    `take_snapshot`: once no thread is in the middle of a `record`, the histogram
    is the one that recording the same latencies one after the other gives, in
    any order. -/
theorem recorded_concurrently (schedule : List (Turn ι))
    (hset : ∀ t, ((Config.start.run schedule).pc t).Settled) (calls : List (UInt64 × Nat))
    (hcalls : (latencies calls).Perm (latenciesOf ((Config.start.run schedule).log .begun))) :
    (Config.start.run schedule).hist = fresh.recordAll calls :=
  (counting_run schedule).eq_recordAll hset hcalls

/-- Two threads that load the maximum before either exchanges it: the second
    exchange fails, and finds a larger one. -/
theorem recorded_seven_and_five :
    let turn (t : Bool) : Turn Bool := ⟨t, .record (if t then 7 else 5), false⟩
    let schedule := [true, false, true, false, true, false, true, false, true, false, true, false,
      false].map turn
    (Config.start.run schedule).hist.max_ns = 7 ∧
      (Config.start.run schedule).hist = fresh.recordAll [(5, 0), (7, 0)] := by
  intro turn schedule
  exact ⟨by decide, recorded_concurrently schedule (by decide) [(5, 0), (7, 0)] (by decide)⟩

end OptionsEngine.LatencyHistogram.Concurrent
