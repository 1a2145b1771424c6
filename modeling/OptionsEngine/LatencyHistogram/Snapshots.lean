import OptionsEngine.LatencyHistogram.Concurrent

/-! # Snapshots among recording threads

    `take_snapshot` loads one counter after the other while other threads go on
    recording, so its numbers need not be of one moment.

    * `Watched`: what a thread in the middle of a snapshot has read so far.
    * `snapshot_between`: each number of a snapshot counts all the calls that
      had returned when the snapshot began, and none that had not begun when it
      returned.  If these are the same, its percentiles are those of the calls
      one after the other. -/

namespace OptionsEngine.LatencyHistogram.Concurrent

open Function Loop

variable {ι : Type} [DecidableEq ι] {c c' : Config ι} {t : ι} {pc : Pc}

/-! ## Section 1: What has been read -/

section
variable (before after : List (ι × UInt64)) (s : Snapshot)

/-- The counts of the buckets before `i` are those of some calls between
    `before` and `after`; each may be of others. -/
def CountsTo (i : Int) : Prop :=
  ∀ j, 0 ≤ j → j < i → ∃ xs, Between before after xs ∧ s.counts j = .ofNat (hits xs j)

def TotalOf : Prop := ∃ xs, Between before after xs ∧ s.total = .ofNat xs.length

def SumOf : Prop := ∃ xs, Between before after xs ∧ s.sum_ns = .ofNat (weight xs)

def MaxOf : Prop :=
  (∀ r ∈ before, r.2 ≤ s.max_ns) ∧ (s.max_ns = 0 ∨ ∃ r ∈ after, r.2 = s.max_ns)

end

/-- What a snapshot says of the calls before it and the calls up to its end. -/
structure Taken.Consistent (k : Taken ι) : Prop where
  counts : CountsTo k.before k.after k.snapshot kTotalBuckets
  total : TotalOf k.before k.after k.snapshot
  sum : SumOf k.before k.after k.snapshot
  max : MaxOf k.before k.after k.snapshot

/-- What a thread has read so far. -/
def Pc.Reads (before after : List (ι × UInt64)) : Pc → Prop
  | .read_counts s i => CountsTo before after s i
  | .read_sum s => CountsTo before after s kTotalBuckets ∧ TotalOf before after s
  | .read_max s =>
    CountsTo before after s kTotalBuckets ∧ TotalOf before after s ∧ SumOf before after s
  | _ => True

structure Watched (c : Config ι) : Prop where
  since : ∀ t, (c.since t).Subperm (c.log .finished)
  reads : ∀ t, (c.pc t).Reads (c.since t) (c.log .begun)
  taken : ∀ k ∈ c.taken, k.Consistent

section
variable {before after after' : List (ι × UInt64)} {s : Snapshot}

omit [DecidableEq ι]

theorem CountsTo.mono {i : Int} (h : CountsTo before after s i) (ha : after.Subperm after') :
    CountsTo before after' s i := by
  intro j h0 hj
  obtain ⟨xs, hxs, hcount⟩ := h j h0 hj
  exact ⟨xs, hxs.mono (.refl _) ha, hcount⟩

theorem TotalOf.mono (h : TotalOf before after s) (ha : after.Subperm after') :
    TotalOf before after' s := by
  obtain ⟨xs, hxs, htotal⟩ := h
  exact ⟨xs, hxs.mono (.refl _) ha, htotal⟩

theorem SumOf.mono (h : SumOf before after s) (ha : after.Subperm after') :
    SumOf before after' s := by
  obtain ⟨xs, hxs, hsum⟩ := h
  exact ⟨xs, hxs.mono (.refl _) ha, hsum⟩

theorem Pc.Reads.mono {pc : Pc} (h : pc.Reads before after) (ha : after.Subperm after') :
    pc.Reads before after' := by
  cases pc with
  | read_counts s i => exact CountsTo.mono h ha
  | read_sum s => exact ⟨h.1.mono ha, h.2.mono ha⟩
  | read_max s => exact ⟨h.1.mono ha, h.2.1.mono ha, h.2.2.mono ha⟩
  | _ => trivial

/-- One more bucket is read. -/
theorem CountsTo.read {i : Int} {xs : List (ι × UInt64)} (h : CountsTo before after s i)
    (hxs : Between before after xs) :
    CountsTo before after { s with counts := update s.counts i (.ofNat (hits xs i)) } (i + 1) := by
  intro j h0 hj
  show ∃ ys, Between before after ys ∧ update s.counts i _ j = _
  by_cases hij : j = i
  · subst hij
    rw [update_self]
    exact ⟨xs, hxs, rfl⟩
  · rw [update_of_ne hij]
    exact h j h0 (by omega)

end

theorem Watched.goto (h : Watched c) (hpc : pc.Reads (c.since t) (c.log .begun)) :
    Watched (c.goto t pc) := by
  refine ⟨h.since, ?_, h.taken⟩
  intro t'
  show (update c.pc t pc t').Reads (c.since t') (c.log .begun)
  by_cases ht : t' = t
  · subst ht
    rw [update_self]
    exact hpc
  · rw [update_of_ne ht]
    exact h.reads t'

omit [DecidableEq ι] in
/-- The logs only grow. -/
theorem pass_subperm (c : Config ι) (t : ι) (k k' : Stage) (ns : UInt64) :
    (c.log k').Subperm ((c.pass t k ns).log k') := by
  show (c.log k').Subperm (update c.log k (c.log k ++ [(t, ns)]) k')
  by_cases hk : k' = k
  · subst hk
    rw [update_self]
    exact (List.sublist_append_left _ _).subperm
  · rw [update_of_ne hk]

omit [DecidableEq ι] in
theorem Watched.pass (h : Watched c) (t : ι) (k : Stage) (ns : UInt64) : Watched (c.pass t k ns) where
  since := fun t' => (h.since t').trans (pass_subperm c t k .finished ns)
  reads := fun t' => (h.reads t').mono (pass_subperm c t k .begun ns)
  taken := h.taken

omit [DecidableEq ι] in
theorem Watched.with_hist (h : Watched c) (hist : LatencyHistogram) : Watched { c with hist := hist } :=
  ⟨h.since, h.reads, h.taken⟩

/-- What is in a log when a thread reads a counter. -/
theorem Watched.between (h : Watched c) (hrec : Recorded c) (t : ι) (k : Stage) :
    Between (c.since t) (c.log .begun) (c.log k) :=
  (hrec.between k).mono (h.since t) (.refl _)

theorem Watched.begin_snapshot (h : Watched c) (t : ι) :
    Watched ({ c with since := update c.since t (c.log .finished) }.goto t
      (.read_counts ⟨fun _ => 0, 0, 0, 0⟩ 0)) := by
  refine ⟨?_, ?_, h.taken⟩
  · intro t'
    show (update c.since t (c.log .finished) t').Subperm (c.log .finished)
    by_cases ht : t' = t
    · subst ht
      rw [update_self]
    · rw [update_of_ne ht]
      exact h.since t'
  · intro t'
    show (update c.pc t _ t').Reads (update c.since t (c.log .finished) t') (c.log .begun)
    by_cases ht : t' = t
    · subst ht
      rw [update_self, update_self]
      intro j h0 hj
      omega
    · rw [update_of_ne ht, update_of_ne ht]
      exact h.reads t'

/-! ## Section 2: Runs -/

theorem Watched.move (h : Watched c) (hc : Counting c) (hm : Move c t c') : Watched c' := by
  have hbetween := h.between hc.recorded t
  have hreads := h.reads t
  cases hm with
  | begin_record ns _ => exact (h.pass t .begun ns).goto trivial
  | begin_snapshot _ => exact h.begin_snapshot t
  | @bucket ns _ =>
    exact ((h.with_hist _).pass t _ ns).goto trivial
  | @total ns _ =>
    exact ((h.with_hist _).pass t _ ns).goto trivial
  | @sum ns _ =>
    exact ((h.with_hist _).pass t _ ns).goto trivial
  | look _ => exact h.goto trivial
  | @raise ns _ _ =>
    exact ((h.with_hist _).pass t _ ns).goto trivial
  | @keep ns _ _ _ => exact (h.pass t _ ns).goto trivial
  -- A load reads the counter of the calls that have passed it by now.
  | @read_count s i hpc _ =>
    rw [hpc] at hreads
    apply h.goto
    rw [hc.tallied.buckets i]
    exact CountsTo.read hreads (hbetween .bucketed)
  | @read_total s i hpc hi =>
    rw [hpc] at hreads
    apply h.goto
    refine ⟨?_, _, hbetween .totalled, hc.tallied.total⟩
    intro j h0 hj
    exact hreads j h0 (Int.lt_of_lt_of_le hj hi)
  | @read_sum s hpc =>
    rw [hpc] at hreads
    apply h.goto
    exact ⟨hreads.1, hreads.2, _, hbetween .summed, hc.tallied.sum⟩
  | @read_max s hpc =>
    rw [hpc] at hreads
    refine Watched.goto ⟨h.since, h.reads, ?_⟩ trivial
    intro k hk
    rcases List.mem_append.mp hk with hk | hk
    · exact h.taken k hk
    · rw [List.mem_singleton.mp hk]
      refine ⟨hreads.1, hreads.2.1, hreads.2.2, ?_, hc.maximal.attained⟩
      -- What had returned before the snapshot has returned now.
      intro r hr
      exact hc.maximal.bound r ((h.since t).subset hr)

structure Observed (c : Config ι) : Prop where
  counting : Counting c
  watched : Watched c

theorem observed_run (schedule : List (Turn ι)) : Observed (Config.start.run schedule) := by
  apply foldl_keeps
  · intro c turn h
    have hm := step_move c turn
    exact ⟨h.counting.move hm, h.watched.move h.counting hm⟩
  · refine ⟨counting_start, fun _ => .refl _, fun _ => trivial, ?_⟩
    intro k hk
    cases hk

/-! ## Section 3: Snapshots with nobody recording -/

theorem scan_congr {s s' : Snapshot} (hmax : s.max_ns = s'.max_ns) (target : UInt64) (left : Nat) :
    ∀ {i : Int} {cumulative : UInt64}, (∀ j, i ≤ j → j < i + left → s.counts j = s'.counts j) →
      s.scan target left i cumulative = s'.scan target left i cumulative := by
  induction left with
  | zero =>
    intro i cumulative _
    exact hmax
  | succ left ih =>
    intro i cumulative hcounts
    rw [Snapshot.scan, Snapshot.scan, hcounts i (Int.le_refl i) (by omega)]
    split
    · rfl
    · apply ih
      intro j hij hj
      exact hcounts j (by omega) (by omega)

/-- A percentile only reads the counts of the buckets there are. -/
theorem percentile_congr {s s' : Snapshot} (htotal : s.total = s'.total)
    (hmax : s.max_ns = s'.max_ns)
    (hcounts : ∀ j, 0 ≤ j → j < kTotalBuckets → s.counts j = s'.counts j) (k : UInt64) :
    s.percentile k = s'.percentile k := by
  rw [Snapshot.percentile, Snapshot.percentile, htotal]
  split
  · rfl
  · apply scan_congr hmax
    intro j h0 hj
    have hlen : (kTotalBuckets.toNat : Int) = kTotalBuckets := rfl
    exact hcounts j h0 (by omega)

omit [DecidableEq ι] in
theorem Between.perm {before after xs : List (ι × UInt64)} (h : Between before after xs)
    (hp : before.Perm after) : xs.Perm before :=
  List.Subperm.antisymm (h.2.trans hp.symm.subperm) h.1

omit [DecidableEq ι] in
theorem Taken.Consistent.holds {k : Taken ι} (h : k.Consistent) (hp : k.before.Perm k.after) :
    Holds ⟨fun i => .ofNat (hits k.before i), k.snapshot.total, k.snapshot.sum_ns, k.snapshot.max_ns⟩
      (latenciesOf k.before) := by
  apply holds_log
  · intro i
    rfl
  · obtain ⟨xs, hxs, htotal⟩ := h.total
    rw [← (hxs.perm hp).length_eq]
    exact htotal
  · exact h.max.1
  · rcases h.max.2 with hzero | ⟨r, hr, hmax⟩
    · exact .inl hzero
    · exact .inr ⟨r, hp.mem_iff.mpr hr, hmax⟩

omit [DecidableEq ι] in
theorem Taken.Consistent.percentile_eq {k : Taken ι} (h : k.Consistent)
    (hp : k.before.Perm k.after) {calls : List (UInt64 × Nat)}
    (hcalls : (latencies calls).Perm (latenciesOf k.before)) (rank : UInt64) :
    k.snapshot.percentile rank = (fresh.recordAll calls).take_snapshot.percentile rank := by
  have hh := holds_perm (h.holds hp) hcalls.symm
  have hseq := holds_recordAll calls
  -- The sum is not read by a percentile.
  apply percentile_congr
  · exact hh.total.trans hseq.total.symm
  · exact UInt64.le_antisymm (holds_max_le hh hseq) (holds_max_le hseq hh)
  · intro j h0 hj
    obtain ⟨xs, hxs, hcount⟩ := h.counts j h0 hj
    rw [hcount, hits_perm (hxs.perm hp)]
    exact (hh.buckets j).trans (hseq.buckets j).symm

/-- Whatever the interleaving: each number of a snapshot is that of some calls of
    `record`, all that had returned when it began and none that had not begun
    when it returned, and its maximum is no less than the latencies of the
    former and one of the latter.  A snapshot during which no call was in the
    middle has the percentiles of the same latencies recorded one after the
    other, in any order. -/
theorem snapshot_between (schedule : List (Turn ι)) (k : Taken ι)
    (hk : k ∈ (Config.start.run schedule).taken) :
    k.Consistent ∧
    ∀ calls, k.before.Perm k.after → (latencies calls).Perm (latenciesOf k.before) →
      ∀ rank, k.snapshot.percentile rank =
        (fresh.recordAll calls).take_snapshot.percentile rank := by
  have h := (observed_run schedule).watched.taken k hk
  exact ⟨h, fun calls hp hcalls rank => h.percentile_eq hp hcalls rank⟩

/-! ## Section 4: A thread alone -/

theorem run_append (c : Config ι) (xs ys : List (Turn ι)) : c.run (xs ++ ys) = (c.run xs).run ys :=
  List.foldl_append

theorem run_cons (c : Config ι) (turn : Turn ι) (schedule : List (Turn ι)) :
    c.run (turn :: schedule) = (c.step turn).run schedule :=
  rfl

theorem read_counts_turns (turn : Turn ι) (n : Nat) :
    ∀ {c : Config ι} {s : Snapshot} {i : Int}, c.pc turn.thread = .read_counts s i →
      i + n = kTotalBuckets →
      ∃ s', c.run (List.replicate n turn) =
        c.goto turn.thread (.read_counts s' kTotalBuckets) := by
  -- Induction on the buckets that are left to load.
  induction n with
  | zero =>
    intro c s i hpc hi
    have hgoto : c.goto turn.thread (.read_counts s kTotalBuckets) = c := by
      obtain rfl : i = kTotalBuckets := by omega
      rw [Config.goto, ← hpc, update_eq_self]
    exact ⟨s, hgoto.symm⟩
  | succ n ih =>
    intro c s i hpc hi
    have hstep : c.step turn = c.goto turn.thread
        (.read_counts { s with counts := update s.counts i (c.hist.buckets i) } (i + 1)) := by
      rw [Config.step, hpc]
      exact if_pos (by omega)
    obtain ⟨s', hrun⟩ := ih (c := c.step turn) (i := i + 1)
      (by rw [hstep]; exact update_self turn.thread _ c.pc) (by omega)
    refine ⟨s', ?_⟩
    rw [List.replicate_succ, run_cons, hrun, hstep]
    show { c with pc := update (update c.pc turn.thread _) turn.thread _ } = _
    rw [update_idem]
    rfl

/-- The loads that follow the loop. -/
theorem read_last (turn : Turn ι) {s : Snapshot} :
    ((c.goto turn.thread (.read_counts s kTotalBuckets)).run (List.replicate 3 turn)).taken =
      c.taken ++ [⟨c.since turn.thread, ⟨s.counts, c.hist.total, c.hist.sum_ns, c.hist.max_ns⟩,
        c.log .begun⟩] := by
  have hsum : (c.goto turn.thread (.read_counts s kTotalBuckets)).step turn =
      c.goto turn.thread (.read_sum { s with total := c.hist.total }) := by
    simp [Config.step, Config.goto]
  have hmax : (c.goto turn.thread (.read_sum { s with total := c.hist.total })).step turn =
      c.goto turn.thread (.read_max { s with total := c.hist.total, sum_ns := c.hist.sum_ns }) := by
    simp [Config.step, Config.goto]
  show ((((c.goto turn.thread (.read_counts s kTotalBuckets)).step turn).step turn).step turn).taken = _
  rw [hsum, hmax]
  simp [Config.step, Config.goto]

/-- A thread that has begun a snapshot, and is alone from then on, returns after
    a turn for every counter. -/
theorem snapshot_rest (c : Config ι) (turn : Turn ι) {s : Snapshot}
    (hpc : c.pc turn.thread = .read_counts s 0) :
    ∃ counts, (c.run (List.replicate kTotalBuckets.toNat turn ++ List.replicate 3 turn)).taken =
      c.taken ++ [⟨c.since turn.thread, ⟨counts, c.hist.total, c.hist.sum_ns, c.hist.max_ns⟩,
        c.log .begun⟩] := by
  obtain ⟨s', hrun⟩ := read_counts_turns turn kTotalBuckets.toNat hpc rfl
  refine ⟨s'.counts, ?_⟩
  rw [run_append, hrun]
  exact read_last turn

/-- A latency of 7 ns is recorded.  Then another thread takes a snapshot while a
    latency of 5 ns is counted in the total and not yet in the sum: the two
    numbers are of different moments. -/
theorem snapshot_during_five :
    let seven : Turn Bool := ⟨true, .record 7, false⟩
    let five : Turn Bool := ⟨true, .record 5, false⟩
    let look : Turn Bool := ⟨false, .take_snapshot, false⟩
    let schedule := List.replicate 6 seven ++ look :: List.replicate 3 five ++
      (List.replicate kTotalBuckets.toNat look ++ List.replicate 3 look)
    ∃ k ∈ (Config.start.run schedule).taken, k.before = [(true, 7)] ∧
      k.after = [(true, 7), (true, 5)] ∧ k.snapshot.total = 2 ∧ k.snapshot.sum_ns = 7 ∧
      k.Consistent := by
  intro seven five look schedule
  obtain ⟨counts, htaken⟩ := snapshot_rest
    (Config.start.run (List.replicate 6 seven ++ look :: List.replicate 3 five)) look rfl
  rw [← run_append] at htaken
  have hmem : (⟨[(true, 7)], ⟨counts, 2, 7, 7⟩, [(true, 7), (true, 5)]⟩ : Taken Bool) ∈
      (Config.start.run schedule).taken := by
    rw [htaken]
    exact List.mem_append_right _ (List.mem_singleton_self _)
  obtain ⟨hconsistent, _⟩ := snapshot_between schedule _ hmem
  exact ⟨_, hmem, rfl, rfl, rfl, rfl, hconsistent⟩

end OptionsEngine.LatencyHistogram.Concurrent
