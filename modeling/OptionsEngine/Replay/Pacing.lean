import OptionsEngine.Replay.RoundTrip

/-! # The pacing of a replay

    `nanosleep` accepts less than a second in `tv_nsec`, which is all a replay
    ever fills in; timestamps come from the file and are subtracted unsigned;
    the rate of a throttled replay is a divisor.

    `pacing_valid_iff`: the pacing is right exactly if no event is due a second
    or more after it is read, none is stamped before the first, and the rate is
    not zero. -/

namespace OptionsEngine

/-- The time a `nanosleep` is asked for. -/
def Timespec.duration (ts : Timespec) : Int := ts.tv_sec.toInt * 1000000000 + ts.tv_nsec.toInt

namespace OrderFlowReplay

variable {cfg : Config} {env : Env} {evs : List TraceEvent} {s s' : Replaying}

/-! ## Section 1: What is right -/

/-- The readings of the clock never fall. -/
structure Env.Monotonic (env : Env) : Prop where
  start : env.wall_start ≤ (env.answers 0).now
  within : ∀ k, (env.answers k).now ≤ (env.answers k).t0 ∧ (env.answers k).t0 ≤ (env.answers k).done
  next : ∀ k, (env.answers k).done ≤ (env.answers (k + 1)).now

theorem Env.Monotonic.wall_start_le (h : env.Monotonic) (k : Nat) :
    env.wall_start ≤ (env.answers k).now := by
  induction k with
  | zero => exact h.start
  | succ k ih =>
    obtain ⟨hnow, ht0⟩ := h.within k
    exact UInt64.le_trans (UInt64.le_trans ih (UInt64.le_trans hnow ht0)) (h.next k)

/-- When an event is due in a throttled replay. -/
def due (cfg : Config) (wall_start : UInt64) (k : Nat) : Nat :=
  wall_start.toNat + k * (1000000000 / cfg.throttle_mps.toNat)

/-- How long the timing control has to wait for an event. -/
def Paced.wait (cfg : Config) (wall_start : UInt64) (p : Paced) : Int :=
  match cfg.mode with
  | .MaxSpeed => 0
  | .WallClock => (p.timestamp_ns.toNat - p.first_ts.toNat) - (p.now.toNat - wall_start.toNat)
  | .Throttled => due cfg wall_start p.i.toNat - p.now.toNat

/-- The elapsed target did not wrap below zero, and a call of `nanosleep` was
    one that it accepts, for the time to wait. -/
def Paced.Valid (cfg : Config) (wall_start : UInt64) (p : Paced) : Prop :=
  (cfg.mode = .WallClock → 0 < p.i → p.first_ts ≤ p.timestamp_ns) ∧
  ∀ ts, p.slept = some ts → 0 ≤ ts.tv_nsec.toInt ∧ ts.tv_nsec.toInt < 1000000000 ∧
    ts.duration = p.wait cfg wall_start

/-- No event is stamped before the first or due a second or more after it is
    read; a throttled replay has a rate, and where the time at which an event is
    due is beyond the clock's range, what is left of it is over. -/
def OnTime (cfg : Config) (env : Env) (evs : List TraceEvent) : Prop :=
  match cfg.mode with
  | .MaxSpeed => True
  | .WallClock => ∀ first, evs[0]? = some first → ∀ k ev, 0 < k → evs[k]? = some ev →
      first.timestamp_ns ≤ ev.timestamp_ns ∧
      ev.timestamp_ns.toNat - first.timestamp_ns.toNat <
        ((env.answers k).now.toNat - env.wall_start.toNat) + 1000000000
  | .Throttled => (evs ≠ [] → cfg.throttle_mps ≠ 0) ∧ ∀ k < evs.length,
      due cfg env.wall_start k % 2 ^ 64 ≤ (env.answers k).now.toNat ∨
      (due cfg env.wall_start k < 2 ^ 64 ∧
        due cfg env.wall_start k < (env.answers k).now.toNat + 1000000000)

/-! ## Section 2: One event -/

theorem toInt_toInt64 (d : UInt64) :
    d.toInt64.toInt = if d.toNat < 2 ^ 63 then (d.toNat : Int) else d.toNat - 2 ^ 64 := by
  have h : d.toInt64.toInt = d.toBitVec.toInt := rfl
  rw [h, ← priceOfBits_eq]
  rfl

/-- A wait given in nanoseconds alone is accepted, and right, if it is less than
    a second and no more than what is left to wait. -/
theorem sleep_iff {d : UInt64} {wait : Int} :
    (0 ≤ d.toInt64.toInt ∧ d.toInt64.toInt < 1000000000 ∧
      Timespec.duration ⟨0, d.toInt64⟩ = wait) ↔ (d.toNat : Int) = wait ∧ d.toNat < 1000000000 := by
  have hzero : Int64.toInt 0 = 0 := rfl
  have hlt := d.toNat_lt
  unfold Timespec.duration
  simp only [hzero, toInt_toInt64]
  split <;> omega

section event

variable {p : Paced} {wall_start : UInt64}

theorem valid_wallClock_iff (hmode : cfg.mode = .WallClock) (hi : 0 < p.i)
    (hnow : wall_start ≤ p.now)
    (hpace : pace cfg wall_start p.first_ts p.i p.timestamp_ns p.now = some p.slept) :
    p.Valid cfg wall_start ↔ p.first_ts ≤ p.timestamp_ns ∧
      p.timestamp_ns.toNat - p.first_ts.toNat <
        (p.now.toNat - wall_start.toNat) + 1000000000 := by
  have hactual := UInt64.toNat_sub_of_le _ _ hnow
  have hnow' := UInt64.le_iff_toNat_le.mp hnow
  simp only [pace, hmode, true_and, gt_iff_lt, hi, if_true, Option.some.injEq] at hpace
  unfold Paced.Valid Paced.wait
  simp only [hmode, hi, ← hpace, forall_const]
  by_cases hfirst : p.first_ts ≤ p.timestamp_ns
  · have htarget := UInt64.toNat_sub_of_le _ _ hfirst
    have hfirst' := UInt64.le_iff_toNat_le.mp hfirst
    by_cases hlate : p.now - wall_start < p.timestamp_ns - p.first_ts
    · have hwait := UInt64.toNat_sub_of_le _ _ (UInt64.le_of_lt hlate)
      have hlate' := UInt64.lt_iff_toNat_lt.mp hlate
      simp only [if_pos hlate, Option.some.injEq, forall_eq', sleep_iff, hfirst, true_and]
      omega
    · -- the event is due already
      have hlate' := mt UInt64.lt_iff_toNat_lt.mpr hlate
      simp only [if_neg hlate, hfirst, true_and, reduceCtorEq, false_implies, implies_true, true_iff]
      omega
  · simp only [hfirst, false_and]

theorem toNat_expected (cfg : Config) (wall_start i : UInt64) :
    (wall_start + i * (1000000000 / cfg.throttle_mps)).toNat = due cfg wall_start i.toNat % 2 ^ 64 := by
  have hsecond : (1000000000 : UInt64).toNat = 1000000000 := rfl
  rw [UInt64.toNat_add, UInt64.toNat_mul, UInt64.toNat_div, hsecond, due, Nat.add_mod_mod]

theorem valid_throttled_iff (hmode : cfg.mode = .Throttled) (hrate : cfg.throttle_mps ≠ 0)
    (hpace : pace cfg wall_start p.first_ts p.i p.timestamp_ns p.now = some p.slept) :
    p.Valid cfg wall_start ↔
      due cfg wall_start p.i.toNat % 2 ^ 64 ≤ p.now.toNat ∨
      (due cfg wall_start p.i.toNat < 2 ^ 64 ∧
        due cfg wall_start p.i.toNat < p.now.toNat + 1000000000) := by
  have hexpected := toNat_expected cfg wall_start p.i
  have hmod : due cfg wall_start p.i.toNat % 2 ^ 64 < 2 ^ 64 := Nat.mod_lt _ (by decide)
  simp only [pace, hmode, reduceCtorEq, false_and, if_false, if_true, hrate, Option.some.injEq]
    at hpace
  unfold Paced.Valid Paced.wait
  simp only [hmode, reduceCtorEq, false_implies, true_and, ← hpace]
  by_cases hlate : wall_start + p.i * (1000000000 / cfg.throttle_mps) > p.now
  · have hwait := UInt64.toNat_sub_of_le _ _ (UInt64.le_of_lt hlate)
    have hlate' := UInt64.lt_iff_toNat_lt.mp hlate
    simp only [if_pos hlate, Option.some.injEq, forall_eq', sleep_iff]
    omega
  · have hlate' := mt UInt64.lt_iff_toNat_lt.mpr hlate
    simp only [if_neg hlate, reduceCtorEq, false_implies, implies_true, true_iff]
    omega

/-- There is no waiting for the first event. -/
theorem valid_first (hmode : cfg.mode = .WallClock) (hi : ¬ 0 < p.i)
    (hpace : pace cfg wall_start p.first_ts p.i p.timestamp_ns p.now = some p.slept) :
    p.Valid cfg wall_start := by
  simp only [pace, hmode, gt_iff_lt, hi, and_false, if_false, reduceCtorEq, Option.some.injEq]
    at hpace
  unfold Paced.Valid
  simp only [hi, ← hpace, reduceCtorEq, false_implies, implies_true, and_self]

theorem valid_maxSpeed (hmode : cfg.mode = .MaxSpeed)
    (hpace : pace cfg wall_start p.first_ts p.i p.timestamp_ns p.now = some p.slept) :
    p.Valid cfg wall_start := by
  simp only [pace, hmode, reduceCtorEq, false_and, if_false, Option.some.injEq] at hpace
  unfold Paced.Valid
  simp only [hmode, ← hpace, reduceCtorEq, false_implies, implies_true, and_self]

end event

/-! ## Section 3: A whole replay -/

/-- What the timing control sees and does for the event with index `k`. -/
def pacedAs (env : Env) (first_ts : UInt64) (k : Nat) (ev : TraceEvent)
    (slept : Option Timespec) : Paced :=
  ⟨.ofNat k, ev.timestamp_ns, first_ts, (env.answers k).now, slept⟩

/-- What the timing control does for the event with index `k` satisfies `P`. -/
def PacedAt (cfg : Config) (env : Env) (P : Paced → Prop) (first_ts : UInt64) (k : Nat)
    (ev : TraceEvent) : Prop :=
  ∀ slept, pace cfg env.wall_start first_ts (.ofNat k) ev.timestamp_ns (env.answers k).now =
      some slept → P (pacedAs env first_ts k ev slept)

section index

variable {P : Paced → Prop} {first_ts : UInt64} {k : Nat} {ev : TraceEvent}

theorem pacedAt_iff {slept : Option Timespec}
    (hpace : pace cfg env.wall_start first_ts (.ofNat k) ev.timestamp_ns (env.answers k).now =
      some slept) :
    PacedAt cfg env P first_ts k ev ↔ P (pacedAs env first_ts k ev slept) := by
  constructor
  · exact fun h => h slept hpace
  · intro h slept' hpace'
    rw [hpace] at hpace'
    obtain rfl := Option.some.inj hpace'
    exact h

/-- Without a division by zero, the timing control answers for every event. -/
theorem exists_pace (hdiv : ¬ (cfg.mode = .Throttled ∧ cfg.throttle_mps = 0))
    (wall_start first_ts i timestamp_ns now : UInt64) :
    ∃ slept, pace cfg wall_start first_ts i timestamp_ns now = some slept :=
  Option.ne_none_iff_exists'.mp (mt pace_none_iff.mp hdiv)

theorem validAt_wallClock_iff (hmode : cfg.mode = .WallClock) (hclock : env.Monotonic)
    (hk : k < 2 ^ 64) :
    PacedAt cfg env (Paced.Valid cfg env.wall_start) first_ts k ev ↔
      (0 < k → first_ts ≤ ev.timestamp_ns ∧
        ev.timestamp_ns.toNat - first_ts.toNat <
          ((env.answers k).now.toNat - env.wall_start.toNat) + 1000000000) := by
  have hi : 0 < UInt64.ofNat k ↔ 0 < k := by
    rw [UInt64.lt_iff_toNat_lt, UInt64.toNat_ofNat_of_lt' hk]
    rfl
  have hdiv : ¬ (cfg.mode = .Throttled ∧ cfg.throttle_mps = 0) := by simp [hmode]
  obtain ⟨slept, hpace⟩ := exists_pace hdiv env.wall_start first_ts (.ofNat k) ev.timestamp_ns
    (env.answers k).now
  rw [pacedAt_iff hpace]
  by_cases hk0 : 0 < k
  · rw [valid_wallClock_iff hmode (hi.mpr hk0) (hclock.wall_start_le k) hpace]
    simp only [hk0, forall_const]
    rfl
  · have hvalid : (pacedAs env first_ts k ev slept).Valid cfg env.wall_start :=
      valid_first hmode (mt hi.mp hk0) hpace
    simp only [hvalid, hk0, false_implies]

theorem validAt_throttled_iff (hmode : cfg.mode = .Throttled) (hrate : cfg.throttle_mps ≠ 0)
    (hk : k < 2 ^ 64) :
    PacedAt cfg env (Paced.Valid cfg env.wall_start) first_ts k ev ↔
      due cfg env.wall_start k % 2 ^ 64 ≤ (env.answers k).now.toNat ∨
      (due cfg env.wall_start k < 2 ^ 64 ∧
        due cfg env.wall_start k < (env.answers k).now.toNat + 1000000000) := by
  have hdiv : ¬ (cfg.mode = .Throttled ∧ cfg.throttle_mps = 0) := fun h => hrate h.2
  obtain ⟨slept, hpace⟩ := exists_pace hdiv env.wall_start first_ts (.ofNat k) ev.timestamp_ns
    (env.answers k).now
  have hi : (pacedAs env first_ts k ev slept).i.toNat = k := UInt64.toNat_ofNat_of_lt' hk
  rw [pacedAt_iff hpace, valid_throttled_iff hmode hrate hpace, hi]
  rfl

end index

/-- The first event of a list, and the others with their indices. -/
theorem forall_getElem?_cons {Q : Nat → TraceEvent → Prop} {ev : TraceEvent} {k : Nat} :
    (∀ j e, (ev :: evs)[j]? = some e → Q (k + j) e) ↔
      Q k ev ∧ ∀ j e, evs[j]? = some e → Q (k + 1 + j) e := by
  constructor
  · intro h
    constructor
    · exact h 0 ev rfl
    · intro j e hj
      rw [Nat.add_assoc, Nat.add_comm 1 j]
      exact h (j + 1) e hj
  · rintro ⟨hfirst, hrest⟩ j e hj
    cases j with
    | zero =>
      obtain rfl := Option.some.inj hj
      exact hfirst
    | succ j =>
      rw [Nat.add_comm j 1, ← Nat.add_assoc]
      exact hrest j e hj

/-- The first timestamp is set by the event with index 0, and kept. -/
theorem first_ts_eq {k : Nat} {first_ts : UInt64} {ev : TraceEvent}
    (hk : (UInt64.ofNat k).toNat = k) (hzero : k = 0 → first_ts = ev.timestamp_ns)
    (hnext : k ≠ 0 → s.first_ts = first_ts) :
    (if UInt64.ofNat k = 0 then ev.timestamp_ns else s.first_ts) = first_ts := by
  split
  · next hk0 =>
    rw [hk0] at hk
    exact (hzero hk.symm).symm
  · next hk0 =>
    apply hnext
    rintro rfl
    exact hk0 rfl

/-- All that the timing control does in a pass satisfies `P` exactly if it does
    for each event. -/
theorem forall_paced_iff (P : Paced → Prop) (first_ts : UInt64) (evs : List TraceEvent) :
    ∀ {k : Nat} {s s' : Replaying}, k + evs.length < 2 ^ 64 →
      (k = 0 → ∀ ev, evs[0]? = some ev → first_ts = ev.timestamp_ns) →
      (k ≠ 0 → s.first_ts = first_ts) →
      replay_events cfg env evs (.ofNat k) s = some s' →
      ((∀ p ∈ s'.paced, P p) ↔ (∀ p ∈ s.paced, P p) ∧
        ∀ j ev, evs[j]? = some ev → PacedAt cfg env P first_ts (k + j) ev) := by
  induction evs with
  | nil =>
    intro k s s' _ _ _ h
    obtain rfl := Option.some.inj h
    simp
  | cons ev evs ih =>
    intro k s s' hlen hzero hnext h
    rw [List.length_cons] at hlen
    have hlt : k < 2 ^ 64 := by omega
    have hk : (UInt64.ofNat k).toNat = k := UInt64.toNat_ofNat_of_lt' hlt
    have hsucc : UInt64.ofNat k + 1 = UInt64.ofNat (k + 1) := (UInt64.ofNat_add k 1).symm
    have hfirst := first_ts_eq hk (fun hk0 => hzero hk0 ev rfl) hnext
    rw [replay_events] at h
    rcases replay_event_cases cfg env (.ofNat k) ev s with
      ⟨_, _, hnone⟩ | ⟨slept, _, rfl, hpace, hsome⟩
    · rw [hnone] at h
      cases h
    · rw [hfirst, hk] at hpace hsome
      rw [hsome, Option.bind_some, hsucc] at h
      rw [ih (by omega) (fun hc => absurd hc (Nat.add_one_ne_zero k)) (fun _ => rfl) h,
        forall_getElem?_cons, pacedAt_iff hpace, List.forall_mem_append, List.forall_mem_singleton,
        and_assoc]
      rfl

theorem onTime_nil (cfg : Config) (env : Env) : OnTime cfg env [] := by
  unfold OnTime
  cases cfg.mode <;> simp

/-- A replay that does not divide by zero paces its events right exactly if
    they are on time. -/
theorem forall_valid_iff (hclock : env.Monotonic) (hlen : evs.length < 2 ^ 64)
    (hdiv : evs ≠ [] → ¬ (cfg.mode = .Throttled ∧ cfg.throttle_mps = 0)) {result : ReplayResult}
    (h : replay_events cfg env evs 0 ⟨0, result, [], []⟩ = some s') :
    (∀ p ∈ s'.paced, p.Valid cfg env.wall_start) ↔ OnTime cfg env evs := by
  cases evs with
  | nil =>
    obtain rfl := Option.some.inj h
    simp only [onTime_nil, iff_true]
    exact fun p hp => absurd hp List.not_mem_nil
  | cons first evs =>
    have hindex : ∀ j ev, (first :: evs)[j]? = some ev → j < 2 ^ 64 := by
      intro j ev hj
      obtain ⟨hlt, _⟩ := List.getElem?_eq_some_iff.mp hj
      omega
    have hall := forall_paced_iff (Paced.Valid cfg env.wall_start) first.timestamp_ns (first :: evs)
      (k := 0) (by omega) (fun _ ev hev => by cases hev; rfl) (fun hc => absurd rfl hc) h
    simp only [Nat.zero_add, List.not_mem_nil, false_implies, implies_true, true_and] at hall
    rw [hall]
    unfold OnTime
    cases hmode : cfg.mode with
    | MaxSpeed =>
      simp only [iff_true]
      exact fun j ev _ slept hpace => valid_maxSpeed hmode hpace
    | WallClock =>
      constructor
      · intro hvalid first' hfirst k ev hk hev
        obtain rfl := Option.some.inj hfirst
        exact (validAt_wallClock_iff hmode hclock (hindex k ev hev)).mp (hvalid k ev hev) hk
      · intro hon j ev hev
        exact (validAt_wallClock_iff hmode hclock (hindex j ev hev)).mpr
          fun hj => hon first rfl j ev hj hev
    | Throttled =>
      have hrate : cfg.throttle_mps ≠ 0 := fun hc => hdiv (List.cons_ne_nil _ _) ⟨hmode, hc⟩
      constructor
      · intro hvalid
        refine ⟨fun _ => hrate, ?_⟩
        intro k hk
        have hev : (first :: evs)[k]? = some (first :: evs)[k] := List.getElem?_eq_getElem hk
        exact (validAt_throttled_iff hmode hrate (hindex k _ hev)).mp (hvalid k _ hev)
      · rintro ⟨_, hon⟩ j ev hev
        obtain ⟨hj, _⟩ := List.getElem?_eq_some_iff.mp hev
        exact (validAt_throttled_iff hmode hrate (hindex j ev hev)).mpr (hon j hj)

/-- Whatever the file, the configuration and the readings of a monotonic clock:
    a replay does not divide by zero, computes no elapsed target below zero and
    sleeps as long as it has to wait exactly if its events are on time. -/
theorem pacing_valid_iff (cfg : Config) (env : Env) (file : Option (List UInt8))
    (result : ReplayResult) (hclock : env.Monotonic) :
    (∃ out, replay cfg env file result = some out ∧
      ∀ p ∈ out.paced, p.Valid cfg env.wall_start) ↔ OnTime cfg env (eventsOf file) := by
  have hlen := length_eventsOf_lt file
  rw [replay_eq]
  cases hhdr : traceHeaderOf file with
  | none =>
    -- nothing is read
    have hnil : eventsOf file = [] := by
      unfold eventsOf
      rw [hhdr]
      cases file <;> rfl
    rw [hnil]
    simp only [onTime_nil, iff_true]
    exact ⟨_, rfl, fun p hp => absurd hp List.not_mem_nil⟩
  | some hdr =>
    cases hrun : replay_events cfg env (eventsOf file) 0 ⟨0, result, [], []⟩ with
    | none =>
      obtain ⟨hmode, hzero, hne⟩ := (replay_events_none_iff _).mp hrun
      constructor
      · rintro ⟨_, hout, _⟩
        cases hout
      · intro hon
        unfold OnTime at hon
        rw [hmode] at hon
        exact absurd hzero (hon.1 hne)
    | some s =>
      have hdiv : eventsOf file ≠ [] → ¬ (cfg.mode = .Throttled ∧ cfg.throttle_mps = 0) := by
        rintro hne ⟨hmode, hzero⟩
        rw [(replay_events_none_iff _).mpr ⟨hmode, hzero, hne⟩] at hrun
        cases hrun
      rw [← forall_valid_iff hclock hlen hdiv hrun]
      constructor
      · rintro ⟨_, hout, hvalid⟩
        obtain rfl := Option.some.inj hout
        exact hvalid
      · exact fun hvalid => ⟨finish env s, rfl, hvalid⟩

/-- Two heartbeats so far apart. -/
def heartbeats (gap : UInt64) : List (UInt64 × MarketDataMsg) :=
  let msg := { MarketDataMsg.zero with msg_type := .Heartbeat }
  [(0, msg), (gap, msg)]

theorem idleEnv_monotonic : idleEnv.Monotonic :=
  ⟨UInt64.le_refl _, fun _ => ⟨UInt64.le_refl _, UInt64.le_refl _⟩, fun _ => UInt64.le_refl _⟩

theorem traceFile_heartbeats (gap : UInt64) :
    ∃ file hdr, traceFile (heartbeats gap) = some file ∧ traceHeaderOf file = some hdr ∧
      eventsOf file = (heartbeats gap).map fun event => msg_to_trace_event event.1 event.2 := by
  have hfits : 32 + 48 * (heartbeats gap).length ≤ File.maxOffset := by
    show 32 + 48 * 2 ≤ File.maxOffset
    decide
  rw [traceFile_eq, if_pos hfits]
  exact ⟨_, _, rfl, traceHeaderOf_written _ rfl _, eventsOf_written hfits⟩

/-- A gap of half a microsecond. -/
theorem short_gap_paced :
    ∃ file out, traceFile (heartbeats 500) = some file ∧
      replay { mode := .WallClock } idleEnv file .zero = some out ∧
      ∀ p ∈ out.paced, p.Valid { mode := .WallClock } 0 := by
  obtain ⟨file, _, hfile, _, hevents⟩ := traceFile_heartbeats 500
  have hon : OnTime { mode := .WallClock } idleEnv (eventsOf file) := by
    rw [hevents]
    intro first hfirst k ev hk hev
    obtain rfl := Option.some.inj hfirst
    match k, hev with
    | 1, hev =>
      obtain rfl := Option.some.inj hev
      decide
    | k + 2, hev => cases hev
  obtain ⟨out, hout, hvalid⟩ :=
    (pacing_valid_iff { mode := .WallClock } idleEnv file .zero idleEnv_monotonic).mpr hon
  exact ⟨file, out, hfile, hout, hvalid⟩

/-- For a gap of one second, all of it is asked for in nanoseconds. -/
theorem second_gap_rejected :
    ∃ file out p, traceFile (heartbeats 1000000000) = some file ∧ idleEnv.Monotonic ∧
      replay { mode := .WallClock } idleEnv file .zero = some out ∧ p ∈ out.paced ∧
      p.slept = some ⟨0, 1000000000⟩ ∧ ¬ p.Valid { mode := .WallClock } idleEnv.wall_start := by
  obtain ⟨file, _, hfile, hhdr, hevents⟩ := traceFile_heartbeats 1000000000
  have hrun : ∃ out, replay { mode := .WallClock } idleEnv file .zero = some out ∧
      out.paced = [⟨0, 0, 0, 0, none⟩, ⟨1, 1000000000, 0, 0, some ⟨0, 1000000000⟩⟩] := by
    rw [replay_eq, hhdr, hevents]
    exact ⟨_, rfl, rfl⟩
  obtain ⟨out, hout, hpaced⟩ := hrun
  refine ⟨file, out, ⟨1, 1000000000, 0, 0, some ⟨0, 1000000000⟩⟩, hfile, idleEnv_monotonic, hout,
    ?_, rfl, ?_⟩
  · rw [hpaced]
    exact List.mem_cons_of_mem _ List.mem_cons_self
  · intro hvalid
    obtain ⟨_, hlt, _⟩ := hvalid.2 _ rfl
    revert hlt
    decide

end OrderFlowReplay

end OptionsEngine
