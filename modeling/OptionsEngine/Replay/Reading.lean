import OptionsEngine.Replay

/-! # What a replay reads

    The loop stops at the first event that is not there in full, and `replay`
    returns true all the same.

    * `replay_eq`: a replay is one pass over the events in the file.
    * `replay_complete_iff`: returning true stands for a complete trace exactly
      if the file is not truncated behind its header. -/

namespace OptionsEngine

open File Memory

/-- The events counted, whether replayed or skipped. -/
def ReplayResult.events (result : ReplayResult) : Nat :=
  result.events_replayed.toNat + result.events_skipped.toNat

namespace OrderFlowReplay

variable {cfg : Config} {env : Env} {file : Option (List UInt8)} {bytes : List UInt8}
variable {hdr : TraceHeader} {evs : List TraceEvent} {i : UInt64} {s s' : Replaying}

/-! ## Section 1: The events in a file -/

/-- The events that stand in full in the bytes, `n` at most. -/
def eventsIn : Nat → List UInt8 → List TraceEvent
  | 0, _ => []
  | n + 1, bytes =>
    if TraceEvent.sizeof ≤ bytes.length then
      TraceEvent.load (spanOf (bytes.take TraceEvent.sizeof)) ::
        eventsIn n (bytes.drop TraceEvent.sizeof)
    else []

/-- The header of a file that has one, with the right magic. -/
def traceHeaderOf (file : Option (List UInt8)) : Option TraceHeader :=
  match file with
  | none => none
  | some bytes =>
    if TraceHeader.sizeof ≤ bytes.length ∧
        (TraceHeader.load (spanOf (bytes.take TraceHeader.sizeof))).magic = kTraceMagic then
      some (TraceHeader.load (spanOf (bytes.take TraceHeader.sizeof)))
    else none

/-- The events of a file: as many as its header says, or as there are. -/
def eventsOf (file : Option (List UInt8)) : List TraceEvent :=
  match file, traceHeaderOf file with
  | some bytes, some hdr => eventsIn hdr.event_count.toNat (bytes.drop TraceHeader.sizeof)
  | _, _ => []

theorem sizeof_le_of_header (hhdr : traceHeaderOf (some bytes) = some hdr) :
    TraceHeader.sizeof ≤ bytes.length := by
  by_contra hlen
  have hnone : traceHeaderOf (some bytes) = none := if_neg fun h => hlen h.1
  rw [hnone] at hhdr
  cases hhdr

theorem length_eventsIn (n : Nat) :
    ∀ bytes : List UInt8, (eventsIn n bytes).length = min n (bytes.length / TraceEvent.sizeof) := by
  induction n with
  | zero =>
    intro bytes
    simp [eventsIn]
  | succ n ih =>
    intro bytes
    rw [eventsIn]
    by_cases hlen : TraceEvent.sizeof ≤ bytes.length
    · rw [if_pos hlen, List.length_cons, ih, List.length_drop]
      unfold TraceEvent.sizeof at *
      omega
    · rw [if_neg hlen, List.length_nil]
      unfold TraceEvent.sizeof at *
      omega

/-- No more than the header can count. -/
theorem length_eventsOf_lt (file : Option (List UInt8)) : (eventsOf file).length < 2 ^ 64 := by
  cases file with
  | none => exact Nat.two_pow_pos 64
  | some bytes =>
    unfold eventsOf
    cases traceHeaderOf (some bytes) with
    | none => exact Nat.two_pow_pos 64
    | some hdr =>
      have hcount := hdr.event_count.toNat_lt
      simp only [length_eventsIn]
      omega

/-- The file says that it has more events than it has. -/
def Truncated (file : Option (List UInt8)) : Prop :=
  ∃ bytes hdr, file = some bytes ∧ traceHeaderOf file = some hdr ∧
    bytes.length < TraceHeader.sizeof + TraceEvent.sizeof * hdr.event_count.toNat

/-- A file is not truncated if all events its header counts are there. -/
theorem length_eventsOf (hhdr : traceHeaderOf file = some hdr) :
    (eventsOf file).length = hdr.event_count.toNat ↔ ¬ Truncated file := by
  cases file with
  | none => simp [traceHeaderOf] at hhdr
  | some bytes =>
    have hevents : eventsOf (some bytes) =
        eventsIn hdr.event_count.toNat (bytes.drop TraceHeader.sizeof) := by
      simp only [eventsOf, hhdr]
    rw [hevents, length_eventsIn, List.length_drop]
    have hlen := sizeof_le_of_header hhdr
    unfold Truncated
    rw [hhdr]
    unfold TraceEvent.sizeof
    unfold TraceHeader.sizeof at *
    constructor
    · rintro hall ⟨_, _, hbytes, hhdr', hlt⟩
      obtain rfl := Option.some.inj hbytes
      obtain rfl := Option.some.inj hhdr'
      omega
    · intro hnot
      have hge : ¬ bytes.length < 32 + 48 * hdr.event_count.toNat :=
        fun hlt => hnot ⟨bytes, hdr, rfl, rfl, hlt⟩
      omega

/-! ## Section 2: The loop is a pass over the events -/

/-- The loop body, for every event of a list. -/
def replay_events (cfg : Config) (env : Env) :
    List TraceEvent → UInt64 → Replaying → Option Replaying
  | [], _, s => some s
  | ev :: evs, i, s => (replay_event cfg env i ev s).bind (replay_events cfg env evs (i + 1))

theorem replay_loop_eq (n : Nat) :
    ∀ (i : UInt64) (f : Stream) (s : Replaying),
      replay_loop cfg env n i f s = replay_events cfg env (eventsIn n f.rest) i s := by
  induction n with
  | zero =>
    intro i f s
    rfl
  | succ n ih =>
    intro i f s
    rw [replay_loop, Stream.fread_eq f (n := TraceEvent.sizeof) (by decide), eventsIn]
    by_cases hlen : TraceEvent.sizeof ≤ f.rest.length
    · rw [if_pos hlen, if_pos hlen, replay_events]
      show (replay_event cfg env i _ s).bind _ = _
      congr 1
      funext s'
      rw [ih, Stream.rest_advance]
    · rw [if_neg hlen, if_neg hlen]
      rfl

/-- What `replay` makes of the state in which the loop ends. -/
def finish (env : Env) (s : Replaying) : Outcome where
  returned := true
  result := { s.result with matches_generated := s.result.matches_generated + .ofNat env.drained }
  submitted := s.submitted
  paced := s.paced

/-- A replay fails at the header, or passes over the events of the file. -/
theorem replay_eq (cfg : Config) (env : Env) (file : Option (List UInt8)) (result : ReplayResult) :
    replay cfg env file result =
      match traceHeaderOf file with
      | none => some ⟨false, result, [], []⟩
      | some _ => (replay_events cfg env (eventsOf file) 0 ⟨0, result, [], []⟩).map (finish env) := by
  cases file with
  | none => rfl
  | some bytes =>
    have hrest : (Stream.openRead bytes).rest = bytes := rfl
    simp only [replay, Stream.fread_eq _ (n := TraceHeader.sizeof) (by decide), hrest]
    by_cases hlen : TraceHeader.sizeof ≤ bytes.length
    · by_cases hmagic : (TraceHeader.load (spanOf (bytes.take TraceHeader.sizeof))).magic = kTraceMagic
      · have hhdr : traceHeaderOf (some bytes) =
            some (TraceHeader.load (spanOf (bytes.take TraceHeader.sizeof))) :=
          if_pos ⟨hlen, hmagic⟩
        have hadvance : (Stream.mk bytes (0 + TraceHeader.sizeof)).rest =
            bytes.drop TraceHeader.sizeof := by
          rw [Nat.zero_add]
          rfl
        simp only [eventsOf, hhdr, if_pos hlen, hmagic, ne_eq, not_true_eq_false, if_false]
        show (replay_loop cfg env _ 0 ⟨bytes, 0 + TraceHeader.sizeof⟩ ⟨0, result, [], []⟩).bind _ = _
        rw [replay_loop_eq, hadvance]
        cases replay_events cfg env _ 0 ⟨0, result, [], []⟩ <;> rfl
      · have hhdr : traceHeaderOf (some bytes) = none := if_neg fun h => hmagic h.2
        simp only [hhdr, if_pos hlen, ne_eq, hmagic, not_false_eq_true, if_true]
    · have hhdr : traceHeaderOf (some bytes) = none := if_neg fun h => hlen h.1
      simp only [hhdr, if_neg hlen]

/-! ## Section 3: Every event that is read is counted -/

theorem toNat_add_one {x : UInt64} (h : x.toNat + 1 < 2 ^ 64) : (x + 1).toNat = x.toNat + 1 := by
  rw [UInt64.toNat_add]
  exact Nat.mod_eq_of_lt h

theorem events_count (cfg : Config) (a : Answers) (i : UInt64) (result : ReplayResult)
    (h : result.events + 1 < 2 ^ 64) : (count cfg a i result).events = result.events + 1 := by
  unfold ReplayResult.events at *
  unfold count
  by_cases hsubmitted : spin a.submit = true
  · have hadd : (result.events_replayed + 1).toNat = result.events_replayed.toNat + 1 :=
      toNat_add_one (by omega)
    rw [if_pos hsubmitted]
    split
    · simp only [hadd]
      omega
    · simp only [hadd]
      omega
  · have hadd : (result.events_skipped + 1).toNat = result.events_skipped.toNat + 1 :=
      toNat_add_one (by omega)
    rw [if_neg hsubmitted]
    simp only [hadd]
    omega

/-- The only thing that can go wrong in the loop body is the division. -/
theorem pace_none_iff {wall_start first_ts i timestamp_ns now : UInt64} :
    pace cfg wall_start first_ts i timestamp_ns now = none ↔
      cfg.mode = .Throttled ∧ cfg.throttle_mps = 0 := by
  unfold pace
  cases cfg.mode with
  | MaxSpeed => simp
  | WallClock =>
    simp only [true_and, reduceCtorEq, if_false, false_and, iff_false]
    split <;> exact Option.some_ne_none _
  | Throttled => simp

theorem replay_event_cases (cfg : Config) (env : Env) (i : UInt64) (ev : TraceEvent)
    (s : Replaying) :
    (cfg.mode = .Throttled ∧ cfg.throttle_mps = 0 ∧ replay_event cfg env i ev s = none) ∨
    ∃ slept first_ts, first_ts = (if i = 0 then ev.timestamp_ns else s.first_ts) ∧
      pace cfg env.wall_start first_ts i ev.timestamp_ns (env.answers i.toNat).now = some slept ∧
      replay_event cfg env i ev s = some
        { first_ts := first_ts
          result := count cfg (env.answers i.toNat) i s.result
          submitted := s.submitted ++ [trace_event_to_msg ev]
          paced := s.paced ++
            [⟨i, ev.timestamp_ns, first_ts, (env.answers i.toNat).now, slept⟩] } := by
  unfold replay_event
  simp only
  cases hpace : pace cfg env.wall_start (if i = 0 then ev.timestamp_ns else s.first_ts) i
      ev.timestamp_ns (env.answers i.toNat).now with
  | none =>
    obtain ⟨hmode, hzero⟩ := pace_none_iff.mp hpace
    exact Or.inl ⟨hmode, hzero, rfl⟩
  | some slept => exact Or.inr ⟨slept, _, rfl, hpace, rfl⟩

/-- A pass over events counts and submits them all, in order. -/
theorem replay_events_some (evs : List TraceEvent) :
    ∀ {i : UInt64} {s s' : Replaying}, replay_events cfg env evs i s = some s' →
      s'.submitted = s.submitted ++ evs.map trace_event_to_msg ∧
      (s.result.events + evs.length < 2 ^ 64 →
        s'.result.events = s.result.events + evs.length) := by
  induction evs with
  | nil =>
    intro i s s' h
    obtain rfl := Option.some.inj h
    exact ⟨by simp, fun _ => rfl⟩
  | cons ev evs ih =>
    intro i s s' h
    rw [replay_events] at h
    rcases replay_event_cases cfg env i ev s with ⟨_, _, hnone⟩ | ⟨_, _, _, _, hsome⟩
    · rw [hnone] at h
      cases h
    · rw [hsome, Option.bind_some] at h
      obtain ⟨hsubmitted, hevents⟩ := ih h
      constructor
      · rw [hsubmitted]
        simp
      · intro hlt
        rw [List.length_cons] at hlt ⊢
        have hcount := events_count cfg (env.answers i.toNat) i s.result (by omega)
        rw [hevents (by simp only [hcount]; omega), hcount]
        omega

/-- It has no result exactly if it divides by zero. -/
theorem replay_events_none_iff (evs : List TraceEvent) :
    ∀ {i : UInt64} {s : Replaying}, replay_events cfg env evs i s = none ↔
      cfg.mode = .Throttled ∧ cfg.throttle_mps = 0 ∧ evs ≠ [] := by
  induction evs with
  | nil =>
    intro i s
    simp [replay_events]
  | cons ev evs ih =>
    intro i s
    rw [replay_events]
    rcases replay_event_cases cfg env i ev s with ⟨hmode, hzero, hnone⟩ | ⟨_, _, _, hpace, hsome⟩
    · rw [hnone]
      simp [hmode, hzero]
    · have hnot : ¬ (cfg.mode = .Throttled ∧ cfg.throttle_mps = 0) := by
        intro hc
        rw [pace_none_iff.mpr hc] at hpace
        cases hpace
      rw [hsome, Option.bind_some, ih]
      constructor
      · exact fun ⟨hmode, hzero, _⟩ => absurd ⟨hmode, hzero⟩ hnot
      · exact fun ⟨hmode, hzero, _⟩ => absurd ⟨hmode, hzero⟩ hnot

/-! ## Section 4: Completeness -/

/-- A true result stands for a valid header and all its events, and a
    truncated file gives a false one. -/
def Faithful (cfg : Config) (env : Env) (file : Option (List UInt8)) : Prop :=
  (∀ out, replay cfg env file .zero = some out → out.returned = true →
    ∃ hdr, traceHeaderOf file = some hdr ∧ out.result.events = hdr.event_count.toNat) ∧
  (Truncated file → ∃ out, replay cfg env file .zero = some out ∧ out.returned = false)

/-- A replay that returns true has counted the events in the file. -/
theorem replay_counts {out : Outcome} (h : replay cfg env file .zero = some out)
    (htrue : out.returned = true) :
    ∃ hdr, traceHeaderOf file = some hdr ∧ out.result.events = (eventsOf file).length := by
  rw [replay_eq] at h
  cases hhdr : traceHeaderOf file with
  | none =>
    rw [hhdr] at h
    obtain rfl := Option.some.inj h
    cases htrue
  | some hdr =>
    rw [hhdr] at h
    obtain ⟨s, hs, rfl⟩ := Option.map_eq_some_iff.mp h
    have hlen := length_eventsOf_lt file
    have hevents := (replay_events_some (eventsOf file) hs).2
    have hzero : ReplayResult.zero.events = 0 := rfl
    refine ⟨hdr, rfl, ?_⟩
    show s.result.events = _
    rw [hevents (by rw [hzero]; omega), hzero, Nat.zero_add]

/-- A replay never says that it failed once the header is read. -/
theorem returned_of_header {out : Outcome} (hhdr : traceHeaderOf file = some hdr)
    (h : replay cfg env file .zero = some out) : out.returned = true := by
  rw [replay_eq, hhdr] at h
  obtain ⟨s, _, rfl⟩ := Option.map_eq_some_iff.mp h
  rfl

/-- Whatever the file, the clock and the engine: a replay does not pass off a
    damaged trace as complete exactly if the file is not truncated. -/
theorem replay_complete_iff (cfg : Config) (env : Env) (file : Option (List UInt8)) :
    Faithful cfg env file ↔ ¬ Truncated file := by
  constructor
  · intro h htruncated
    obtain ⟨out, hout, hfalse⟩ := h.2 htruncated
    obtain ⟨_, _, _, hhdr, _⟩ := htruncated
    rw [returned_of_header hhdr hout] at hfalse
    cases hfalse
  · intro hwhole
    constructor
    · intro out hout htrue
      obtain ⟨hdr, hhdr, hcount⟩ := replay_counts hout htrue
      rw [(length_eventsOf hhdr).mpr hwhole] at hcount
      exact ⟨hdr, hhdr, hcount⟩
    · exact fun htruncated => absurd htruncated hwhole

/-- A clock that stands still and an engine that takes everything and reports
    nothing. -/
def idleEnv : Env := ⟨0, fun _ => ⟨0, 0, 0, fun _ => true, false, 0⟩, 0⟩

/-- One event in the header and none behind it: nothing is replayed, and the
    result is true. -/
theorem truncated_returns_true :
    let file := some (pack (TraceHeader.fields ⟨kTraceMagic, 1, 0, 1, 0⟩))
    traceHeaderOf file = some ⟨kTraceMagic, 1, 0, 1, 0⟩ ∧ Truncated file ∧
      ∃ out, replay {} idleEnv file .zero = some out ∧ out.returned = true ∧
        out.result.events = 0 := by
  intro file
  have hhdr : traceHeaderOf file = some ⟨kTraceMagic, 1, 0, 1, 0⟩ := by decide
  exact ⟨hhdr, ⟨_, _, rfl, hhdr, by decide⟩, _, rfl, rfl, rfl⟩

end OrderFlowReplay

end OptionsEngine
