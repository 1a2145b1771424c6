import OptionsEngine.Framework.File
import OptionsEngine.LatencyHistogram
import OptionsEngine.MarketData.Corpus

/-! # Order flow traces (`core/replay.hpp`)

    `TraceWriter` writes a header and one record for each event, and puts the
    number of events into the header at the end.  `OrderFlowReplay::replay`
    reads such a file back, paces the events, submits them to the engine and
    counts its reports.

    What the clock and the engine answer is given: the engine runs on a thread
    of its own.  Besides its results, `replay` returns the messages it submitted
    and what the timing control did for each event.  A division by zero has no
    result.  What `verbose` prints has no part in the model. -/

namespace OptionsEngine

open File Memory

/-! ## Trace file structures: packed, on a little-endian host -/

structure TraceHeader where
  magic : UInt32
  version : UInt16
  symbol_count : UInt16
  event_count : UInt64
  start_ts_ns : UInt64
  deriving DecidableEq, Repr

namespace TraceHeader

def sizeof : Nat := 32

/-- `offsetof(TraceHeader, event_count)`. -/
def event_count_offset : Nat := 8

def fields (hdr : TraceHeader) : List Field :=
  [.I hdr.magic, .H hdr.version, .H hdr.symbol_count, .Q hdr.event_count, .Q hdr.start_ts_ns,
    .x, .x, .x, .x, .x, .x, .x, .x]

def load (s : Span) : TraceHeader where
  magic := .ofNat (s.le 0 4)
  version := .ofNat (s.le 4 2)
  symbol_count := .ofNat (s.le 6 2)
  event_count := .ofNat (s.le 8 8)
  start_ts_ns := .ofNat (s.le 16 8)

end TraceHeader

structure TraceEvent where
  timestamp_ns : UInt64
  seq : UInt64
  order_id : UInt64
  price : Int64
  qty : UInt32
  symbol : UInt16
  side : UInt8
  order_type : UInt8
  msg_type : UInt8
  deriving DecidableEq, Repr

namespace TraceEvent

def sizeof : Nat := 48

def fields (e : TraceEvent) : List Field :=
  [.Q e.timestamp_ns, .Q e.seq, .Q e.order_id, .Q e.price.toUInt64, .I e.qty, .H e.symbol,
    .B e.side, .B e.order_type, .B e.msg_type, .x, .x, .x, .x, .x, .x, .x]

def load (s : Span) : TraceEvent where
  timestamp_ns := .ofNat (s.le 0 8)
  seq := .ofNat (s.le 8 8)
  order_id := .ofNat (s.le 16 8)
  price := (UInt64.ofNat (s.le 24 8)).toInt64
  qty := .ofNat (s.le 32 4)
  symbol := .ofNat (s.le 36 2)
  side := .ofNat (s.le 38 1)
  order_type := .ofNat (s.le 39 1)
  msg_type := .ofNat (s.le 40 1)

end TraceEvent

/-- A block of a file as the struct it was read into. -/
def spanOf (block : List UInt8) : Span := .ofBytes block fun _ => 0

def trace_event_to_msg (e : TraceEvent) : MarketDataMsg where
  seq := e.seq
  order_id := e.order_id
  price := e.price.toInt
  qty := e.qty
  symbol := e.symbol
  side := if e.side = 0 then .Buy else .Sell
  order_type := ⟨e.order_type⟩
  msg_type := ⟨e.msg_type⟩

def msg_to_trace_event (ts_ns : UInt64) (m : MarketDataMsg) : TraceEvent where
  timestamp_ns := ts_ns
  seq := m.seq
  order_id := m.order_id
  price := .ofInt m.price
  qty := m.qty
  symbol := m.symbol
  side := if m.side = .Buy then 0 else 1
  order_type := m.order_type.byte
  msg_type := m.msg_type.byte

def kTraceMagic : UInt32 := 0x54524143

/-! ## Trace writer -/

structure TraceWriter where
  /-- None if the file could not be opened. -/
  f : Option Stream
  event_count : UInt64

namespace TraceWriter

/-- The constructor; none if the file was opened and cannot be written. -/
def create (opened : Bool) : Option TraceWriter :=
  if opened then do
    let hdr : TraceHeader := ⟨kTraceMagic, 1, 0, 0, 0⟩
    let f ← Stream.openWrite.fwrite (pack hdr.fields)
    some ⟨some f, 0⟩
  else some ⟨none, 0⟩

/-- Write one event; the second component is what the call returns. -/
def write (w : TraceWriter) (ts_ns : UInt64) (msg : MarketDataMsg) : Option (TraceWriter × Bool) :=
  match w.f with
  | none => some (w, false)
  | some f => do
    let f ← f.fwrite (pack (msg_to_trace_event ts_ns msg).fields)
    some (⟨some f, w.event_count + 1⟩, true)

/-- The destructor patches the event count into the header and closes the file. -/
def destroy (w : TraceWriter) : Option (Option (List UInt8)) :=
  match w.f with
  | none => some none
  | some f => do
    let f ← (f.fseek TraceHeader.event_count_offset).fwrite (Field.Q w.event_count).bytes
    some (some f.bytes)

end TraceWriter

/-- The file that a writer leaves after the given events; none if a file
    operation fails. -/
def traceFile (events : List (UInt64 × MarketDataMsg)) : Option (Option (List UInt8)) := do
  let w ← TraceWriter.create true
  let w ← events.foldlM (fun w event => (w.write event.1 event.2).map Prod.fst) w
  w.destroy

/-! ## Replay -/

structure ReplayResult where
  events_replayed : UInt64
  events_skipped : UInt64
  matches_generated : UInt64
  latency : LatencyHistogram

/-- `ReplayResult result{}`. -/
def ReplayResult.zero : ReplayResult := ⟨0, 0, 0, .fresh⟩

structure Timespec where
  tv_sec : Int64
  tv_nsec : Int64
  deriving DecidableEq, Repr

namespace OrderFlowReplay

inductive Mode where
  | MaxSpeed
  | WallClock
  | Throttled
  deriving DecidableEq, Repr

structure Config where
  mode : Mode := .MaxSpeed
  throttle_mps : UInt64 := 1000000
  warmup_events : UInt32 := 10000
  deriving DecidableEq, Repr

/-- What the calls made for one event are answered. -/
structure Answers where
  /-- The clock, read by the timing control, before the submission and after
      the report. -/
  now : UInt64
  t0 : UInt64
  done : UInt64
  /-- Whether the submission in each spin succeeds. -/
  submit : Nat → Bool
  /-- Whether there is a report. -/
  poll_report : Bool
  /-- The spurious failures while its latency is recorded. -/
  spurious : Nat

/-- The clock and the engine during a replay. -/
structure Env where
  wall_start : UInt64
  answers : Nat → Answers
  /-- The reports left at the end. -/
  drained : Nat

/-- What the timing control saw and did for one event. -/
structure Paced where
  i : UInt64
  timestamp_ns : UInt64
  first_ts : UInt64
  now : UInt64
  /-- The argument of `nanosleep`, if it was called. -/
  slept : Option Timespec
  deriving DecidableEq, Repr

structure Replaying where
  first_ts : UInt64
  result : ReplayResult
  submitted : List MarketDataMsg
  paced : List Paced

/-- The timing control; none if it divides by zero. -/
def pace (cfg : Config) (wall_start first_ts i timestamp_ns now : UInt64) :
    Option (Option Timespec) :=
  if cfg.mode = .WallClock ∧ i > 0 then
    let target_elapsed := timestamp_ns - first_ts
    let actual_elapsed := now - wall_start
    some (if target_elapsed > actual_elapsed then
      some ⟨0, (target_elapsed - actual_elapsed).toInt64⟩ else none)
  else if cfg.mode = .Throttled then
    if cfg.throttle_mps = 0 then none
    else
      let min_gap_ns := 1000000000 / cfg.throttle_mps
      let expected := wall_start + i * min_gap_ns
      some (if expected > now then some ⟨0, (expected - now).toInt64⟩ else none)
  else some none

/-- The submission, tried a thousand times. -/
def spin (submit : Nat → Bool) : Bool := (List.range 1000).any submit

/-- What is counted once the submission is over. -/
def count (cfg : Config) (a : Answers) (i : UInt64) (result : ReplayResult) : ReplayResult :=
  if spin a.submit then
    let result :=
      if i ≥ cfg.warmup_events.toUInt64 ∧ a.poll_report then
        { result with
          latency := result.latency.record (a.done - a.t0) a.spurious
          matches_generated := result.matches_generated + 1 }
      else result
    { result with events_replayed := result.events_replayed + 1 }
  else { result with events_skipped := result.events_skipped + 1 }

/-- The loop body for an event that was read. -/
def replay_event (cfg : Config) (env : Env) (i : UInt64) (ev : TraceEvent) (s : Replaying) :
    Option Replaying := do
  let a := env.answers i.toNat
  let first_ts := if i = 0 then ev.timestamp_ns else s.first_ts
  let slept ← pace cfg env.wall_start first_ts i ev.timestamp_ns a.now
  some
    { first_ts := first_ts
      result := count cfg a i s.result
      submitted := s.submitted ++ [trace_event_to_msg ev]
      paced := s.paced ++ [⟨i, ev.timestamp_ns, first_ts, a.now, slept⟩] }

/-- The loop, with so many events left from `i` on. -/
def replay_loop (cfg : Config) (env : Env) : Nat → UInt64 → Stream → Replaying → Option Replaying
  | 0, _, _, s => some s
  | left + 1, i, f, s =>
    match f.fread TraceEvent.sizeof with
    -- a short read leaves the loop
    | none => some s
    | some (block, f) => do
      let s ← replay_event cfg env i (TraceEvent.load (spanOf block)) s
      replay_loop cfg env left (i + 1) f s

structure Outcome where
  returned : Bool
  result : ReplayResult
  submitted : List MarketDataMsg
  paced : List Paced

/-- Replay a trace file; none stands for one that cannot be opened. -/
def replay (cfg : Config) (env : Env) (file : Option (List UInt8)) (result : ReplayResult) :
    Option Outcome :=
  match file with
  | none => some ⟨false, result, [], []⟩
  | some bytes =>
    match (Stream.openRead bytes).fread TraceHeader.sizeof with
    | none => some ⟨false, result, [], []⟩
    | some (block, f) =>
      let hdr := TraceHeader.load (spanOf block)
      if hdr.magic ≠ kTraceMagic then some ⟨false, result, [], []⟩
      else do
        let s ← replay_loop cfg env hdr.event_count.toNat 0 f ⟨0, result, [], []⟩
        let result := { s.result with
          matches_generated := s.result.matches_generated + .ofNat env.drained }
        some ⟨true, result, s.submitted, s.paced⟩

end OrderFlowReplay

end OptionsEngine
