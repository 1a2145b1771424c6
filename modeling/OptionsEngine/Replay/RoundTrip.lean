import Mathlib.Data.List.Induction
import OptionsEngine.Replay.Reading

/-! # Writing a trace and reading it back

    The header is written before the events, with a count of zero, and the
    count is patched into it at the end.

    * `traceFile_eq`: what a writer leaves is the header with the number of
      events, followed by the events; the file operations succeed exactly if
      the file is not longer than offsets can say.
    * `trace_round_trip`: a replay of that file submits the messages written. -/

namespace OptionsEngine

open File Memory OrderFlowReplay

variable {events : List (UInt64 × MarketDataMsg)}

/-! ## Section 1: Records and their bytes -/

theorem length_header (hdr : TraceHeader) : (pack hdr.fields).length = TraceHeader.sizeof := by
  rw [length_pack]
  rfl

theorem length_event (e : TraceEvent) : (pack e.fields).length = TraceEvent.sizeof := by
  rw [length_pack]
  rfl

theorem header_of_shows {s : Span} {hdr : TraceHeader} (h : s.Shows 0 (pack hdr.fields)) :
    TraceHeader.load s = hdr := by
  simp only [TraceHeader.fields, shows_pack_cons, Field.width] at h
  obtain ⟨hmagic, hversion, hsymbols, hcount, hstart, _⟩ := h
  simp only [TraceHeader.load, load_I hmagic, load_H hversion, load_H hsymbols, load_Q hcount,
    load_Q hstart]

theorem event_of_shows {s : Span} {e : TraceEvent} (h : s.Shows 0 (pack e.fields)) :
    TraceEvent.load s = e := by
  simp only [TraceEvent.fields, shows_pack_cons, Field.width] at h
  obtain ⟨hts, hseq, hid, hprice, hqty, hsymbol, hside, htype, hmsg, _⟩ := h
  simp only [TraceEvent.load, load_Q hts, load_Q hseq, load_Q hid, load_Q hprice, load_I hqty,
    load_H hsymbol, load_B hside, load_B htype, load_B hmsg, Int64.toInt64_toUInt64]

theorem load_header (hdr : TraceHeader) : TraceHeader.load (spanOf (pack hdr.fields)) = hdr :=
  header_of_shows (Span.shows_ofBytes _ _)

theorem load_event (e : TraceEvent) : TraceEvent.load (spanOf (pack e.fields)) = e :=
  event_of_shows (Span.shows_ofBytes _ _)

/-- The two converters agree on every field, if the price is one. -/
theorem trace_event_to_msg_of_msg (ts_ns : UInt64) {m : MarketDataMsg} (hlo : -2 ^ 63 ≤ m.price)
    (hhi : m.price < 2 ^ 63) : trace_event_to_msg (msg_to_trace_event ts_ns m) = m := by
  have hprice : (Int64.ofInt m.price).toInt = m.price := Int64.toInt_ofInt_of_le hlo hhi
  simp only [trace_event_to_msg, msg_to_trace_event, hprice]
  obtain ⟨_, _, _, _, _, side, _, _⟩ := m
  cases side <;> rfl

/-! ## Section 2: What the writer leaves -/

/-- The header of a file with so many events. -/
def headerWith (count : UInt64) : TraceHeader := ⟨kTraceMagic, 1, 0, count, 0⟩

/-- The bytes of the events, one record after the other. -/
def eventBytes (events : List (UInt64 × MarketDataMsg)) : List UInt8 :=
  events.flatMap fun event => pack (msg_to_trace_event event.1 event.2).fields

theorem length_eventBytes (events : List (UInt64 × MarketDataMsg)) :
    (eventBytes events).length = 48 * events.length := by
  induction events with
  | nil => rfl
  | cons event events ih =>
    rw [eventBytes, List.flatMap_cons, List.length_append, length_event, List.length_cons]
    show TraceEvent.sizeof + (eventBytes events).length = _
    rw [ih]
    unfold TraceEvent.sizeof
    omega

theorem eventBytes_snoc (events : List (UInt64 × MarketDataMsg)) (event : UInt64 × MarketDataMsg) :
    eventBytes (events ++ [event]) =
      eventBytes events ++ pack (msg_to_trace_event event.1 event.2).fields := by
  simp [eventBytes]

/-- The writer after the given events. -/
def writerAfter (events : List (UInt64 × MarketDataMsg)) : Option TraceWriter :=
  (TraceWriter.create true).bind (events.foldlM fun w event =>
    (w.write event.1 event.2).map Prod.fst)

theorem writerAfter_snoc (events : List (UInt64 × MarketDataMsg)) (event : UInt64 × MarketDataMsg) :
    writerAfter (events ++ [event]) =
      (writerAfter events).bind fun w => (w.write event.1 event.2).map Prod.fst := by
  simp [writerAfter, List.foldlM_append, Option.bind_assoc]

theorem traceFile_eq_bind (events : List (UInt64 × MarketDataMsg)) :
    traceFile events = (writerAfter events).bind TraceWriter.destroy := by
  simp [traceFile, writerAfter, Option.bind_assoc]

/-- An event is written behind what is in the file, if there is room. -/
theorem write_end {bytes : List UInt8} {count : UInt64} (event : UInt64 × MarketDataMsg) :
    (TraceWriter.write ⟨some ⟨bytes, bytes.length⟩, count⟩ event.1 event.2).map Prod.fst =
      if bytes.length + 48 ≤ maxOffset then
        some ⟨some ⟨bytes ++ pack (msg_to_trace_event event.1 event.2).fields, bytes.length + 48⟩,
          count + 1⟩
      else none := by
  simp only [TraceWriter.write, Stream.fwrite_end rfl, length_event]
  show Option.map Prod.fst (Option.bind (if bytes.length + 48 ≤ maxOffset then _ else none) _) = _
  split <;> rfl

theorem writerAfter_eq (events : List (UInt64 × MarketDataMsg)) :
    writerAfter events =
      if 32 + 48 * events.length ≤ maxOffset then
        some ⟨some ⟨pack (headerWith 0).fields ++ eventBytes events, 32 + 48 * events.length⟩,
          .ofNat events.length⟩
      else none := by
  induction events using List.reverseRecOn with
  | nil => rfl
  | append_singleton events event ih =>
    have hlen : (pack (headerWith 0).fields ++ eventBytes events).length = 32 + 48 * events.length := by
      rw [List.length_append, length_header, length_eventBytes]
      rfl
    rw [writerAfter_snoc, ih, eventBytes_snoc, List.length_append, List.length_singleton]
    by_cases hfits : 32 + 48 * events.length ≤ maxOffset
    · rw [if_pos hfits, Option.bind_some, ← hlen, write_end, hlen, List.append_assoc,
        UInt64.ofNat_add]
      rfl
    · rw [if_neg hfits, if_neg (by omega)]
      rfl

/-- The patch hits the count and nothing else. -/
theorem traceFile_eq (events : List (UInt64 × MarketDataMsg)) :
    traceFile events =
      if 32 + 48 * events.length ≤ maxOffset then
        some (some (pack (headerWith (.ofNat events.length)).fields ++ eventBytes events))
      else none := by
  rw [traceFile_eq_bind, writerAfter_eq]
  by_cases hfits : 32 + 48 * events.length ≤ maxOffset
  · -- the bytes before the count, the count, and those behind it
    have hsplit : ∀ count, pack (headerWith count).fields ++ eventBytes events =
        pack [.I kTraceMagic, .H 1, .H 0] ++ (Field.Q count).bytes ++
          (pack [.Q 0, .x, .x, .x, .x, .x, .x, .x, .x] ++ eventBytes events) := by
      intro count
      simp [pack, headerWith, TraceHeader.fields]
    have hpos : (pack [.I kTraceMagic, .H 1, .H 0]).length = TraceHeader.event_count_offset := by
      rw [length_pack]
      rfl
    rw [if_pos hfits, if_pos hfits, Option.bind_some, TraceWriter.destroy]
    simp only [Stream.fseek, ← hpos, hsplit]
    have hfield : ∀ count, (Field.Q count).bytes.length = 8 := fun count => Field.length_bytes _
    rw [Stream.fwrite_over (by rw [hfield, hfield]) (by rw [hpos, hfield]; decide)]
    rfl
  · rw [if_neg hfits, if_neg hfits]
    rfl

/-! ## Section 3: Reading it back -/

theorem traceHeaderOf_written (hdr : TraceHeader) (hmagic : hdr.magic = kTraceMagic)
    (body : List UInt8) : traceHeaderOf (some (pack hdr.fields ++ body)) = some hdr := by
  have htake : (pack hdr.fields ++ body).take TraceHeader.sizeof = pack hdr.fields := by
    rw [← length_header hdr, List.take_left]
  have hlen : TraceHeader.sizeof ≤ (pack hdr.fields ++ body).length := by
    rw [List.length_append, length_header]
    exact Nat.le_add_right _ _
  simp only [traceHeaderOf, htake, load_header, hmagic, hlen, and_self, if_true]

/-- The events in the file are those written. -/
theorem eventsIn_written (events : List (UInt64 × MarketDataMsg)) :
    eventsIn events.length (eventBytes events) =
      events.map fun event => msg_to_trace_event event.1 event.2 := by
  induction events with
  | nil => rfl
  | cons event events ih =>
    have hcons : eventBytes (event :: events) =
        pack (msg_to_trace_event event.1 event.2).fields ++ eventBytes events := rfl
    have hsize := length_event (msg_to_trace_event event.1 event.2)
    rw [List.length_cons, eventsIn, hcons, ← hsize, List.take_left, List.drop_left, ih, load_event,
      if_pos (by rw [List.length_append]; exact Nat.le_add_right _ _)]
    rfl

/-- The counter has not wrapped around in a file that could be written. -/
theorem toNat_event_count (hfits : 32 + 48 * events.length ≤ maxOffset) :
    (UInt64.ofNat events.length).toNat = events.length := by
  unfold maxOffset at hfits
  apply UInt64.toNat_ofNat_of_lt'
  show events.length < 2 ^ 64
  omega

theorem eventsOf_written (hfits : 32 + 48 * events.length ≤ maxOffset) :
    eventsOf (some (pack (headerWith (.ofNat events.length)).fields ++ eventBytes events)) =
      events.map fun event => msg_to_trace_event event.1 event.2 := by
  have hdrop : (pack (headerWith (.ofNat events.length)).fields ++ eventBytes events).drop
      TraceHeader.sizeof = eventBytes events := by
    rw [← length_header (headerWith (.ofNat events.length)), List.drop_left]
  have hcount : (headerWith (.ofNat events.length)).event_count.toNat = events.length :=
    toNat_event_count hfits
  simp only [eventsOf, traceHeaderOf_written (headerWith (.ofNat events.length)) rfl, hdrop, hcount]
  exact eventsIn_written events

/-- A trace that was written is read back with the right magic, the number of
    its events, and the events with their timestamps; a replay submits exactly
    the messages written, in order, unless it divides by zero. -/
theorem trace_round_trip (events : List (UInt64 × MarketDataMsg))
    (hprices : ∀ event ∈ events, -2 ^ 63 ≤ event.2.price ∧ event.2.price < 2 ^ 63)
    (file : Option (List UInt8)) (hfile : traceFile events = some file) :
    (∃ hdr, traceHeaderOf file = some hdr ∧ hdr.event_count.toNat = events.length) ∧
    (eventsOf file).map (fun e => (e.timestamp_ns, trace_event_to_msg e)) = events ∧
    ∀ cfg env result,
      (replay cfg env file result = none ↔
        cfg.mode = .Throttled ∧ cfg.throttle_mps = 0 ∧ events ≠ []) ∧
      ∀ out, replay cfg env file result = some out →
        out.returned = true ∧ out.submitted = events.map Prod.snd := by
  rw [traceFile_eq] at hfile
  by_cases hfits : 32 + 48 * events.length ≤ maxOffset
  · rw [if_pos hfits] at hfile
    obtain rfl := Option.some.inj hfile
    have hhdr := traceHeaderOf_written (headerWith (.ofNat events.length)) rfl (eventBytes events)
    have hevents := eventsOf_written hfits
    have hmsgs : ∀ event ∈ events,
        trace_event_to_msg (msg_to_trace_event event.1 event.2) = event.2 := by
      intro event hmem
      obtain ⟨hlo, hhi⟩ := hprices event hmem
      exact trace_event_to_msg_of_msg event.1 hlo hhi
    refine ⟨⟨_, hhdr, toNat_event_count hfits⟩, ?_, ?_⟩
    · rw [hevents, List.map_map]
      conv => rhs; rw [← List.map_id events]
      apply List.map_congr_left
      intro event hmem
      show (event.1, trace_event_to_msg (msg_to_trace_event event.1 event.2)) = event
      rw [hmsgs event hmem]
    · intro cfg env result
      rw [replay_eq, hhdr, hevents]
      constructor
      · simp only [Option.map_eq_none_iff, replay_events_none_iff, ne_eq, List.map_eq_nil_iff]
      · intro out hout
        obtain ⟨s, hs, rfl⟩ := Option.map_eq_some_iff.mp hout
        obtain ⟨hsubmitted, _⟩ := replay_events_some _ hs
        refine ⟨rfl, ?_⟩
        show s.submitted = _
        rw [hsubmitted, List.nil_append, List.map_map]
        exact List.map_congr_left hmsgs
  · rw [if_neg hfits] at hfile
    cases hfile

/-- A new order and its cancellation, a second apart. -/
theorem trace_round_trip_two :
    let events : List (UInt64 × MarketDataMsg) :=
      [(5, ⟨1, 7, -100, 10, 3, .Sell, .NewOrder, .IOC⟩),
        (1000000005, ⟨2, 7, 0, 0, 3, .Buy, .CancelOrder, .Limit⟩)]
    ∃ file out, traceFile events = some file ∧ replay {} idleEnv file .zero = some out ∧
      out.returned = true ∧ out.submitted = events.map Prod.snd := by
  intro events
  have hfile : ∃ file, traceFile events = some file := by
    rw [traceFile_eq, if_pos (by decide)]
    exact ⟨_, rfl⟩
  obtain ⟨file, hfile⟩ := hfile
  obtain ⟨_, _, hreplay⟩ := trace_round_trip events (by decide) file hfile
  obtain ⟨hnone, hsome⟩ := hreplay {} idleEnv .zero
  cases hout : replay {} idleEnv file .zero with
  | none => exact absurd (hnone.mp hout).1 (by decide)
  | some out => exact ⟨file, out, hfile, hout, hsome out hout⟩

end OptionsEngine
