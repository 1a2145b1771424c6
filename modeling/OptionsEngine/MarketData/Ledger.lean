import OptionsEngine.Framework.Loop
import OptionsEngine.MarketData.Exits

/-! # The ledger of the feed

    What the statistics of the ingestion engine say about a feed: any run of
    `ingest` and `reset_sequence` calls, with the consumer of the outbound
    queue popping in between.  (A call meets the consumer only where `try_push`
    loads the read cursor, so a pop during a call is one before or after it.)

    * `Watch`: an observer of the datagrams that notes the jumps of their
      sequence numbers; `gaps_exact_iff` says in which runs the engine agrees
      with it.
    * `Feed.Balanced`: every call and every message that entered the queue is in a
      counter; `ledger_balanced_iff` says in which runs.

    Counters of 64 bits are compared with numbers modulo `2 ^ 64`. -/

namespace OptionsEngine

open Ring Memory MarketDataIngestion

variable {s : MarketDataIngestion}

/-! ## Section 1: Runs -/

/-- The ingestion engine with what was seen of it. -/
structure Feed where
  ingestion : MarketDataIngestion
  /-- How often `ingest` was called. -/
  calls : Nat
  /-- The calls of the gap callback. -/
  gap_calls : List (UInt64 × UInt64)
  /-- What the consumer has popped. -/
  popped : List MarketDataMsg

namespace Feed

inductive Event where
  | ingest (bytes : List UInt8) (beyond : Nat → UInt8)
  | reset_sequence
  /-- The consumer calls `try_pop`. -/
  | pop

/-- A new engine on a new queue, with or without a gap callback. -/
def start (mem : Nat → MarketDataMsg) (gap_cb : Bool) : Feed :=
  ⟨{ fresh (.fresh mem) with gap_cb := gap_cb }, 0, [], []⟩

def step (f : Feed) : Event → Feed
  | .ingest bytes beyond =>
    let r := f.ingestion.ingest (.ofBytes bytes beyond)
    { f with ingestion := r.state, calls := f.calls + 1, gap_calls := f.gap_calls ++ r.gap_calls }
  | .reset_sequence => { f with ingestion := f.ingestion.reset_sequence }
  | .pop =>
    match f.ingestion.outbound.try_pop kQueueDepth with
    | (_, none) => f
    | (outbound, some msg) =>
      { f with
        ingestion := { f.ingestion with outbound := outbound }
        popped := f.popped ++ [msg] }

def run (f : Feed) (events : List Event) : Feed := events.foldl step f

/-- What is in the outbound queue. -/
def queued (f : Feed) : List MarketDataMsg := f.ingestion.outbound.contents kQueueDepth

/-- The messages that have entered the outbound queue. -/
def entered (f : Feed) : List MarketDataMsg := f.popped ++ f.queued

/-- The outbound queue is one that pushes and pops have made. -/
def Sound (f : Feed) : Prop :=
  ∃ items, f.ingestion.outbound.Holds kQueueDepth f.popped.length items

variable {f : Feed} {event : Event}

theorem sound_start (mem : Nat → MarketDataMsg) (gap_cb : Bool) : (start mem gap_cb).Sound :=
  ⟨[], SPSCQueue.holds_fresh mem⟩

theorem queued_start (mem : Nat → MarketDataMsg) (gap_cb : Bool) :
    (start mem gap_cb).queued = [] := (SPSCQueue.holds_fresh mem).contents_eq

theorem run_snoc (f : Feed) (events : List Event) (event : Event) :
    f.run (events ++ [event]) = (f.run events).step event := by
  unfold run
  rw [List.foldl_append, List.foldl_cons, List.foldl_nil]

/-- A pop moves a message from the queue to the consumer. -/
theorem step_pop (h : f.Sound) :
    ∃ outbound popped, f.step .pop =
        { f with ingestion := { f.ingestion with outbound := outbound }, popped := popped } ∧
      (f.step .pop).Sound ∧ (f.step .pop).entered = f.entered := by
  obtain ⟨items, hq⟩ := h
  cases items with
  | nil =>
    have hstep : f.step .pop = f := by
      unfold step
      rw [hq.try_pop_nil]
    rw [hstep]
    exact ⟨_, _, rfl, ⟨[], hq⟩, rfl⟩
  | cons msg items =>
    obtain ⟨outbound, hpop, hq'⟩ := hq.try_pop_cons
    have hstep : f.step .pop =
        { f with
          ingestion := { f.ingestion with outbound := outbound }
          popped := f.popped ++ [msg] } := by
      unfold step
      rw [hpop]
    rw [hstep]
    refine ⟨_, _, rfl, ⟨items, by simpa using hq'⟩, ?_⟩
    unfold entered queued
    rw [hq.contents_eq, hq'.contents_eq]
    simp

end Feed

/-! ## Section 2: Gaps -/

/-- What an observer of the datagrams notes: the sequence number of the latest
    header since the last reset, and the headers that did not follow on, each
    with the number it should have had. -/
structure Watch where
  latest : Option UInt64
  jumps : List (UInt64 × UInt64)

namespace Watch

/-- A header with sequence number `b`. -/
def note (w : Watch) (b : UInt64) : Watch :=
  match w.latest with
  | none => ⟨some b, w.jumps⟩
  | some a => ⟨some b, if b ≠ a + 1 then w.jumps ++ [(a + 1, b)] else w.jumps⟩

def step (w : Watch) : Feed.Event → Watch
  | .ingest bytes beyond =>
    match headerOf (.ofBytes bytes beyond) with
    | none => w
    | some hdr => w.note hdr.seq_num
  | .reset_sequence => { w with latest := none }
  | .pop => w

/-- The notes on a whole run. -/
def run (events : List Feed.Event) : Watch := events.foldl step ⟨none, []⟩

end Watch

/-- The counter and the callback agree with the observer. -/
structure GapsExact (f : Feed) (w : Watch) : Prop where
  counted : f.ingestion.stat_gaps = .ofNat w.jumps.length
  called : f.gap_calls = if f.ingestion.gap_cb then w.jumps else []

/-- The greatest sequence number, whose successor is 0. -/
def lastSeq : UInt64 := 0xFFFFFFFFFFFFFFFF

theorem add_one_eq_zero {a : UInt64} : a + 1 = 0 ↔ a = lastSeq := by
  unfold lastSeq
  constructor
  · intro h
    have hsub : a = a + 1 - 1 := (UInt64.add_sub_cancel a 1).symm
    rw [hsub, h]
    decide
  · rintro rfl
    decide

/-- The expected number encodes the latest one; the successor of `lastSeq`
    looks like no number at all. -/
def Tracks (f : Feed) (w : Watch) : Prop :=
  f.ingestion.expected_seq =
    match w.latest with
    | none => 0
    | some a => a + 1

/-- What `ingest` does about sequence numbers, wherever it returns. -/
theorem ingest_sequence (s : MarketDataIngestion) (data : Span) :
    match headerOf data with
    | none =>
      (s.ingest data).state.expected_seq = s.expected_seq ∧
      (s.ingest data).state.stat_gaps = s.stat_gaps ∧
      (s.ingest data).state.gap_cb = s.gap_cb ∧ (s.ingest data).gap_calls = []
    | some hdr =>
      (s.ingest data).state.expected_seq = hdr.seq_num + 1 ∧
      (s.ingest data).state.stat_gaps = (s.check_sequence hdr).stat_gaps ∧
      (s.ingest data).state.gap_cb = s.gap_cb ∧ (s.ingest data).gap_calls = s.gap_calls hdr := by
  have hexit := exit_ingest s data
  revert hexit
  generalize s.ingest data = r
  intro hexit
  cases hexit with
  | no_header hhdr =>
    rw [hhdr]
    exact ⟨rfl, rfl, rfl, rfl⟩
  | refused hhdr hno =>
    rw [hhdr]
    exact ⟨rfl, rfl, rfl, rfl⟩
  | full hhdr hyes hmsg hpush =>
    rw [hhdr]
    exact ⟨rfl, rfl, rfl, rfl⟩
  | pushed hhdr hyes hmsg hpush =>
    rw [hhdr]
    exact ⟨rfl, rfl, rfl, rfl⟩

/-- An event at which a jump goes unnoticed: the successor of `lastSeq` is 0,
    and the number expected next is not. -/
def Missed (w : Watch) (event : Feed.Event) : Prop :=
  ∃ bytes beyond hdr, event = .ingest bytes beyond ∧
    headerOf (.ofBytes bytes beyond) = some hdr ∧ w.latest = some lastSeq ∧ hdr.seq_num ≠ 0

section gaps

variable {f : Feed} {w : Watch} {event : Feed.Event}

theorem step_pop_sequence (f : Feed) :
    (f.step .pop).ingestion.expected_seq = f.ingestion.expected_seq ∧
    (f.step .pop).ingestion.stat_gaps = f.ingestion.stat_gaps ∧
    (f.step .pop).ingestion.gap_cb = f.ingestion.gap_cb ∧
    (f.step .pop).gap_calls = f.gap_calls := by
  unfold Feed.step
  simp only
  split
  · exact ⟨rfl, rfl, rfl, rfl⟩
  · exact ⟨rfl, rfl, rfl, rfl⟩

theorem note_latest (w : Watch) (b : UInt64) : (w.note b).latest = some b := by
  unfold Watch.note
  split
  · rfl
  · rfl

theorem Tracks.step (h : Tracks f w) (event : Feed.Event) : Tracks (f.step event) (w.step event) := by
  unfold Tracks at h ⊢
  cases event with
  | ingest bytes beyond =>
    have hseq := ingest_sequence f.ingestion (.ofBytes bytes beyond)
    simp only [Feed.step, Watch.step]
    cases hhdr : headerOf (.ofBytes bytes beyond) with
    | none =>
      rw [hhdr] at hseq
      rw [hseq.1]
      exact h
    | some hdr =>
      rw [hhdr] at hseq
      simp only [note_latest]
      exact hseq.1
  | reset_sequence => rfl
  | pop =>
    rw [(step_pop_sequence f).1]
    exact h

/-- A header, with the latest number known: a jump is noticed, unless the
    number expected is 0. -/
theorem gap_eq {a : UInt64} (hexp : f.ingestion.expected_seq = a + 1) (hdr : WireHeader) :
    f.ingestion.gap hdr = (decide (a ≠ lastSeq) && decide (hdr.seq_num ≠ a + 1)) := by
  unfold MarketDataIngestion.gap
  rw [hexp]
  by_cases ha : a = lastSeq
  · rw [add_one_eq_zero.mpr ha]
    simp [ha]
  · have hzero : a + 1 ≠ 0 := mt add_one_eq_zero.mp ha
    simp [ha, hzero]

/-- A header at which the engine finds a jump exactly if there is one. -/
theorem GapsExact.noted {hdr : WireHeader} {a : UInt64} {f' : Feed} (h : GapsExact f w)
    (hlatest : w.latest = some a) (hexp : f.ingestion.expected_seq = a + 1)
    (hgap : f.ingestion.gap hdr = decide (hdr.seq_num ≠ a + 1))
    (hgaps : f'.ingestion.stat_gaps = (f.ingestion.check_sequence hdr).stat_gaps)
    (hcb : f'.ingestion.gap_cb = f.ingestion.gap_cb)
    (hcalls : f'.gap_calls = f.gap_calls ++ f.ingestion.gap_calls hdr) :
    GapsExact f' (w.note hdr.seq_num) := by
  by_cases hnext : hdr.seq_num = a + 1
  · constructor
    · simp [hgaps, check_sequence, hgap, Watch.note, hlatest, hnext, h.counted]
    · simp [hcalls, MarketDataIngestion.gap_calls, hgap, Watch.note, hlatest, hnext, h.called, hcb]
  · constructor
    · simp [hgaps, check_sequence, hgap, Watch.note, hlatest, hnext, h.counted]
    · cases hb : f.ingestion.gap_cb with
      | false =>
        simp [hcalls, MarketDataIngestion.gap_calls, h.called, hcb, hb]
      | true =>
        simp [hcalls, MarketDataIngestion.gap_calls, hgap, hexp, Watch.note, hlatest, hnext,
          h.called, hcb, hb]

/-- One header, noted by both. -/
theorem GapsExact.header {hdr : WireHeader} {f' : Feed} (h : GapsExact f w) (ht : Tracks f w)
    (hgaps : f'.ingestion.stat_gaps = (f.ingestion.check_sequence hdr).stat_gaps)
    (hcb : f'.ingestion.gap_cb = f.ingestion.gap_cb)
    (hcalls : f'.gap_calls = f.gap_calls ++ f.ingestion.gap_calls hdr) :
    GapsExact f' (w.note hdr.seq_num) ↔ ¬ (w.latest = some lastSeq ∧ hdr.seq_num ≠ 0) := by
  unfold Tracks at ht
  cases hlatest : w.latest with
  | none =>
    rw [hlatest] at ht
    have hgap : f.ingestion.gap hdr = false := by simp [MarketDataIngestion.gap, ht]
    refine iff_of_true ⟨?_, ?_⟩ (by simp)
    · simp [hgaps, check_sequence, hgap, Watch.note, hlatest, h.counted]
    · simp [hcalls, MarketDataIngestion.gap_calls, hgap, Watch.note, hlatest, h.called, hcb]
  | some a =>
    rw [hlatest] at ht
    have hgap := gap_eq ht hdr
    by_cases ha : a = lastSeq
    · have hno : f.ingestion.gap hdr = false := by simp [hgap, ha]
      have hzero : a + 1 = 0 := add_one_eq_zero.mpr ha
      by_cases hnext : hdr.seq_num = 0
      · refine iff_of_true (h.noted hlatest ht ?_ hgaps hcb hcalls) (by simp [hnext])
        simp [hno, hnext, hzero]
      · -- the jump is there, but the number expected looks like none
        refine iff_of_false ?_ (by simp [ha, hnext])
        intro hc
        have hcount := hc.counted
        simp [hgaps, check_sequence, hno, Watch.note, hlatest, hzero, hnext, h.counted] at hcount
    · refine iff_of_true (h.noted hlatest ht ?_ hgaps hcb hcalls) (by simp [ha])
      simp [hgap, ha]

theorem GapsExact.step (h : GapsExact f w) (ht : Tracks f w) (event : Feed.Event) :
    GapsExact (f.step event) (w.step event) ↔ ¬ Missed w event := by
  cases event with
  | ingest bytes beyond =>
    have hseq := ingest_sequence f.ingestion (.ofBytes bytes beyond)
    cases hhdr : headerOf (.ofBytes bytes beyond) with
    | none =>
      rw [hhdr] at hseq
      obtain ⟨_, hgaps, hcb, hcalls⟩ := hseq
      refine iff_of_true ⟨?_, ?_⟩ ?_
      · simp only [Feed.step, Watch.step, hhdr, hgaps]
        exact h.counted
      · simp only [Feed.step, Watch.step, hhdr, hcb, hcalls, List.append_nil]
        exact h.called
      · rintro ⟨_, _, hdr, ⟨⟩, hsome, _⟩
        rw [hhdr] at hsome
        cases hsome
    | some hdr =>
      rw [hhdr] at hseq
      obtain ⟨_, hgaps, hcb, hcalls⟩ := hseq
      have hnote : w.step (.ingest bytes beyond) = w.note hdr.seq_num := by
        simp only [Watch.step, hhdr]
      rw [hnote, h.header ht hgaps hcb (congrArg (f.gap_calls ++ ·) hcalls)]
      refine not_congr ⟨?_, ?_⟩
      · rintro ⟨hlatest, hne⟩
        exact ⟨bytes, beyond, hdr, rfl, hhdr, hlatest, hne⟩
      · rintro ⟨_, _, hdr', ⟨⟩, hsome, hlatest, hne⟩
        obtain rfl := Option.some.inj (hhdr.symm.trans hsome)
        exact ⟨hlatest, hne⟩
  | reset_sequence =>
    refine iff_of_true ⟨h.counted, h.called⟩ ?_
    rintro ⟨_, _, _, ⟨⟩, _⟩
  | pop =>
    obtain ⟨_, hgaps, hcb, hcalls⟩ := step_pop_sequence f
    refine iff_of_true ⟨?_, ?_⟩ ?_
    · rw [hgaps]
      exact h.counted
    · rw [hcalls, hcb]
      exact h.called
    · rintro ⟨_, _, _, ⟨⟩, _⟩

end gaps

/-- Gaps are counted and reported as they occur, throughout a run, exactly if
    no header with `lastSeq` is followed by one with a number other than 0. -/
theorem gaps_exact_iff (mem : Nat → MarketDataMsg) (gap_cb : Bool) (events : List Feed.Event) :
    (∀ n, GapsExact ((Feed.start mem gap_cb).run (events.take n)) (Watch.run (events.take n))) ↔
      ∀ before event after, events = before ++ event :: after →
        ¬ Missed (Watch.run before) event := by
  let step (p : Feed × Watch) (event : Feed.Event) := (p.1.step event, p.2.step event)
  let Keeps (p : Feed × Watch) := GapsExact p.1 p.2
  let Always (p : Feed × Watch) := Tracks p.1 p.2
  have halways : ∀ p event, Always p → Always (step p event) := fun p event ht => ht.step event
  have hstep : ∀ p event, Always p → Keeps p →
      (Keeps (step p event) ↔ ¬ Missed p.2 event) := fun p event ht h => h.step ht event
  have hstart : Keeps (Feed.start mem gap_cb, ⟨none, []⟩) := ⟨rfl, (ite_self _).symm⟩
  have hiff := Loop.foldl_prefixes_iff halways hstep events
    (show Always (Feed.start mem gap_cb, ⟨none, []⟩) from rfl) hstart
  simp only [step, Keeps, Loop.foldl_prod] at hiff
  exact hiff

/-- A heartbeat with the given sequence number, least significant byte first. -/
def heartbeat (seq : List UInt8) : List UInt8 :=
  [0x34, 0x12, 0xED, 0xFE, 1, 0, 99, 0] ++ seq ++ [0, 0, 0, 0]

/-- After a heartbeat with `lastSeq`, one with number 5 is no gap to the
    engine. -/
theorem wrap_gap_missed :
    let events := [Feed.Event.ingest (heartbeat (List.replicate 8 255)) fun _ => 0,
      .ingest (heartbeat [5, 0, 0, 0, 0, 0, 0, 0]) fun _ => 0]
    let f := (Feed.start (fun _ => MarketDataMsg.zero) true).run events
    f.ingestion.stat_gaps = 0 ∧ f.gap_calls = [] ∧ (Watch.run events).jumps = [(0, 5)] ∧
      ¬ GapsExact f (Watch.run events) := by
  have hgaps : ((Feed.start (fun _ => MarketDataMsg.zero) true).run
      [Feed.Event.ingest (heartbeat (List.replicate 8 255)) fun _ => 0,
        .ingest (heartbeat [5, 0, 0, 0, 0, 0, 0, 0]) fun _ => 0]).ingestion.stat_gaps = 0 := by
    decide +kernel
  have hjumps : (Watch.run
      [Feed.Event.ingest (heartbeat (List.replicate 8 255)) fun _ => 0,
        .ingest (heartbeat [5, 0, 0, 0, 0, 0, 0, 0]) fun _ => 0]).jumps = [(0, 5)] := by
    decide +kernel
  refine ⟨hgaps, by decide +kernel, hjumps, ?_⟩
  intro h
  have hcount := h.counted
  rw [hgaps, hjumps] at hcount
  simp at hcount

/-! ## Section 3: The ledger -/

/-- Every call is an ingested message or a parse error, and the ingested ones
    are those that entered the queue. -/
structure Feed.Balanced (f : Feed) : Prop where
  calls : .ofNat f.calls = f.ingestion.stat_ingested + f.ingestion.stat_errors
  entered : .ofNat f.entered.length = f.ingestion.stat_ingested

/-- A message that decodes but does not enter the queue shows in a counter. -/
def Feed.Visible (f : Feed) (event : Feed.Event) : Prop :=
  ∀ bytes beyond hdr, event = .ingest bytes beyond →
    headerOf (.ofBytes bytes beyond) = some hdr → Accepts hdr →
    (f.step event).entered = f.entered →
    (f.step event).ingestion.stat_ingested ≠ f.ingestion.stat_ingested ∨
    (f.step event).ingestion.stat_errors ≠ f.ingestion.stat_errors ∨
    (f.step event).ingestion.stat_gaps ≠ f.ingestion.stat_gaps

/-- An event at which a message is lost: it decodes, and finds the queue full. -/
def Feed.Lost (f : Feed) (event : Feed.Event) : Prop :=
  ∃ bytes beyond hdr, event = .ingest bytes beyond ∧
    headerOf (.ofBytes bytes beyond) = some hdr ∧ Accepts hdr ∧
    f.queued.length = kQueueDepth.size - 1

section ledger

variable {f : Feed}

theorem balanced_start (mem : Nat → MarketDataMsg) (gap_cb : Bool) :
    Feed.Balanced (Feed.start mem gap_cb) where
  calls := rfl
  entered := by
    unfold Feed.entered
    rw [Feed.queued_start]
    rfl

/-- What a call does to the ledger, by the way it returns. -/
theorem ingest_ledger {items : List MarketDataMsg} {n : Nat}
    (h : s.outbound.Holds kQueueDepth n items) (data : Span) :
    (¬ (∃ hdr, headerOf data = some hdr ∧ Accepts hdr) ∧
      (s.ingest data).state.outbound.Holds kQueueDepth n items ∧
      (s.ingest data).state.stat_ingested = s.stat_ingested ∧
      (s.ingest data).state.stat_errors = s.stat_errors + 1) ∨
    ((∃ hdr, headerOf data = some hdr ∧ Accepts hdr) ∧ items.length = kQueueDepth.size - 1 ∧
      (s.ingest data).state.outbound.Holds kQueueDepth n items ∧
      (s.ingest data).state.stat_ingested = s.stat_ingested ∧
      (s.ingest data).state.stat_errors = s.stat_errors) ∨
    (items.length ≠ kQueueDepth.size - 1 ∧
      (∃ msg, (s.ingest data).state.outbound.Holds kQueueDepth n (items ++ [msg])) ∧
      (s.ingest data).state.stat_ingested = s.stat_ingested + 1 ∧
      (s.ingest data).state.stat_errors = s.stat_errors) := by
  have hexit := exit_ingest s data
  revert hexit
  generalize s.ingest data = r
  intro hexit
  cases hexit with
  | no_header hhdr => exact .inl ⟨by simp [hhdr], h, rfl, rfl⟩
  | refused hhdr hno => exact .inl ⟨by simpa [hhdr] using hno, h, rfl, rfl⟩
  | full hhdr hyes hmsg hpush =>
    exact .inr (.inl ⟨⟨_, hhdr, hyes⟩, h.full_of_try_push hpush, h, rfl, rfl⟩)
  | @pushed hdr reads more msg outbound hhdr hyes hmsg hpush =>
    obtain ⟨hroom, hq⟩ := h.of_try_push hpush
    exact .inr (.inr ⟨hroom, ⟨msg, hq⟩, rfl, rfl⟩)

theorem Feed.Sound.step (h : f.Sound) (event : Feed.Event) : (f.step event).Sound := by
  cases event with
  | ingest bytes beyond =>
    obtain ⟨items, hq⟩ := h
    rcases ingest_ledger hq (.ofBytes bytes beyond) with
      ⟨_, hq', _⟩ | ⟨_, _, hq', _⟩ | ⟨_, ⟨msg, hq'⟩, _⟩
    · exact ⟨items, hq'⟩
    · exact ⟨items, hq'⟩
    · exact ⟨items ++ [msg], hq'⟩
  | reset_sequence => exact h
  | pop => exact (Feed.step_pop h).choose_spec.choose_spec.2.1

theorem Feed.Balanced.step (hb : Feed.Balanced f) (h : f.Sound) (event : Feed.Event) :
    Feed.Balanced (f.step event) ↔ ¬ Feed.Lost f event := by
  cases event with
  | ingest bytes beyond =>
    obtain ⟨items, hq⟩ := h
    have hqueued : f.queued = items := hq.contents_eq
    have hcalls := hb.calls
    have hentered := hb.entered
    unfold Feed.entered at hentered
    rw [hqueued] at hentered
    rcases ingest_ledger hq (.ofBytes bytes beyond) with
      ⟨hno, hq', hing, herr⟩ | ⟨⟨hdr, hhdr, hyes⟩, hfull, hq', hing, herr⟩ |
        ⟨hroom, ⟨msg, hq'⟩, hing, herr⟩
    · refine iff_of_true ⟨?_, ?_⟩ ?_
      · simp only [Feed.step, hing, herr, UInt64.ofNat_add, hcalls]
        rw [UInt64.add_assoc]
        rfl
      · simp only [Feed.entered, Feed.queued, Feed.step, hing, hq'.contents_eq]
        exact hentered
      · rintro ⟨_, _, hdr, ⟨⟩, hhdr, hyes, _⟩
        exact hno ⟨hdr, hhdr, hyes⟩
    · -- one more call, and no counter has moved
      refine iff_of_false ?_ ?_
      · intro hc
        have hcount := hc.calls
        simp only [Feed.step, hing, herr, UInt64.ofNat_add, hcalls] at hcount
        simp at hcount
      · rw [not_not]
        exact ⟨bytes, beyond, hdr, rfl, hhdr, hyes, by rw [hqueued, hfull]⟩
    · refine iff_of_true ⟨?_, ?_⟩ ?_
      · simp only [Feed.step, hing, herr, UInt64.ofNat_add, hcalls]
        rw [UInt64.add_assoc, UInt64.add_comm _ (.ofNat 1), ← UInt64.add_assoc]
        rfl
      · simp only [Feed.entered, Feed.queued, Feed.step, hing, hq'.contents_eq]
        rw [← hentered, ← List.append_assoc, List.length_append, UInt64.ofNat_add]
        rfl
      · rintro ⟨_, _, _, ⟨⟩, _, _, hfull⟩
        exact hroom (by rw [← hqueued, hfull])
  | reset_sequence =>
    refine iff_of_true ⟨hb.calls, hb.entered⟩ ?_
    rintro ⟨_, _, _, ⟨⟩, _⟩
  | pop =>
    obtain ⟨outbound, popped, heq, _, hentered⟩ := Feed.step_pop h
    refine iff_of_true ⟨?_, ?_⟩ ?_
    · rw [heq]
      exact hb.calls
    · rw [hentered, heq]
      exact hb.entered
    · rintro ⟨_, _, _, ⟨⟩, _⟩

theorem visible_of_not_lost {event : Feed.Event} (h : f.Sound) (hkept : ¬ Feed.Lost f event) :
    Feed.Visible f event := by
  rintro bytes beyond hdr rfl hhdr hyes _
  obtain ⟨items, hq⟩ := h
  rcases ingest_ledger hq (.ofBytes bytes beyond) with
    ⟨hno, _⟩ | ⟨_, hfull, _⟩ | ⟨_, _, hing, _⟩
  · exact absurd ⟨hdr, hhdr, hyes⟩ hno
  · have hqueued : f.queued = items := hq.contents_eq
    exact absurd ⟨bytes, beyond, hdr, rfl, hhdr, hyes, by rw [hqueued, hfull]⟩ hkept
  · left
    simp [Feed.step, hing]

end ledger

theorem balanced_prefixes_iff (mem : Nat → MarketDataMsg) (gap_cb : Bool)
    (events : List Feed.Event) :
    (∀ n, Feed.Balanced ((Feed.start mem gap_cb).run (events.take n))) ↔
      ∀ before event after, events = before ++ event :: after →
        ¬ Feed.Lost ((Feed.start mem gap_cb).run before) event := by
  have hstep : ∀ (f : Feed) event, f.Sound → Feed.Balanced f →
      (Feed.Balanced (f.step event) ↔ ¬ Feed.Lost f event) := fun f event h hb => hb.step h event
  exact Loop.foldl_prefixes_iff (fun f event h => h.step event) hstep events
    (Feed.sound_start mem gap_cb) (balanced_start mem gap_cb)

/-- The books balance throughout a run, and no message goes without a trace,
    exactly if no message that decodes finds the queue full. -/
theorem ledger_balanced_iff (mem : Nat → MarketDataMsg) (gap_cb : Bool)
    (events : List Feed.Event) :
    ((∀ n, Feed.Balanced ((Feed.start mem gap_cb).run (events.take n))) ∧
      ∀ before event after, events = before ++ event :: after →
        Feed.Visible ((Feed.start mem gap_cb).run before) event) ↔
      ∀ before event after, events = before ++ event :: after →
        ¬ Feed.Lost ((Feed.start mem gap_cb).run before) event := by
  constructor
  · rintro ⟨hbalanced, _⟩
    exact (balanced_prefixes_iff mem gap_cb events).mp hbalanced
  · intro hkept
    refine ⟨(balanced_prefixes_iff mem gap_cb events).mpr hkept, ?_⟩
    intro before event after heq
    have hsound : ((Feed.start mem gap_cb).run before).Sound :=
      Loop.foldl_keeps (fun f event h => h.step event) (Feed.sound_start mem gap_cb) before
    exact visible_of_not_lost hsound (hkept before event after heq)

/-- A heartbeat as an event of the feed. -/
def beat : Feed.Event := .ingest (heartbeat [1, 0, 0, 0, 0, 0, 0, 0]) fun _ => 0

theorem beat_decodes : ∃ hdr,
    headerOf (.ofBytes (heartbeat [1, 0, 0, 0, 0, 0, 0, 0]) fun _ => 0) = some hdr ∧
      Accepts hdr :=
  ⟨WireHeader.load (.ofBytes (heartbeat [1, 0, 0, 0, 0, 0, 0, 0]) fun _ => 0),
    by decide +kernel, by decide +kernel⟩

/-- Nobody pops: heartbeats fill the queue up. -/
theorem beats_queued (mem : Nat → MarketDataMsg) (gap_cb : Bool) (n : Nat)
    (hn : n ≤ kQueueDepth.size - 1) :
    let f := (Feed.start mem gap_cb).run (List.replicate n beat)
    f.Sound ∧ Feed.Balanced f ∧ f.queued.length = n := by
  induction n with
  | zero =>
    exact ⟨Feed.sound_start mem gap_cb, balanced_start mem gap_cb,
      congrArg List.length (Feed.queued_start mem gap_cb)⟩
  | succ n ih =>
    obtain ⟨hsound, hbalanced, hlen⟩ := ih (by omega)
    rw [List.replicate_succ', Feed.run_snoc]
    generalize (Feed.start mem gap_cb).run (List.replicate n beat) = f at hsound hbalanced hlen ⊢
    have hkept : ¬ Feed.Lost f beat := by
      rintro ⟨_, _, _, _, _, _, hfull⟩
      omega
    refine ⟨hsound.step beat, (hbalanced.step hsound beat).mpr hkept, ?_⟩
    obtain ⟨items, hq⟩ := hsound
    have hitems : items.length = n := by rw [← hlen, Feed.queued, hq.contents_eq]
    rcases ingest_ledger hq (.ofBytes (heartbeat [1, 0, 0, 0, 0, 0, 0, 0]) fun _ => 0) with
      ⟨hno, _⟩ | ⟨_, hfull, _⟩ | ⟨_, ⟨msg, hq'⟩, _⟩
    · exact absurd beat_decodes hno
    · omega
    · have hqueued : (f.step beat).queued = items ++ [msg] := hq'.contents_eq
      rw [hqueued, List.length_append, hitems]
      rfl

/-- The queue takes 65535 heartbeats; the next one leaves no trace. -/
theorem full_queue_loses_message :
    let f := (Feed.start (fun _ => MarketDataMsg.zero) true).run (List.replicate 65535 beat)
    Feed.Balanced f ∧ ¬ Feed.Balanced (f.step beat) := by
  intro f
  obtain ⟨hsound, hbalanced, hlen⟩ :=
    beats_queued (fun _ => MarketDataMsg.zero) true 65535 (by decide)
  refine ⟨hbalanced, ?_⟩
  rw [hbalanced.step hsound beat, not_not]
  obtain ⟨hdr, hhdr, hyes⟩ := beat_decodes
  exact ⟨_, _, hdr, rfl, hhdr, hyes, hlen⟩

end OptionsEngine
