import OptionsEngine.MarketData

/-! # What the decoder reads

    `DecodesSafely` is the contract of the decoder on arbitrary bytes: it reads
    inside the datagram, and a datagram shorter than its header declares is a
    parse error and nothing else.  `ingest` guards against such a datagram by
    comparing the size of the payload span with the declared length; but the
    span has been made with that very length, so the guard never fires.

    * `decode_refused`, `decode_accepted`: what the switch does, by the type
      and the declared length.
    * `decodes_safely_iff`: the datagrams on which the contract holds.
    * `short_new_order_read_past_end`: one on which it does not. -/

namespace OptionsEngine

open Memory MarketDataIngestion

/-- The datagram ends before the payload that its header declares. -/
def Truncated (data : Span) : Prop :=
  data.size < WireHeader.sizeof + (WireHeader.load data).payload_len.toNat

/-- The contract of `ingest` for one datagram: which bytes are read, what is
    counted and enqueued.  That `subspan` is asked for more bytes than there are
    is not held against a datagram that the switch then refuses. -/
structure DecodesSafely (s : MarketDataIngestion) (data : Span) : Prop where
  in_bounds : ∀ i ∈ (s.ingest data).reads, i < data.size
  truncated : Truncated data →
    (s.ingest data).state.stat_errors = s.stat_errors + 1 ∧
    (s.ingest data).state.outbound = s.outbound ∧
    ∀ i ∈ (s.ingest data).reads, i < WireHeader.sizeof

/-- The switch finds a decoder for the type, and the declared length is enough
    for it. -/
def Accepts (hdr : WireHeader) : Prop :=
  (hdr.msg_type = kMsgNewOrder ∧ WireNewOrder.sizeof ≤ hdr.payload_len.toNat) ∨
  (hdr.msg_type = kMsgCancelOrder ∧ WireCancelOrder.sizeof ≤ hdr.payload_len.toNat) ∨
  (hdr.msg_type = kMsgModify ∧ WireModifyOrder.sizeof ≤ hdr.payload_len.toNat) ∨
  hdr.msg_type = kMsgHeartbeat

instance (hdr : WireHeader) : Decidable (Accepts hdr) :=
  inferInstanceAs (Decidable (_ ∨ _ ∨ _ ∨ _))

variable {s : MarketDataIngestion} {data payload : Span} {hdr : WireHeader}

/-! ## The switch -/

theorem decode_of_new_order (h : hdr.msg_type = kMsgNewOrder) (msg : MarketDataMsg) :
    decode hdr payload msg = some (decode_new_order hdr payload msg) := by
  rw [decode, if_pos h]

theorem decode_of_cancel (h : hdr.msg_type = kMsgCancelOrder) (msg : MarketDataMsg) :
    decode hdr payload msg = some (decode_cancel hdr payload msg) := by
  rw [decode, if_neg (by rw [h]; decide), if_pos h]

theorem decode_of_modify (h : hdr.msg_type = kMsgModify) (msg : MarketDataMsg) :
    decode hdr payload msg = some (decode_modify hdr payload msg) := by
  rw [decode, if_neg (by rw [h]; decide), if_neg (by rw [h]; decide), if_pos h]

theorem decode_of_heartbeat (h : hdr.msg_type = kMsgHeartbeat) (msg : MarketDataMsg) :
    decode hdr payload msg = some ([], some { msg with msg_type := .Heartbeat }) := by
  rw [decode, if_neg (by rw [h]; decide), if_neg (by rw [h]; decide), if_neg (by rw [h]; decide),
    if_pos h]

theorem decode_refused (hsize : payload.size = hdr.payload_len.toNat) (h : ¬ Accepts hdr)
    (msg : MarketDataMsg) :
    decode hdr payload msg = none ∨ decode hdr payload msg = some ([], none) := by
  simp only [Accepts, not_or, not_and, Nat.not_le] at h
  obtain ⟨hnew, hcancel, hmodify, hheart⟩ := h
  rw [decode, if_neg hheart]
  split
  · next htype =>
    right
    rw [decode_new_order, if_pos (hsize ▸ hnew htype)]
  · split
    · next htype =>
      right
      rw [decode_cancel, if_pos (hsize ▸ hcancel htype)]
    · split
      · next htype =>
        right
        rw [decode_modify, if_pos (hsize ▸ hmodify htype)]
      · left
        rfl

/-- An accepted payload is read no further than it is declared. -/
theorem decode_accepted (hsize : payload.size = hdr.payload_len.toNat) (h : Accepts hdr)
    (msg : MarketDataMsg) :
    ∃ reads msg', decode hdr payload msg = some (reads, some msg') ∧
      ∀ i ∈ reads, i < payload.start + hdr.payload_len.toNat := by
  have hextent : ∀ n ≤ hdr.payload_len.toNat, ∀ i ∈ payload.extent n,
      i < payload.start + hdr.payload_len.toNat := by
    intro n hn i hi
    have := Span.mem_extent.mp hi
    omega
  rcases h with ⟨htype, hlen⟩ | ⟨htype, hlen⟩ | ⟨htype, hlen⟩ | htype
  · rw [decode_of_new_order htype, decode_new_order, if_neg (by omega)]
    exact ⟨_, _, rfl, hextent _ hlen⟩
  · rw [decode_of_cancel htype, decode_cancel, if_neg (by omega)]
    exact ⟨_, _, rfl, hextent _ hlen⟩
  · rw [decode_of_modify htype, decode_modify, if_neg (by omega)]
    exact ⟨_, _, rfl, hextent _ hlen⟩
  · rw [decode_of_heartbeat htype]
    exact ⟨_, _, rfl, by simp⟩

/-! ## A call -/

/-- The payload span that `ingest` makes. -/
def payloadOf (data : Span) : Span :=
  data.subspan WireHeader.sizeof (WireHeader.load data).payload_len.toNat

/-- A call that gets past the magic number.  The comparison of the payload's
    size with the declared length has no part in it. -/
theorem ingest_eq (s : MarketDataIngestion) (hsize : WireHeader.sizeof ≤ data.size)
    (hmagic : (WireHeader.load data).magic = kMagic) :
    ∃ calls, s.ingest data =
      (s.check_sequence (WireHeader.load data)).deliver (data.extent WireHeader.sizeof) calls
        (decode (WireHeader.load data) (payloadOf data)
          { MarketDataMsg.zero with seq := (WireHeader.load data).seq_num }) := by
  have hguard : ¬ (data.subspan WireHeader.sizeof (WireHeader.load data).payload_len.toNat).size <
      (WireHeader.load data).payload_len.toNat := Nat.lt_irrefl _
  simp only [ingest, Nat.not_lt.mpr hsize, hmagic, hguard, ne_eq, not_true_eq_false, if_false]
  exact ⟨_, rfl⟩

/-- A decoded message is no parse error, whether or not the queue has room. -/
theorem deliver_message (s : MarketDataIngestion) (reads more : List Nat)
    (calls : List (UInt64 × UInt64)) (msg : MarketDataMsg) :
    (s.deliver reads calls (some (more, some msg))).state.stat_errors = s.stat_errors ∧
    (s.deliver reads calls (some (more, some msg))).reads = reads ++ more := by
  simp only [deliver]
  generalize s.outbound.try_push kQueueDepth msg = pushed
  obtain ⟨outbound, ok⟩ := pushed
  cases ok <;> exact ⟨rfl, rfl⟩

theorem header_reads (hstart : data.start = 0) (hsize : WireHeader.sizeof ≤ data.size) :
    ∀ i ∈ data.extent WireHeader.sizeof, i < WireHeader.sizeof ∧ i < data.size := by
  intro i hi
  have := Span.mem_extent.mp hi
  omega

/-- A call that ends before the switch, or in a decoder that returns false. -/
theorem ingest_refuses (hstart : data.start = 0)
    (h : WireHeader.sizeof ≤ data.size → (WireHeader.load data).magic = kMagic →
      ¬ Accepts (WireHeader.load data)) :
    (s.ingest data).state.stat_errors = s.stat_errors + 1 ∧
    (s.ingest data).state.outbound = s.outbound ∧
    ∀ i ∈ (s.ingest data).reads, i < WireHeader.sizeof ∧ i < data.size := by
  by_cases hshort : data.size < WireHeader.sizeof
  · simp [ingest, hshort, parse_error]
  have hsize : WireHeader.sizeof ≤ data.size := by omega
  have hreads := header_reads hstart hsize
  by_cases hmagic : (WireHeader.load data).magic = kMagic
  · obtain ⟨calls, heq⟩ := ingest_eq s hsize hmagic
    have hdecode := decode_refused (show (payloadOf data).size = _ from rfl) (h hsize hmagic)
      { MarketDataMsg.zero with seq := (WireHeader.load data).seq_num }
    rw [heq]
    rcases hdecode with hd | hd
    · rw [hd]
      simpa only [deliver, parse_error, check_sequence, true_and] using hreads
    · rw [hd]
      simpa only [deliver, parse_error, check_sequence, true_and, List.append_nil] using hreads
  · have hstop : s.ingest data = ⟨s.parse_error, 0, data.extent WireHeader.sizeof, []⟩ := by
      simp [ingest, hshort, hmagic]
    rw [hstop]
    simpa only [parse_error, true_and] using hreads

/-- A call that pushes a message, or finds the queue full. -/
theorem ingest_accepts (hstart : data.start = 0) (hsize : WireHeader.sizeof ≤ data.size)
    (hmagic : (WireHeader.load data).magic = kMagic) (h : Accepts (WireHeader.load data)) :
    (s.ingest data).state.stat_errors = s.stat_errors ∧
    ∀ i ∈ (s.ingest data).reads,
      i < WireHeader.sizeof + (WireHeader.load data).payload_len.toNat := by
  obtain ⟨calls, heq⟩ := ingest_eq s hsize hmagic
  obtain ⟨more, msg', hd, hmore⟩ :=
    decode_accepted (show (payloadOf data).size = _ from rfl) h
      { MarketDataMsg.zero with seq := (WireHeader.load data).seq_num }
  have hreads : ∀ i ∈ data.extent WireHeader.sizeof ++ more,
      i < WireHeader.sizeof + (WireHeader.load data).payload_len.toNat := by
    intro i hi
    rcases List.mem_append.mp hi with hi | hi
    · have := (header_reads hstart hsize i hi).1
      omega
    · have := hmore i hi
      rw [payloadOf, Span.subspan, hstart, Nat.zero_add] at this
      exact this
  obtain ⟨herrors, hread⟩ := deliver_message (s.check_sequence (WireHeader.load data))
    (data.extent WireHeader.sizeof) more calls msg'
  rw [heq, hd, hread, herrors]
  exact ⟨by simp only [check_sequence], hreads⟩

/-- The contract holds of a datagram exactly if its payload is as long as
    declared, unless the header is incomplete, has another magic number or is
    not accepted by the switch. -/
theorem decodes_safely_iff (s : MarketDataIngestion) (bytes : List UInt8) (beyond : Nat → UInt8) :
    let data := Span.ofBytes bytes beyond
    DecodesSafely s data ↔
      (WireHeader.sizeof ≤ data.size → (WireHeader.load data).magic = kMagic →
        Accepts (WireHeader.load data) →
        WireHeader.sizeof + (WireHeader.load data).payload_len.toNat ≤ data.size) := by
  intro data
  constructor
  · intro hsafe hsize hmagic haccepts
    by_contra hlong
    -- the contract asks for a parse error, but the call counts none
    have herror := (hsafe.truncated (by unfold Truncated; omega)).1
    rw [(ingest_accepts rfl hsize hmagic haccepts).1] at herror
    simp at herror
  · intro hcond
    by_cases haccepts : WireHeader.sizeof ≤ data.size ∧
        (WireHeader.load data).magic = kMagic ∧ Accepts (WireHeader.load data)
    · obtain ⟨hsize, hmagic, haccepts⟩ := haccepts
      have hlong := hcond hsize hmagic haccepts
      refine ⟨fun i hi => ?_, fun htrunc => ?_⟩
      · exact Nat.lt_of_lt_of_le ((ingest_accepts rfl hsize hmagic haccepts).2 i hi) hlong
      · unfold Truncated at htrunc
        omega
    · have hrefused : WireHeader.sizeof ≤ data.size → (WireHeader.load data).magic = kMagic →
          ¬ Accepts (WireHeader.load data) := by tauto
      obtain ⟨herrors, houtbound, hreads⟩ := ingest_refuses (s := s) rfl hrefused
      exact ⟨fun i hi => (hreads i hi).2,
        fun _ => ⟨herrors, houtbound, fun i hi => (hreads i hi).1⟩⟩

/-- The header of a new order with a payload of 24 bytes, and nothing after it. -/
def bareNewOrder : List UInt8 :=
  [0x34, 0x12, 0xED, 0xFE, 1, 0, 1, 0, 1, 0, 0, 0, 0, 0, 0, 0, 24, 0, 0, 0]

/-- The decoder reads the 24 bytes behind it and passes them on as an order. -/
theorem short_new_order_read_past_end :
    let s := fresh (.fresh fun _ => MarketDataMsg.zero)
    let data := Span.ofBytes bareNewOrder fun _ => 0
    Truncated data ∧ (s.ingest data).result = 1 ∧ (s.ingest data).state.stat_errors = 0 ∧
      (20 ∈ (s.ingest data).reads ∧ ¬ 20 < data.size) ∧ ¬ DecodesSafely s data := by
  have hread : 20 ∈ ((fresh (.fresh fun _ => MarketDataMsg.zero)).ingest
      (Span.ofBytes bareNewOrder fun _ => 0)).reads := by decide +kernel
  refine ⟨by unfold Truncated; decide +kernel, by decide +kernel, by decide +kernel,
    ⟨hread, by decide⟩, ?_⟩
  intro h
  exact absurd (h.in_bounds 20 hread) (by decide)

end OptionsEngine
