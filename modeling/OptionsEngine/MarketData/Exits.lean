import OptionsEngine.MarketData.Bounds

/-! # The ways out of `ingest`

    `Exit` lists how a call of `ingest` returns; what the statistics of the
    engine say about a feed is derived from it.

    `admits_documented_iff`: the datagrams on which the decoder lets only the
    values pass that the wire format lists.  Neither the side nor the order
    type of a new order is checked. -/

namespace OptionsEngine

open Ring Memory MarketDataIngestion

/-! ## Section 1: The exits of `ingest` -/

/-- The header of a datagram, if it is complete and has the right magic number. -/
def headerOf (data : Span) : Option WireHeader :=
  if WireHeader.sizeof ≤ data.size ∧ (WireHeader.load data).magic = kMagic then
    some (WireHeader.load data)
  else none

/-- The message that the decoders fill in. -/
def MarketDataMsg.numbered (hdr : WireHeader) : MarketDataMsg :=
  { MarketDataMsg.zero with seq := hdr.seq_num }

/-- The calls of the gap callback for a header. -/
def MarketDataIngestion.gap_calls (s : MarketDataIngestion) (hdr : WireHeader) :
    List (UInt64 × UInt64) :=
  if s.gap hdr && s.gap_cb then [(s.expected_seq, hdr.seq_num)] else []

/-- What `ingest` may return. -/
inductive Exit (s : MarketDataIngestion) (data : Span) : Ingested → Prop where
  | no_header {reads : List Nat} (hhdr : headerOf data = none) :
      Exit s data ⟨s.parse_error, 0, reads, []⟩
  | refused {hdr : WireHeader} {reads : List Nat} (hhdr : headerOf data = some hdr)
      (hno : ¬ Accepts hdr) :
      Exit s data ⟨(s.check_sequence hdr).parse_error, 0, reads, s.gap_calls hdr⟩
  | full {hdr : WireHeader} {reads more : List Nat} {msg : MarketDataMsg}
      (hhdr : headerOf data = some hdr) (hyes : Accepts hdr)
      (hmsg : decode hdr (payloadOf data) (.numbered hdr) = some (more, some msg))
      (hpush : s.outbound.try_push kQueueDepth msg = (s.outbound, false)) :
      Exit s data ⟨s.check_sequence hdr, 0, reads, s.gap_calls hdr⟩
  | pushed {hdr : WireHeader} {reads more : List Nat} {msg : MarketDataMsg}
      {outbound : SPSCQueue MarketDataMsg} (hhdr : headerOf data = some hdr) (hyes : Accepts hdr)
      (hmsg : decode hdr (payloadOf data) (.numbered hdr) = some (more, some msg))
      (hpush : s.outbound.try_push kQueueDepth msg = (outbound, true)) :
      Exit s data ⟨{ s.check_sequence hdr with
        outbound := outbound, stat_ingested := s.stat_ingested + 1 }, 1, reads, s.gap_calls hdr⟩

variable {s : MarketDataIngestion} {data : Span} {hdr : WireHeader}

theorem ingest_no_header (h : headerOf data = none) : Exit s data (s.ingest data) := by
  have hguard : ¬ (WireHeader.sizeof ≤ data.size ∧ (WireHeader.load data).magic = kMagic) := by
    intro hc
    unfold headerOf at h
    rw [if_pos hc] at h
    cases h
  unfold ingest
  split
  · exact .no_header h
  · next hsize =>
    have hmagic : (WireHeader.load data).magic ≠ kMagic := fun hc => hguard ⟨by omega, hc⟩
    simp only [ne_eq, hmagic, not_false_eq_true, if_true]
    exact .no_header h

/-- A call that gets past the magic number goes to the switch: the guard for
    the payload's size has no part in it. -/
theorem ingest_header (h : headerOf data = some hdr) :
    s.ingest data = (s.check_sequence hdr).deliver (data.extent WireHeader.sizeof)
      (s.gap_calls hdr) (decode hdr (payloadOf data) (.numbered hdr)) := by
  unfold headerOf at h
  split at h
  · next hok =>
    obtain rfl := Option.some.inj h
    have hguard : ¬ (data.subspan WireHeader.sizeof (WireHeader.load data).payload_len.toNat).size <
        (WireHeader.load data).payload_len.toNat := Nat.lt_irrefl _
    simp only [ingest, Nat.not_lt.mpr hok.1, hok.2, hguard, ne_eq, not_true_eq_false, if_false]
    rfl
  · cases h

theorem exit_ingest (s : MarketDataIngestion) (data : Span) : Exit s data (s.ingest data) := by
  cases hhdr : headerOf data with
  | none => exact ingest_no_header hhdr
  | some hdr =>
    rw [ingest_header hhdr]
    have hlen : (payloadOf data).size = hdr.payload_len.toNat := by
      unfold headerOf at hhdr
      split at hhdr
      · obtain rfl := Option.some.inj hhdr
        rfl
      · cases hhdr
    by_cases hyes : Accepts hdr
    · obtain ⟨more, msg, hmsg, _⟩ := decode_accepted hlen hyes (.numbered hdr)
      rw [hmsg]
      unfold deliver
      cases hpush : s.outbound.try_push kQueueDepth msg with
      | mk outbound ok =>
        cases ok with
        | false =>
          obtain rfl := SPSCQueue.try_push_false hpush
          simp only [check_sequence, hpush]
          exact .full hhdr hyes hmsg hpush
        | true =>
          simp only [check_sequence, hpush]
          exact .pushed hhdr hyes hmsg hpush
    · rcases decode_refused hlen hyes (.numbered hdr) with hd | hd
      · rw [hd]
        exact .refused hhdr hyes
      · rw [hd]
        exact .refused hhdr hyes

/-! ## Section 2: Documented values -/

/-- The values of `side` and `order_type` that the wire format lists. -/
def WireNewOrder.Documented (w : WireNewOrder) : Prop := w.side ≤ 1 ∧ w.order_type ≤ 3

/-- The datagram goes to the decoder for new orders, with enough payload for it. -/
def CarriesNewOrder (data : Span) : Prop :=
  ∃ hdr, headerOf data = some hdr ∧ hdr.msg_type = kMsgNewOrder ∧
    WireNewOrder.sizeof ≤ hdr.payload_len.toNat

/-- The call of `ingest` pushes `msg`. -/
def Enqueues (s : MarketDataIngestion) (data : Span) (msg : MarketDataMsg) : Prop :=
  s.outbound.try_push kQueueDepth msg = ((s.ingest data).state.outbound, true)

/-- Only documented values pass, and only listed order types reach the engine. -/
structure AdmitsDocumented (s : MarketDataIngestion) (data : Span) : Prop where
  documented : ∀ msg, Enqueues s data msg → msg.msg_type = .NewOrder →
    (WireNewOrder.load (payloadOf data)).Documented
  listed : ∀ msg, Enqueues s data msg → msg.msg_type = .NewOrder → msg.order_type.Listed
  refused : CarriesNewOrder data → ¬ (WireNewOrder.load (payloadOf data)).Documented →
    (s.ingest data).state.stat_errors = s.stat_errors + 1 ∧
    (s.ingest data).state.outbound = s.outbound

/-- A decoded new order comes from the decoder for new orders. -/
theorem decode_new_order_inv {payload : Span} {msg₀ msg : MarketDataMsg} {more : List Nat}
    (h : decode hdr payload msg₀ = some (more, some msg)) (htype : msg.msg_type = .NewOrder) :
    hdr.msg_type = kMsgNewOrder ∧ WireNewOrder.sizeof ≤ payload.size ∧
      msg.order_type = ⟨(WireNewOrder.load payload).order_type⟩ := by
  unfold decode at h
  split at h
  · next hnew =>
    unfold decode_new_order at h
    split at h
    · simp at h
    · next hlen =>
      obtain ⟨-, rfl⟩ : _ ∧ _ = msg := by simpa using h
      exact ⟨hnew, by omega, rfl⟩
  · -- the other decoders write their own type
    exfalso
    split at h
    · unfold decode_cancel at h
      split at h
      · simp at h
      · obtain ⟨-, rfl⟩ : _ ∧ _ = msg := by simpa using h
        cases htype
    · split at h
      · unfold decode_modify at h
        split at h
        · simp at h
        · obtain ⟨-, rfl⟩ : _ ∧ _ = msg := by simpa using h
          cases htype
      · split at h
        · obtain ⟨-, rfl⟩ : _ ∧ _ = msg := by simpa using h
          cases htype
        · cases h

theorem listed_of_le {b : UInt8} (h : b ≤ 3) : (⟨b⟩ : OrderType).Listed := by
  have hle : b.toNat ≤ 3 := UInt8.le_iff_toNat_le.mp h
  have hb : b = .ofNat b.toNat := (UInt8.ofNat_toNat).symm
  generalize b.toNat = n at hle hb
  subst hb
  obtain rfl | rfl | rfl | rfl : n = 0 ∨ n = 1 ∨ n = 2 ∨ n = 3 := by omega
  all_goals decide

/-- A new order is only enqueued by a datagram that carries one. -/
theorem Enqueues.carries {msg : MarketDataMsg} (h : Enqueues s data msg)
    (htype : msg.msg_type = .NewOrder) :
    CarriesNewOrder data ∧
      msg.order_type = ⟨(WireNewOrder.load (payloadOf data)).order_type⟩ := by
  unfold Enqueues at h
  have hexit := exit_ingest s data
  revert h hexit
  generalize s.ingest data = r
  intro h hexit
  cases hexit with
  | no_header hhdr => exact absurd rfl (SPSCQueue.try_push_true h).1
  | refused hhdr hno => exact absurd rfl (SPSCQueue.try_push_true h).1
  | full hhdr hyes hmsg hpush => exact absurd rfl (SPSCQueue.try_push_true h).1
  | @pushed hdr reads more msg' outbound hhdr hyes hmsg hpush =>
    obtain rfl := SPSCQueue.try_push_inj h hpush
    obtain ⟨hnew, hlen, horder⟩ := decode_new_order_inv hmsg htype
    refine ⟨⟨hdr, hhdr, hnew, ?_⟩, horder⟩
    unfold headerOf at hhdr
    split at hhdr
    · obtain rfl := Option.some.inj hhdr
      exact hlen
    · cases hhdr

/-- A datagram that carries a new order is no parse error. -/
theorem CarriesNewOrder.stat_errors (h : CarriesNewOrder data) :
    (s.ingest data).state.stat_errors = s.stat_errors := by
  obtain ⟨hdr, hhdr, hnew, hlen⟩ := h
  have hexit := exit_ingest s data
  revert hexit
  generalize s.ingest data = r
  intro hexit
  cases hexit with
  | no_header hnone =>
    rw [hhdr] at hnone
    cases hnone
  | refused hhdr' hno =>
    obtain rfl := Option.some.inj (hhdr.symm.trans hhdr')
    exact absurd (Or.inl ⟨hnew, hlen⟩) hno
  | full hhdr' hyes hmsg hpush => rfl
  | pushed hhdr' hyes hmsg hpush => rfl

/-- Exactly the new orders with documented values are treated as documented. -/
theorem admits_documented_iff (s : MarketDataIngestion) (bytes : List UInt8)
    (beyond : Nat → UInt8) :
    let data := Span.ofBytes bytes beyond
    AdmitsDocumented s data ↔
      (CarriesNewOrder data → (WireNewOrder.load (payloadOf data)).Documented) := by
  intro data
  constructor
  · intro h hcarries
    by_contra hother
    have herror := (h.refused hcarries hother).1
    rw [hcarries.stat_errors] at herror
    simp at herror
  · intro hcond
    refine ⟨?_, ?_, ?_⟩
    · intro msg hmsg htype
      exact hcond (hmsg.carries htype).1
    · intro msg hmsg htype
      obtain ⟨hcarries, horder⟩ := hmsg.carries htype
      rw [horder]
      exact listed_of_le (hcond hcarries).2
    · intro hcarries hother
      exact absurd (hcond hcarries) hother

/-- A new order with side byte 7 and type byte 9, otherwise well formed. -/
def unlistedNewOrder : List UInt8 :=
  [0x34, 0x12, 0xED, 0xFE, 1, 0, 1, 0, 1, 0, 0, 0, 0, 0, 0, 0, 24, 0, 0, 0,
    1, 0, 0, 0, 0, 0, 0, 0, 100, 0, 0, 0, 0, 0, 0, 0, 10, 0, 0, 0, 0, 0, 7, 9]

/-- It reaches the engine as a sell of an order type that does not exist. -/
theorem unlisted_new_order_enqueued :
    let s := fresh (.fresh fun _ => MarketDataMsg.zero)
    let data := Span.ofBytes unlistedNewOrder fun _ => 0
    (s.ingest data).result = 1 ∧ (s.ingest data).state.stat_errors = 0 ∧
      (s.ingest data).state.outbound.buffer 0 = ⟨1, 1, 100, 10, 0, .Sell, .NewOrder, ⟨9⟩⟩ ∧
      ¬ AdmitsDocumented s data := by
  refine ⟨by decide +kernel, by decide +kernel, by decide +kernel, ?_⟩
  intro h
  have hcarries : CarriesNewOrder (Span.ofBytes unlistedNewOrder fun _ => 0) :=
    ⟨WireHeader.load (Span.ofBytes unlistedNewOrder fun _ => 0), by decide +kernel,
      by decide +kernel, by decide +kernel⟩
  have hother : ¬ (WireNewOrder.load
      (payloadOf (Span.ofBytes unlistedNewOrder fun _ => 0))).Documented := by
    unfold WireNewOrder.Documented
    decide +kernel
  have herror := (h.refused hcarries hother).1
  rw [hcarries.stat_errors] at herror
  simp at herror

end OptionsEngine
