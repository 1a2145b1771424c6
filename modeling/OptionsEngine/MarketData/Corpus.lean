import OptionsEngine.MarketData.Bounds

/-! # The corpus generator and the decoder (`fuzz/gen_corpus.py`)

    The generator packs its datagrams with `struct.pack`; the decoder copies
    them into packed structs.  The two are written apart, and disagree on the
    padding: a new order is packed into 26 bytes of which 24 are read.

    `wire_round_trip`: every datagram the generator can build from values in
    range is decoded into the message with those values. -/

namespace OptionsEngine

open Memory MarketDataIngestion

/-! ## Section 1: `struct.pack` with a little-endian format -/

/-- A format character, with the value packed for it. -/
inductive Field where
  | Q (v : UInt64)
  | I (v : UInt32)
  | H (v : UInt16)
  | B (v : UInt8)
  | x

def Field.bytes : Field → List UInt8
  | .Q v => leBytes 8 v.toNat
  | .I v => leBytes 4 v.toNat
  | .H v => leBytes 2 v.toNat
  | .B v => leBytes 1 v.toNat
  | .x => [0]

def pack (fields : List Field) : List UInt8 := fields.flatMap Field.bytes

/-! ## Section 2: The generator -/

namespace GenCorpus

def MAGIC : UInt32 := 0xFEED1234
def VERSION : UInt16 := 1

def MSG_NEW_ORDER : UInt16 := 1
def MSG_CANCEL : UInt16 := 2
def MSG_MODIFY : UInt16 := 3
def MSG_HEARTBEAT : UInt16 := 99

def wire_header (msg_type : UInt16) (seq : UInt64) (payload_len : Nat) : List UInt8 :=
  pack [.I MAGIC, .H VERSION, .H msg_type, .Q seq, .I (.ofNat payload_len)]

def new_order (seq order_id price_fp : UInt64) (qty : UInt32) (symbol : UInt16)
    (side otype : UInt8) : List UInt8 :=
  let payload := pack [.Q order_id, .Q price_fp, .I qty, .H symbol, .B side, .B otype, .x, .x]
  wire_header MSG_NEW_ORDER seq payload.length ++ payload

def cancel_order (seq order_id : UInt64) (symbol : UInt16) : List UInt8 :=
  let payload := pack [.Q order_id, .H symbol, .x, .x, .x, .x, .x, .x]
  wire_header MSG_CANCEL seq payload.length ++ payload

def modify_order (seq order_id : UInt64) (new_qty : UInt32) (symbol : UInt16) : List UInt8 :=
  let payload := pack [.Q order_id, .I new_qty, .H symbol, .x, .x]
  wire_header MSG_MODIFY seq payload.length ++ payload

def heartbeat (seq : UInt64) : List UInt8 := wire_header MSG_HEARTBEAT seq 0

end GenCorpus

open GenCorpus

/-- A call of one of the four generators. -/
inductive Datagram where
  | new_order (seq order_id price_fp : UInt64) (qty : UInt32) (symbol : UInt16)
      (side otype : UInt8)
  | cancel_order (seq order_id : UInt64) (symbol : UInt16)
  | modify_order (seq order_id : UInt64) (new_qty : UInt32) (symbol : UInt16)
  | heartbeat (seq : UInt64)
  deriving DecidableEq

namespace Datagram

def bytes : Datagram → List UInt8
  | .new_order seq order_id price_fp qty symbol side otype =>
    GenCorpus.new_order seq order_id price_fp qty symbol side otype
  | .cancel_order seq order_id symbol => GenCorpus.cancel_order seq order_id symbol
  | .modify_order seq order_id new_qty symbol => GenCorpus.modify_order seq order_id new_qty symbol
  | .heartbeat seq => GenCorpus.heartbeat seq

/-- The side is 0 or 1 and the order type one of the four. -/
def InRange : Datagram → Prop
  | .new_order _ _ _ _ _ side otype => side ≤ 1 ∧ otype ≤ 3
  | _ => True

/-- The message with the values of the datagram; the price is read as a signed
    number, fields the datagram does not have are zero. -/
def message : Datagram → MarketDataMsg
  | .new_order seq order_id price_fp qty symbol side otype =>
    { seq := seq, order_id := order_id, price := price_fp.toBitVec.toInt, qty := qty,
      symbol := symbol, side := if side = 0 then .Buy else .Sell, msg_type := .NewOrder,
      order_type := ⟨otype⟩ }
  | .cancel_order seq order_id symbol =>
    { MarketDataMsg.zero with
      seq := seq, order_id := order_id, symbol := symbol, msg_type := .CancelOrder }
  | .modify_order seq order_id new_qty symbol =>
    { MarketDataMsg.zero with
      seq := seq, order_id := order_id, qty := new_qty, symbol := symbol,
      msg_type := .ModifyOrder }
  | .heartbeat seq => { MarketDataMsg.zero with seq := seq, msg_type := .Heartbeat }

end Datagram

/-! ## Section 3: Loads -/

variable {s : Span} {offset : Nat}

theorem load_Q {v : UInt64} (h : s.Shows offset (Field.Q v).bytes) :
    UInt64.ofNat (s.le offset 8) = v := by
  rw [Span.le_of_shows 8 v.toNat_lt h, UInt64.ofNat_toNat]

theorem load_I {v : UInt32} (h : s.Shows offset (Field.I v).bytes) :
    UInt32.ofNat (s.le offset 4) = v := by
  rw [Span.le_of_shows 4 v.toNat_lt h, UInt32.ofNat_toNat]

theorem load_H {v : UInt16} (h : s.Shows offset (Field.H v).bytes) :
    UInt16.ofNat (s.le offset 2) = v := by
  rw [Span.le_of_shows 2 v.toNat_lt h, UInt16.ofNat_toNat]

theorem load_B {v : UInt8} (h : s.Shows offset (Field.B v).bytes) :
    UInt8.ofNat (s.le offset 1) = v := by
  rw [Span.le_of_shows 1 v.toNat_lt h, UInt8.ofNat_toNat]

/-- The width of a format character. -/
def Field.width : Field → Nat
  | .Q _ => 8
  | .I _ => 4
  | .H _ => 2
  | .B _ => 1
  | .x => 1

@[simp] theorem Field.length_bytes (f : Field) : f.bytes.length = f.width := by
  cases f <;> simp [Field.bytes, Field.width]

theorem length_pack (fields : List Field) : (pack fields).length = (fields.map Field.width).sum := by
  simp [pack, List.length_flatMap]

/-- Packed fields stand one after the other. -/
theorem shows_pack_cons {f : Field} {fields : List Field} :
    s.Shows offset (pack (f :: fields)) ↔
      s.Shows offset f.bytes ∧ s.Shows (offset + f.width) (pack fields) := by
  rw [pack, List.flatMap_cons, Span.shows_append, Field.length_bytes]
  rfl

theorem header_of_bytes {data : Span} {msg_type : UInt16} {seq : UInt64} {payload_len : Nat}
    (h : data.Shows 0 (wire_header msg_type seq payload_len)) :
    WireHeader.load data = ⟨kMagic, 1, msg_type, seq, .ofNat payload_len⟩ := by
  simp only [wire_header, shows_pack_cons, Field.width] at h
  obtain ⟨hmagic, hversion, htype, hseq, hlen, _⟩ := h
  simp only [WireHeader.load, load_I hmagic, load_H hversion, load_H htype, load_Q hseq,
    load_I hlen]
  rfl

theorem new_order_of_bytes {order_id price_fp : UInt64} {qty : UInt32} {symbol : UInt16}
    {side otype : UInt8} {pad : List Field}
    (h : s.Shows 0
      (pack (.Q order_id :: .Q price_fp :: .I qty :: .H symbol :: .B side :: .B otype :: pad))) :
    WireNewOrder.load s = ⟨order_id, price_fp, qty, symbol, side, otype⟩ := by
  simp only [shows_pack_cons, Field.width] at h
  obtain ⟨hid, hprice, hqty, hsymbol, hside, htype, _⟩ := h
  simp only [WireNewOrder.load, load_Q hid, load_Q hprice, load_I hqty, load_H hsymbol,
    load_B hside, load_B htype]

theorem cancel_order_of_bytes {order_id : UInt64} {symbol : UInt16} {pad : List Field}
    (h : s.Shows 0 (pack (.Q order_id :: .H symbol :: pad))) :
    WireCancelOrder.load s = ⟨order_id, symbol⟩ := by
  simp only [shows_pack_cons, Field.width] at h
  obtain ⟨hid, hsymbol, _⟩ := h
  simp only [WireCancelOrder.load, load_Q hid, load_H hsymbol]

theorem modify_order_of_bytes {order_id : UInt64} {new_qty : UInt32} {symbol : UInt16}
    {pad : List Field} (h : s.Shows 0 (pack (.Q order_id :: .I new_qty :: .H symbol :: pad))) :
    WireModifyOrder.load s = ⟨order_id, new_qty, symbol⟩ := by
  simp only [shows_pack_cons, Field.width] at h
  obtain ⟨hid, hqty, hsymbol, _⟩ := h
  simp only [WireModifyOrder.load, load_Q hid, load_I hqty, load_H hsymbol]

/-- The cast of an unsigned price is two's complement. -/
theorem priceOfBits_eq (bits : UInt64) : priceOfBits bits = bits.toBitVec.toInt := by
  have hlt := bits.toNat_lt
  rw [BitVec.toInt_eq_toNat_cond]
  show (if bits.toNat < 2 ^ 63 then (bits.toNat : Int) else bits.toNat - 2 ^ 64) =
    if 2 * bits.toNat < 2 ^ 64 then (bits.toNat : Int) else (bits.toNat : Int) - (2 ^ 64 : Nat)
  split <;> split <;> omega

/-! ## Section 4: The round trip -/

/-- The header a datagram carries. -/
def Datagram.header : Datagram → WireHeader
  | .new_order seq _ _ _ _ _ _ => ⟨kMagic, 1, kMsgNewOrder, seq, 26⟩
  | .cancel_order seq _ _ => ⟨kMagic, 1, kMsgCancelOrder, seq, 16⟩
  | .modify_order seq _ _ _ => ⟨kMagic, 1, kMsgModify, seq, 16⟩
  | .heartbeat seq => ⟨kMagic, 1, kMsgHeartbeat, seq, 0⟩

theorem length_wire_header (msg_type : UInt16) (seq : UInt64) (n : Nat) :
    (wire_header msg_type seq n).length = WireHeader.sizeof := by
  rw [wire_header, length_pack]
  rfl

/-- A header, with the length of the payload packed after it. -/
theorem shows_parts {data : Span} {msg_type : UInt16} {seq : UInt64} {fields : List Field}
    (h : data.Shows 0 (wire_header msg_type seq (pack fields).length ++ pack fields)) :
    WireHeader.load data = ⟨kMagic, 1, msg_type, seq, .ofNat (fields.map Field.width).sum⟩ ∧
      (payloadOf data).Shows 0 (pack fields) := by
  obtain ⟨hheader, hpayload⟩ := Span.shows_append.mp h
  rw [length_wire_header, Nat.zero_add] at hpayload
  refine ⟨?_, hpayload.subspan _⟩
  rw [header_of_bytes hheader, length_pack]

/-- The decoder for the type of a datagram fills in its message. -/
theorem Datagram.decode (d : Datagram) {data : Span} (h : data.Shows 0 d.bytes) :
    WireHeader.load data = d.header ∧
      ∃ reads, OptionsEngine.decode d.header (payloadOf data)
        { MarketDataMsg.zero with seq := d.header.seq_num } = some (reads, some d.message) := by
  cases d with
  | new_order seq order_id price_fp qty symbol side otype =>
    obtain ⟨hheader, hpayload⟩ := shows_parts h
    have hsize : (payloadOf data).size = 26 := by rw [payloadOf, hheader]; rfl
    refine ⟨hheader, (payloadOf data).extent WireNewOrder.sizeof, ?_⟩
    rw [decode_of_new_order rfl, decode_new_order, if_neg (by rw [hsize]; decide)]
    simp only [new_order_of_bytes hpayload, priceOfBits_eq, header, message]
  | cancel_order seq order_id symbol =>
    obtain ⟨hheader, hpayload⟩ := shows_parts h
    have hsize : (payloadOf data).size = 16 := by rw [payloadOf, hheader]; rfl
    refine ⟨hheader, (payloadOf data).extent WireCancelOrder.sizeof, ?_⟩
    rw [decode_of_cancel rfl, decode_cancel, if_neg (by rw [hsize]; decide)]
    simp only [cancel_order_of_bytes hpayload, header, message]
  | modify_order seq order_id new_qty symbol =>
    obtain ⟨hheader, hpayload⟩ := shows_parts h
    have hsize : (payloadOf data).size = 16 := by rw [payloadOf, hheader]; rfl
    refine ⟨hheader, (payloadOf data).extent WireModifyOrder.sizeof, ?_⟩
    rw [decode_of_modify rfl, decode_modify, if_neg (by rw [hsize]; decide)]
    simp only [modify_order_of_bytes hpayload, header, message]
  | heartbeat seq =>
    refine ⟨header_of_bytes h, [], ?_⟩
    rw [decode_of_heartbeat rfl]
    simp only [header, message]

/-- No datagram is shorter than a header. -/
theorem Datagram.length_bytes (d : Datagram) : WireHeader.sizeof ≤ d.bytes.length := by
  have happend : ∀ msg_type seq n payload,
      WireHeader.sizeof ≤ (wire_header msg_type seq n ++ payload).length := by
    intro msg_type seq n payload
    rw [List.length_append, length_wire_header]
    exact Nat.le_add_right _ _
  cases d with
  | new_order => exact happend ..
  | cancel_order => exact happend ..
  | modify_order => exact happend ..
  | heartbeat seq => exact Nat.le_of_eq (length_wire_header ..).symm

/-- Two datagrams of the same kind. -/
def Datagram.SameKind : Datagram → Datagram → Prop
  | .new_order .., .new_order .. => True
  | .cancel_order .., .cancel_order .. => True
  | .modify_order .., .modify_order .. => True
  | .heartbeat _, .heartbeat _ => True
  | _, _ => False

theorem zero_or_one {x : UInt8} (h : x ≤ 1) : x = 0 ∨ x = 1 := by
  have hle : x.toNat ≤ 1 := UInt8.le_iff_toNat_le.mp h
  rcases Nat.le_one_iff_eq_zero_or_eq_one.mp hle with hx | hx
  · exact Or.inl (UInt8.toNat_inj.mp hx)
  · exact Or.inr (UInt8.toNat_inj.mp hx)

/-- The message tells the values of a datagram in range. -/
theorem Datagram.message_inj {d d' : Datagram} (hd : d.InRange) (hd' : d'.InRange)
    (hkind : d.SameKind d') (h : d.message = d'.message) : d = d' := by
  cases d with
  | new_order seq order_id price_fp qty symbol side otype =>
    cases d' with
    | new_order seq' order_id' price_fp' qty' symbol' side' otype' =>
      simp only [message, MarketDataMsg.mk.injEq, OrderType.mk.injEq, true_and] at h
      obtain ⟨hseq, hid, hprice, hqty, hsymbol, hside, htype⟩ := h
      have hprice : price_fp = price_fp' := UInt64.toBitVec_inj.mp (BitVec.toInt_inj.mp hprice)
      have hside : side = side' := by
        rcases zero_or_one hd.1 with rfl | rfl <;> rcases zero_or_one hd'.1 with rfl | rfl
        all_goals first | rfl | exact absurd hside (by decide)
      simp [hseq, hid, hprice, hqty, hsymbol, hside, htype]
    | _ => cases hkind
  | cancel_order seq order_id symbol =>
    cases d' with
    | cancel_order seq' order_id' symbol' =>
      simpa [message, MarketDataMsg.zero] using h
    | _ => cases hkind
  | modify_order seq order_id new_qty symbol =>
    cases d' with
    | modify_order seq' order_id' new_qty' symbol' =>
      simpa [message, MarketDataMsg.zero] using h
    | _ => cases hkind
  | heartbeat seq =>
    cases d' with
    | heartbeat seq' => simpa [message, MarketDataMsg.zero] using h
    | _ => cases hkind

/-- A datagram of the generator, given to an ingestion whose outbound queue has
    room, is counted as ingested and enqueues the message with its values,
    whatever lies behind it in memory; and different datagrams of a kind give
    different messages. -/
theorem wire_round_trip (s : MarketDataIngestion) (d : Datagram) (beyond : Nat → UInt8) {n : Nat}
    {items : List MarketDataMsg} (hrange : d.InRange)
    (hqueue : s.outbound.Holds kQueueDepth n items) (hroom : items.length < kQueueDepth.size - 1) :
    let r := s.ingest (Span.ofBytes d.bytes beyond)
    r.result = 1 ∧ r.state.stat_ingested = s.stat_ingested + 1 ∧
      r.state.stat_errors = s.stat_errors ∧
      r.state.outbound.Holds kQueueDepth n (items ++ [d.message]) ∧
      ∀ d' : Datagram, d'.InRange → d.SameKind d' → d.message = d'.message → d = d' := by
  intro r
  obtain ⟨hheader, reads, hdecode⟩ := d.decode (Span.shows_ofBytes d.bytes beyond)
  have hmagic : (WireHeader.load (Span.ofBytes d.bytes beyond)).magic = kMagic := by
    rw [hheader]
    cases d <;> rfl
  obtain ⟨calls, heq⟩ := ingest_eq s d.length_bytes hmagic
  have hpush := hqueue.try_push d.message
  rw [if_neg (Nat.ne_of_lt hroom)] at hpush
  obtain ⟨q, hq, hholds⟩ := hpush
  rw [hheader, hdecode] at heq
  simp only [deliver, check_sequence, hq] at heq
  refine ⟨?_, ?_, ?_, ?_, fun d' hd' hkind => Datagram.message_inj hrange hd' hkind⟩
  · rw [show r = _ from heq]
  · rw [show r = _ from heq]
  · rw [show r = _ from heq]
  · rw [show r = _ from heq]
    exact hholds

/-- A sell order at a price of -5, the first message of an ingestion. -/
theorem wire_round_trip_first_sell :
    let d := Datagram.new_order 1 1001 (-5) 10 7 1 0
    let r := (fresh (.fresh fun _ => MarketDataMsg.zero)).ingest (Span.ofBytes d.bytes fun _ => 0)
    r.result = 1 ∧ r.state.stat_ingested = 1 ∧ r.state.stat_errors = 0 ∧
      r.state.outbound.Holds kQueueDepth 0 [⟨1, 1001, -5, 10, 7, .Sell, .NewOrder, ⟨0⟩⟩] := by
  intro d r
  have hrange : d.InRange := ⟨by decide, by decide⟩
  have hmessage : d.message = ⟨1, 1001, -5, 10, 7, .Sell, .NewOrder, ⟨0⟩⟩ := by decide
  obtain ⟨hresult, hingested, herrors, hholds, _⟩ :=
    wire_round_trip (fresh (.fresh fun _ => MarketDataMsg.zero)) d (fun _ => 0) hrange
      (SPSCQueue.holds_fresh _) (by decide)
  rw [hmessage, List.nil_append] at hholds
  simp only [r, hingested, herrors]
  exact ⟨hresult, rfl, rfl, hholds⟩

end OptionsEngine
