import OptionsEngine.Framework.Span
import OptionsEngine.SpscQueue
import OptionsEngine.Types

/-! # Market data ingestion (`core/market_data.hpp`, `core/market_data.cpp`)

    `ingest` decodes one datagram and pushes at most one message to the
    outbound queue.  The datagram is a span over a memory: what lies behind it
    is there to be read by code that goes too far.  Besides its result and the
    new state, `ingest` returns the addresses it read and the calls it made to
    the gap callback. -/

namespace OptionsEngine

open Ring Memory

def kMsgNewOrder : UInt16 := 1
def kMsgCancelOrder : UInt16 := 2
def kMsgModify : UInt16 := 3
def kMsgHeartbeat : UInt16 := 99

def kMagic : UInt32 := 0xFEED1234

/-! ## Wire format: packed structs on a little-endian host -/

structure WireHeader where
  magic : UInt32
  version : UInt16
  msg_type : UInt16
  seq_num : UInt64
  payload_len : UInt32
  deriving DecidableEq, Repr

def WireHeader.sizeof : Nat := 20

def WireHeader.load (s : Span) : WireHeader where
  magic := .ofNat (s.le 0 4)
  version := .ofNat (s.le 4 2)
  msg_type := .ofNat (s.le 6 2)
  seq_num := .ofNat (s.le 8 8)
  payload_len := .ofNat (s.le 16 4)

structure WireNewOrder where
  order_id : UInt64
  price_fp : UInt64
  qty : UInt32
  symbol_id : UInt16
  side : UInt8
  order_type : UInt8
  deriving DecidableEq, Repr

def WireNewOrder.sizeof : Nat := 24

def WireNewOrder.load (s : Span) : WireNewOrder where
  order_id := .ofNat (s.le 0 8)
  price_fp := .ofNat (s.le 8 8)
  qty := .ofNat (s.le 16 4)
  symbol_id := .ofNat (s.le 20 2)
  side := .ofNat (s.le 22 1)
  order_type := .ofNat (s.le 23 1)

/-- The trailing padding is copied and never looked at. -/
structure WireCancelOrder where
  order_id : UInt64
  symbol_id : UInt16
  deriving DecidableEq, Repr

def WireCancelOrder.sizeof : Nat := 16

def WireCancelOrder.load (s : Span) : WireCancelOrder where
  order_id := .ofNat (s.le 0 8)
  symbol_id := .ofNat (s.le 8 2)

/-- The trailing padding is copied and never looked at. -/
structure WireModifyOrder where
  order_id : UInt64
  new_qty : UInt32
  symbol_id : UInt16
  deriving DecidableEq, Repr

def WireModifyOrder.sizeof : Nat := 16

def WireModifyOrder.load (s : Span) : WireModifyOrder where
  order_id := .ofNat (s.le 0 8)
  new_qty := .ofNat (s.le 8 4)
  symbol_id := .ofNat (s.le 12 2)

/-- `static_cast<Price>` of an unsigned value. -/
def priceOfBits (bits : UInt64) : Price :=
  if bits.toNat < 2 ^ 63 then bits.toNat else bits.toNat - 2 ^ 64

/-! ## The decoders

    A decoder returns the addresses it read and, unless it returns false, the
    message it filled in. -/

/-- `MarketDataMsg msg{}`. -/
def MarketDataMsg.zero : MarketDataMsg := ⟨0, 0, 0, 0, 0, .Buy, .NewOrder, .Limit⟩

def decode_new_order (_hdr : WireHeader) (payload : Span) (out : MarketDataMsg) :
    List Nat × Option MarketDataMsg :=
  if payload.size < WireNewOrder.sizeof then ([], none)
  else
    let w := WireNewOrder.load payload
    (payload.extent WireNewOrder.sizeof,
      some { out with
        msg_type := .NewOrder
        order_id := w.order_id
        price := priceOfBits w.price_fp
        qty := w.qty
        symbol := w.symbol_id
        -- any other byte is a sell; the order type is cast unchecked
        side := if w.side = 0 then .Buy else .Sell
        order_type := ⟨w.order_type⟩ })

def decode_cancel (_hdr : WireHeader) (payload : Span) (out : MarketDataMsg) :
    List Nat × Option MarketDataMsg :=
  if payload.size < WireCancelOrder.sizeof then ([], none)
  else
    let w := WireCancelOrder.load payload
    (payload.extent WireCancelOrder.sizeof,
      some { out with msg_type := .CancelOrder, order_id := w.order_id, symbol := w.symbol_id })

def decode_modify (_hdr : WireHeader) (payload : Span) (out : MarketDataMsg) :
    List Nat × Option MarketDataMsg :=
  if payload.size < WireModifyOrder.sizeof then ([], none)
  else
    let w := WireModifyOrder.load payload
    (payload.extent WireModifyOrder.sizeof,
      some { out with
        msg_type := .ModifyOrder
        order_id := w.order_id
        qty := w.new_qty
        symbol := w.symbol_id })

/-- The switch over the message type; the default case is `none`. -/
def decode (hdr : WireHeader) (payload : Span) (msg : MarketDataMsg) :
    Option (List Nat × Option MarketDataMsg) :=
  if hdr.msg_type = kMsgNewOrder then some (decode_new_order hdr payload msg)
  else if hdr.msg_type = kMsgCancelOrder then some (decode_cancel hdr payload msg)
  else if hdr.msg_type = kMsgModify then some (decode_modify hdr payload msg)
  else if hdr.msg_type = kMsgHeartbeat then some ([], some { msg with msg_type := .Heartbeat })
  else none

/-! ## The ingestion engine -/

structure MarketDataIngestion where
  outbound : SPSCQueue MarketDataMsg
  /-- Whether a gap callback is set. -/
  gap_cb : Bool
  expected_seq : UInt64
  stat_ingested : UInt64
  stat_gaps : UInt64
  stat_errors : UInt64

/-- What a call of `ingest` leaves and does. -/
structure Ingested where
  state : MarketDataIngestion
  /-- The number of messages decoded. -/
  result : Int
  /-- The addresses read. -/
  reads : List Nat
  /-- The calls `gap_cb_(expected, got)`. -/
  gap_calls : List (UInt64 × UInt64)

namespace MarketDataIngestion

def kQueueDepth : Capacity := ⟨65536, one_lt_depth, pow_two_depth, depth_fits⟩

/-- The constructor, with an outbound queue that is already there. -/
def fresh (outbound : SPSCQueue MarketDataMsg) : MarketDataIngestion := ⟨outbound, false, 0, 0, 0, 0⟩

/-- One more parse error. -/
def parse_error (s : MarketDataIngestion) : MarketDataIngestion :=
  { s with stat_errors := s.stat_errors + 1 }

/-- The sequence numbers of this header do not follow on. -/
def gap (s : MarketDataIngestion) (hdr : WireHeader) : Bool :=
  s.expected_seq ≠ 0 && hdr.seq_num ≠ s.expected_seq

/-- Sequence-number gap detection. -/
def check_sequence (s : MarketDataIngestion) (hdr : WireHeader) : MarketDataIngestion :=
  { s with
    stat_gaps := if s.gap hdr then s.stat_gaps + 1 else s.stat_gaps
    expected_seq := hdr.seq_num + 1 }

/-- What follows the switch: an unknown type, a decoder that returned false,
    or a message for the outbound queue. -/
def deliver (s : MarketDataIngestion) (reads : List Nat) (gap_calls : List (UInt64 × UInt64)) :
    Option (List Nat × Option MarketDataMsg) → Ingested
  | none => ⟨s.parse_error, 0, reads, gap_calls⟩
  | some (more, none) => ⟨s.parse_error, 0, reads ++ more, gap_calls⟩
  | some (more, some msg) =>
    match s.outbound.try_push kQueueDepth msg with
    -- a full queue: neither ingested nor a parse error
    | (_, false) => ⟨s, 0, reads ++ more, gap_calls⟩
    | (outbound, true) =>
      ⟨{ s with outbound := outbound, stat_ingested := s.stat_ingested + 1 }, 1,
        reads ++ more, gap_calls⟩

def ingest (s : MarketDataIngestion) (data : Span) : Ingested :=
  if data.size < WireHeader.sizeof then ⟨s.parse_error, 0, [], []⟩
  else
    let hdr := WireHeader.load data
    let reads := data.extent WireHeader.sizeof
    if hdr.magic ≠ kMagic then ⟨s.parse_error, 0, reads, []⟩
    else
      -- the sequence is checked before the payload is, and also moves on for a bad one
      let calls := if s.gap hdr && s.gap_cb then [(s.expected_seq, hdr.seq_num)] else []
      let s := s.check_sequence hdr
      -- the span has the length the header claims, whatever the buffer holds
      let payload := data.subspan WireHeader.sizeof hdr.payload_len.toNat
      if payload.size < hdr.payload_len.toNat then ⟨s.parse_error, 0, reads, calls⟩
      else
        s.deliver reads calls
          (decode hdr payload { MarketDataMsg.zero with seq := hdr.seq_num })

/-- Inject a synthetic message. -/
def inject (s : MarketDataIngestion) (msg : MarketDataMsg) : MarketDataIngestion × Bool :=
  let (outbound, ok) := s.outbound.try_push kQueueDepth msg
  ({ s with outbound := outbound }, ok)

def reset_sequence (s : MarketDataIngestion) : MarketDataIngestion := { s with expected_seq := 0 }

end MarketDataIngestion

end OptionsEngine
