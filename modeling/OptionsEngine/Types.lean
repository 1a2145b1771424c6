import Mathlib.Logic.Function.Basic

/-! # Fundamental types of the engine (`core/types.hpp`)

    Prices are 64-bit fixed-point integers that the book only ever compares,
    so they are modelled as `Int`.  Quantities, identifiers and counters keep
    their machine width: their arithmetic wraps as it does in the source.

    `OrderType` and `MarketDataMsg.Type` are scoped enumerations over
    `uint8_t` into which the decoders cast unchecked bytes, so they carry the
    byte and name its listed values. -/

namespace OptionsEngine

abbrev Price := Int
abbrev Qty := UInt32
abbrev OrderId := UInt64
abbrev SymbolId := UInt16
abbrev SeqNum := UInt64

/-- `std::numeric_limits<Price>::min()`, the in-band "no price". -/
def PRICE_INVALID : Price := -9223372036854775808

/-! ## Enumerations -/

inductive Side where
  | Buy
  | Sell
  deriving DecidableEq, Repr

/-- The side an aggressor trades against. -/
def Side.opposite : Side → Side
  | .Buy => .Sell
  | .Sell => .Buy

@[simp] theorem Side.opposite_opposite (s : Side) : s.opposite.opposite = s := by
  cases s <;> rfl

theorem Side.opposite_ne (s : Side) : s.opposite ≠ s := by
  cases s <;> decide

theorem Side.eq_or_opposite (s t : Side) : t = s ∨ t = s.opposite := by
  cases s <;> cases t <;> simp [Side.opposite]

/-- `enum class OrderType : uint8_t`. -/
structure OrderType where
  byte : UInt8
  deriving DecidableEq, Repr

namespace OrderType

def Limit : OrderType := ⟨0⟩
def Market : OrderType := ⟨1⟩
def IOC : OrderType := ⟨2⟩
def FOK : OrderType := ⟨3⟩

/-- One of the four enumerators. -/
def Listed (t : OrderType) : Prop := t = Limit ∨ t = Market ∨ t = IOC ∨ t = FOK

instance (t : OrderType) : Decidable t.Listed :=
  inferInstanceAs (Decidable (_ ∨ _ ∨ _ ∨ _))

end OrderType

inductive ExecType where
  | New
  | Fill
  | PartialFill
  | Cancelled
  | Rejected
  deriving DecidableEq, Repr

/-! ## Orders, reports and quotes -/

/-- `struct Order`; its `status` is written but never read. -/
structure Order where
  id : OrderId
  price : Price
  qty : Qty
  qty_remaining : Qty
  symbol : SymbolId
  side : Side
  type : OrderType
  /-- Self-trade-prevention key; 0 means untracked. -/
  account_id : UInt32
  deriving DecidableEq, Repr

structure ExecutionReport where
  order_id : OrderId
  contra_order_id : OrderId
  exec_price : Price
  exec_qty : Qty
  leaves_qty : Qty
  symbol : SymbolId
  side : Side
  exec_type : ExecType
  deriving DecidableEq, Repr

structure BestQuote where
  bid_price : Price
  ask_price : Price
  bid_qty : Qty
  ask_qty : Qty
  symbol : SymbolId
  deriving DecidableEq, Repr

/-! ## Market data messages -/

/-- `enum class MarketDataMsg::Type : uint8_t`. -/
structure MsgType where
  byte : UInt8
  deriving DecidableEq, Repr

namespace MsgType

def NewOrder : MsgType := ⟨0⟩
def CancelOrder : MsgType := ⟨1⟩
def ModifyOrder : MsgType := ⟨2⟩
def Heartbeat : MsgType := ⟨3⟩

end MsgType

structure MarketDataMsg where
  seq : SeqNum
  order_id : OrderId
  price : Price
  qty : Qty
  symbol : SymbolId
  side : Side
  msg_type : MsgType
  order_type : OrderType
  deriving DecidableEq, Repr

end OptionsEngine
