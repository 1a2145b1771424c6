import OptionsEngine.Types
import OptionsEngine.Framework.LiveArray
import OptionsEngine.Framework.LinkedQueue
import OptionsEngine.Framework.ProbeTable

/-! # The order book (`core/order_book.hpp`, `core/order_book.cpp`)

    A function-by-function translation.  An array is a function from indices;
    the cells nothing has written hold the contents of uninitialised memory.
    Indices and cursors are `Nat`, quantities and counters `UInt32`.

    A loop of the source is a bounded `loop`, with a bound the source's
    capacities suggest; `none` stands for a loop that does not end within it.

    Two things are recorded that the program does not store, so that whole
    runs can be talked about: each call says at which `return` it left
    (`Outcome`), and each execution report comes with the book and the passive
    slot at the moment of the fill (`MatchEvent`). -/

namespace OptionsEngine

open Function Loop LiveArray

/-- `UINT32_MAX`, the null slot index. -/
def NULL_IDX : Nat := 4294967295

namespace OrderBook

def kMaxLevels : Nat := 4096
def kMaxOrders : Nat := 65536

/-! ## Price levels of one side -/

/-- `OrderBook::Side`: five parallel arrays, of which the first `count` cells
    are live. -/
structure Side where
  prices : Nat → Price
  qtys : Nat → Qty
  order_counts : Nat → UInt32
  head_idxs : Nat → Nat
  tail_idxs : Nat → Nat
  count : Nat

namespace Side

/-- The scalar search; `none` is the source's `-1`. -/
def find_level (s : Side) (p : Price) : Option Nat :=
  (List.range s.count).find? fun i => s.prices i == p

/-- The first position whose price does not come before `p`. -/
def insert_pos (s : Side) (p : Price) (descending : Bool) : Nat :=
  ((List.range s.count).find? fun i =>
    if descending then !decide (s.prices i > p) else !decide (s.prices i < p)).getD s.count

def insert_level (s : Side) (p : Price) (descending : Bool) : Option (Nat × Side) :=
  if s.count ≥ kMaxLevels then none
  else
    -- the five arrays move up by one from `pos` on, and an empty row is written there
    let pos := s.insert_pos p descending
    let n := s.count - pos
    some (pos,
      { prices := update (memmove s.prices (pos + 1) pos n) pos p
        qtys := update (memmove s.qtys (pos + 1) pos n) pos 0
        order_counts := update (memmove s.order_counts (pos + 1) pos n) pos 0
        head_idxs := update (memmove s.head_idxs (pos + 1) pos n) pos NULL_IDX
        tail_idxs := update (memmove s.tail_idxs (pos + 1) pos n) pos NULL_IDX
        count := s.count + 1 })

def remove_level (s : Side) (idx : Nat) : Side :=
  let n := s.count - idx - 1
  { prices := memmove s.prices idx (idx + 1) n
    qtys := memmove s.qtys idx (idx + 1) n
    order_counts := memmove s.order_counts idx (idx + 1) n
    head_idxs := memmove s.head_idxs idx (idx + 1) n
    tail_idxs := memmove s.tail_idxs idx (idx + 1) n
    count := s.count - 1 }

end Side

/-! ## Order slots -/

/-- `OrderBook::SlotPool`: parallel arrays per order slot. -/
structure SlotPool where
  ids : Nat → OrderId
  qtys : Nat → Qty
  nexts : Nat → Nat
  prevs : Nat → Nat
  free_nexts : Nat → Nat
  prices : Nat → Price
  accounts : Nat → UInt32
  free_head : Nat
  used : UInt32

namespace SlotPool

/-- Thread every slot onto the free list. -/
def init (p : SlotPool) : SlotPool :=
  { p with
    free_nexts := fun i =>
      if i < kMaxOrders - 1 then i + 1
      else if i = kMaxOrders - 1 then NULL_IDX
      else p.free_nexts i
    free_head := 0
    used := 0 }

def alloc (p : SlotPool) : Nat × SlotPool :=
  if p.free_head = NULL_IDX then (NULL_IDX, p)
  else
    let idx := p.free_head
    (idx, { p with free_head := p.free_nexts idx, used := p.used + 1 })

def free_slot (p : SlotPool) (idx : Nat) : SlotPool :=
  { p with
    free_nexts := update p.free_nexts idx p.free_head
    free_head := idx
    used := p.used - 1 }

end SlotPool

/-! ## The order index -/

namespace OrderIndex

def kTableSize : Nat := kMaxOrders * 2

/-- `UINT32_MAX` in the slot field marks an empty entry. -/
def kEmpty : Nat := 4294967295

structure Entry where
  key : OrderId
  slot : Nat
  side : UInt8

/-- The home cell of an id. -/
def hash (id : OrderId) : Nat := ((id * 2654435761) >>> 32).toUInt32.toNat % kTableSize

def layout : ProbeTable.Layout OrderId Entry where
  size := kTableSize
  home := hash
  home_lt := fun _ => Nat.mod_lt _ (by decide)
  isEmpty := fun e => e.slot == kEmpty
  key := Entry.key

end OrderIndex

/-- `OrderBook::OrderIndex`: an open-addressed table from ids to slots. -/
structure OrderIndex where
  table : Nat → OrderIndex.Entry

namespace OrderIndex

def init : OrderIndex := ⟨fun _ => { key := 0, slot := kEmpty, side := 0xFF }⟩

def probe (t : OrderIndex) (id : OrderId) : Option Nat :=
  ProbeTable.probe layout t.table id

def insert (t : OrderIndex) (id : OrderId) (slot : Nat) (side : UInt8) :
    Option (Bool × OrderIndex) :=
  (t.probe id).map fun h =>
    -- an entry of the same id is overwritten
    if (t.table h).slot ≠ kEmpty ∧ (t.table h).key ≠ id then (false, t)
    else (true, ⟨update t.table h { key := id, slot := slot, side := side }⟩)

def lookup (t : OrderIndex) (id : OrderId) : Option (Option (Nat × UInt8)) :=
  (t.probe id).map fun h =>
    if (t.table h).slot = kEmpty then none
    else some ((t.table h).slot, (t.table h).side)

/-- Empty the entry and put the rest of its cluster back in. -/
def remove (t : OrderIndex) (id : OrderId) : Option (Bool × OrderIndex) :=
  (t.probe id).bind fun h =>
    if (t.table h).slot = kEmpty then some (false, t)
    else
      -- the entries behind may have been displaced past this cell
      let t' := update t.table h { t.table h with slot := kEmpty, key := 0 }
      (ProbeTable.reinsert layout (fun e => { e with slot := kEmpty }) t'
        ((h + 1) % kTableSize)).map fun t'' => (true, ⟨t''⟩)

end OrderIndex

end OrderBook

/-! ## The book -/

/-- `struct PriceLevel`, a level as it is reported. -/
structure PriceLevel where
  price : Price
  total_qty : Qty
  order_count : UInt32
  head_idx : Nat

/-- `class OrderBook`. -/
structure OrderBook where
  symbol : SymbolId
  bids : OrderBook.Side
  asks : OrderBook.Side
  slots : OrderBook.SlotPool
  index : OrderBook.OrderIndex
  stat_orders : UInt64
  stat_matches : UInt64
  stat_cancelled : UInt64
  stat_rejected : UInt64
  stat_self_trade_prevented : UInt64

/-- An execution report, with the book and the passive slot it is about at the
    moment of the fill. -/
structure MatchEvent where
  book : OrderBook
  slot : Nat
  report : ExecutionReport

/-- The `return` statement at which a call left. -/
inductive Outcome where
  /-- `add_order`: fill-or-kill without enough liquidity. -/
  | fok_rejected
  /-- `add_order`: Market, IOC or FOK, matched and not booked. -/
  | immediate
  /-- `add_order`: completely filled. -/
  | filled
  /-- `add_order`: the remainder was dropped at a self-trade wall. -/
  | stp_walled
  /-- `add_order`: no room for another price level. -/
  | level_rejected
  /-- `add_order`: no free slot. -/
  | slot_rejected
  /-- `add_order`: the remainder rests in a slot. -/
  | rested (slot : Nat)
  /-- `cancel_order`, `modify_order`: the id is not indexed. -/
  | unknown_id
  /-- `cancel_order`, `modify_order`: the indexed slot's level is gone. -/
  | level_gone
  /-- `cancel_order`: the order left its slot. -/
  | cancelled (slot : Nat)
  /-- `modify_order`: the order in the slot was modified. -/
  | modified (slot : Nat)
  deriving DecidableEq, Repr

/-- The value returned there. -/
def Outcome.ret : Outcome → Bool
  | .fok_rejected | .level_rejected | .slot_rejected | .unknown_id | .level_gone => false
  | .immediate | .filled | .stp_walled | .rested _ | .cancelled _ | .modified _ => true

/-- What one call returns and emits. -/
structure Response where
  outcome : Outcome
  events : List MatchEvent

namespace Response

def ret (r : Response) : Bool := r.outcome.ret

def reports (r : Response) : List ExecutionReport := r.events.map MatchEvent.report

end Response

namespace OrderBook

/-- The constructor: counters and links are set up, the arrays keep what the
    memory `mem` held. -/
def fresh (mem : OrderBook) (symbol : SymbolId) : OrderBook where
  symbol := symbol
  bids := { mem.bids with count := 0 }
  asks := { mem.asks with count := 0 }
  slots := mem.slots.init
  index := OrderIndex.init
  stat_orders := 0
  stat_matches := 0
  stat_cancelled := 0
  stat_rejected := 0
  stat_self_trade_prevented := 0

/-- `bids_` or `asks_`. -/
def side (b : OrderBook) : OptionsEngine.Side → Side
  | .Buy => b.bids
  | .Sell => b.asks

def setSide (b : OrderBook) (s : OptionsEngine.Side) (x : Side) : OrderBook :=
  match s with
  | .Buy => { b with bids := x }
  | .Sell => { b with asks := x }

/-- The side selected by a side index of the order index. -/
def sideOf (side_idx : UInt8) : OptionsEngine.Side := if side_idx = 0 then .Buy else .Sell

/-- The side index under which a side is stored. -/
def sideIdx : OptionsEngine.Side → UInt8
  | .Buy => 0
  | .Sell => 1

/-! ### Matching -/

/-- The locals of `try_match`. -/
structure MatchState where
  book : OrderBook
  incoming : Order
  events : List MatchEvent

/-- The report fired for a fill of `fill_qty` against the order in `slot`,
    after which `incoming` has its new remaining quantity. -/
def report (b : OrderBook) (incoming : Order) (slot : Nat) (best_passive : Price)
    (fill_qty : Qty) : ExecutionReport where
  order_id := incoming.id
  contra_order_id := b.slots.ids slot
  exec_price := best_passive
  exec_qty := fill_qty
  leaves_qty := incoming.qty_remaining
  symbol := b.symbol
  side := incoming.side
  exec_type := if incoming.qty_remaining = 0 then .Fill else .PartialFill

/-- Fill against the head of the best level: update the quantities and fire
    the report. -/
def fill_head (passive : OptionsEngine.Side) (best_passive : Price) (m : MatchState)
    (slot : Nat) : MatchState :=
  let b := m.book
  let side := b.side passive
  let fill_qty := min m.incoming.qty_remaining (b.slots.qtys slot)
  let slots := { b.slots with qtys := update b.slots.qtys slot (b.slots.qtys slot - fill_qty) }
  let side := { side with qtys := update side.qtys 0 (side.qtys 0 - fill_qty) }
  -- the report carries what the aggressor has left after this fill
  let incoming := { m.incoming with qty_remaining := m.incoming.qty_remaining - fill_qty }
  { book := { b.setSide passive side with slots := slots, stat_matches := b.stat_matches + 1 }
    incoming := incoming
    events := m.events ++
      [{ book := b, slot := slot, report := b.report incoming slot best_passive fill_qty }] }

/-- The passive order is used up: dequeue it from the head and free its slot. -/
def dequeue_head (passive : OptionsEngine.Side) (b : OrderBook) (slot : Nat) :
    Option OrderBook :=
  let side := b.side passive
  let head := b.slots.nexts slot
  let side :=
    { side with
      head_idxs := update side.head_idxs 0 head
      -- the tail is reset only if the level is now empty
      tail_idxs := if head = NULL_IDX then update side.tail_idxs 0 NULL_IDX else side.tail_idxs
      order_counts := update side.order_counts 0 (side.order_counts 0 - 1) }
  let slots :=
    if head = NULL_IDX then b.slots
    else { b.slots with prevs := update b.slots.prevs head NULL_IDX }
  (b.index.remove (b.slots.ids slot)).map fun (_, index) =>
    { b.setSide passive side with slots := slots.free_slot slot, index := index }

/-- One pass of the inner loop of `try_match`, over the queue of level 0; it
    leaves with `true` at a self-trade wall. -/
def match_head (passive : OptionsEngine.Side) (best_passive : Price) (m : MatchState) :
    Option (LoopStep MatchState (Bool × MatchState)) :=
  let slot := (m.book.side passive).head_idxs 0
  if slot ≠ NULL_IDX ∧ m.incoming.qty_remaining > 0 then
    if m.incoming.account_id ≠ 0 ∧ m.incoming.account_id = m.book.slots.accounts slot then
      -- stop, not skip: an order queued later must not be matched first
      some (.exit (true, m))
    else
      let m' := fill_head passive best_passive m slot
      if m'.book.slots.qtys slot = 0 then
        (dequeue_head passive m'.book slot).map fun b => .next { m' with book := b }
      else some (.next m')
  else some (.exit (false, m))

/-- Does the limit of `incoming` stop it before the price `px`?  Only a Market
    order ignores its price. -/
def price_stops (incoming : Order) (px : Price) : Bool :=
  if incoming.type = .Market then false
  else
    match incoming.side with
    | .Buy => decide (incoming.price < px)
    | .Sell => decide (incoming.price > px)

/-- One pass of the outer loop of `try_match`, over the levels. -/
def match_level (passive : OptionsEngine.Side) (m : MatchState) :
    Option (LoopStep MatchState (Bool × MatchState)) :=
  if m.incoming.qty_remaining > 0 ∧ (m.book.side passive).count > 0 then
    let best_passive := (m.book.side passive).prices 0
    if price_stops m.incoming best_passive then some (.exit (false, m))
    else
      (loop (match_head passive best_passive) (kMaxOrders + 1) m).map fun (walled, m) =>
        if walled then .exit (true, m)
        else
          -- an exhausted level goes, and the next one becomes level 0
          let side := m.book.side passive
          if side.order_counts 0 = 0 then
            .next { m with book := m.book.setSide passive (side.remove_level 0) }
          else .next m
  else some (.exit (false, m))

/-- `try_match`: whether it stopped at a self-trade wall, and the locals it
    leaves. -/
def try_match (b : OrderBook) (incoming : Order) : Option (Bool × MatchState) :=
  loop (match_level incoming.side.opposite) (kMaxLevels + 1)
    { book := b, incoming := incoming, events := [] }

/-! ### The fill-or-kill pre-check -/

/-- One pass of the queue walk of `available_liquidity`; it leaves with `true`
    where the source returns. -/
def liquidity_slot (slots : SlotPool) (incoming : Order) (s : Nat × Nat) :
    Option (LoopStep (Nat × Nat) (Bool × Nat)) :=
  let (idx, total) := s
  if idx ≠ NULL_IDX then
    if incoming.account_id ≠ 0 ∧ incoming.account_id = slots.accounts idx then
      -- what stands behind a wall cannot be matched
      some (.exit (true, total))
    else
      let total := total + (slots.qtys idx).toNat
      if total ≥ incoming.qty_remaining.toNat then some (.exit (true, total))
      else some (.next (slots.nexts idx, total))
  else some (.exit (false, total))

/-- One pass of the level loop of `available_liquidity`. -/
def liquidity_level (side : Side) (slots : SlotPool) (incoming : Order) (s : Nat × Nat) :
    Option (LoopStep (Nat × Nat) Nat) :=
  let (i, total) := s
  if i < side.count then
    if price_stops incoming (side.prices i) then some (.exit total)
    else
      (loop (liquidity_slot slots incoming) (kMaxOrders + 1) (side.head_idxs i, total)).map
        fun (done, total) => if done then .exit total else .next (i + 1, total)
  else some (.exit total)

def available_liquidity (b : OrderBook) (incoming : Order) : Option Qty :=
  (loop (liquidity_level (b.side incoming.side.opposite) b.slots incoming) (kMaxLevels + 1)
    (0, 0)).map fun total => UInt32.ofNat (min total 4294967295)

/-! ### Resting -/

/-- Find the level for a price, creating it if need be; the flag says whether
    it was created. -/
def find_or_insert (side : Side) (p : Price) (descending : Bool) : Option (Nat × Bool × Side) :=
  match side.find_level p with
  | some lvl_idx => some (lvl_idx, false, side)
  | none =>
    match side.insert_level p descending with
    | some (lvl_idx, side) => some (lvl_idx, true, side)
    | none => none

/-- Fill in the slot of a newly resting order. -/
def write_slot (slots : SlotPool) (slot : Nat) (o : Order) : SlotPool :=
  { slots with
    ids := update slots.ids slot o.id
    accounts := update slots.accounts slot o.account_id
    qtys := update slots.qtys slot o.qty_remaining
    nexts := update slots.nexts slot NULL_IDX
    prices := update slots.prices slot o.price }

/-- Append a slot, whose forward link is null already, to a level's queue. -/
def append_new (side : Side) (slots : SlotPool) (lvl slot : Nat) : Side × SlotPool :=
  if side.head_idxs lvl = NULL_IDX then
    ({ side with
        head_idxs := update side.head_idxs lvl slot
        tail_idxs := update side.tail_idxs lvl slot },
     { slots with prevs := update slots.prevs slot NULL_IDX })
  else
    let old_tail := side.tail_idxs lvl
    ({ side with tail_idxs := update side.tail_idxs lvl slot },
     { slots with
        nexts := update slots.nexts old_tail slot
        prevs := update slots.prevs slot old_tail })

/-- The part of `add_order` that rests the unfilled remainder of `o`. -/
def rest_order (b : OrderBook) (o : Order) (events : List MatchEvent) :
    Option (Response × OrderBook) :=
  match find_or_insert (b.side o.side) o.price (o.side = .Buy) with
  | none =>
    some ({ outcome := .level_rejected, events := events },
      { b with stat_rejected := b.stat_rejected + 1 })
  | some (lvl_idx, created_level, side) =>
    let (slot, slots) := b.slots.alloc
    if slot = NULL_IDX then
      -- roll back the level only if it was created for this order
      let side := if created_level then side.remove_level lvl_idx else side
      some ({ outcome := .slot_rejected, events := events },
        { b.setSide o.side side with stat_rejected := b.stat_rejected + 1 })
    else
      let slots := write_slot slots slot o
      let (side, slots) := append_new side slots lvl_idx slot
      let side :=
        { side with
          qtys := update side.qtys lvl_idx (side.qtys lvl_idx + o.qty_remaining)
          order_counts := update side.order_counts lvl_idx (side.order_counts lvl_idx + 1) }
      -- the result of the insertion is not looked at
      (b.index.insert o.id slot (sideIdx o.side)).map fun (_, index) =>
        ({ outcome := .rested slot, events := events },
          { b.setSide o.side side with slots := slots, index := index })

/-! ### The public operations -/

/-- Matching for the types that never rest: Market, IOC and (after the
    pre-check) FOK. -/
def add_immediate (b : OrderBook) (o : Order) : Option (Response × OrderBook) :=
  (b.try_match o).map fun (_, m) =>
    ({ outcome := .immediate, events := m.events }, m.book)

/-- Matching for every other type: the remainder rests unless matching stopped
    at a self-trade wall. -/
def add_resting (b : OrderBook) (o : Order) : Option (Response × OrderBook) :=
  (b.try_match o).bind fun (stp_walled, m) =>
    if m.incoming.qty_remaining = 0 then
      some ({ outcome := .filled, events := m.events }, m.book)
    -- resting here would leave the book crossed: the remainder is dropped
    else if stp_walled then
      some ({ outcome := .stp_walled, events := m.events },
        { m.book with stat_self_trade_prevented := m.book.stat_self_trade_prevented + 1 })
    else rest_order m.book m.incoming m.events

def add_order (b : OrderBook) (order : Order) : Option (Response × OrderBook) :=
  let b := { b with stat_orders := b.stat_orders + 1 }
  if order.type = .Market ∨ order.type = .IOC ∨ order.type = .FOK then
    if order.type = .FOK then
      -- checked before executing, so that a rejected order leaves no fills behind
      (b.available_liquidity order).bind fun available =>
        if available < order.qty_remaining then
          some ({ outcome := .fok_rejected, events := [] },
            { b with stat_rejected := b.stat_rejected + 1 })
        else b.add_immediate order
    else b.add_immediate order
  else b.add_resting order

/-- The O(1) unlink, written out alike in `remove_order_from_level` and in
    `modify_order`. -/
def unlink (side : Side) (slots : SlotPool) (lvl slot : Nat) : Side × SlotPool :=
  let prev := slots.prevs slot
  let next := slots.nexts slot
  ({ side with
      head_idxs := if prev ≠ NULL_IDX then side.head_idxs else update side.head_idxs lvl next
      tail_idxs := if next ≠ NULL_IDX then side.tail_idxs else update side.tail_idxs lvl prev },
   { slots with
      nexts := if prev ≠ NULL_IDX then update slots.nexts prev next else slots.nexts
      prevs := if next ≠ NULL_IDX then update slots.prevs next prev else slots.prevs })

def remove_order_from_level (b : OrderBook) (s : OptionsEngine.Side) (level_idx slot : Nat) :
    OrderBook :=
  let side := b.side s
  let side :=
    { side with
      qtys := update side.qtys level_idx (side.qtys level_idx - b.slots.qtys slot)
      order_counts := update side.order_counts level_idx (side.order_counts level_idx - 1) }
  let (side, slots) := unlink side b.slots level_idx slot
  let slots := slots.free_slot slot
  let side := if side.order_counts level_idx = 0 then side.remove_level level_idx else side
  { b.setSide s side with slots := slots }

def cancel_order (b : OrderBook) (order_id : OrderId) : Option (Response × OrderBook) :=
  (b.index.lookup order_id).bind fun
    | none => some ({ outcome := .unknown_id, events := [] }, b)
    | some (slot, side_idx) =>
      let s := sideOf side_idx
      match (b.side s).find_level (b.slots.prices slot) with
      | none =>
        -- only the index is cleaned up
        (b.index.remove order_id).map fun (_, index) =>
          ({ outcome := .level_gone, events := [] }, { b with index := index })
      | some lvl =>
        let b := b.remove_order_from_level s lvl slot
        (b.index.remove order_id).map fun (_, index) =>
          ({ outcome := .cancelled slot, events := [] },
            { b with index := index, stat_cancelled := b.stat_cancelled + 1 })

/-- Re-append an unlinked slot at the tail of its level, as `modify_order`
    does after a quantity increase. -/
def append_again (side : Side) (slots : SlotPool) (lvl slot : Nat) : Side × SlotPool :=
  if side.head_idxs lvl = NULL_IDX then
    ({ side with
        head_idxs := update side.head_idxs lvl slot
        tail_idxs := update side.tail_idxs lvl slot },
     { slots with
        prevs := update slots.prevs slot NULL_IDX
        nexts := update slots.nexts slot NULL_IDX })
  else
    let old_tail := side.tail_idxs lvl
    ({ side with tail_idxs := update side.tail_idxs lvl slot },
     { slots with
        nexts := update (update slots.nexts old_tail slot) slot NULL_IDX
        prevs := update slots.prevs slot old_tail })

def modify_order (b : OrderBook) (order_id : OrderId) (new_qty : Qty) :
    Option (Response × OrderBook) :=
  (b.index.lookup order_id).bind fun
    | none => some ({ outcome := .unknown_id, events := [] }, b)
    | some (slot, side_idx) =>
      let s := sideOf side_idx
      let side := b.side s
      match side.find_level (b.slots.prices slot) with
      | none =>
        (b.index.remove order_id).map fun (_, index) =>
          ({ outcome := .level_gone, events := [] }, { b with index := index })
      | some lvl =>
        let old_qty := b.slots.qtys slot
        if new_qty > old_qty then
          -- an increase loses time priority: unlink, then append at the tail
          let (side, slots) := unlink side b.slots lvl slot
          let (side, slots) := append_again side slots lvl slot
          let side := { side with qtys := update side.qtys lvl (side.qtys lvl + (new_qty - old_qty)) }
          let slots := { slots with qtys := update slots.qtys slot new_qty }
          some ({ outcome := .modified slot, events := [] }, { b.setSide s side with slots := slots })
        else if new_qty < old_qty then
          -- a decrease keeps the place in the queue
          let side := { side with qtys := update side.qtys lvl (side.qtys lvl - (old_qty - new_qty)) }
          let slots := { b.slots with qtys := update b.slots.qtys slot new_qty }
          let b := { b.setSide s side with slots := slots }
          if new_qty = 0 then
            let b := b.remove_order_from_level s lvl slot
            (b.index.remove order_id).map fun (_, index) =>
              ({ outcome := .modified slot, events := [] }, { b with index := index })
          else some ({ outcome := .modified slot, events := [] }, b)
        else some ({ outcome := .modified slot, events := [] }, b)

def best_quote (b : OrderBook) : BestQuote where
  symbol := b.symbol
  bid_price := if b.bids.count > 0 then b.bids.prices 0 else PRICE_INVALID
  ask_price := if b.asks.count > 0 then b.asks.prices 0 else PRICE_INVALID
  bid_qty := if b.bids.count > 0 then b.bids.qtys 0 else 0
  ask_qty := if b.asks.count > 0 then b.asks.qtys 0 else 0

/-- The loop of `bid_depth` and `ask_depth`: the best levels of a side, as many
    as there are and as the output has room for. -/
def depth (side : Side) (size : Nat) : List PriceLevel :=
  (List.range (min size side.count)).map fun i =>
    { price := side.prices i
      total_qty := side.qtys i
      order_count := side.order_counts i
      head_idx := side.head_idxs i }

/-- The levels written to an output of `size` cells; their number is returned. -/
def bid_depth (b : OrderBook) (size : Nat) : List PriceLevel := depth b.bids size

def ask_depth (b : OrderBook) (size : Nat) : List PriceLevel := depth b.asks size

end OrderBook

/-! ## Runs -/

/-- A call of the public interface. -/
inductive Op where
  | add (order : Order)
  | cancel (order_id : OrderId)
  | modify (order_id : OrderId) (new_qty : Qty)

namespace OrderBook

def apply (b : OrderBook) : Op → Option (Response × OrderBook)
  | .add order => b.add_order order
  | .cancel order_id => b.cancel_order order_id
  | .modify order_id new_qty => b.modify_order order_id new_qty

/-- A sequence of calls: the responses in order and the book they leave. -/
def run (b : OrderBook) : List Op → Option (List Response × OrderBook)
  | [] => some ([], b)
  | op :: ops =>
    (b.apply op).bind fun (r, b') => (b'.run ops).map fun (rs, b'') => (r :: rs, b'')

end OrderBook

end OptionsEngine
