import OptionsEngine.OrderBook

/-! # The reference model of the differential test (`tests/test_conservation.cpp`)

    `RefBook` keeps per side a map from prices to queues, best price first.  A
    `std::map` is modelled as the list of its entries in iteration order, a
    `std::deque` as a list.

    Two loops of `sweep` go round again after a partial fill only to find that
    nothing is left to fill; the recursions below stop there.

    The one addition to the test's model is the level limit: `max_levels`
    bounds a side as `max_orders` bounds the whole book. -/

namespace OptionsEngine

structure Fill where
  aggr : OrderId
  passive : OrderId
  px : Price
  qty : Qty
  deriving DecidableEq, Repr

structure RefOrder where
  id : OrderId
  rem : Qty
  account : UInt32
  deriving DecidableEq, Repr

/-- A price with its queue. -/
abbrev RefLevel := Price × List RefOrder

structure RefBook where
  bids : List RefLevel
  asks : List RefLevel
  resting_count : Nat

namespace RefBook

def empty : RefBook := ⟨[], [], 0⟩

def side (r : RefBook) : Side → List RefLevel
  | .Buy => r.bids
  | .Sell => r.asks

def setSide (r : RefBook) (s : Side) (ls : List RefLevel) : RefBook :=
  match s with
  | .Buy => { r with bids := ls }
  | .Sell => { r with asks := ls }

/-! ## Matching -/

/-- The locals of `sweep`: the fills it recorded, the quantity left, the wall
    flag, and how many orders it took off `resting_count`. -/
structure Sweep where
  fills : List Fill
  qty : Qty
  walled : Bool
  popped : Nat
  deriving DecidableEq, Repr

/-- `px` is beyond the limit. -/
def beyond (is_buy : Bool) (limit px : Price) : Bool :=
  if is_buy then decide (limit < px) else decide (limit > px)

/-- The inner loop of `sweep`, over one queue. -/
def sweep_queue (id : OrderId) (account : UInt32) (px : Price) :
    Qty → List RefOrder → Sweep × List RefOrder
  | qty, [] => (⟨[], qty, false, 0⟩, [])
  | qty, front :: q =>
    if qty = 0 then (⟨[], qty, false, 0⟩, front :: q)
    else if account ≠ 0 ∧ account = front.account then (⟨[], qty, true, 0⟩, front :: q)
    else
      let f := min qty front.rem
      let fill : Fill := ⟨id, front.id, px, f⟩
      -- a used-up order is popped and counted; else the aggressor is used up
      if front.rem - f = 0 then
        let (s, q') := sweep_queue id account px (qty - f) q
        (⟨fill :: s.fills, s.qty, s.walled, s.popped + 1⟩, q')
      else (⟨[fill], qty - f, false, 0⟩, { front with rem := front.rem - f } :: q)

/-- `sweep`: the aggressor runs against a side, level by level. -/
def sweep (id : OrderId) (limit : Price) (is_buy limited : Bool) (account : UInt32) :
    Qty → List RefLevel → Sweep × List RefLevel
  | qty, [] => (⟨[], qty, false, 0⟩, [])
  | qty, (px, q) :: side =>
    if qty = 0 then (⟨[], qty, false, 0⟩, (px, q) :: side)
    else if limited && beyond is_buy limit px then (⟨[], qty, false, 0⟩, (px, q) :: side)
    else
      let (s, q') := sweep_queue id account px qty q
      -- the source returns from inside the loop
      if s.walled then (s, (px, q') :: side)
      else if q' = [] then
        let (s', side') := sweep id limit is_buy limited account s.qty side
        (⟨s.fills ++ s'.fills, s'.qty, s'.walled, s.popped + s'.popped⟩, side')
      else (s, (px, q') :: side)

/-- The sum of `available`, saturating at the largest quantity. -/
def saturate (total rem : Qty) : Qty := UInt32.ofNat (min (total.toNat + rem.toNat) 4294967295)

/-- The inner loop of `available`; it ends with `true` where the source
    returns. -/
def available_queue (account : UInt32) : Qty → List RefOrder → Bool × Qty
  | total, [] => (false, total)
  | total, o :: q =>
    if account ≠ 0 ∧ account = o.account then (true, total)
    else available_queue account (saturate total o.rem) q

def available (limit : Price) (is_buy : Bool) (account : UInt32) : Qty → List RefLevel → Qty
  | total, [] => total
  | total, (px, q) :: side =>
    if beyond is_buy limit px then total
    else
      match available_queue account total q with
      | (true, total) => total
      | (false, total) => available limit is_buy account total side

/-! ## The operations -/

structure Outcome where
  resting : Qty
  filled : Qty
  rejected : Bool
  capacity_rejected : Bool

/-- What the driver expects `add_order` to return. -/
def Outcome.ok (o : Outcome) : Bool := !o.rejected && !o.capacity_rejected

/-- `map[p].push_back(o)` on a map ordered by `before`. -/
def push_back (before : Price → Price → Bool) (p : Price) (o : RefOrder) :
    List RefLevel → List RefLevel
  | [] => [(p, [o])]
  | (px, q) :: side =>
    if before px p then (px, q) :: push_back before p o side
    else if before p px then (p, [o]) :: (px, q) :: side
    else (px, q ++ [o]) :: side

/-- `std::greater` for bids, `std::less` for asks. -/
def before (s : Side) (p q : Price) : Bool :=
  match s with
  | .Buy => decide (p > q)
  | .Sell => decide (p < q)

def add (r : RefBook) (o : Order) (max_orders max_levels : Nat) :
    Outcome × List Fill × RefBook :=
  let is_buy : Bool := o.side = .Buy
  let limited : Bool := o.type ≠ .Market
  let passive := r.side o.side.opposite
  if o.type = .FOK ∧ available o.price is_buy o.account_id 0 passive < o.qty then
    (⟨0, 0, true, false⟩, [], r)
  else
    let (s, passive') := sweep o.id o.price is_buy limited o.account_id o.qty passive
    -- `sweep` has counted every order it popped
    let r' := { r.setSide o.side.opposite passive' with resting_count := r.resting_count - s.popped }
    let filled := o.qty - s.qty
    if s.qty > 0 ∧ o.type = .Limit ∧ s.walled = false then
      -- the limit on levels, which the test's model does not have
      if (∀ l ∈ r'.side o.side, l.1 ≠ o.price) ∧ (r'.side o.side).length ≥ max_levels then
        (⟨0, filled, false, true⟩, s.fills, r')
      else if r'.resting_count ≥ max_orders then (⟨0, filled, false, true⟩, s.fills, r')
      else
        (⟨s.qty, filled, false, false⟩, s.fills,
          { r'.setSide o.side
              (push_back (before o.side) o.price ⟨o.id, s.qty, o.account_id⟩ (r'.side o.side)) with
            resting_count := r'.resting_count + 1 })
    else (⟨0, filled, false, false⟩, s.fills, r')

/-- The position of an order: what stands before it, the order, and what
    stands behind it. -/
def find_in_queue (id : OrderId) : List RefOrder → Option (List RefOrder × RefOrder × List RefOrder)
  | [] => none
  | o :: q =>
    if o.id = id then some ([], o, q)
    else (find_in_queue id q).map fun (q₁, x, q₂) => (o :: q₁, x, q₂)

/-- Where the two nested loops of `erase_from` and `modify_in` find an id. -/
structure Position where
  before : List RefLevel
  px : Price
  front : List RefOrder
  order : RefOrder
  back : List RefOrder
  behind : List RefLevel

def find_order (id : OrderId) : List RefLevel → Option Position
  | [] => none
  | (px, q) :: side =>
    match find_in_queue id q with
    | some (q₁, x, q₂) => some ⟨[], px, q₁, x, q₂, side⟩
    | none => (find_order id side).map fun p => { p with before := (px, q) :: p.before }

/-- The side with the queue at a position replaced; an empty queue goes. -/
def Position.replace (p : Position) (q : List RefOrder) : List RefLevel :=
  p.before ++ (if q = [] then [] else [(p.px, q)]) ++ p.behind

/-- `erase_from`: the side without the order. -/
def erase_from (id : OrderId) (side : List RefLevel) : Option (List RefLevel) :=
  (find_order id side).map fun p => p.replace (p.front ++ p.back)

/-- `modify_in`: the side after the change, and whether the order went. -/
def modify_in (id : OrderId) (nq : Qty) (side : List RefLevel) : Option (List RefLevel × Bool) :=
  (find_order id side).map fun p =>
    -- an increase loses the place in the queue
    if nq > p.order.rem then
      (p.replace (p.front ++ p.back ++ [{ p.order with rem := nq }]), false)
    else if nq = 0 then (p.replace (p.front ++ p.back), true)
    else (p.replace (p.front ++ { p.order with rem := nq } :: p.back), false)

def cancel (r : RefBook) (id : OrderId) : Bool × RefBook :=
  match erase_from id r.bids with
  | some bids => (true, { r with bids := bids, resting_count := r.resting_count - 1 })
  | none =>
    match erase_from id r.asks with
    | some asks => (true, { r with asks := asks, resting_count := r.resting_count - 1 })
    | none => (false, r)

def modify (r : RefBook) (id : OrderId) (nq : Qty) : Bool × RefBook :=
  match modify_in id nq r.bids with
  | some (bids, gone) =>
    (true, { r with bids := bids, resting_count := r.resting_count - if gone then 1 else 0 })
  | none =>
    match modify_in id nq r.asks with
    | some (asks, gone) =>
      (true, { r with asks := asks, resting_count := r.resting_count - if gone then 1 else 0 })
    | none => (false, r)

/-- `best`, of which the driver compares the prices. -/
def best_bid (r : RefBook) : Price := (r.bids.head?.map Prod.fst).getD PRICE_INVALID

def best_ask (r : RefBook) : Price := (r.asks.head?.map Prod.fst).getD PRICE_INVALID

def apply (r : RefBook) : Op → Bool × List Fill × RefBook
  | .add o =>
    let (out, fills, r') := r.add o OrderBook.kMaxOrders OrderBook.kMaxLevels
    (out.ok, fills, r')
  | .cancel id =>
    let (ok, r') := r.cancel id
    (ok, [], r')
  | .modify id nq =>
    let (ok, r') := r.modify id nq
    (ok, [], r')

end RefBook

end OptionsEngine
