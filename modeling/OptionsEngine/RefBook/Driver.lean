import Mathlib.Data.UInt
import OptionsEngine.RefBook.Equivalence

/-! # The driver of the differential test (`main` of `tests/test_conservation.cpp`)

    Random events go to an order book and to the reference model, and after
    each of them the driver compares what the two did.  It keeps a ledger of
    quantities, which it checks against what rests in the reference model, on
    every 4096th event and at the end.

    The generator is given by the numbers it yields.  The two fill sequences
    are compared event by event, so only those of the current event are kept.
    What `VERBOSE` and the summary print has no part in the model. -/

namespace OptionsEngine

namespace RefBook

/-- The reference model has no limit on levels; a map has fewer than this. -/
def unlimited : Nat := 2 ^ 64

/-- `peek`, of the two loops that also `cancel` and `modify` run. -/
def peek (r : RefBook) (id : OrderId) : Option Qty :=
  match find_order id r.bids with
  | some p => some p.order.rem
  | none => (find_order id r.asks).map fun p => p.order.rem

def resting_total (r : RefBook) : UInt64 :=
  (((r.bids ++ r.asks).flatMap Prod.snd).map fun o => o.rem.toUInt64).sum

end RefBook

namespace DifferentialTest

open OrderBook

/-! ## Section 1: State -/

/-- The locals of `main`. -/
structure Driver where
  book : OrderBook
  ref : RefBook
  submitted : UInt64
  filled : UInt64
  cancelled : UInt64
  rejected : UInt64
  expired : UInt64
  /-- Ids that may be resting. -/
  live : List OrderId
  next_id : OrderId
  /-- How many numbers the generator has yielded. -/
  draws : Nat

/-- What keeps an event from being finished. -/
inductive Abort where
  /-- A call of the order book does not return. -/
  | no_return
  | division_by_zero
  deriving DecidableEq, Repr

/-- What an event did: the fills of the two books, and what `fail` was called
    with, in order. -/
structure Done where
  driver : Driver
  engine_fills : List Fill
  ref_fills : List Fill
  failures : List String

/-- The messages of the conditions that are met. -/
def failed (checks : List (Bool × String)) : List String :=
  checks.filterMap fun (cond, what) => if cond then some what else none

/-- `live[k] = live.back(); live.pop_back()`. -/
def swap_remove (live : List OrderId) (k : Nat) : List OrderId :=
  (live.set k (live.getLastD 0)).dropLast

/-- `to_price(100.0)`. -/
def midPrice : Price := 100000000

variable (rng : Nat → UInt64)

/-! ## Section 2: Events -/

def drawnType (t : UInt64) : OrderType :=
  if t < 80 then .Limit else if t < 88 then .Market else if t < 95 then .IOC else .FOK

/-- Some orders carry an account; for them one more number is drawn. -/
def tracked (d : Driver) : Prop := rng (d.draws + 4) % 100 < 30

instance (d : Driver) : Decidable (tracked rng d) := inferInstanceAs (Decidable (_ < _))

/-- Prices are clustered, so that books cross often. -/
def drawnOrder (d : Driver) : Order where
  id := d.next_id
  side := if rng (d.draws + 1) &&& 1 = 1 then .Buy else .Sell
  price := midPrice + (((rng (d.draws + 2) % 41).toNat : Int) - 20) * 10000
  qty := (1 + rng (d.draws + 3) % 500).toUInt32
  qty_remaining := (1 + rng (d.draws + 3) % 500).toUInt32
  symbol := 0
  account_id := if tracked rng d then (1 + rng (d.draws + 5) % 8).toUInt32 else 0
  type := drawnType (rng (if tracked rng d then d.draws + 6 else d.draws + 5) % 100)

/-- The ledger after an order was added, and what was wrong. -/
def settle (d : Driver) (o : Order) (out : RefBook.Outcome) (ok : Bool) (eng_filled : UInt64) :
    Driver × List String :=
  let left := o.qty.toUInt64 - eng_filled
  let d' : Driver :=
    { d with submitted := d.submitted + o.qty.toUInt64, filled := d.filled + eng_filled }
  if out.rejected then
    ({ d' with rejected := d.rejected + left },
      failed
        [(ok, "engine accepted FOK the model rejected"),
         (eng_filled ≠ 0, "FOK executed partial fills before rejecting (must be atomic)")])
  else if out.capacity_rejected then
    ({ d' with expired := d.expired + left },
      failed
        [(ok, "engine accepted an order the model capacity-rejected"),
         (eng_filled ≠ out.filled.toUInt64, "filled qty differs from model (capacity path)")])
  else
    (if o.type = .Limit ∧ out.resting ≠ 0 then { d' with live := d.live ++ [o.id] }
     else { d' with expired := d.expired + left },
      failed
        [(!ok, "engine rejected an order the model accepted"),
         (eng_filled ≠ out.filled.toUInt64, "filled qty differs from model")])

def add_event (d : Driver) : Except Abort Done :=
  let o := drawnOrder rng d
  match d.book.add_order o with
  | none => .error .no_return
  | some (r, book) =>
    let (out, ref_fills, ref) := d.ref.add o kMaxOrders RefBook.unlimited
    let fills := r.reports.map ExecutionReport.toFill
    let eng_filled : UInt64 := (fills.map fun f => f.qty.toUInt64).sum
    let (d', failures) :=
      settle
        { d with
          book := book
          ref := ref
          next_id := d.next_id + 1
          draws := if tracked rng d then d.draws + 7 else d.draws + 6 }
        o out r.ret eng_filled
    .ok ⟨d', fills, ref_fills, failures⟩

/-- The place in `live` that a cancel or a modify draws. -/
def drawnPlace (d : Driver) : Nat := (rng (d.draws + 1)).toNat % d.live.length

def cancel_event (d : Driver) : Except Abort Done :=
  let k := drawnPlace rng d
  let id := d.live.getD k 0
  match d.book.cancel_order id with
  | none => .error .no_return
  | some (r, book) =>
    let (ref_ok, ref) := d.ref.cancel id
    let rem := (d.ref.peek id).getD 0
    .ok
      { driver :=
          { d with
            book := book
            ref := ref
            live := swap_remove d.live k
            cancelled := if r.ret then d.cancelled + rem.toUInt64 else d.cancelled
            draws := d.draws + 2 }
        engine_fills := r.reports.map ExecutionReport.toFill
        ref_fills := []
        failures := failed [(r.ret ≠ ref_ok, "cancel result differs from model")] }

/-- The new quantity: at most the old one, or more than it. -/
def drawnQty (d : Driver) (rem : Qty) : Qty :=
  if rng (d.draws + 2) % 100 < 60 then (rng (d.draws + 3) % (rem + 1).toUInt64).toUInt32
  else ((rem + 1).toUInt64 + rng (d.draws + 3) % (rem + 1).toUInt64).toUInt32

def modify_event (d : Driver) : Except Abort Done :=
  let k := drawnPlace rng d
  let id := d.live.getD k 0
  match d.ref.peek id with
  | none =>
    -- a stale id is dropped
    .ok ⟨{ d with live := swap_remove d.live k, draws := d.draws + 2 }, [], [], []⟩
  | some rem =>
    if rem + 1 = 0 then .error .division_by_zero
    else
      let nq := drawnQty rng d rem
      let (ref_ok, ref) := d.ref.modify id nq
      if ref_ok then
        match d.book.modify_order id nq with
        | none => .error .no_return
        | some (r, book) =>
          .ok
            { driver :=
                { d with
                  book := book
                  ref := ref
                  live := if nq = 0 then swap_remove d.live k else d.live
                  submitted :=
                    if nq ≥ rem then d.submitted + (nq - rem).toUInt64 else d.submitted
                  cancelled :=
                    if nq ≥ rem then d.cancelled else d.cancelled + (rem - nq).toUInt64
                  draws := d.draws + 4 }
              engine_fills := r.reports.map ExecutionReport.toFill
              ref_fills := []
              failures := failed [(!r.ret, "modify rejected by engine, accepted by model")] }
      else
        .ok ⟨{ d with ref := ref, live := swap_remove d.live k, draws := d.draws + 4 }, [], [], []⟩

/-! ## Section 3: Checks -/

def conserved (d : Driver) : Prop :=
  d.submitted = d.filled * 2 + d.ref.resting_total + d.cancelled + d.rejected + d.expired

instance (d : Driver) : Decidable (conserved d) := inferInstanceAs (Decidable (_ = _))

/-- The fills agree in number and one by one, the best prices agree, the book is
    not crossed, and the ledger balances. -/
def cross_check (i : Nat) (done : Done) : List String :=
  let e := done.driver.book.best_quote
  let m := done.driver.ref
  (if done.engine_fills.length ≠ done.ref_fills.length then ["fill count differs"]
   else
    failed [(done.engine_fills ≠ done.ref_fills,
      "fill sequence differs (price-time priority violated)")]) ++
  failed
    [(e.bid_price ≠ m.best_bid ∨ e.ask_price ≠ m.best_ask, "best prices differ from model"),
     (e.bid_price ≠ PRICE_INVALID ∧ e.ask_price ≠ PRICE_INVALID ∧ e.bid_price ≥ e.ask_price,
      "crossed book"),
     (i % 4096 = 0 ∧ ¬ conserved done.driver,
      "conservation violated: submitted != 2*filled + resting + cancelled + rejected + expired")]

def event (d : Driver) : Except Abort Done :=
  let roll := rng d.draws % 100
  if roll < 70 ∨ d.live = [] then add_event rng d
  else if roll < 90 then cancel_event rng d
  else modify_event rng d

/-- The loop, at event `i`; it ends with the first failure. -/
def loop : Nat → Nat → Driver → Except Abort (Driver × Option (Nat × String))
  | 0, _, d => .ok (d, none)
  | n + 1, i, d =>
    match event rng d with
    | .error abort => .error abort
    | .ok done =>
      match done.failures ++ cross_check i done with
      | [] => loop n (i + 1) done.driver
      | what :: _ => .ok (done.driver, some (i, what))

inductive Verdict where
  | PASS
  | FAIL (event : Nat) (what : String)
  /-- No event failed, but the ledger does not balance at the end. -/
  | VIOLATED
  deriving DecidableEq, Repr

def start (mem : OrderBook) : Driver := ⟨fresh mem 0, .empty, 0, 0, 0, 0, 0, [], 1, 0⟩

def main (events : UInt64) (mem : OrderBook) : Except Abort Verdict :=
  match loop rng events.toNat 0 (start mem) with
  | .error abort => .error abort
  | .ok (_, some (i, what)) => .ok (.FAIL i what)
  | .ok (d, none) => .ok (if conserved d then .PASS else .VIOLATED)

end DifferentialTest

end OptionsEngine
