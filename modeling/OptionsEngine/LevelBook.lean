import Mathlib.Algebra.GroupWithZero.Nat
import Mathlib.Data.List.Perm.Basic
import OptionsEngine.OrderBook

/-! # The book as levels of queues

    What the arrays, links, free list and hash table of `OrderBook` stand for:
    per side a list of price levels, best first, each with its queue of
    resting orders; a list of free slots; and a map from ids to slots.

    * `Matching` is the run of an aggressor against one side, fill by fill.
    * `Step` says once everything a call can do to the book.  All properties
      of runs are proved from it.
    * `WF` is the invariant that every call keeps.

    Ids may repeat here: a resting order is identified by its slot. -/

namespace OptionsEngine

open Function OrderBook

/-! ## Section 1: Model -/

/-- A resting order. -/
structure Entry where
  slot : Nat
  id : OrderId
  qty : Qty
  account : UInt32
  deriving DecidableEq

/-- A price level with its queue, head first. -/
structure Level where
  price : Price
  queue : List Entry

namespace Level

def slots (l : Level) : List Nat := l.queue.map Entry.slot

/-- The quantity resting at the level. -/
def total (l : Level) : Nat := (l.queue.map fun e => e.qty.toNat).sum

end Level

/-- The resting orders of a side, in priority order. -/
def entriesOf (ls : List Level) : List Entry := ls.flatMap Level.queue

def slotsOf (ls : List Level) : List Nat := ls.flatMap Level.slots

/-- The book: levels best first on each side, free slots, and the index. -/
structure LevelBook where
  levels : Side → List Level
  free : List Nat
  index : OrderId → Option (Nat × Side)

/-- `p` has priority over `q` on side `s`. -/
def better : Side → Price → Price → Prop
  | .Buy, p, q => q < p
  | .Sell, p, q => p < q

instance (s : Side) (p q : Price) : Decidable (better s p q) :=
  match s with
  | .Buy => inferInstanceAs (Decidable (q < p))
  | .Sell => inferInstanceAs (Decidable (p < q))

/-- A level with queue `q`, or none if the queue is empty. -/
def keep (px : Price) (q : List Entry) : List Level := if q = [] then [] else [⟨px, q⟩]

/-- Put an entry at the back of the queue of price `p`, in a new level if
    there is none yet. -/
def insertEntry (s : Side) (p : Price) (e : Entry) : List Level → List Level
  | [] => [⟨p, [e]⟩]
  | l :: ls =>
    if l.price = p then ⟨p, l.queue ++ [e]⟩ :: ls
    else if better s l.price p then l :: insertEntry s p e ls
    else ⟨p, [e]⟩ :: l :: ls

/-! ## Section 2: Matching -/

/-- `e` belongs to the same tracked account as the aggressor `o`. -/
def walls (o : Order) (e : Entry) : Prop := o.account_id ≠ 0 ∧ o.account_id = e.account

instance (o : Order) (e : Entry) : Decidable (walls o e) :=
  inferInstanceAs (Decidable (_ ∧ _))

/-- One fill: the book it happens in, the passive order with its price, the
    quantity, and what the aggressor has left. -/
structure Take where
  book : LevelBook
  price : Price
  entry : Entry
  qty : Qty
  leaves : Qty

/-- The book after a fill of `f` against the head `e` of the best level. -/
def LevelBook.take (a : LevelBook) (s : Side) (px : Price) (e : Entry) (es : List Entry)
    (ls : List Level) (f : Qty) : LevelBook :=
  if f = e.qty then
    { levels := update a.levels s (keep px es ++ ls)
      free := e.slot :: a.free
      index := update a.index e.id none }
  else { a with levels := update a.levels s (⟨px, { e with qty := e.qty - f } :: es⟩ :: ls) }

/-- `o` with `rem` left runs against side `s` of `a`: the fills, the book and
    the quantity they leave, and whether matching stopped at a self-trade
    wall. -/
inductive Matching (o : Order) (s : Side) :
    LevelBook → Qty → List Take → LevelBook → Qty → Bool → Prop where
  | filled (a : LevelBook) : Matching o s a 0 [] a 0 false
  | exhausted {a : LevelBook} {rem : Qty} (hrem : rem ≠ 0) (hls : a.levels s = []) :
      Matching o s a rem [] a rem false
  | price {a : LevelBook} {rem : Qty} {l : Level} {ls : List Level} (hrem : rem ≠ 0)
      (hls : a.levels s = l :: ls) (hstop : price_stops o l.price = true) :
      Matching o s a rem [] a rem false
  | wall {a : LevelBook} {rem : Qty} {px : Price} {e : Entry} {es : List Entry}
      {ls : List Level} (hrem : rem ≠ 0) (hls : a.levels s = ⟨px, e :: es⟩ :: ls)
      (hgo : price_stops o px = false) (hwall : walls o e) :
      Matching o s a rem [] a rem true
  | take {a a' : LevelBook} {rem rem' : Qty} {px : Price} {e : Entry} {es : List Entry}
      {ls : List Level} {takes : List Take} {walled : Bool} (hrem : rem ≠ 0)
      (hls : a.levels s = ⟨px, e :: es⟩ :: ls)
      (hgo : price_stops o px = false) (hwall : ¬ walls o e)
      (hrest : Matching o s (a.take s px e es ls (min rem e.qty)) (rem - min rem e.qty)
        takes a' rem' walled) :
      Matching o s a rem (⟨a, px, e, min rem e.qty, rem - min rem e.qty⟩ :: takes) a' rem' walled

/-- The queue walk of the fill-or-kill pre-check: whether it is decided, and
    the total so far. -/
def availableQueue (o : Order) : Nat → List Entry → Bool × Nat
  | total, [] => (false, total)
  | total, e :: es =>
    if walls o e then (true, total)
    else if total + e.qty.toNat ≥ o.qty_remaining.toNat then (true, total + e.qty.toNat)
    else availableQueue o (total + e.qty.toNat) es

def availableLevels (o : Order) : Nat → List Level → Nat
  | total, [] => total
  | total, l :: ls =>
    if price_stops o l.price then total
    else
      match availableQueue o total l.queue with
      | (true, total) => total
      | (false, total) => availableLevels o total ls

/-! ## Section 3: What a call can do -/

/-- The order types that never rest. -/
def Immediate (o : Order) : Prop := o.type = .Market ∨ o.type = .IOC ∨ o.type = .FOK

instance (o : Order) : Decidable (Immediate o) := inferInstanceAs (Decidable (_ ∨ _ ∨ _))

/-- The fill-or-kill pre-check fails. -/
def Short (a : LevelBook) (o : Order) : Prop :=
  availableLevels o 0 (a.levels o.side.opposite) < o.qty_remaining.toNat

/-- The entry of a resting remainder. -/
def restingEntry (o : Order) (slot : Nat) (rem : Qty) : Entry :=
  { slot := slot, id := o.id, qty := rem, account := o.account_id }

/-- The book after a remainder was booked. -/
def LevelBook.rest (a : LevelBook) (o : Order) (slot : Nat) (free : List Nat) (rem : Qty) :
    LevelBook where
  levels := update a.levels o.side
    (insertEntry o.side o.price (restingEntry o slot rem) (a.levels o.side))
  free := free
  index := update a.index o.id (some (slot, o.side))

/-- The book after the entry with slot `slot` left side `s`, whose levels are
    now `ls`. -/
def LevelBook.drop (a : LevelBook) (s : Side) (ls : List Level) (id : OrderId) (slot : Nat) :
    LevelBook where
  levels := update a.levels s ls
  free := slot :: a.free
  index := update a.index id none

/-- The book with the levels of one side replaced. -/
def LevelBook.setLevels (a : LevelBook) (s : Side) (ls : List Level) : LevelBook :=
  { a with levels := update a.levels s ls }

/-- One call, with the `return` it leaves at and its fills. -/
inductive Step : LevelBook → Op → Outcome → List Take → LevelBook → Prop where
  | fok_rejected {a : LevelBook} {o : Order} (htype : o.type = .FOK) (hshort : Short a o) :
      Step a (.add o) .fok_rejected [] a
  | immediate {a a' : LevelBook} {o : Order} {takes : List Take} {rem : Qty} {walled : Bool}
      (himm : Immediate o) (hfok : o.type = .FOK → ¬ Short a o)
      (hm : Matching o o.side.opposite a o.qty_remaining takes a' rem walled) :
      Step a (.add o) .immediate takes a'
  | filled {a a' : LevelBook} {o : Order} {takes : List Take} {walled : Bool}
      (himm : ¬ Immediate o)
      (hm : Matching o o.side.opposite a o.qty_remaining takes a' 0 walled) :
      Step a (.add o) .filled takes a'
  | stp_walled {a a' : LevelBook} {o : Order} {takes : List Take} {rem : Qty}
      (himm : ¬ Immediate o)
      (hm : Matching o o.side.opposite a o.qty_remaining takes a' rem true) (hrem : rem ≠ 0) :
      Step a (.add o) .stp_walled takes a'
  | level_rejected {a a' : LevelBook} {o : Order} {takes : List Take} {rem : Qty}
      (himm : ¬ Immediate o)
      (hm : Matching o o.side.opposite a o.qty_remaining takes a' rem false) (hrem : rem ≠ 0)
      (hnew : ∀ l ∈ a'.levels o.side, l.price ≠ o.price)
      (hfull : kMaxLevels ≤ (a'.levels o.side).length) :
      Step a (.add o) .level_rejected takes a'
  | slot_rejected {a a' : LevelBook} {o : Order} {takes : List Take} {rem : Qty}
      (himm : ¬ Immediate o)
      (hm : Matching o o.side.opposite a o.qty_remaining takes a' rem false) (hrem : rem ≠ 0)
      (hroom : (∃ l ∈ a'.levels o.side, l.price = o.price) ∨
        (a'.levels o.side).length < kMaxLevels)
      (hfree : a'.free = []) :
      Step a (.add o) .slot_rejected takes a'
  | rested {a a' : LevelBook} {o : Order} {takes : List Take} {rem : Qty} {slot : Nat}
      {free : List Nat} (himm : ¬ Immediate o)
      (hm : Matching o o.side.opposite a o.qty_remaining takes a' rem false) (hrem : rem ≠ 0)
      (hroom : (∃ l ∈ a'.levels o.side, l.price = o.price) ∨
        (a'.levels o.side).length < kMaxLevels)
      (hfree : a'.free = slot :: free) :
      Step a (.add o) (.rested slot) takes (a'.rest o slot free rem)
  | cancel_unknown {a : LevelBook} {id : OrderId} (hid : a.index id = none) :
      Step a (.cancel id) .unknown_id [] a
  | cancelled {a : LevelBook} {id : OrderId} {s : Side} {L R : List Level} {px : Price}
      {q₁ q₂ : List Entry} {e : Entry} (hid : a.index id = some (e.slot, s)) (heid : e.id = id)
      (hls : a.levels s = L ++ ⟨px, q₁ ++ e :: q₂⟩ :: R) :
      Step a (.cancel id) (.cancelled e.slot) []
        (a.drop s (L ++ keep px (q₁ ++ q₂) ++ R) id e.slot)
  | modify_unknown {a : LevelBook} {id : OrderId} {new_qty : Qty} (hid : a.index id = none) :
      Step a (.modify id new_qty) .unknown_id [] a
  | increased {a : LevelBook} {id : OrderId} {new_qty : Qty} {s : Side} {L R : List Level}
      {px : Price} {q₁ q₂ : List Entry} {e : Entry} (hid : a.index id = some (e.slot, s))
      (heid : e.id = id) (hls : a.levels s = L ++ ⟨px, q₁ ++ e :: q₂⟩ :: R)
      (hqty : e.qty < new_qty) :
      Step a (.modify id new_qty) (.modified e.slot) []
        (a.setLevels s (L ++ ⟨px, q₁ ++ q₂ ++ [{ e with qty := new_qty }]⟩ :: R))
  | decreased {a : LevelBook} {id : OrderId} {new_qty : Qty} {s : Side} {L R : List Level}
      {px : Price} {q₁ q₂ : List Entry} {e : Entry} (hid : a.index id = some (e.slot, s))
      (heid : e.id = id) (hls : a.levels s = L ++ ⟨px, q₁ ++ e :: q₂⟩ :: R)
      (hqty : new_qty ≤ e.qty) (hnew : new_qty ≠ 0) :
      Step a (.modify id new_qty) (.modified e.slot) []
        (a.setLevels s (L ++ ⟨px, q₁ ++ { e with qty := new_qty } :: q₂⟩ :: R))
  | emptied {a : LevelBook} {id : OrderId} {s : Side} {L R : List Level} {px : Price}
      {q₁ q₂ : List Entry} {e : Entry} (hid : a.index id = some (e.slot, s)) (heid : e.id = id)
      (hls : a.levels s = L ++ ⟨px, q₁ ++ e :: q₂⟩ :: R) :
      Step a (.modify id 0) (.modified e.slot) []
        (a.drop s (L ++ keep px (q₁ ++ q₂) ++ R) id e.slot)

/-! ## Section 4: The invariant -/

/-- What every call keeps. -/
structure WF (a : LevelBook) : Prop where
  sorted : ∀ s, (a.levels s).Pairwise fun l l' => better s l.price l'.price
  nonempty : ∀ s, ∀ l ∈ a.levels s, l.queue ≠ []
  positive : ∀ s, ∀ e ∈ entriesOf (a.levels s), e.qty ≠ 0
  capacity : ∀ s, (a.levels s).length ≤ kMaxLevels
  /-- Every slot is in one queue or on the free list, once. -/
  slots : (slotsOf (a.levels .Buy) ++ (slotsOf (a.levels .Sell) ++ a.free)).Perm
    (List.range kMaxOrders)
  indexed : ∀ id slot s, a.index id = some (slot, s) →
    ∃ e ∈ entriesOf (a.levels s), e.slot = slot ∧ e.id = id

/-- The book of the constructor. -/
def LevelBook.empty : LevelBook where
  levels := fun _ => []
  free := List.range kMaxOrders
  index := fun _ => none

end OptionsEngine
