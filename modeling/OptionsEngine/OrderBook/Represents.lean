import OptionsEngine.LevelBook.Basic
import OptionsEngine.OrderBook.Index

/-! # The arrays represent the levels

    `Rep b a`: the book `b` of arrays stands for the book `a` of levels.
    Per side the live rows are the levels (`SideRep`), every queue is linked
    through `nexts` and `prevs` and its slots hold their orders (`QueuesRep`),
    the free list is chained through `free_nexts`, and the hash table holds
    the index. -/

namespace OptionsEngine

open Function LiveArray LinkedQueue OrderBook

/-! ## Section 1: Rows -/

/-- The five arrays of a side, read at one level. -/
structure Row where
  price : Price
  qty : Qty
  count : UInt32
  head : Nat
  tail : Nat

namespace OrderBook.Side

def row (s : OrderBook.Side) (i : Nat) : Row :=
  ⟨s.prices i, s.qtys i, s.order_counts i, s.head_idxs i, s.tail_idxs i⟩

theorem row_remove_level (s : OrderBook.Side) (idx : Nat) :
    (s.remove_level idx).row = memmove s.row idx (idx + 1) (s.count - idx - 1) := by
  funext i
  simp only [row, remove_level, memmove]
  split <;> rfl

end OrderBook.Side

/-- The row of a level. -/
def Level.row (l : Level) : Row :=
  ⟨l.price, UInt32.ofNat l.total, UInt32.ofNat l.queue.length, l.slots.headD NULL_IDX,
    l.slots.getLastD NULL_IDX⟩

/-- The live rows of a side are its levels. -/
def SideRep (side : OrderBook.Side) (ls : List Level) : Prop :=
  live side.row side.count = ls.map Level.row

namespace SideRep

variable {side : OrderBook.Side} {ls L R : List Level} {l : Level} {p : Price}

theorem count_eq (h : SideRep side ls) : side.count = ls.length := by
  have := congrArg List.length h
  simpa using this

theorem split (h : SideRep side (L ++ l :: R)) :
    live side.row side.count = L.map Level.row ++ l.row :: R.map Level.row := by
  simpa [SideRep] using h

theorem row_at (h : SideRep side (L ++ l :: R)) : side.row L.length = l.row := by
  have := (live_split h.split).1
  simpa using this

theorem prices (h : SideRep side ls) : live side.prices side.count = ls.map Level.price := by
  have := congrArg (List.map Row.price) h
  simpa [live, OrderBook.Side.row, Level.row, Function.comp_def] using this

/-- Replacing the row of one level. -/
theorem set {side' : OrderBook.Side} {l' : Level} (h : SideRep side (L ++ l :: R))
    (hcount : side'.count = side.count)
    (hother : ∀ i, i ≠ L.length → side'.row i = side.row i)
    (hrow : side'.row L.length = l'.row) : SideRep side' (L ++ l' :: R) := by
  have hupd : side'.row = update side.row (L.map Level.row).length l'.row := by
    funext i
    rw [List.length_map]
    by_cases hi : i = L.length
    · subst hi; rw [update_self, hrow]
    · rw [update_of_ne hi, hother i hi]
  rw [SideRep, hcount, hupd, live_update _ h.split]
  simp

theorem remove (h : SideRep side (L ++ l :: R)) :
    SideRep (side.remove_level L.length) (L ++ R) := by
  have herase := live_erase h.split
  rw [List.length_map] at herase
  rw [SideRep, OrderBook.Side.row_remove_level]
  show live _ (side.count - 1) = _
  rw [herase]
  simp

/-- The search finds the level of a price. -/
theorem find_level_some (h : SideRep side (L ++ l :: R)) (hl : l.price = p)
    (hL : ∀ l' ∈ L, l'.price ≠ p) : side.find_level p = some L.length := by
  rw [OrderBook.Side.find_level, find_live side.prices side.count (fun x => x == p), h.prices]
  have hnone : List.findIdx? (fun x => x == p) (L.map Level.price) = none := by
    rw [List.findIdx?_eq_none_iff]
    intro x hx
    obtain ⟨l', hl', rfl⟩ := List.mem_map.mp hx
    simpa using hL l' hl'
  rw [List.map_append, List.map_cons, List.findIdx?_append, hnone]
  simp [List.findIdx?_cons, hl]

theorem find_level_none (h : SideRep side ls) (hls : ∀ l ∈ ls, l.price ≠ p) :
    side.find_level p = none := by
  rw [OrderBook.Side.find_level, find_live side.prices side.count (fun x => x == p), h.prices,
    List.findIdx?_eq_none_iff]
  intro x hx
  obtain ⟨l, hl, rfl⟩ := List.mem_map.mp hx
  simpa using hls l hl

/-- A new level is inserted behind the levels that have priority over it. -/
theorem insert_level (s : Side) (h : SideRep side (L ++ R))
    (hroom : (L ++ R).length < kMaxLevels) (hL : ∀ l ∈ L, better s l.price p)
    (hR : ∀ l ∈ R.head?, ¬ better s l.price p) :
    ∃ side', side.insert_level p (s = .Buy) = some (L.length, side') ∧
      SideRep side' (L ++ ⟨p, []⟩ :: R) := by
  -- the loop of either direction stops at the first level without priority over `p`
  have hpos : side.insert_pos p (s = .Buy) = L.length := by
    have hfun : (fun i => if decide (s = .Buy) = true then !decide (side.prices i > p)
        else !decide (side.prices i < p)) = fun i => !decide (better s (side.prices i) p) := by
      funext i
      cases s <;> rfl
    rw [OrderBook.Side.insert_pos, hfun,
      find_live side.prices side.count (fun x => !decide (better s x p)), h.prices]
    have hnone : List.findIdx? (fun x => !decide (better s x p)) (L.map Level.price) = none := by
      rw [List.findIdx?_eq_none_iff]
      intro x hx
      obtain ⟨l, hl, rfl⟩ := List.mem_map.mp hx
      simpa using hL l hl
    rw [List.map_append, List.findIdx?_append, hnone]
    cases R with
    | nil => simp [h.count_eq]
    | cons r R =>
      have hr : ¬ better s r.price p := hR r (by simp)
      simp [List.findIdx?_cons, hr]
  have hlive : live side.row side.count = L.map Level.row ++ R.map Level.row := by
    simpa [SideRep] using h
  have hins := live_insert (⟨p, []⟩ : Level).row hlive
  rw [List.length_map] at hins
  have hcount : ¬ side.count ≥ kMaxLevels := by rw [h.count_eq]; omega
  refine ⟨_, by rw [OrderBook.Side.insert_level, if_neg hcount, hpos], ?_⟩
  unfold SideRep
  -- the five shifted arrays, read as rows, are the shifted array of rows
  have hrow : OrderBook.Side.row
      { prices := update (memmove side.prices (L.length + 1) L.length (side.count - L.length)) L.length p
        qtys := update (memmove side.qtys (L.length + 1) L.length (side.count - L.length)) L.length 0
        order_counts :=
          update (memmove side.order_counts (L.length + 1) L.length (side.count - L.length)) L.length 0
        head_idxs :=
          update (memmove side.head_idxs (L.length + 1) L.length (side.count - L.length)) L.length NULL_IDX
        tail_idxs :=
          update (memmove side.tail_idxs (L.length + 1) L.length (side.count - L.length)) L.length NULL_IDX
        count := side.count + 1 }
      = update (memmove side.row (L.length + 1) L.length (side.count - L.length)) L.length
          (⟨p, []⟩ : Level).row := by
    funext i
    by_cases hi : i = L.length
    · subst hi
      simp [OrderBook.Side.row, Level.row, Level.total, Level.slots]
    · simp only [OrderBook.Side.row, update_of_ne hi, memmove]
      split <;> rfl
  rw [hrow, hins]
  simp

end SideRep

/-! ## Section 2: Queues -/

/-- The slot of `e` holds `e`, at price `px`. -/
structure Stored (p : SlotPool) (px : Price) (e : Entry) : Prop where
  id : p.ids e.slot = e.id
  qty : p.qtys e.slot = e.qty
  account : p.accounts e.slot = e.account
  price : p.prices e.slot = px

/-- A queue of a level is linked and its slots hold its entries. -/
structure QueueRep (p : SlotPool) (l : Level) : Prop where
  linked : Seg p.nexts p.prevs NULL_IDX l.slots NULL_IDX
  stored : ∀ e ∈ l.queue, Stored p l.price e

/-- Two pools agree on everything a queue reads of slot `x`. -/
structure SameSlot (p p' : SlotPool) (x : Nat) : Prop where
  ids : p'.ids x = p.ids x
  qtys : p'.qtys x = p.qtys x
  nexts : p'.nexts x = p.nexts x
  prevs : p'.prevs x = p.prevs x
  prices : p'.prices x = p.prices x
  accounts : p'.accounts x = p.accounts x

theorem SameSlot.refl (p : SlotPool) (x : Nat) : SameSlot p p x :=
  ⟨rfl, rfl, rfl, rfl, rfl, rfl⟩

theorem SameSlot.trans {p p' p'' : SlotPool} {x : Nat} (h : SameSlot p p' x)
    (h' : SameSlot p' p'' x) : SameSlot p p'' x :=
  ⟨h'.ids.trans h.ids, h'.qtys.trans h.qtys, h'.nexts.trans h.nexts, h'.prevs.trans h.prevs,
    h'.prices.trans h.prices, h'.accounts.trans h.accounts⟩

theorem Stored.frame {p p' : SlotPool} {px : Price} {e : Entry} (h : Stored p px e)
    (hs : SameSlot p p' e.slot) : Stored p' px e :=
  ⟨hs.ids.trans h.id, hs.qtys.trans h.qty, hs.accounts.trans h.account, hs.prices.trans h.price⟩

/-- An order reads four of the arrays of the pool. -/
theorem Stored.congr {p p' : SlotPool} {px : Price} {e : Entry} (h : Stored p px e)
    (hsame : p'.ids = p.ids ∧ p'.qtys = p.qtys ∧ p'.prices = p.prices ∧ p'.accounts = p.accounts) :
    Stored p' px e := by
  obtain ⟨h1, h2, h3, h4⟩ := hsame
  exact ⟨by rw [h1, h.id], by rw [h2, h.qty], by rw [h4, h.account], by rw [h3, h.price]⟩

/-- Rewriting the quantity of one slot. -/
theorem Stored.set_qty {p : SlotPool} {px : Price} {e : Entry} (h : Stored p px e) (n : Qty) :
    Stored { p with qtys := update p.qtys e.slot n } px { e with qty := n } :=
  ⟨h.id, update_self _ _ _, h.account, h.price⟩

theorem sameSlot_set_qty (p : SlotPool) {x y : Nat} (n : Qty) (h : y ≠ x) :
    SameSlot p { p with qtys := update p.qtys x n } y :=
  ⟨rfl, update_of_ne h _ _, rfl, rfl, rfl, rfl⟩

theorem QueueRep.frame {p p' : SlotPool} {l : Level} (h : QueueRep p l)
    (hs : ∀ x ∈ l.slots, SameSlot p p' x) : QueueRep p' l where
  linked := h.linked.congr (fun x hx => (hs x hx).nexts) (fun x hx => (hs x hx).prevs)
  stored := fun e he => (h.stored e he).frame (hs _ (mem_slots he))

def QueuesRep (p : SlotPool) (ls : List Level) : Prop := ∀ l ∈ ls, QueueRep p l

theorem QueuesRep.frame {p p' : SlotPool} {ls : List Level} (h : QueuesRep p ls)
    (hs : ∀ x ∈ slotsOf ls, SameSlot p p' x) : QueuesRep p' ls :=
  fun l hl => (h l hl).frame fun x hx => hs x (mem_slotsOf.mpr ⟨l, hl, hx⟩)

/-! ## Section 3: The whole book -/

/-- A slot of the pool is not the null index. -/
theorem ne_null {x : Nat} (hx : x < kMaxOrders) : x ≠ NULL_IDX := by
  have h1 : kMaxOrders = 65536 := rfl
  have h2 : NULL_IDX = 4294967295 := rfl
  omega

/-- The index, with sides encoded as the table stores them. -/
def encode (m : OrderId → Option (Nat × Side)) (id : OrderId) : Option (Nat × UInt8) :=
  (m id).map fun v => (v.1, sideIdx v.2)

theorem encode_update (m : OrderId → Option (Nat × Side)) (id : OrderId)
    (v : Option (Nat × Side)) :
    encode (update m id v) = update (encode m) id (v.map fun v => (v.1, sideIdx v.2)) := by
  funext k
  by_cases hk : k = id
  · subst hk; simp [encode]
  · simp [encode, update_of_ne hk]

@[simp] theorem sideOf_sideIdx (s : Side) : sideOf (sideIdx s) = s := by
  cases s <;> rfl

/-- The book `b` of arrays stands for the book `a` of levels. -/
structure Rep (b : OrderBook) (a : LevelBook) : Prop where
  sides : ∀ s, SideRep (b.side s) (a.levels s)
  queues : ∀ s, QueuesRep b.slots (a.levels s)
  free_head : b.slots.free_head = a.free.headD NULL_IDX
  free_chain : Chain b.slots.free_nexts a.free NULL_IDX
  used : b.slots.used.toNat + a.free.length = kMaxOrders
  index : b.index.Represents (encode a.index)

@[simp] theorem side_setSide (b : OrderBook) (s : Side) (x : OrderBook.Side) :
    (b.setSide s x).side s = x := by
  cases s <;> rfl

@[simp] theorem side_setSide_opposite (b : OrderBook) (s : Side) (x : OrderBook.Side) :
    (b.setSide s x).side s.opposite = b.side s.opposite := by
  cases s <;> rfl

@[simp] theorem slots_setSide (b : OrderBook) (s : Side) (x : OrderBook.Side) :
    (b.setSide s x).slots = b.slots := by
  cases s <;> rfl

@[simp] theorem index_setSide (b : OrderBook) (s : Side) (x : OrderBook.Side) :
    (b.setSide s x).index = b.index := by
  cases s <;> rfl

@[simp] theorem symbol_setSide (b : OrderBook) (s : Side) (x : OrderBook.Side) :
    (b.setSide s x).symbol = b.symbol := by
  cases s <;> rfl

@[simp] theorem side_slots (b : OrderBook) (p : SlotPool) (t : Side) :
    OrderBook.side { b with slots := p } t = b.side t := by
  cases t <;> rfl

@[simp] theorem side_index (b : OrderBook) (t : OrderIndex) (u : Side) :
    OrderBook.side { b with index := t } u = b.side u := by
  cases u <;> rfl

theorem side_setSide_slots (b : OrderBook) (s : Side) (x : OrderBook.Side) (p : SlotPool) :
    OrderBook.side { b.setSide s x with slots := p } s = x := by
  rw [side_slots, side_setSide]

theorem side_setSide_slots_opposite (b : OrderBook) (s : Side) (x : OrderBook.Side)
    (p : SlotPool) :
    OrderBook.side { b.setSide s x with slots := p } s.opposite = b.side s.opposite := by
  rw [side_slots, side_setSide_opposite]

/-- Only the sides, the slots and the index of a book matter. -/
theorem Rep.congr {b b' : OrderBook} {a : LevelBook} (h : Rep b a)
    (hside : ∀ s, b'.side s = b.side s) (hslots : b'.slots = b.slots)
    (hindex : b'.index = b.index) : Rep b' a where
  sides := fun s => by rw [hside]; exact h.sides s
  queues := fun s => by rw [hslots]; exact h.queues s
  free_head := by rw [hslots]; exact h.free_head
  free_chain := by rw [hslots]; exact h.free_chain
  used := by rw [hslots]; exact h.used
  index := by rw [hindex]; exact h.index

section level
variable {b : OrderBook} {a : LevelBook} {s : Side} {L R : List Level} {l : Level}

/-- What the book says about one level: the row ... -/
theorem Rep.row (h : Rep b a) (hls : a.levels s = L ++ l :: R) :
    SideRep (b.side s) (L ++ l :: R) :=
  hls ▸ h.sides s

/-- ... and the queue. -/
theorem Rep.queue (h : Rep b a) (hls : a.levels s = L ++ l :: R) : QueueRep b.slots l :=
  h.queues s l (by rw [hls]; simp)

theorem Apart.null_notMem (h : Apart a s L l R) : NULL_IDX ∉ l.slots :=
  fun hm => ne_null (h.lt _ hm) rfl

end level

end OptionsEngine
