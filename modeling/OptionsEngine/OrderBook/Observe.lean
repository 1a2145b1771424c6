import OptionsEngine.OrderBook.Refinement

/-! # Reading the book back

    What an observer finds by following the links: the queue of each level,
    the resting slots of a side, the free list.  On a book that represents
    levels these are the levels' queues and slots, so statements about the
    arrays reduce to statements about the book of levels. -/

namespace OptionsEngine

open Function LiveArray LinkedQueue OrderBook

namespace OrderBook

/-- Memory that was zeroed before the constructor ran. -/
def zeroed : OrderBook where
  symbol := 0
  bids := ⟨fun _ => 0, fun _ => 0, fun _ => 0, fun _ => 0, fun _ => 0, 0⟩
  asks := ⟨fun _ => 0, fun _ => 0, fun _ => 0, fun _ => 0, fun _ => 0, 0⟩
  slots :=
    ⟨fun _ => 0, fun _ => 0, fun _ => 0, fun _ => 0, fun _ => 0, fun _ => 0, fun _ => 0, 0, 0⟩
  index := ⟨fun _ => ⟨0, 0, 0⟩⟩
  stat_orders := 0
  stat_matches := 0
  stat_cancelled := 0
  stat_rejected := 0
  stat_self_trade_prevented := 0

/-- The slots of level `i`, from `head_idxs` along `nexts`. -/
def queue (b : OrderBook) (s : OptionsEngine.Side) (i : Nat) : List Nat :=
  walk b.slots.nexts NULL_IDX kMaxOrders ((b.side s).head_idxs i)

/-- The slots of a side, in priority order. -/
def resting (b : OrderBook) (s : OptionsEngine.Side) : List Nat :=
  (List.range (b.side s).count).flatMap (b.queue s)

/-- The free slots, from `free_head` along `free_nexts`. -/
def freeList (b : OrderBook) : List Nat :=
  walk b.slots.free_nexts NULL_IDX kMaxOrders b.slots.free_head

/-- Some order with this id is resting. -/
def Carries (b : OrderBook) (id : OrderId) : Prop :=
  ∃ x ∈ b.resting .Buy ++ b.resting .Sell, b.slots.ids x = id

instance (b : OrderBook) (id : OrderId) : Decidable (b.Carries id) :=
  inferInstanceAs (Decidable (∃ x ∈ _, _))

/-- Every call of a run meets `P` in the book it is made on. -/
def Meets (P : OrderBook → Op → Prop) (b : OrderBook) : List Op → Prop
  | [] => True
  | op :: ops =>
    P b op ∧
      match b.apply op with
      | none => True
      | some (_, b') => b'.Meets P ops

def decidableMeets (P : OrderBook → Op → Prop) [∀ b op, Decidable (P b op)] :
    (b : OrderBook) → (ops : List Op) → Decidable (b.Meets P ops)
  | _, [] => .isTrue trivial
  | b, op :: ops =>
    match h : b.apply op with
    | none => decidable_of_iff (P b op) (by simp [Meets, h])
    | some (r, b') =>
      have := decidableMeets P b' ops
      decidable_of_iff (P b op ∧ b'.Meets P ops) (by simp [Meets, h])

instance (P : OrderBook → Op → Prop) [∀ b op, Decidable (P b op)] (b : OrderBook)
    (ops : List Op) : Decidable (b.Meets P ops) := decidableMeets P b ops

end OrderBook

/-- A limit order to sell. -/
def sell (id : OrderId) (price : Price) (qty : Qty) : Order :=
  { id := id, price := price, qty := qty, qty_remaining := qty, symbol := 0, side := .Sell,
    type := .Limit, account_id := 0 }

/-- A limit order to buy. -/
def buy (id : OrderId) (price : Price) (qty : Qty) : Order :=
  { id := id, price := price, qty := qty, qty_remaining := qty, symbol := 0, side := .Buy,
    type := .Limit, account_id := 0 }

variable {b : OrderBook} {a : LevelBook} {s : Side} {L R : List Level} {l : Level} {e : Entry}

/-! ## Section 1: Queues -/

theorem Rep.queue_eq (h : Rep b a) (hw : WF a) (hls : a.levels s = L ++ l :: R) :
    b.queue s L.length = l.slots := by
  have hap : Apart a s L l R := Slotted.apart hw.slots hls
  obtain ⟨_, _, _, hhead, _⟩ := (h.row hls).cells
  have hlen : l.slots.length ≤ kMaxOrders := by
    have := hap.length_le
    simpa [Level.slots] using this
  unfold OrderBook.queue
  rw [hhead]
  exact (h.queue hls).linked.chain.walk_eq hap.null_notMem hlen

/-- Position `i` of a side splits its levels. -/
theorem Rep.level_at (h : Rep b a) {i : Nat} (hi : i < (b.side s).count) :
    ∃ L l R, a.levels s = L ++ l :: R ∧ L.length = i := by
  rw [(h.sides s).count_eq] at hi
  refine ⟨(a.levels s).take i, (a.levels s).get ⟨i, hi⟩, (a.levels s).drop (i + 1), ?_, ?_⟩
  · rw [List.get_eq_getElem, ← List.drop_eq_getElem_cons hi, List.take_append_drop]
  · exact List.length_take_of_le (Nat.le_of_lt hi)

/-- The live rows of a side, read with a function of the level and its
    position. -/
theorem Rep.map_levels {β : Type} (h : Rep b a) (f : Nat → β) (g : Level → β)
    (hfg : ∀ L l R, a.levels s = L ++ l :: R → f L.length = g l) :
    (List.range (b.side s).count).map f = (a.levels s).map g := by
  have hlive : live f (b.side s).count = (a.levels s).map g := by
    rw [live_eq_iff]
    refine ⟨by rw [(h.sides s).count_eq, List.length_map], ?_⟩
    intro i hi
    have hi' : i < (b.side s).count := by
      rw [(h.sides s).count_eq]
      simpa using hi
    obtain ⟨L, l, R, hls, rfl⟩ := h.level_at hi'
    rw [hfg L l R hls]
    simp [hls]
  exact hlive

theorem Rep.resting_eq (h : Rep b a) (hw : WF a) (s : Side) :
    b.resting s = slotsOf (a.levels s) := by
  unfold OrderBook.resting slotsOf
  rw [List.flatMap_def, List.flatMap_def]
  rw [h.map_levels (b.queue s) Level.slots fun L l R hls => h.queue_eq hw hls]

theorem Rep.freeList_eq (h : Rep b a) (hw : WF a) : b.freeList = a.free := by
  have hslot : Slotted a := hw.slots
  have hnull : NULL_IDX ∉ a.free := fun hm => ne_null (hslot.free_lt hm) rfl
  have hlen : a.free.length ≤ kMaxOrders := by
    have hu := h.used
    omega
  unfold OrderBook.freeList
  rw [h.free_head]
  exact h.free_chain.walk_eq hnull hlen

/-- The slot of a resting entry holds the entry. -/
theorem Rep.stored (h : Rep b a) (he : e ∈ entriesOf (a.levels s)) :
    ∃ l ∈ a.levels s, e ∈ l.queue ∧ Stored b.slots l.price e := by
  obtain ⟨l, hl, hel⟩ := List.mem_flatMap.mp he
  exact ⟨l, hl, hel, (h.queues s l hl).stored e hel⟩

theorem Rep.mem_resting (h : Rep b a) (hw : WF a) {x : Nat} :
    x ∈ b.resting s ↔ ∃ e ∈ entriesOf (a.levels s), e.slot = x := by
  rw [h.resting_eq hw, slotsOf_eq]
  exact List.mem_map

theorem mem_both_sides (b : OrderBook) (x : Nat) :
    x ∈ b.resting .Buy ++ b.resting .Sell ↔ ∃ s, x ∈ b.resting s := by
  rw [List.mem_append]
  constructor
  · rintro (hx | hx)
    · exact ⟨.Buy, hx⟩
    · exact ⟨.Sell, hx⟩
  · rintro ⟨s, hx⟩
    cases s with
    | Buy => exact Or.inl hx
    | Sell => exact Or.inr hx

theorem Rep.carries_iff (h : Rep b a) (hw : WF a) (id : OrderId) :
    b.Carries id ↔ ∃ s, ∃ e ∈ entriesOf (a.levels s), e.id = id := by
  constructor
  · rintro ⟨x, hx, hid⟩
    obtain ⟨s, hxs⟩ := (mem_both_sides b x).mp hx
    obtain ⟨e, he, rfl⟩ := (h.mem_resting hw).mp hxs
    obtain ⟨l, _, _, hst⟩ := h.stored he
    exact ⟨s, e, he, by rw [← hst.id, hid]⟩
  · rintro ⟨s, e, he, hid⟩
    obtain ⟨l, _, _, hst⟩ := h.stored he
    have hmem := (h.mem_resting hw).mpr ⟨e, he, rfl⟩
    exact ⟨e.slot, (mem_both_sides b _).mpr ⟨s, hmem⟩, by rw [hst.id, hid]⟩

/-- The quantity in the slot of a located entry. -/
theorem Rep.qty_at {px : Price} {q₁ q₂ : List Entry} (h : Rep b a)
    (hls : a.levels s = L ++ ⟨px, q₁ ++ e :: q₂⟩ :: R) : b.slots.qtys e.slot = e.qty := by
  exact ((h.queue hls).stored e (by simp)).qty

/-! ## Section 2: The invariant of the arrays -/

/-- One live level of a side: its queue is linked both ways from head to tail,
    as long as its count says, and holds orders of its price that add up to
    its quantity. -/
structure LevelInvariant (b : OrderBook) (s : Side) (i : Nat) : Prop where
  count_pos : 1 ≤ ((b.side s).order_counts i).toNat
  count_eq : (b.queue s i).length = ((b.side s).order_counts i).toNat
  nodup : (b.queue s i).Nodup
  linked : Seg b.slots.nexts b.slots.prevs NULL_IDX (b.queue s i) NULL_IDX
  head_eq : (b.queue s i).head? = some ((b.side s).head_idxs i)
  tail_eq : (b.queue s i).getLast? = some ((b.side s).tail_idxs i)
  price_eq : ∀ x ∈ b.queue s i, b.slots.prices x = (b.side s).prices i
  qty_pos : ∀ x ∈ b.queue s i, 0 < (b.slots.qtys x).toNat
  qty_eq : ((b.side s).qtys i).toNat =
    ((b.queue s i).map fun x => (b.slots.qtys x).toNat).sum % 2 ^ 32

/-- The representation invariant of the arrays, links, free list and index. -/
structure BookInvariant (b : OrderBook) : Prop where
  bids_sorted : ∀ i j, i < j → j < b.bids.count → b.bids.prices j < b.bids.prices i
  asks_sorted : ∀ i j, i < j → j < b.asks.count → b.asks.prices i < b.asks.prices j
  count_le : ∀ s, (b.side s).count ≤ kMaxLevels
  levels : ∀ s, ∀ i < (b.side s).count, LevelInvariant b s i
  /-- Every slot is in one queue or on the free list, once. -/
  slots : (b.resting .Buy ++ b.resting .Sell ++ b.freeList).Perm (List.range kMaxOrders)
  /-- The free list runs from its head to the null index without a cycle. -/
  free_head : b.slots.free_head = b.freeList.headD NULL_IDX
  free_acyclic : Chain b.slots.free_nexts b.freeList NULL_IDX ∧ b.freeList.Nodup
  used : b.slots.used.toNat = (b.resting .Buy).length + (b.resting .Sell).length
  /-- An occupied index entry points to a queued slot with its id, on its side. -/
  index : ∀ p < OrderIndex.kTableSize, (b.index.table p).slot ≠ OrderIndex.kEmpty →
    ∃ s, (b.index.table p).side = sideIdx s ∧ (b.index.table p).slot ∈ b.resting s ∧
      b.slots.ids (b.index.table p).slot = (b.index.table p).key

theorem Rep.level_invariant (h : Rep b a) (hw : WF a) (hls : a.levels s = L ++ l :: R) :
    LevelInvariant b s L.length := by
  have hap : Apart a s L l R := Slotted.apart hw.slots hls
  have hmem : l ∈ a.levels s := by rw [hls]; simp
  have hq := h.queue hls
  obtain ⟨hprice, hqty, hcount, hhead, htail⟩ := (h.row hls).cells
  have hqueue := h.queue_eq hw hls
  have hne : l.queue ≠ [] := hw.nonempty s l hmem
  have hslots : l.slots ≠ [] := by simpa [Level.slots] using hne
  have hlen := hap.length_le
  have hk : kMaxOrders = 65536 := rfl
  -- a queue is no longer than the pool, so its count has not wrapped; its quantity may have
  have hcount' : ((b.side s).order_counts L.length).toNat = l.queue.length := by
    rw [hcount, UInt32.toNat_ofNat']
    omega
  have hmap : (b.queue s L.length).map (fun x => (b.slots.qtys x).toNat) =
      l.queue.map fun e => e.qty.toNat := by
    rw [hqueue, Level.slots, List.map_map]
    apply List.map_congr_left
    intro e he
    simp only [comp_apply, (hq.stored e he).qty]
  refine ⟨?_, ?_, ?_, ?_, ?_, ?_, ?_, ?_, ?_⟩
  · rw [hcount']
    exact List.length_pos_iff.mpr hne
  · rw [hqueue, hcount', Level.slots, List.length_map]
  · rw [hqueue]; exact hap.nodup
  · rw [hqueue]; exact hq.linked
  · rw [hqueue, hhead]
    cases hl : l.slots with
    | nil => exact absurd hl hslots
    | cons x xs => rfl
  · rw [hqueue, htail]
    rcases List.eq_nil_or_concat l.slots with hl | ⟨zs, z, hl⟩
    · exact absurd hl hslots
    · rw [hl, List.concat_eq_append, List.getLastD_concat, List.getLast?_concat]
  · intro x hx
    rw [hqueue] at hx
    obtain ⟨e, he, rfl⟩ := List.mem_map.mp hx
    rw [(hq.stored e he).price, hprice]
  · intro x hx
    rw [hqueue] at hx
    obtain ⟨e, he, rfl⟩ := List.mem_map.mp hx
    rw [(hq.stored e he).qty]
    have hpos := hw.positive s e (List.mem_flatMap.mpr ⟨l, hmem, he⟩)
    exact Nat.pos_of_ne_zero fun hz => hpos (UInt32.toNat_inj.mp hz)
  · rw [hmap, hqty, UInt32.toNat_ofNat']
    rfl

theorem Rep.price_at (h : Rep b a) (s : Side) : live (b.side s).prices (b.side s).count =
    (a.levels s).map Level.price := (h.sides s).prices

/-- Prices of a side strictly lose priority with their position. -/
theorem Rep.prices_sorted (h : Rep b a) (hw : WF a) (s : Side) {i j : Nat} (hij : i < j)
    (hj : j < (b.side s).count) : better s ((b.side s).prices i) ((b.side s).prices j) := by
  have hsorted : ((a.levels s).map Level.price).Pairwise (better s) := by
    rw [List.pairwise_map]
    exact hw.sorted s
  rw [← h.price_at s, List.pairwise_iff_getElem] at hsorted
  have := hsorted i j (by simpa using Nat.lt_trans hij hj) (by simpa using hj) hij
  simpa [live] using this

/-- A book that represents well-formed levels keeps the invariant of the
    arrays. -/
theorem Rep.invariant (h : Rep b a) (hw : WF a) : BookInvariant b := by
  have hslot : Slotted a := hw.slots
  refine ⟨?_, ?_, ?_, ?_, ?_, ?_, ⟨?_, ?_⟩, ?_, ?_⟩
  · exact fun i j hij hj => h.prices_sorted hw .Buy hij hj
  · exact fun i j hij hj => h.prices_sorted hw .Sell hij hj
  · intro s
    rw [(h.sides s).count_eq]
    exact hw.capacity s
  · intro s i hi
    obtain ⟨L, l, R, hls, rfl⟩ := h.level_at hi
    exact h.level_invariant hw hls
  · rw [h.resting_eq hw, h.resting_eq hw, h.freeList_eq hw, List.append_assoc]
    exact hw.slots
  · rw [h.freeList_eq hw]
    exact h.free_head
  · rw [h.freeList_eq hw]
    exact h.free_chain
  · rw [h.freeList_eq hw]
    exact hslot.free_nodup
  · have hu := h.used
    have hlen := hw.slots.length_eq
    rw [h.resting_eq hw, h.resting_eq hw]
    simp only [List.length_append, List.length_range] at hlen
    omega
  · intro p hp hocc
    -- the entry is what the index maps its key to
    have hentry := (h.index.maps (b.index.table p).key (b.index.table p)).mpr
      ⟨p, hp, rfl, (OrderIndex.occ_iff _ _).mpr hocc, rfl⟩
    cases hm : a.index (b.index.table p).key with
    | none => simp [OrderIndex.entryOf, encode, hm] at hentry
    | some v =>
      obtain ⟨slot, s⟩ := v
      have htp : b.index.table p =
          { key := (b.index.table p).key, slot := slot, side := sideIdx s } := by
        simpa [OrderIndex.entryOf, encode, hm] using hentry.symm
      obtain ⟨e, he, hes, heid⟩ := hw.indexed _ _ _ hm
      obtain ⟨l, _, _, hst⟩ := h.stored he
      have hslot_eq : (b.index.table p).slot = e.slot := by rw [htp, hes]
      refine ⟨s, by rw [htp], ?_, ?_⟩
      · rw [hslot_eq]
        exact (h.mem_resting hw).mpr ⟨e, he, rfl⟩
      · rw [hslot_eq, hst.id, heid]

/-- A step of the book of levels never finds a level gone. -/
theorem Step.ne_level_gone {a' : LevelBook} {op : Op} {out : Outcome} {takes : List Take}
    (h : Step a op out takes a') : out ≠ .level_gone := by
  cases h <;> simp

/-- Every state of every run keeps the representation invariant, and no call
    on it finds the level of an indexed order gone. -/
theorem reachable_invariant (mem : OrderBook) (symbol : SymbolId) (ops : List Op) :
    ∃ rs b, (fresh mem symbol).run ops = some (rs, b) ∧ BookInvariant b ∧
      ∀ op, ∃ r b', b.apply op = some (r, b') ∧ r.outcome ≠ .level_gone := by
  obtain ⟨rs, b, calls, a, hrun, _, _, _, hrep, hw⟩ := run_refines mem symbol ops
  refine ⟨rs, b, hrun, hrep.invariant hw, ?_⟩
  intro op
  obtain ⟨r, b', a', takes, happly, hstep, _⟩ := hrep.apply hw op
  exact ⟨r, b', happly, hstep.ne_level_gone⟩

end OptionsEngine
