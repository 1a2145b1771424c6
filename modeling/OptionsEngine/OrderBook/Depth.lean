import OptionsEngine.OrderBook.Observe

/-! # Reported depth

    `best_quote`, `bid_depth` and `ask_depth` report the totals kept with the
    levels.  Each is a 32-bit counter, kept up to date by every operation, and
    so is right modulo 2^32: it is the quantity resting at the price exactly as
    long as that fits into 32 bits. -/

namespace OptionsEngine

open Function OrderBook

/-- The quantity resting at price `p`: the sum over the orders of a side with
    that price, as an integer. -/
def OrderBook.restingAt (b : OrderBook) (s : OptionsEngine.Side) (p : Price) : Nat :=
  (((b.resting s).filter fun x => b.slots.prices x = p).map fun x => (b.slots.qtys x).toNat).sum

/-- Every total that can be read off the book is the quantity resting at its
    price. -/
structure DepthExact (b : OrderBook) : Prop where
  bid_qty : b.best_quote.bid_qty.toNat = b.restingAt .Buy b.best_quote.bid_price
  ask_qty : b.best_quote.ask_qty.toNat = b.restingAt .Sell b.best_quote.ask_price
  bid_depth : ∀ size, ∀ l ∈ b.bid_depth size, l.total_qty.toNat = b.restingAt .Buy l.price
  ask_depth : ∀ size, ∀ l ∈ b.ask_depth size, l.total_qty.toNat = b.restingAt .Sell l.price

variable {b : OrderBook} {a : LevelBook} {s : Side} {L R : List Level} {l : Level}

/-! ## Section 1: The quantity at a price -/

/-- The resting quantity at a price, read off the levels. -/
theorem Rep.restingAt_eq (h : Rep b a) (hw : WF a) (s : Side) (p : Price) :
    b.restingAt s p = (((a.levels s).filter fun l => l.price = p).map Level.total).sum := by
  unfold OrderBook.restingAt
  rw [h.resting_eq hw]
  have hq : QueuesRep b.slots (a.levels s) := h.queues s
  generalize a.levels s = ls at hq
  induction ls with
  | nil => rfl
  | cons l ls ih =>
    have hl := hq l (by simp)
    have hrest : QueuesRep b.slots ls := fun k hk => hq k (List.mem_cons_of_mem _ hk)
    have hprice : ∀ x ∈ l.slots, b.slots.prices x = l.price := by
      intro x hx
      obtain ⟨e, he, rfl⟩ := List.mem_map.mp hx
      exact (hl.stored e he).price
    rw [slotsOf_cons, List.filter_append, List.map_append, List.sum_append, ih hrest,
      List.filter_cons]
    -- all orders of a level have its price, so they are counted together or not at all
    by_cases hp : l.price = p
    · have hall : (l.slots.filter fun x => b.slots.prices x = p) = l.slots := by
        rw [List.filter_eq_self]
        intro x hx
        simp [hprice x hx, hp]
      have htotal : (l.slots.map fun x => (b.slots.qtys x).toNat).sum = l.total := by
        unfold Level.slots Level.total
        rw [List.map_map]
        congr 1
        apply List.map_congr_left
        intro e he
        simp only [comp_apply, (hl.stored e he).qty]
      rw [hall, htotal]
      simp [hp]
    · have hnone : (l.slots.filter fun x => b.slots.prices x = p) = [] := by
        rw [List.filter_eq_nil_iff]
        intro x hx
        simp [hprice x hx, hp]
      rw [hnone]
      simp [hp]

/-- One level holds all that rests at its price. -/
theorem Rep.restingAt_level (h : Rep b a) (hw : WF a) (hls : a.levels s = L ++ l :: R) :
    b.restingAt s l.price = l.total := by
  have hsorted := hw.sorted s
  rw [hls] at hsorted
  have hL : ∀ k ∈ L, k.price ≠ l.price := by
    intro k hk heq
    have hb := better_of_sorted hsorted k hk
    rw [heq] at hb
    exact better_irrefl s _ hb
  have hR : ∀ k ∈ R, k.price ≠ l.price := by
    intro k hk heq
    have hb := (List.pairwise_cons.mp (List.pairwise_append.mp hsorted).2.1).1 k hk
    rw [heq] at hb
    exact better_irrefl s _ hb
  have hLnil : (L.filter fun k => k.price = l.price) = [] := by
    rw [List.filter_eq_nil_iff]
    intro k hk
    simp [hL k hk]
  have hRnil : (R.filter fun k => k.price = l.price) = [] := by
    rw [List.filter_eq_nil_iff]
    intro k hk
    simp [hR k hk]
  rw [h.restingAt_eq hw, hls, List.filter_append, List.filter_cons, hLnil, hRnil]
  simp

/-- The counter of a live level is the quantity at its price, modulo 2^32. -/
theorem Rep.qtys_eq (h : Rep b a) (hw : WF a) {i : Nat} (hi : i < (b.side s).count) :
    ((b.side s).qtys i).toNat = b.restingAt s ((b.side s).prices i) % 2 ^ 32 := by
  obtain ⟨L, l, R, hls, rfl⟩ := h.level_at hi
  obtain ⟨hprice, hqty, _, _, _⟩ := (h.row hls).cells
  rw [hprice, hqty, h.restingAt_level hw hls, UInt32.toNat_ofNat']

/-- Nothing rests at a price without a level. -/
theorem Rep.restingAt_pos (h : Rep b a) (hw : WF a) {p : Price} (hpos : 0 < b.restingAt s p) :
    ∃ i < (b.side s).count, (b.side s).prices i = p := by
  rw [h.restingAt_eq hw] at hpos
  have hne : ((a.levels s).filter fun l => l.price = p) ≠ [] := by
    intro hnil
    rw [hnil] at hpos
    simp at hpos
  obtain ⟨l, hl⟩ := List.exists_mem_of_ne_nil _ hne
  obtain ⟨hmem, hprice⟩ := List.mem_filter.mp hl
  obtain ⟨L, R, hls⟩ := List.append_of_mem hmem
  have hrow := h.row hls
  refine ⟨L.length, by rw [hrow.count_eq]; simp, ?_⟩
  rw [hrow.cells.1]
  simpa using hprice

/-! ## Section 2: The reports -/

/-- The reports of one side are exact. -/
def SideExact (b : OrderBook) (s : Side) : Prop :=
  ∀ i < (b.side s).count, ((b.side s).qtys i).toNat = b.restingAt s ((b.side s).prices i)

theorem mem_depth {side : OrderBook.Side} {size : Nat} {x : PriceLevel} :
    x ∈ depth side size ↔ ∃ i < min size side.count,
      (⟨side.prices i, side.qtys i, side.order_counts i, side.head_idxs i⟩ : PriceLevel) = x := by
  simp [depth]

/-- The depth of a side shows each of its levels. -/
theorem depth_exact_iff (b : OrderBook) (s : Side) :
    (∀ size, ∀ x ∈ depth (b.side s) size, x.total_qty.toNat = b.restingAt s x.price) ↔
      SideExact b s := by
  constructor
  · intro h i hi
    have hmem : (⟨(b.side s).prices i, (b.side s).qtys i, (b.side s).order_counts i,
        (b.side s).head_idxs i⟩ : PriceLevel) ∈ depth (b.side s) (i + 1) := by
      rw [mem_depth]
      exact ⟨i, by omega, rfl⟩
    exact h (i + 1) _ hmem
  · intro h size x hx
    obtain ⟨i, hi, rfl⟩ := mem_depth.mp hx
    exact h i (by omega)

theorem Rep.sideExact_iff (h : Rep b a) (hw : WF a) (s : Side) :
    SideExact b s ↔ ∀ p, b.restingAt s p < 2 ^ 32 := by
  constructor
  · intro hexact p
    by_contra hbig
    obtain ⟨i, hi, rfl⟩ := h.restingAt_pos hw (by omega : 0 < b.restingAt s p)
    have hlt := ((b.side s).qtys i).toNat_lt
    rw [hexact i hi] at hlt
    exact hbig hlt
  · intro hfits i hi
    rw [h.qtys_eq hw hi, Nat.mod_eq_of_lt (hfits _)]

/-- Nothing rests on a side without levels. -/
theorem Rep.restingAt_empty (h : Rep b a) (hw : WF a) (hzero : ¬ (b.side s).count > 0)
    (p : Price) : b.restingAt s p = 0 := by
  by_contra hne
  obtain ⟨i, hi, _⟩ := h.restingAt_pos hw (Nat.pos_of_ne_zero hne)
  omega

/-- The quote shows the first level of each side. -/
theorem Rep.depthExact_iff (h : Rep b a) (hw : WF a) :
    DepthExact b ↔ SideExact b .Buy ∧ SideExact b .Sell := by
  constructor
  · intro hd
    exact ⟨(depth_exact_iff b .Buy).mp hd.bid_depth, (depth_exact_iff b .Sell).mp hd.ask_depth⟩
  · rintro ⟨hbuy, hsell⟩
    refine ⟨?_, ?_, (depth_exact_iff b .Buy).mpr hbuy, (depth_exact_iff b .Sell).mpr hsell⟩
    · unfold OrderBook.best_quote
      simp only
      split
      · next hpos => exact hbuy 0 hpos
      · next hzero => exact (h.restingAt_empty (s := .Buy) hw hzero _).symm
    · unfold OrderBook.best_quote
      simp only
      split
      · next hpos => exact hsell 0 hpos
      · next hzero => exact (h.restingAt_empty (s := .Sell) hw hzero _).symm

/-- In every state of every run, all reported totals are exact if and only if
    the quantity resting at each price fits into 32 bits. -/
theorem reported_depth_iff (mem : OrderBook) (symbol : SymbolId) (ops : List Op) :
    ∃ rs b, (fresh mem symbol).run ops = some (rs, b) ∧
      (DepthExact b ↔ ∀ s p, b.restingAt s p < 2 ^ 32) := by
  obtain ⟨rs, b, calls, a, hrun, _, _, _, hrep, hw⟩ := run_refines mem symbol ops
  refine ⟨rs, b, hrun, ?_⟩
  rw [hrep.depthExact_iff hw, hrep.sideExact_iff hw, hrep.sideExact_iff hw]
  constructor
  · rintro ⟨hbuy, hsell⟩ s p
    cases s with
    | Buy => exact hbuy p
    | Sell => exact hsell p
  · exact fun hfits => ⟨hfits .Buy, hfits .Sell⟩

/-- Two orders of the largest quantity at one price: the total wraps. -/
theorem wrapped_level_total :
    ∃ rs b, (fresh zeroed 0).run [.add (buy 1 100 4294967295), .add (buy 2 100 4294967295)] =
        some (rs, b) ∧
      b.best_quote.bid_qty = 4294967294 ∧ b.restingAt .Buy 100 = 8589934590 ∧
      ¬ DepthExact b := by
  have hrun : ((fresh zeroed 0).run
      [.add (buy 1 100 4294967295), .add (buy 2 100 4294967295)]).map (fun x =>
        (x.2.best_quote.bid_price, x.2.best_quote.bid_qty, x.2.restingAt .Buy 100)) =
      some (100, 4294967294, 8589934590) := by
    decide +kernel
  obtain ⟨⟨rs, b⟩, heq, hval⟩ := Option.map_eq_some_iff.mp hrun
  simp only [Prod.mk.injEq] at hval
  obtain ⟨hprice, hqty, hresting⟩ := hval
  refine ⟨rs, b, heq, hqty, hresting, ?_⟩
  intro hexact
  have := hexact.bid_qty
  rw [hprice, hqty, hresting] at this
  exact absurd this (by decide)

end OptionsEngine
