import OptionsEngine.OrderBook.Uncrossed

/-! # The price of an empty side

    `best_quote` reports `PRICE_INVALID` for a side without levels.  The
    constant is the smallest price there is, and `add_order` accepts it like
    any other: an ask at that price is the best one, and a bid at it is the
    best one as long as it is alone.

    * `Priced`: the prices in the book come from the orders that may rest.
    * `quote_tells`: when the quote tells an empty side, and that it always
      does so where no order that may rest is priced at `PRICE_INVALID`. -/

namespace OptionsEngine

open Function OrderBook

/-! ## Section 1: Where prices come from -/

/-- A price that `int64_t` can hold. -/
def Representable (p : Price) : Prop := PRICE_INVALID ≤ p ∧ p ≤ 9223372036854775807

/-- The quote says that a side is empty exactly if it is. -/
structure QuoteTells (b : OrderBook) : Prop where
  bid : b.best_quote.bid_price = PRICE_INVALID ↔ b.resting .Buy = []
  ask : b.best_quote.ask_price = PRICE_INVALID ↔ b.resting .Sell = []

/-- No ask rests at `PRICE_INVALID`, nor are all bids there. -/
structure ClearOfInvalid (b : OrderBook) : Prop where
  bids : b.resting .Buy ≠ [] → ∃ x ∈ b.resting .Buy, b.slots.prices x ≠ PRICE_INVALID
  asks : ∀ x ∈ b.resting .Sell, b.slots.prices x ≠ PRICE_INVALID

/-- All levels have prices in `P`. -/
def Priced (P : Price → Prop) (a : LevelBook) : Prop := ∀ s, ∀ l ∈ a.levels s, P l.price

variable {P : Price → Prop} {b : OrderBook} {a a' : LevelBook} {s : Side} {o : Order}

theorem Priced.mono (h : Priced P a) (hp : FewerPrices a a') : Priced P a' := by
  intro s l hl
  obtain ⟨k, hk, hprice⟩ := hp s l hl
  rw [← hprice]
  exact h s k hk

theorem Priced.rest {slot : Nat} {free : List Nat} {rem : Qty} (h : Priced P a) (hw : WF a)
    (ho : P o.price) : Priced P (a.rest o slot free rem) := by
  intro t l hl
  rcases o.side.eq_or_opposite t with rfl | rfl
  · rw [levels_rest] at hl
    rcases price_insertEntry (hw.sorted o.side) hl with hprice | ⟨k, hk, hprice⟩
    · rw [hprice]
      exact ho
    · rw [← hprice]
      exact h o.side k hk
  · rw [levels_rest_opposite] at hl
    exact h _ l hl

/-- Only an order that may rest brings a price into the book. -/
theorem Step.priced {op : Op} {out : Outcome} {takes : List Take} (h : Step a op out takes a')
    (hw : WF a) (hp : Priced P a) (hop : ∀ o, op = .add o → ¬ Immediate o → P o.price) :
    Priced P a' := by
  cases h.edit with
  | thinned hthin hout => exact hp.mono hthin.fewerPrices
  | increased hls => exact hp.mono (fewerPrices_setLevels hls)
  | booked himm hm hrem hfree =>
    exact (hp.mono hm.thinned.fewerPrices).rest (hm.wf hw) (hop _ rfl himm)

theorem Steps.priced {calls : List Call} (h : Steps a calls a') (hw : WF a) (hp : Priced P a)
    (hops : ∀ o, Op.add o ∈ calls.map Call.op → ¬ Immediate o → P o.price) : Priced P a' := by
  induction h with
  | nil a => exact hp
  | cons hstep hrest ih =>
    refine ih (hstep.wf hw) (hstep.priced hw hp ?_) ?_
    · rintro o rfl himm
      exact hops o (by simp) himm
    · intro o ho himm
      exact hops o (by simp [ho]) himm

/-! ## Section 2: What the quote tells -/

/-- The prices of the resting orders are those of the levels. -/
theorem Rep.price_mem_iff (h : Rep b a) (hw : WF a) (p : Price) :
    (∃ x ∈ b.resting s, b.slots.prices x = p) ↔ ∃ l ∈ a.levels s, l.price = p := by
  constructor
  · rintro ⟨x, hx, rfl⟩
    obtain ⟨e, he, rfl⟩ := (h.mem_resting hw).mp hx
    obtain ⟨l, hl, _, hst⟩ := h.stored he
    exact ⟨l, hl, hst.price.symm⟩
  · rintro ⟨l, hl, rfl⟩
    obtain ⟨e, he⟩ := List.exists_mem_of_ne_nil _ (hw.nonempty s l hl)
    refine ⟨e.slot, (h.mem_resting hw).mpr ⟨e, List.mem_flatMap.mpr ⟨l, hl, he⟩, rfl⟩, ?_⟩
    exact ((h.queues s l hl).stored e he).price

theorem Rep.resting_nil_iff (h : Rep b a) (hw : WF a) : b.resting s = [] ↔ a.levels s = [] := by
  rw [h.resting_eq hw]
  cases hls : a.levels s with
  | nil => simp
  | cons l ls =>
    have hq : l.queue ≠ [] := hw.nonempty s l (by rw [hls]; simp)
    simp [Level.slots, hq]

/-- One side of the quote: it is right unless the best price is the constant. -/
theorem Rep.quote_side (h : Rep b a) (hw : WF a) (s : Side) :
    ((if (b.side s).count > 0 then (b.side s).prices 0 else PRICE_INVALID) = PRICE_INVALID ↔
      b.resting s = []) ↔ ∀ l ∈ (a.levels s).head?, l.price ≠ PRICE_INVALID := by
  rw [h.resting_nil_iff hw]
  cases hls : a.levels s with
  | nil =>
    have hside := h.sides s
    rw [hls] at hside
    have hcount : (b.side s).count = 0 := hside.count_eq
    simp [hcount]
  | cons l ls =>
    obtain ⟨px, q⟩ := l
    obtain ⟨hcount, hprice, _⟩ := h.best hls
    simp [hcount, hprice]

/-- The best ask is the constant if any ask is: there is no lower price. -/
theorem Rep.ask_clear (h : Rep b a) (hw : WF a) (hp : Priced Representable a) :
    (∀ l ∈ (a.levels .Sell).head?, l.price ≠ PRICE_INVALID) ↔
      ∀ x ∈ b.resting .Sell, b.slots.prices x ≠ PRICE_INVALID := by
  have hsorted := hw.sorted .Sell
  have hrange := hp .Sell
  constructor
  · intro hhead x hx hprice
    obtain ⟨k, hk, hkp⟩ := (h.price_mem_iff hw PRICE_INVALID).mp ⟨x, hx, hprice⟩
    cases hls : a.levels .Sell with
    | nil => simp [hls] at hk
    | cons l ls =>
      rw [hls] at hk hhead hsorted hrange
      rcases List.mem_cons.mp hk with rfl | hk
      · exact hhead k (by simp) hkp
      · have hlower : l.price < k.price := (List.pairwise_cons.mp hsorted).1 k hk
        rw [hkp] at hlower
        exact absurd (hrange l (by simp)).1 (Int.not_le.mpr hlower)
  · intro hall l hl hprice
    obtain ⟨x, hx, hxp⟩ := (h.price_mem_iff hw PRICE_INVALID).mpr
      ⟨l, List.mem_of_mem_head? hl, hprice⟩
    exact hall x hx hxp

/-- The best bid is the constant if every bid is. -/
theorem Rep.bid_clear (h : Rep b a) (hw : WF a) (hp : Priced Representable a) :
    (∀ l ∈ (a.levels .Buy).head?, l.price ≠ PRICE_INVALID) ↔
      (b.resting .Buy ≠ [] → ∃ x ∈ b.resting .Buy, b.slots.prices x ≠ PRICE_INVALID) := by
  have hsorted := hw.sorted .Buy
  have hrange := hp .Buy
  constructor
  · intro hhead hsome
    rw [Ne, h.resting_nil_iff hw] at hsome
    cases hls : a.levels .Buy with
    | nil => exact absurd hls hsome
    | cons l ls =>
      obtain ⟨x, hx, hxp⟩ := (h.price_mem_iff hw l.price).mpr ⟨l, by rw [hls]; simp, rfl⟩
      refine ⟨x, hx, ?_⟩
      rw [hxp]
      exact hhead l (by rw [hls]; simp)
  · intro hsome l hl hprice
    cases hls : a.levels .Buy with
    | nil => simp [hls] at hl
    | cons k ls =>
      have hne : b.resting .Buy ≠ [] := by
        rw [Ne, h.resting_nil_iff hw, hls]
        simp
      obtain ⟨x, hx, hxp⟩ := hsome hne
      obtain ⟨m, hm, hmp⟩ := (h.price_mem_iff hw _).mp ⟨x, hx, rfl⟩
      obtain rfl : k = l := by
        rw [hls] at hl
        simpa using hl
      rw [hls] at hm hsorted hrange
      -- a bid at another price would be below the smallest one
      rcases List.mem_cons.mp hm with rfl | hm'
      · exact hxp (hmp.symm.trans hprice)
      · have hlower : m.price < k.price := (List.pairwise_cons.mp hsorted).1 m hm'
        rw [hprice] at hlower
        exact absurd (hrange m hm).1 (Int.not_le.mpr hlower)

theorem Rep.quote_iff (h : Rep b a) (hw : WF a) (hp : Priced Representable a) :
    QuoteTells b ↔ ClearOfInvalid b := by
  have hbid := (h.quote_side hw .Buy).trans (h.bid_clear hw hp)
  have hask := (h.quote_side hw .Sell).trans (h.ask_clear hw hp)
  constructor
  · intro htells
    exact ⟨hbid.mp htells.bid, hask.mp htells.ask⟩
  · intro hclear
    exact ⟨hbid.mpr hclear.bids, hask.mpr hclear.asks⟩

/-- In every state of every run with 64-bit prices, the quote tells the empty
    sides exactly if the book is clear of `PRICE_INVALID`; it is so wherever no
    order that may rest brings that price. -/
theorem quote_tells (mem : OrderBook) (symbol : SymbolId) (ops : List Op)
    (hrange : ∀ o, Op.add o ∈ ops → Representable o.price) :
    ∃ rs b, (fresh mem symbol).run ops = some (rs, b) ∧ (QuoteTells b ↔ ClearOfInvalid b) ∧
      ((∀ o, Op.add o ∈ ops → ¬ Immediate o → o.price ≠ PRICE_INVALID) → QuoteTells b) := by
  obtain ⟨rs, b, calls, a, hrun, hsteps, rfl, _, hrep, hw⟩ := run_refines mem symbol ops
  have hempty : ∀ P, Priced P LevelBook.empty := fun _ _ _ hl => absurd hl List.not_mem_nil
  have hp := hsteps.priced wf_empty (hempty Representable) fun o ho _ => hrange o ho
  refine ⟨rs, b, hrun, hrep.quote_iff hw hp, ?_⟩
  intro hvalid
  have hne := hsteps.priced wf_empty (hempty (· ≠ PRICE_INVALID)) hvalid
  constructor
  · exact (hrep.quote_side hw .Buy).mpr fun l hl => hne .Buy l (List.mem_of_mem_head? hl)
  · exact (hrep.quote_side hw .Sell).mpr fun l hl => hne .Sell l (List.mem_of_mem_head? hl)

/-- A bid and an ask at ordinary prices. -/
theorem quote_tells_ordinary :
    ∃ rs b, (fresh zeroed 0).run [.add (buy 1 99 5), .add (sell 2 101 5)] = some (rs, b) ∧
      QuoteTells b := by
  have hprice : ∀ o, Op.add o ∈ [Op.add (buy 1 99 5), .add (sell 2 101 5)] →
      o.price = 99 ∨ o.price = 101 := by
    intro o ho
    simp only [List.mem_cons, Op.add.injEq, List.not_mem_nil, or_false] at ho
    rcases ho with rfl | rfl
    · exact Or.inl rfl
    · exact Or.inr rfl
  obtain ⟨rs, b, hrun, _, htells⟩ := quote_tells zeroed 0 [.add (buy 1 99 5), .add (sell 2 101 5)]
    fun o ho => by
      unfold Representable
      rcases hprice o ho with h | h <;> rw [h] <;> decide
  refine ⟨rs, b, hrun, htells ?_⟩
  intro o ho _
  rcases hprice o ho with h | h <;> rw [h] <;> decide

/-- An ask at the smallest price rests, and the quote says that nothing does. -/
theorem quote_hides_ask :
    ∃ rs b, (fresh zeroed 0).run [.add (sell 1 PRICE_INVALID 5)] = some (rs, b) ∧
      Representable PRICE_INVALID ∧ b.resting .Sell = [0] ∧
      b.best_quote.ask_price = PRICE_INVALID ∧ ¬ QuoteTells b := by
  have hrun : ((fresh zeroed 0).run [.add (sell 1 PRICE_INVALID 5)]).map (fun x =>
      (x.2.resting .Sell, x.2.best_quote.ask_price)) = some ([0], PRICE_INVALID) := by
    decide +kernel
  obtain ⟨⟨rs, b⟩, hb, hval⟩ := Option.map_eq_some_iff.mp hrun
  simp only [Prod.mk.injEq] at hval
  refine ⟨rs, b, hb, ⟨by decide, by decide⟩, hval.1, hval.2, ?_⟩
  intro htells
  have hnone := htells.ask.mp hval.2
  rw [hval.1] at hnone
  cases hnone

end OptionsEngine
