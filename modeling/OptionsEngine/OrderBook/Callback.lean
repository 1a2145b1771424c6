import OptionsEngine.OrderBook.Uncrossed

/-! # The book inside a report

    `try_match` calls `match_cb_` in the middle of a fill: the quantity is
    taken off the passive order and its level, but the order is still at the
    head of its queue, even with nothing left, and its slot and index entry
    are still taken.

    * `MatchEvent.reported`: the book that the callback finds, and
      `fill_head_reported`, that `fill_head` makes it.
    * `Midfill`: what holds of it.  The representation invariant holds of the
      book just before; that no bid meets an ask holds at every moment. -/

namespace OptionsEngine

open Function OrderBook

variable {a a' : LevelBook} {s : Side} {o : Order} {symbol : SymbolId} {ev : MatchEvent} {t : Take}

/-- The book in memory while the report of `ev` is passed on. -/
def MatchEvent.reported (ev : MatchEvent) : OrderBook :=
  let b := ev.book
  let passive := ev.report.side.opposite
  let side := b.side passive
  let side := { side with qtys := update side.qtys 0 (side.qtys 0 - ev.report.exec_qty) }
  { b.setSide passive side with
    slots :=
      { b.slots with
        qtys := update b.slots.qtys ev.slot (b.slots.qtys ev.slot - ev.report.exec_qty) } }

/-- A fill leaves the book of its report; only the match is still to be counted. -/
theorem fill_head_reported (px : Price) (m : MatchState) (slot : Nat) :
    ∃ ev, (fill_head m.incoming.side.opposite px m slot).events = m.events ++ [ev] ∧
      (fill_head m.incoming.side.opposite px m slot).book =
        { ev.reported with stat_matches := ev.book.stat_matches + 1 } :=
  ⟨_, rfl, rfl⟩

/-- Neither side's best price is touched by a fill, nor its number of levels. -/
theorem MatchEvent.reported_side (ev : MatchEvent) (s : Side) :
    (ev.reported.side s).count = (ev.book.side s).count ∧
      (ev.reported.side s).prices = (ev.book.side s).prices := by
  unfold MatchEvent.reported
  cases s <;> cases ev.report.side <;> exact ⟨rfl, rfl⟩

/-- The best bid is below the best ask. -/
def NotCrossed (b : OrderBook) : Prop :=
  0 < b.bids.count → 0 < b.asks.count → b.bids.prices 0 < b.asks.prices 0

/-- A fill that is being reported. -/
structure Midfill (ev : MatchEvent) : Prop where
  before : BookInvariant ev.book
  /-- The passive order is the first of the best level ... -/
  head : (ev.book.side ev.report.side.opposite).head_idxs 0 = ev.slot
  /-- ... and has what is taken. -/
  enough : ev.report.exec_qty ≤ ev.book.slots.qtys ev.slot
  not_crossed : NotCrossed ev.reported

theorem Rep.not_crossed {b : OrderBook} (h : Rep b a) (hu : Uncrossed a) : NotCrossed b := by
  intro hbids hasks
  -- The best prices are those of the first levels, and no bid level meets an ask level.
  obtain ⟨l, hl, hlp⟩ := h.best_price (s := .Buy) hbids
  obtain ⟨l', hl', hlp'⟩ := h.best_price (s := .Sell) hasks
  change b.bids.prices 0 = _ at hlp
  change b.asks.prices 0 = _ at hlp'
  rw [hlp, hlp']
  exact hu .Buy l hl l' hl'

/-- No more is taken than the passive order has. -/
theorem Matching.enough {rem rem' : Qty} {takes : List Take} {walled : Bool}
    (h : Matching o s a rem takes a' rem' walled) : ∀ t ∈ takes, t.qty ≤ t.entry.qty := by
  induction h with
  | filled | exhausted | price | wall => simp
  | take hrem hls hgo hwall hrest ih =>
    intro t ht
    rcases List.mem_cons.mp ht with rfl | ht
    · rw [UInt32.le_iff_toNat_le, UInt32.toNat_min]
      exact Nat.min_le_right _ _
    · exact ih t ht

theorem EventOf.midfill (hev : EventOf symbol o ev t) (ht : TakeOf o o.side.opposite a t)
    (henough : t.qty ≤ t.entry.qty) (hu : Uncrossed a) : Midfill ev := by
  obtain ⟨es, ls, hls⟩ := ht.head
  have hside : ev.report.side = o.side := by rw [hev.report]; rfl
  -- the book before the fill is thinned from one that is not crossed
  have hnot : NotCrossed ev.book := hev.book.not_crossed (hu.mono ht.thinned.fewerPrices)
  refine ⟨hev.book.invariant hev.wf, ?_, ?_, ?_⟩
  · obtain ⟨_, _, _, hhead⟩ := hev.book.best hls
    rw [hside, hhead, hev.slot]
    rfl
  · have hqty : ev.book.slots.qtys t.entry.slot = t.entry.qty :=
      ((hev.book.queue (L := []) hls).stored t.entry List.mem_cons_self).qty
    rw [hev.slot, hqty, hev.report]
    exact henough
  · obtain ⟨hbids, hbidp⟩ := ev.reported_side .Buy
    obtain ⟨hasks, haskp⟩ := ev.reported_side .Sell
    change ev.reported.bids.count = ev.book.bids.count at hbids
    change ev.reported.asks.count = ev.book.asks.count at hasks
    change ev.reported.bids.prices = ev.book.bids.prices at hbidp
    change ev.reported.asks.prices = ev.book.asks.prices at haskp
    unfold NotCrossed
    rw [hbids, hasks, hbidp, haskp]
    exact hnot

/-- Every report of a call on a book that is not crossed is made in the middle
    of a fill. -/
theorem Step.midfill {op : Op} {out : Outcome} {takes : List Take} {evs : List MatchEvent}
    (h : Step a op out takes a') (hw : WF a) (hu : Uncrossed a)
    (hevs : EventsOf symbol op evs takes) : ∀ ev ∈ evs, Midfill ev ∧ ev.report.symbol = symbol := by
  intro ev hev
  cases op with
  | cancel id => simp [hevs.1] at hev
  | modify id n => simp [hevs.1] at hev
  | add o =>
    obtain ⟨t, ht, hof⟩ := forall₂_mem_left hevs ev hev
    have henough : t.qty ≤ t.entry.qty := by
      rcases h.matching with rfl | ⟨_, _, _, hm, _⟩
      · simp at ht
      · exact hm.enough t ht
    refine ⟨hof.midfill (h.takeOf hw t ht) henough hu, ?_⟩
    rw [hof.report]
    rfl

end OptionsEngine
