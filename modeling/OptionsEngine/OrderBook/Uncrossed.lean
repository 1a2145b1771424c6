import OptionsEngine.LevelBook.Thinned
import OptionsEngine.OrderBook.Observe

/-! # The book is never crossed or locked

    Fills, cancels and modifications only take prices away, so only a resting
    remainder can cross the book.  A remainder rests only when matching
    stopped because the other side was exhausted or its best price no longer
    crosses the limit; every other end of matching (filled, self-trade wall)
    leaves `add_order` before it rests anything. -/

namespace OptionsEngine

open Function OrderBook

variable {a a' : LevelBook} {s : Side} {o : Order}

/-! ## Section 1: Prices only go away -/

/-- Every bid is below every ask. -/
def Uncrossed (a : LevelBook) : Prop :=
  ∀ s, ∀ l ∈ a.levels s, ∀ l' ∈ a.levels s.opposite, better s l'.price l.price

/-- `a'` has no price that `a` does not have. -/
def FewerPrices (a a' : LevelBook) : Prop :=
  ∀ s, ∀ l ∈ a'.levels s, ∃ k ∈ a.levels s, k.price = l.price

theorem Uncrossed.mono (h : Uncrossed a) (hp : FewerPrices a a') : Uncrossed a' := by
  intro s l hl l' hl'
  obtain ⟨k, hk, hkl⟩ := hp s l hl
  obtain ⟨k', hk', hkl'⟩ := hp s.opposite l' hl'
  rw [← hkl, ← hkl']
  exact h s k hk k' hk'

theorem Thinned.fewerPrices (h : Thinned a a') : FewerPrices a a' := by
  intro s l hl
  obtain ⟨k, hk, hkp, _⟩ := h s l hl
  exact ⟨k, hk, hkp⟩

theorem mem_replace_price {L R : List Level} {px : Price} {q q' : List Entry} {l : Level}
    (hl : l ∈ L ++ ⟨px, q'⟩ :: R) : ∃ k ∈ L ++ ⟨px, q⟩ :: R, k.price = l.price := by
  simp only [List.mem_append, List.mem_cons] at hl
  rcases hl with hl | rfl | hl
  · exact ⟨l, by simp [hl], rfl⟩
  · exact ⟨⟨px, q⟩, by simp, rfl⟩
  · exact ⟨l, by simp [hl], rfl⟩

/-- Rearranging a queue changes no price. -/
theorem fewerPrices_setLevels {L R : List Level} {px : Price} {q q' : List Entry}
    (hls : a.levels s = L ++ ⟨px, q⟩ :: R) :
    FewerPrices a (a.setLevels s (L ++ ⟨px, q'⟩ :: R)) := by
  intro t l hl
  rcases s.eq_or_opposite t with rfl | rfl
  · rw [levels_setLevels] at hl
    rw [hls]
    exact mem_replace_price hl
  · rw [levels_setLevels_opposite] at hl
    exact ⟨l, hl, rfl⟩

/-! ## Section 2: Resting does not cross -/

/-- With quantity left and no wall, nothing on the other side crosses. -/
theorem Matching.stopped {rem rem' : Qty} {takes : List Take} {walled : Bool}
    (h : Matching o s a rem takes a' rem' walled) (hwalled : walled = false) (hrem' : rem' ≠ 0) :
    ∀ l ∈ (a'.levels s).head?, price_stops o l.price = true := by
  induction h with
  | filled a => exact absurd rfl hrem'
  | exhausted hrem hls =>
    intro l hl
    rw [hls] at hl
    simp at hl
  | @price a rem l ls hrem hls hstop =>
    intro k hk
    rw [hls] at hk
    have hkl : l = k := by simpa using hk
    rw [← hkl]
    exact hstop
  -- a walled remainder never rests
  | wall hrem hls hgo hwall => exact absurd hwalled (by simp)
  | take hrem hls hgo hwall hrest ih => exact ih hwalled hrem'

/-- A price that stops an order which may rest is strictly beyond its limit. -/
theorem better_of_stops (himm : ¬ Immediate o) {p : Price} (h : price_stops o p = true) :
    better o.side p o.price := by
  have hmarket : o.type ≠ .Market := fun hm => himm (Or.inl hm)
  unfold price_stops at h
  rw [if_neg hmarket] at h
  cases hs : o.side with
  | Buy =>
    rw [hs] at h
    exact of_decide_eq_true h
  | Sell =>
    rw [hs] at h
    exact of_decide_eq_true h

/-- Prices behind a price that is beyond the limit are beyond it, too. -/
theorem better_opposite_trans {s : Side} {p q r : Price} (h : better s p r)
    (h' : better s.opposite p q) : better s q r := by
  cases s with
  | Buy => exact Int.lt_trans h h'
  | Sell => exact Int.lt_trans h' h

theorem better_opposite {s : Side} {p q : Price} (h : better s p q) : better s.opposite q p := by
  cases s with
  | Buy => exact h
  | Sell => exact h

/-- Booking an entry brings its price, and no other. -/
theorem price_insertEntry {ls : List Level} {p : Price} {e : Entry} {l : Level}
    (hsorted : ls.Pairwise fun k k' => better s k.price k'.price)
    (hl : l ∈ insertEntry s p e ls) : l.price = p ∨ ∃ k ∈ ls, k.price = l.price := by
  rcases insertEntry_cases hsorted e with ⟨L, q, R, hls, hins⟩ | ⟨L, R, hls, _, _, _, hins⟩
  · rw [hins] at hl
    rw [hls]
    exact Or.inr (mem_replace_price hl)
  · rw [hins] at hl
    rw [hls]
    simp only [List.mem_append, List.mem_cons] at hl
    rcases hl with hl | rfl | hl
    · exact Or.inr ⟨l, by simp [hl], rfl⟩
    · exact Or.inl rfl
    · exact Or.inr ⟨l, by simp [hl], rfl⟩

/-- Booking a remainder that nothing on the other side crosses. -/
theorem Uncrossed.rest {slot : Nat} {free : List Nat} {rem : Qty} (h : Uncrossed a) (hw : WF a)
    (hstop : ∀ l ∈ (a.levels o.side.opposite).head?, better o.side l.price o.price) :
    Uncrossed (a.rest o slot free rem) := by
  -- the limit is beyond every price of the other side, not only the best
  have hall : ∀ l' ∈ a.levels o.side.opposite, better o.side l'.price o.price := by
    intro l' hl'
    cases hc : a.levels o.side.opposite with
    | nil => rw [hc] at hl'; simp at hl'
    | cons k ks =>
      have hk := hstop k (by rw [hc]; simp)
      have hsorted := hw.sorted o.side.opposite
      rw [hc] at hl' hsorted
      rcases List.mem_cons.mp hl' with rfl | hl'
      · exact hk
      · exact better_opposite_trans hk ((List.pairwise_cons.mp hsorted).1 l' hl')
  have hside : ∀ l ∈ (a.rest o slot free rem).levels o.side,
      ∀ l' ∈ (a.rest o slot free rem).levels o.side.opposite, better o.side l'.price l.price := by
    intro l hl l' hl'
    rw [levels_rest] at hl
    rw [levels_rest_opposite] at hl'
    rcases price_insertEntry (hw.sorted o.side) hl with heq | ⟨k, hk, heq⟩
    · rw [heq]
      exact hall l' hl'
    · rw [← heq]
      exact h o.side k hk l' hl'
  intro t l hl l' hl'
  rcases o.side.eq_or_opposite t with rfl | rfl
  · exact hside l hl l' hl'
  · rw [Side.opposite_opposite] at hl'
    exact better_opposite (hside l' hl' l hl)

/-! ## Section 3: Calls and runs -/

/-- Only a booking brings a price into the book. -/
theorem Step.uncrossed {op : Op} {out : Outcome} {takes : List Take}
    (h : Step a op out takes a') (hw : WF a) (hu : Uncrossed a) : Uncrossed a' := by
  cases h.edit with
  | thinned hthin hout => exact hu.mono hthin.fewerPrices
  | increased hls => exact hu.mono (fewerPrices_setLevels hls)
  | booked himm hm hrem hfree =>
    apply (hu.mono hm.thinned.fewerPrices).rest (hm.wf hw)
    exact fun l hl => better_of_stops himm (hm.stopped rfl hrem l hl)

theorem Steps.uncrossed {calls : List Call} (h : Steps a calls a') (hw : WF a)
    (hu : Uncrossed a) : Uncrossed a' := by
  induction h with
  | nil a => exact hu
  | cons hstep hrest ih => exact ih (hstep.wf hw) (hstep.uncrossed hw hu)

theorem uncrossed_empty : Uncrossed LevelBook.empty :=
  fun _ _ hl => absurd hl List.not_mem_nil

/-- The best price of a side with a level. -/
theorem Rep.best_price {b : OrderBook} (h : Rep b a) (hcount : 0 < (b.side s).count) :
    ∃ l ∈ a.levels s, (b.side s).prices 0 = l.price := by
  obtain ⟨L, l, R, hls, hlen⟩ := h.level_at hcount
  have hnil : L = [] := List.length_eq_zero_iff.mp hlen
  subst hnil
  exact ⟨l, by rw [hls]; simp, (h.row hls).cells.1⟩

/-- In every state of every run, the best bid is below the best ask. -/
theorem reachable_uncrossed (mem : OrderBook) (symbol : SymbolId) (ops : List Op) :
    ∃ rs b, (fresh mem symbol).run ops = some (rs, b) ∧
      (0 < b.bids.count → 0 < b.asks.count → b.bids.prices 0 < b.asks.prices 0) := by
  obtain ⟨rs, b, calls, a, hrun, hsteps, _, _, hrep, hw⟩ := run_refines mem symbol ops
  refine ⟨rs, b, hrun, ?_⟩
  intro hbids hasks
  have hu := hsteps.uncrossed wf_empty uncrossed_empty
  obtain ⟨l, hl, hlp⟩ := hrep.best_price (s := .Buy) hbids
  obtain ⟨l', hl', hlp'⟩ := hrep.best_price (s := .Sell) hasks
  change b.bids.prices 0 = _ at hlp
  change b.asks.prices 0 = _ at hlp'
  rw [hlp, hlp']
  exact hu .Buy l hl l' hl'

end OptionsEngine
