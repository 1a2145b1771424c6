import OptionsEngine.LevelBook.Liquidity
import OptionsEngine.OrderBook.Resting
import OptionsEngine.OrderBook.Uncrossed

/-! # Rejections for lack of room

    `add_order` returns false when its side has no row left for another price
    level, and when the pool has no slot left.  Both are found out only after
    matching.

    * `slot_rejection_atomic`: a rejection for lack of a slot leaves the book
      as it was.  An aggressor with quantity left has used up every order it
      traded with, and their slots are free again.
    * `level_rejection_iff`: one for lack of a level does so exactly if there
      was nothing to trade with. -/

namespace OptionsEngine

open Function LiveArray OrderBook

variable {b b' : OrderBook} {a a' : LevelBook} {s : Side} {o : Order} {rs : List Response}
  {r : Response}

/-! ## Section 1: Books that cannot be told apart -/

/-- Two books with the same live rows, the same queues of the same orders, the
    same index and the same free list. -/
structure SameBook (b b' : OrderBook) : Prop where
  count : ∀ s, (b'.side s).count = (b.side s).count
  /-- The five arrays of a side. -/
  rows : ∀ s, ∀ i < (b.side s).count, (b'.side s).row i = (b.side s).row i
  queues : ∀ s, ∀ i < (b.side s).count, b'.queue s i = b.queue s i
  orders : ∀ s, ∀ x ∈ b.resting s, SameSlot b.slots b'.slots x
  index : ∀ id, b'.index.lookup id = b.index.lookup id
  free : b'.freeList = b.freeList

/-- Books that stand for the same levels cannot be told apart. -/
theorem Rep.same (h : Rep b a) (h' : Rep b' a) (hw : WF a) : SameBook b b' := by
  have hcount : ∀ s, (b'.side s).count = (b.side s).count := fun s =>
    (h'.sides s).count_eq.trans (h.sides s).count_eq.symm
  refine ⟨hcount, ?_, ?_, ?_, ?_, ?_⟩
  · intro s i hi
    obtain ⟨L, l, R, hls, rfl⟩ := h.level_at hi
    rw [(h.row hls).row_at, (h'.row hls).row_at]
  · intro s i hi
    obtain ⟨L, l, R, hls, rfl⟩ := h.level_at hi
    rw [h.queue_eq hw hls, h'.queue_eq hw hls]
  · intro s x hx
    obtain ⟨e, he, rfl⟩ := (h.mem_resting hw).mp hx
    obtain ⟨l, hl, hel⟩ := List.mem_flatMap.mp he
    have hst := (h.queues s l hl).stored e hel
    have hst' := (h'.queues s l hl).stored e hel
    obtain ⟨hnext, hprev⟩ :=
      (h.queues s l hl).linked.links (h'.queues s l hl).linked _ (mem_slots hel)
    exact ⟨hst'.id.trans hst.id.symm, hst'.qty.trans hst.qty.symm, hnext, hprev,
      hst'.price.trans hst.price.symm, hst'.account.trans hst.account.symm⟩
  · intro id
    rw [h.index.lookup (h.hasEmpty hw), h'.index.lookup (h'.hasEmpty hw)]
  · rw [h.freeList_eq hw, h'.freeList_eq hw]

/-- A call on a reachable book, as a step of the levels. -/
theorem reachable_step {mem : OrderBook} {symbol : SymbolId} {ops : List Op}
    (hrun : (fresh mem symbol).run ops = some (rs, b)) (hadd : b.add_order o = some (r, b')) :
    ∃ a a' takes, Rep b a ∧ WF a ∧ Step a (.add o) r.outcome takes a' ∧ Rep b' a' ∧
      List.Forall₂ (EventOf b.symbol o) r.events takes := by
  obtain ⟨rs₁, b₁, _, a, hrun₁, _, _, _, hrep, hw⟩ := run_refines mem symbol ops
  obtain ⟨rfl, rfl⟩ : rs₁ = rs ∧ b₁ = b := by
    rw [hrun] at hrun₁
    simpa using hrun₁.symm
  obtain ⟨out, evs, b₂, a', takes, hadd₂, hstep, hrep', hevs, _⟩ := hrep.add_order hw o
  obtain ⟨rfl, rfl⟩ : ⟨out, evs⟩ = r ∧ b₂ = b' := by
    rw [hadd] at hadd₂
    simpa using hadd₂.symm
  exact ⟨a, a', takes, hrep, hw, hstep, hrep', hevs⟩

/-- Matching changes the levels by its fills only. -/
theorem Matching.untouched {rem rem' : Qty} {takes : List Take} {walled : Bool}
    (h : Matching o s a rem takes a' rem' walled) (htakes : takes = []) : a' = a := by
  cases h with
  | filled => rfl
  | exhausted hrem hls => rfl
  | price hrem hls hstop => rfl
  | wall hrem hls hgo hwall => rfl
  | take hrem hls hgo hwall hrest => cases htakes

/-- A call without fills reports nothing. -/
theorem reports_of_no_takes {symbol : SymbolId}
    (h : List.Forall₂ (EventOf symbol o) r.events []) : r.reports = [] := by
  rw [Response.reports, List.forall₂_nil_right_iff.mp h, List.map_nil]

/-! ## Section 2: Full books -/

/-- The `n`-th of many sells at one price. -/
def crowd (n : Nat) : Order := sell (UInt64.ofNat (n + 1)) 100 1

/-- A book with an order in every slot. -/
theorem crowd_run :
    ∃ rs b a, (fresh zeroed 0).run ((List.range kMaxOrders).map fun n => .add (crowd n)) =
        some (rs, b) ∧ Rep b a ∧ WF a ∧ a.levels .Buy = [] ∧ (a.levels .Sell).length ≤ 1 ∧
      (∀ l ∈ a.levels .Sell, l.price = 100) ∧ a.free = [] := by
  let P (_ : Nat) (a : LevelBook) : Prop :=
    a.levels .Buy = [] ∧ (a.levels .Sell).length ≤ 1 ∧ ∀ l ∈ a.levels .Sell, l.price = 100
  have hnext : ∀ n a, n < kMaxOrders → P n a → Restable a (crowd n) ∧
      ∀ slot free, P (n + 1) (a.rest (crowd n) slot free (crowd n).qty_remaining) := by
    intro n a _ ⟨hbuy, hlen, hprice⟩
    have hroom : (a.levels .Sell).length < kMaxLevels := Nat.lt_of_le_of_lt hlen (by decide)
    refine ⟨restable_limit rfl (by simp [crowd, sell]) hbuy hroom, ?_⟩
    intro slot free
    refine ⟨(levels_rest_opposite a (crowd n) slot free _).trans hbuy, ?_⟩
    have hls := levels_rest a (crowd n) slot free (crowd n).qty_remaining
    change (a.rest (crowd n) slot free _).levels .Sell = insertEntry .Sell 100 _ (a.levels .Sell)
      at hls
    rw [hls]
    -- the new order joins the one level there is, or opens it
    match hc : a.levels .Sell with
    | [] => simp [insertEntry]
    | [l] =>
      have hl : l.price = 100 := hprice l (by rw [hc]; simp)
      simp [insertEntry, hl]
    | _ :: _ :: _ =>
      rw [hc] at hlen
      simp at hlen
  obtain ⟨rs, b, a, hrun, hrep, hw, ⟨hbuy, hlen, hprice⟩, hfree⟩ :=
    run_resting zeroed 0 crowd P (Nat.le_refl kMaxOrders)
      ⟨rfl, Nat.zero_le 1, by simp [LevelBook.empty]⟩ hnext
  exact ⟨rs, b, a, hrun, hrep, hw, hbuy, hlen, hprice, List.length_eq_zero_iff.mp (by omega)⟩

/-- The `n`-th of many bids, each at a new best price. -/
def ladder (n : Nat) : Order := buy (UInt64.ofNat (n + 1)) n 1

/-- A book with all levels of one side in use, and none of the other. -/
theorem ladder_run :
    ∃ rs b a, (fresh zeroed 0).run ((List.range kMaxLevels).map fun n => .add (ladder n)) =
        some (rs, b) ∧ Rep b a ∧ WF a ∧ a.levels .Sell = [] ∧
      (a.levels .Buy).length = kMaxLevels ∧ (∀ l ∈ a.levels .Buy, l.price < kMaxLevels) ∧
      a.free.length + kMaxLevels = kMaxOrders := by
  let P (n : Nat) (a : LevelBook) : Prop :=
    a.levels .Sell = [] ∧ (a.levels .Buy).length = n ∧ ∀ l ∈ a.levels .Buy, l.price < n
  have hnext : ∀ n a, n < kMaxLevels → P n a → Restable a (ladder n) ∧
      ∀ slot free, P (n + 1) (a.rest (ladder n) slot free (ladder n).qty_remaining) := by
    intro n a hn ⟨hsell, hlen, hprice⟩
    have hroom : (a.levels .Buy).length < kMaxLevels := by omega
    refine ⟨restable_limit rfl (by simp [ladder, buy]) hsell hroom, ?_⟩
    intro slot free
    -- every bid so far is lower: the new one goes to the front
    have hhead : ∀ k ∈ (a.levels .Buy).head?, better .Buy (n : Price) k.price :=
      fun k hk => hprice k (List.mem_of_mem_head? hk)
    have hls := levels_rest a (ladder n) slot free (ladder n).qty_remaining
    change (a.rest (ladder n) slot free _).levels .Buy = insertEntry .Buy n _ ([] ++ a.levels .Buy)
      at hls
    rw [insertEntry_new (by simp) hhead, List.nil_append] at hls
    refine ⟨(levels_rest_opposite a (ladder n) slot free _).trans hsell, ?_, ?_⟩
    · rw [hls, List.length_cons, hlen]
    · rw [hls]
      intro l hl
      rcases List.mem_cons.mp hl with rfl | hl
      · exact Int.lt_succ _
      · exact Int.lt_trans (hprice l hl) (Int.lt_succ _)
  obtain ⟨rs, b, a, hrun, hrep, hw, ⟨hsell, hlen, hprice⟩, hfree⟩ :=
    run_resting zeroed 0 ladder P (by decide : kMaxLevels ≤ kMaxOrders)
      ⟨rfl, rfl, by simp [LevelBook.empty]⟩ hnext
  exact ⟨rs, b, a, hrun, hrep, hw, hsell, hlen, hprice, hfree⟩

/-! ## Section 3: No slot left -/

/-- Matching takes no slot off the free list. -/
theorem Matching.free_suffix {rem rem' : Qty} {takes : List Take} {walled : Bool}
    (h : Matching o s a rem takes a' rem' walled) : a.free <:+ a'.free := by
  induction h with
  | filled a => exact List.suffix_refl _
  | exhausted hrem hls => exact List.suffix_refl _
  | price hrem hls hstop => exact List.suffix_refl _
  | wall hrem hls hgo hwall => exact List.suffix_refl _
  | @take a a' rem rem' px e es ls takes walled hrem hls hgo hwall hrest ih =>
    refine List.IsSuffix.trans ?_ ih
    unfold LevelBook.take
    split
    · exact List.suffix_cons _ _
    · exact List.suffix_refl _

/-- An aggressor that has traded and has quantity left has freed a slot. -/
theorem Matching.frees {rem rem' : Qty} {takes : List Take} {walled : Bool}
    (h : Matching o s a rem takes a' rem' walled) (hrem' : rem' ≠ 0) (hfree : a'.free = []) :
    takes = [] := by
  cases h with
  | filled => rfl
  | exhausted hrem hls => rfl
  | price hrem hls hstop => rfl
  | wall hrem hls hgo hwall => rfl
  | @take _ _ _ _ px e es ls takes _ hrem hls hgo hwall hrest =>
    -- the first order is used up, or the aggressor is
    have hall : min rem e.qty = e.qty := by
      rcases min_qty_cases rem e.qty with hmin | hmin
      · exact absurd (hrest.rem_zero (by rw [hmin, UInt32.sub_self])) hrem'
      · exact hmin
    have hsuffix := hrest.free_suffix
    rw [LevelBook.take, if_pos hall, hfree, List.suffix_nil] at hsuffix
    exact absurd hsuffix (List.cons_ne_nil _ _)

/-- If no slot is left for the remainder of an order, it has not traded and
    the book is as before. -/
theorem slot_rejection_atomic {mem : OrderBook} {symbol : SymbolId} {ops : List Op}
    (hrun : (fresh mem symbol).run ops = some (rs, b)) (hadd : b.add_order o = some (r, b'))
    (hrejected : r.outcome = .slot_rejected) :
    r.ret = false ∧ r.reports = [] ∧ SameBook b b' := by
  obtain ⟨a, a', takes, hrep, hw, hstep, hrep', hevs⟩ := reachable_step hrun hadd
  rw [hrejected] at hstep
  cases hstep with
  | @slot_rejected _ _ _ rem himm hm hrem hroom hfree =>
    obtain rfl : takes = [] := hm.frees hrem hfree
    rw [hm.untouched rfl] at hrep'
    exact ⟨by rw [Response.ret, hrejected]; rfl, reports_of_no_takes hevs, hrep.same hrep' hw⟩

/-- With an order in every slot, the next one finds none.  Its price is a new
    best one, so the level made for it is taken back. -/
theorem slot_rejected_when_full :
    ∃ rs b r b', (fresh zeroed 0).run ((List.range kMaxOrders).map fun n => .add (crowd n)) =
        some (rs, b) ∧ b.asks.find_level 99 = none ∧
      b.add_order (sell 70000 99 1) = some (r, b') ∧
      r.outcome = .slot_rejected ∧ r.ret = false ∧ r.reports = [] ∧ SameBook b b' := by
  obtain ⟨rs, b, a, hrun, hrep, hw, hbuy, hlen, hprice, hnone⟩ := crowd_run
  have hnew : b.asks.find_level 99 = none := by
    apply (hrep.sides .Sell).find_level_none
    intro l hl
    rw [hprice l hl]
    decide
  obtain ⟨out, evs, b', a', takes, hadd, hstep, _⟩ := hrep.add_order hw (sell 70000 99 1)
  obtain ⟨_, hrests⟩ :=
    hstep.rests (not_immediate_of_limit rfl) (by decide) (quiet_of_nil hbuy)
  have hout : out = .slot_rejected := by
    cases hrests with
    | level_rejected hnew hfull =>
      have hmany : kMaxLevels ≤ 1 := Nat.le_trans hfull hlen
      exact absurd hmany (by decide)
    | slot_rejected hroom hfree => rfl
    | rested hroom hslot => rw [hnone] at hslot; cases hslot
  exact ⟨rs, b, _, b', hrun, hnew, hadd, hout, slot_rejection_atomic hrun hadd hout⟩

/-! ## Section 4: No level left -/

/-- The best price of the other side is within the limit of the order. -/
def Crosses (b : OrderBook) (o : Order) : Prop :=
  (b.side o.side.opposite).count > 0 ∧
    price_stops o ((b.side o.side.opposite).prices 0) = false

theorem Rep.quiet_iff (h : Rep b a) (o : Order) :
    Quiet a o.side.opposite o ↔ ¬ Crosses b o := by
  unfold Quiet Crosses
  cases hls : a.levels o.side.opposite with
  | nil =>
    have hside := h.sides o.side.opposite
    rw [hls] at hside
    simp [hside.count_eq]
  | cons l ls =>
    obtain ⟨px, q⟩ := l
    obtain ⟨hcount, hprice, _, _⟩ := h.best hls
    simp [hcount, hprice]

/-- If no level is left for the remainder of an order, the book is as before
    exactly if the order did not reach the other side. -/
theorem level_rejection_iff {mem : OrderBook} {symbol : SymbolId} {ops : List Op}
    (hrun : (fresh mem symbol).run ops = some (rs, b)) (hadd : b.add_order o = some (r, b'))
    (hrejected : r.outcome = .level_rejected) :
    r.ret = false ∧ ((r.reports = [] ∧ SameBook b b') ↔ ¬ Crosses b o) := by
  obtain ⟨a, a', takes, hrep, hw, hstep, hrep', hevs⟩ := reachable_step hrun hadd
  rw [hrejected] at hstep
  refine ⟨by rw [Response.ret, hrejected]; rfl, ?_⟩
  rw [← hrep.quiet_iff o]
  cases hstep with
  | @level_rejected _ _ _ rem himm hm hrem hnew hfull =>
    constructor
    · rintro ⟨hreports, _⟩
      have hnone : r.events = [] := List.map_eq_nil_iff.mp hreports
      rw [hnone, List.forall₂_nil_left_iff] at hevs
      -- with quantity left and nothing traded, matching was stopped at once
      have hstopped := hm.stopped rfl hrem
      rw [hm.untouched hevs] at hstopped
      exact hstopped
    · intro hquiet
      obtain ⟨rfl, rfl, _, _⟩ := hm.quiet hquiet
      exact ⟨reports_of_no_takes hevs, hrep.same hrep' hw⟩

/-- All levels are in use, for lower prices. -/
theorem full_side (hlen : (a.levels s).length = kMaxLevels)
    (hprice : ∀ l ∈ a.levels s, l.price < kMaxLevels) {p : Price} (hp : kMaxLevels ≤ p) :
    ¬ ((∃ l ∈ a.levels s, l.price = p) ∨ (a.levels s).length < kMaxLevels) := by
  rintro (⟨l, hl, rfl⟩ | hlt)
  · exact absurd (hprice l hl) (Int.not_lt.mpr hp)
  · omega

/-- With all levels in use, a higher bid that nobody sells to is rejected. -/
theorem level_rejected_when_full :
    ∃ rs b r b', (fresh zeroed 0).run ((List.range kMaxLevels).map fun n => .add (ladder n)) =
        some (rs, b) ∧ b.add_order (buy 5000 5000 1) = some (r, b') ∧
      r.outcome = .level_rejected ∧ r.reports = [] ∧ SameBook b b' := by
  obtain ⟨rs, b, a, hrun, hrep, hw, hsell, hlen, hprice, _⟩ := ladder_run
  have hfull := full_side hlen hprice (by decide : (kMaxLevels : Int) ≤ 5000)
  have hquiet : Quiet a (buy 5000 5000 1).side.opposite (buy 5000 5000 1) := quiet_of_nil hsell
  obtain ⟨out, evs, b', a', takes, hadd, hstep, _⟩ := hrep.add_order hw (buy 5000 5000 1)
  obtain ⟨_, hrests⟩ := hstep.rests (not_immediate_of_limit rfl) (by decide) hquiet
  have hout : out = .level_rejected := by
    cases hrests with
    | level_rejected hnew hfull => rfl
    | slot_rejected hroom hfree => exact absurd hroom hfull
    | rested hroom hfree => exact absurd hroom hfull
  have hiff := (level_rejection_iff hrun hadd hout).2
  exact ⟨rs, b, _, b', hrun, hadd, hout, hiff.mpr ((hrep.quiet_iff _).mp hquiet)⟩

/-- An order that uses up the only order it meets, and has quantity left for
    which there is no level. -/
theorem Step.remainder_rejected {out : Outcome} {takes : List Take} {px : Price} {e : Entry}
    (h : Step a (.add o) out takes a') (himm : ¬ Immediate o)
    (hls : a.levels o.side.opposite = [⟨px, [e]⟩]) (hgo : price_stops o px = false)
    (hwall : ¬ walls o e) (hle : min o.qty_remaining e.qty = e.qty)
    (hleft : o.qty_remaining - e.qty ≠ 0) (hqty : o.qty_remaining ≠ 0)
    (hfull : ¬ ((∃ l ∈ a.levels o.side, l.price = o.price) ∨
      (a.levels o.side).length < kMaxLevels)) :
    out = .level_rejected ∧ takes = [⟨a, px, e, e.qty, o.qty_remaining - e.qty⟩] := by
  have htrades := fun {takes a₁ rem walled}
      (hm : Matching o o.side.opposite a o.qty_remaining takes a₁ rem walled) =>
    hm.single hls hgo hwall hqty rfl hle
  -- matching leaves the order's own side alone
  have hstill : ∀ {a₁ : LevelBook} {takes rem walled},
      Matching o o.side.opposite a o.qty_remaining takes a₁ rem walled →
        ¬ ((∃ l ∈ a₁.levels o.side, l.price = o.price) ∨
          (a₁.levels o.side).length < kMaxLevels) := by
    intro a₁ takes rem walled hm
    have hsame := (htrades hm).2.2.2.2
    rw [Side.opposite_opposite] at hsame
    rw [hsame]
    exact hfull
  cases h with
  | fok_rejected htype hshort => exact absurd (Or.inr (Or.inr htype)) himm
  | immediate himm' hfok hm => exact absurd himm' himm
  | filled himm' hm => exact absurd (htrades hm).2.1.symm hleft
  | stp_walled himm' hm hrem => exact absurd (htrades hm).2.2.1 (by decide)
  | slot_rejected himm' hm hrem hroom hnone => exact absurd hroom (hstill hm)
  | rested himm' hm hrem hroom hnone => exact absurd hroom (hstill hm)
  | level_rejected himm' hm hrem hnew hnone => exact ⟨rfl, (htrades hm).1⟩

/-- The full ladder of bids, with one ask above it. -/
theorem ladder_ask_run :
    ∃ rs b a slot, (fresh zeroed 0).run
        ((List.range kMaxLevels).map (fun n => .add (ladder n)) ++ [.add (sell 5000 5000 5)]) =
        some (rs, b) ∧ Rep b a ∧ WF a ∧ (a.levels .Buy).length = kMaxLevels ∧
      (∀ l ∈ a.levels .Buy, l.price < kMaxLevels) ∧
      a.levels .Sell = [⟨5000, [restingEntry (sell 5000 5000 5) slot 5]⟩] := by
  obtain ⟨rs, b, a, hrun, hrep, hw, hsell, hlen, hprice, hfree⟩ := ladder_run
  obtain ⟨slot, free, hslot⟩ : ∃ slot free, a.free = slot :: free := by
    cases hc : a.free with
    | nil => rw [hc] at hfree; exact absurd hfree (by decide)
    | cons slot free => exact ⟨slot, free, rfl⟩
  have hask : Restable a (sell 5000 5000 5) := by
    refine ⟨not_immediate_of_limit rfl, by decide, ?_, Or.inr ?_⟩
    · intro l hl
      have hlt : l.price < 5000 :=
        Int.lt_trans (hprice l (List.mem_of_mem_head? hl)) (by decide)
      exact decide_eq_true hlt
    · show (a.levels .Sell).length < kMaxLevels
      rw [hsell]
      decide
  obtain ⟨b', hadd, hrep', hw', _⟩ := hrep.add_rests hw hask hslot
  have hbuy' := levels_rest_opposite a (sell 5000 5000 5) slot free 5
  change (a.rest _ slot free 5).levels .Buy = a.levels .Buy at hbuy'
  have hsell' := levels_rest a (sell 5000 5000 5) slot free 5
  change (a.rest _ slot free 5).levels .Sell = insertEntry .Sell 5000 _ (a.levels .Sell) at hsell'
  rw [hsell] at hsell'
  refine ⟨_, b', _, slot, run_snoc hrun hadd, hrep', hw', ?_, ?_, hsell'⟩
  · exact (congrArg List.length hbuy').trans hlen
  · intro l hl
    exact hprice l (hbuy' ▸ hl)

/-- With all levels in use, a higher bid trades with the only ask and is then
    rejected. -/
theorem level_rejected_after_trading :
    ∃ rs b r b', (fresh zeroed 0).run
        ((List.range kMaxLevels).map (fun n => .add (ladder n)) ++ [.add (sell 5000 5000 5)]) =
        some (rs, b) ∧ b.add_order (buy 5001 5000 10) = some (r, b') ∧
      r.outcome = .level_rejected ∧ r.ret = false ∧ r.reports.map (·.exec_qty) = [5] := by
  obtain ⟨rs, b, a, slot, hrun, hrep, hw, hlen, hprice, hsell⟩ := ladder_ask_run
  have hfull := full_side hlen hprice (by decide : (kMaxLevels : Int) ≤ 5000)
  obtain ⟨out, evs, b', a', takes, hadd, hstep, _, hevs, _⟩ :=
    hrep.add_order hw (buy 5001 5000 10)
  obtain ⟨rfl, rfl⟩ := hstep.remainder_rejected (not_immediate_of_limit rfl) hsell
    (price_stops_own (buy 5001 5000 10)) (by simp [walls, buy])
    (by simp only [restingEntry]; decide) (by simp only [restingEntry]; decide) (by decide) hfull
  refine ⟨rs, b, _, b', hrun, hadd, rfl, rfl, ?_⟩
  rw [Response.reports, map_report_eq hevs]
  rfl

end OptionsEngine
