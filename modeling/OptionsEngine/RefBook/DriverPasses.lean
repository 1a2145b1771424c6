import Mathlib.Data.List.Perm.Subperm
import OptionsEngine.OrderBook.BestQuote
import OptionsEngine.OrderBook.Conservation
import OptionsEngine.RefBook.Driver

/-! # The differential test passes

    One invariant relates the driver's order book, its reference model and its
    ledger to one book of levels (`Inv`).  Every event keeps it without a
    failure (`event_keeps`), and it makes every check pass (`cross_check_nil`),
    so no sequence of random numbers makes the test fail.

    The only other end is the driver's own: an order whose quantity has been
    raised to 2^32 - 1 makes it divide by zero when it is to be modified again. -/

namespace OptionsEngine

open Function OrderBook

variable {a a' : LevelBook} {s : Side} {o : Order} {r : RefBook} {takes : List Take}

/-! ## Section 1: Adding without a limit on levels -/

/-- What the driver may rely on when both books have added an order. -/
structure Added (a : LevelBook) (o : Order) (out : Outcome) (takes : List Take) (a' : LevelBook)
    (res : RefBook.Outcome) : Prop where
  ok : res.ok = out.ret
  filled : (res.filled.toNat : Int) = takesTotal takes
  atomic : res.rejected = true → takes = []
  total : a'.total = a.total - takesTotal takes + res.resting.toNat
  whole : takesTotal takes ≤ o.qty.toNat
  rested : res.resting ≠ 0 →
    o.type = .Limit ∧ res.ok = true ∧ (o.qty.toNat : Int) = takesTotal takes + res.resting.toNat

/-- The quantity of fills, as a number of shares. -/
def filledQty (takes : List Take) : Nat := (takes.map fun t => t.qty.toNat).sum

theorem takesTotal_eq (takes : List Take) : takesTotal takes = (filledQty takes : Int) := by
  unfold takesTotal filledQty
  induction takes with
  | nil => rfl
  | cons t takes ih => simp [ih]

/-- The part of the aggressor that was filled. -/
theorem Matching.filled_part {rem : Qty} {walled : Bool} (hqty : o.qty = o.qty_remaining)
    (hm : Matching o s a o.qty_remaining takes a' rem walled) :
    ((o.qty - rem).toNat : Int) = takesTotal takes ∧ takesTotal takes ≤ o.qty.toNat ∧
      (o.qty.toNat : Int) = takesTotal takes + rem.toNat := by
  obtain ⟨_, haggr⟩ := hm.conserves
  rw [← hqty] at haggr
  rw [takesTotal_eq] at haggr ⊢
  have hsub := UInt32.toNat_sub_of_le o.qty rem (UInt32.le_iff_toNat_le.mpr (by omega))
  refine ⟨?_, ?_, ?_⟩ <;> omega

/-- An order of which nothing rests. -/
theorem Added.of_matching {rem : Qty} {walled cap : Bool} {out : Outcome}
    (hqty : o.qty = o.qty_remaining)
    (hm : Matching o o.side.opposite a o.qty_remaining takes a' rem walled)
    (hok : out.ret = !cap) : Added a o out takes a' ⟨0, o.qty - rem, false, cap⟩ := by
  obtain ⟨hbook, _⟩ := hm.conserves
  obtain ⟨hfilled, hwhole, _⟩ := hm.filled_part hqty
  refine ⟨?_, hfilled, ?_, ?_, hwhole, ?_⟩
  · rw [hok]
    rfl
  · intro h
    cases h
  · show a'.total = a.total - takesTotal takes + ((0 : Qty).toNat : Int)
    rw [UInt32.toNat_zero]
    omega
  · exact fun h => absurd rfl h

/-- The reference model of the test adds an order as the order book does, if
    the sides stay below the order book's limit on levels. -/
theorem RefSim.added {out : Outcome} (h : RefSim a r) (hw : WF a) (hqty : o.qty = o.qty_remaining)
    (hlisted : o.type.Listed) (hstep : Step a (.add o) out takes a')
    (hlevels : (a'.levels o.side).length < kMaxLevels) :
    ∃ res r', r.add o kMaxOrders RefBook.unlimited = (res, takes.map (Take.toFill o.id), r') ∧
      RefSim a' r' ∧ Added a o out takes a' res := by
  -- The plain book is asked for no limit on levels, and the order book stays below its own.
  have hbelow : ∀ {a₁ : LevelBook} {r' : RefBook}, WF a₁ → RefSim a₁ r' →
      ¬ ((∀ l ∈ r'.side o.side, l.1 ≠ o.price) ∧ (r'.side o.side).length ≥ RefBook.unlimited) := by
    intro a₁ r' hw₁ hsim hfull
    have hcap := hw₁.capacity o.side
    have hlen := hfull.2
    rw [hsim.length_eq] at hlen
    have hk : kMaxLevels = 4096 := rfl
    have hu : RefBook.unlimited = 18446744073709551616 := rfl
    omega
  cases hstep with
  | fok_rejected htype hshort =>
    refine ⟨⟨0, 0, true, false⟩, r, ?_, h, rfl, rfl, fun _ => rfl, ?_, ?_, fun hc => absurd rfl hc⟩
    · unfold RefBook.add
      rw [if_pos ⟨htype, (h.short_iff htype hqty).mpr hshort⟩]
      rfl
    · simp [takesTotal]
    · simp [takesTotal]
  | @immediate _ _ takes rem walled himm hfok hm =>
    obtain ⟨popped, r', hsweep, hr', hsim⟩ := h.after_matching hw hm
    rw [← hqty] at hsweep
    have hpre : ¬ (o.type = .FOK ∧ RefBook.available o.price (o.side = .Buy) o.account_id 0
        (r.side o.side.opposite) < o.qty) :=
      fun hc => hfok hc.1 ((h.short_iff hc.1 hqty).mp hc.2)
    -- What is left of an immediate order does not rest in either book.
    have hlimit : ¬ (rem > 0 ∧ o.type = .Limit ∧ walled = false) := by
      intro hc
      have htype := hc.2.1
      rcases himm with ht | ht | ht <;> rw [ht] at htype <;> exact absurd htype (by decide)
    rw [RefBook.add_swept hpre hsweep hr', if_neg hlimit]
    exact ⟨_, r', rfl, hsim, .of_matching hqty hm rfl⟩
  | filled himm hm =>
    obtain ⟨popped, r', hsweep, hr', hsim⟩ := h.after_matching hw hm
    rw [← hqty] at hsweep
    rw [RefBook.add_swept (not_fok himm _) hsweep hr', if_neg (fun hc => absurd hc.1 (by simp))]
    exact ⟨_, r', rfl, hsim, .of_matching hqty hm rfl⟩
  | stp_walled himm hm hrem =>
    obtain ⟨popped, r', hsweep, hr', hsim⟩ := h.after_matching hw hm
    rw [← hqty] at hsweep
    rw [RefBook.add_swept (not_fok himm _) hsweep hr', if_neg (fun hc => absurd hc.2.2 (by simp))]
    exact ⟨_, r', rfl, hsim, .of_matching hqty hm rfl⟩
  -- The order book never runs out of levels on the grid.
  | level_rejected himm hm hrem hnew hfull => exact absurd hfull (Nat.not_le_of_lt hlevels)
  | slot_rejected himm hm hrem hroom hfree =>
    obtain ⟨popped, r', hsweep, hr', hsim⟩ := h.after_matching hw hm
    rw [← hqty] at hsweep
    -- No slot is free: as many orders rest as there are slots.
    have hcount := hsim.count
    rw [hfree, List.length_nil, Nat.add_zero] at hcount
    rw [RefBook.add_swept (not_fok himm _) hsweep hr', if_pos (rests_cond hlisted himm hrem),
      if_neg (hbelow (hm.wf hw) hsim), if_pos (Nat.le_of_eq hcount.symm)]
    exact ⟨_, r', rfl, hsim, .of_matching hqty hm rfl⟩
  | @rested a₁ _ takes rem slot free himm hm hrem hroom hfree =>
    obtain ⟨popped, r', hsweep, hr', hsim⟩ := h.after_matching hw hm
    rw [← hqty] at hsweep
    have hslots : ¬ r'.resting_count ≥ kMaxOrders := by
      have hcount := hsim.count
      rw [hfree, List.length_cons] at hcount
      omega
    obtain ⟨hbook, _⟩ := hm.conserves
    obtain ⟨hfilled, hwhole, hqtys⟩ := hm.filled_part hqty
    rw [RefBook.add_swept (not_fok himm _) hsweep hr', if_pos (rests_cond hlisted himm hrem),
      if_neg (hbelow (hm.wf hw) hsim), if_neg hslots]
    refine ⟨_, _, rfl, hsim.rest hfree, ⟨rfl, hfilled, ?_, ?_, hwhole, ?_⟩⟩
    · intro hc
      cases hc
    · rw [total_rest]
      show a₁.total + rem.toNat = a.total - takesTotal takes + rem.toNat
      omega
    · exact fun _ => ⟨limit_of_listed hlisted himm, rfl, hqtys⟩

/-! ## Section 2: What the reference model holds -/

/-- A resting order is found with its quantity ... -/
theorem RefSim.peek_some {L R : List Level} {px : Price} {q₁ q₂ : List Entry} {e : Entry}
    (h : RefSim a r) (hw : WF a) (he : Exact a)
    (hls : a.levels s = L ++ ⟨px, q₁ ++ e :: q₂⟩ :: R) : r.peek e.id = some e.qty := by
  obtain ⟨hfind, hother⟩ := he.find_order hw hls
  rw [← h.sides] at hfind hother
  cases s with
  | Buy =>
    have hbids : RefBook.find_order e.id r.bids = _ := hfind
    rw [RefBook.peek, hbids]
    rfl
  | Sell =>
    have hasks : RefBook.find_order e.id r.asks = _ := hfind
    have hbids : RefBook.find_order e.id r.bids = none := hother
    rw [RefBook.peek, hbids, hasks]
    rfl

/-- ... and one that is not indexed is not found. -/
theorem RefSim.peek_none {id : OrderId} (h : RefSim a r) (he : Exact a) (hid : a.index id = none) :
    r.peek id = none := by
  have hmissing : ∀ s, RefBook.find_order id (r.side s) = none := by
    intro s
    rw [h.sides]
    exact (he.absent_of_index hid).find_order s
  have hbids : RefBook.find_order id r.bids = none := hmissing .Buy
  have hasks : RefBook.find_order id r.asks = none := hmissing .Sell
  rw [RefBook.peek, hbids, hasks]
  rfl

/-- A sum of quantities in 64 bits. -/
theorem sum_toUInt64 (qtys : List Qty) :
    (qtys.map UInt32.toUInt64).sum = .ofNat (qtys.map UInt32.toNat).sum := by
  induction qtys with
  | nil => rfl
  | cons q qtys ih => rw [List.map_cons, List.sum_cons, ih, List.map_cons, List.sum_cons,
      UInt64.ofNat_add, UInt64.ofNat_uInt32ToNat]

/-- What rests in the reference model is what rests in the book. -/
theorem RefSim.resting_total (h : RefSim a r) :
    ∃ n : Nat, r.resting_total = .ofNat n ∧ (n : Int) = a.total := by
  have hside : ∀ s, ((r.side s).flatMap Prod.snd).map RefOrder.rem =
      (entriesOf (a.levels s)).map Entry.qty := by
    intro s
    rw [h.sides, entriesOf, List.flatMap_map, List.map_flatMap, List.map_flatMap]
    congr 1
    funext l
    simp [Level.toRef, Entry.toRef, comp_def]
  have hcast : ∀ qs : List Qty, ((qs.map UInt32.toNat).sum : Int) =
      (qs.map fun q => (q.toNat : Int)).sum := by
    intro qs
    induction qs with
    | nil => rfl
    | cons q qs ih => simp [ih]
  have hqtys : ((r.bids ++ r.asks).flatMap Prod.snd).map RefOrder.rem =
      (entriesOf (a.levels .Buy)).map Entry.qty ++ (entriesOf (a.levels .Sell)).map Entry.qty := by
    rw [List.flatMap_append, List.map_append]
    exact congrArg₂ (· ++ ·) (hside .Buy) (hside .Sell)
  refine ⟨((((r.bids ++ r.asks).flatMap Prod.snd).map RefOrder.rem).map UInt32.toNat).sum, ?_, ?_⟩
  · rw [← sum_toUInt64, List.map_map]
    rfl
  · rw [hcast, hqtys, List.map_append, List.sum_append, List.map_map, List.map_map]
    rfl

namespace DifferentialTest

/-- The prices that orders are drawn at. -/
def gridPrice (k : Nat) : Price := midPrice + ((k : Int) - 20) * 10000

def OnGrid (p : Price) : Prop := p ∈ (List.range 41).map gridPrice

/-- A random number picks one of them. -/
theorem gridPrice_onGrid (n : UInt64) : OnGrid (gridPrice (n % 41).toNat) := by
  refine List.mem_map.mpr ⟨(n % 41).toNat, ?_, rfl⟩
  rw [List.mem_range, UInt64.toNat_mod]
  exact Nat.mod_lt _ (by decide)

/-- The sides have a level for each of these prices at most. -/
theorem length_levels_le (hw : WF a) (hp : Priced OnGrid a) (s : Side) :
    (a.levels s).length ≤ 41 := by
  have hnodup : ((a.levels s).map Level.price).Nodup := by
    rw [List.nodup_iff_pairwise_ne, List.pairwise_map]
    refine (hw.sorted s).imp ?_
    intro l l' hbetter heq
    rw [heq] at hbetter
    exact better_irrefl s _ hbetter
  have hsub : (a.levels s).map Level.price ⊆ (List.range 41).map gridPrice := by
    intro p hp'
    obtain ⟨l, hl, rfl⟩ := List.mem_map.mp hp'
    exact hp s l hl
  -- Levels have different prices, all of them on the grid.
  have hlen := (hnodup.subperm hsub).length_le
  rwa [List.length_map, List.length_map, List.length_range] at hlen

/-! ## Section 3: The invariant -/

/-- The ledger, whose counters wrap, stands for one that balances. -/
def Balances (d : Driver) (total : Int) : Prop :=
  ∃ s f c r e : Nat, d.submitted = .ofNat s ∧ d.filled = .ofNat f ∧ d.cancelled = .ofNat c ∧
    d.rejected = .ofNat r ∧ d.expired = .ofNat e ∧ (s : Int) = 2 * f + total + c + r + e

/-- The driver before its last `n` events; `a` is what both books hold. -/
structure Inv (n : Nat) (d : Driver) (a : LevelBook) : Prop where
  rep : Rep d.book a
  wf : WF a
  exact : Exact a
  sim : RefSim a d.ref
  uncrossed : Uncrossed a
  priced : Priced OnGrid a
  balances : Balances d a.total
  /-- While events are to come, ids have not run out. -/
  ids : 0 < n → d.next_id.toNat + n ≤ UInt64.size ∧
    ∀ id : OrderId, d.next_id.toNat ≤ id.toNat → Absent a id

theorem balances_conserved {d : Driver} (h : Balances d a.total) (hsim : RefSim a d.ref) :
    conserved d := by
  obtain ⟨s, f, c, r, e, hs, hf, hc, hr, he, hsum⟩ := h
  obtain ⟨n, htotal, hn⟩ := hsim.resting_total
  have hnat : s = f * 2 + n + c + r + e := by omega
  unfold conserved
  rw [hs, hf, hc, hr, he, htotal, hnat, UInt64.ofNat_add, UInt64.ofNat_add, UInt64.ofNat_add,
    UInt64.ofNat_add, UInt64.ofNat_mul]
  rfl

theorem failed_nil {checks : List (Bool × String)} (h : ∀ c ∈ checks, c.1 = false) :
    failed checks = [] := by
  apply List.filterMap_eq_nil_iff.mpr
  intro c hc
  simp [h c hc]

/-- A book that keeps the invariant passes the checks. -/
theorem cross_check_nil {n i : Nat} {done : Done} (h : Inv n done.driver a)
    (hfills : done.engine_fills = done.ref_fills) : cross_check i done = [] := by
  have hbid : done.driver.book.best_quote.bid_price = done.driver.ref.best_bid := by
    have hbest := h.rep.best_price_eq .Buy
    rw [← h.sim.sides .Buy] at hbest
    exact hbest
  have hask : done.driver.book.best_quote.ask_price = done.driver.ref.best_ask := by
    have hbest := h.rep.best_price_eq .Sell
    rw [← h.sim.sides .Sell] at hbest
    exact hbest
  have hcrossed : ¬ (done.driver.book.best_quote.bid_price ≠ PRICE_INVALID ∧
      done.driver.book.best_quote.ask_price ≠ PRICE_INVALID ∧
      done.driver.book.best_quote.bid_price ≥ done.driver.book.best_quote.ask_price) := by
    intro hc
    obtain ⟨hb, ha, hge⟩ := hc
    unfold best_quote at hb ha hge
    simp only at hb ha hge
    -- With an empty side there is no quote to compare.
    by_cases hbids : done.driver.book.bids.count > 0
    · by_cases hasks : done.driver.book.asks.count > 0
      · rw [if_pos hbids, if_pos hasks] at hge
        obtain ⟨l, hl, hlp⟩ := h.rep.best_price (s := .Buy) hbids
        obtain ⟨l', hl', hlp'⟩ := h.rep.best_price (s := .Sell) hasks
        change done.driver.book.bids.prices 0 = _ at hlp
        change done.driver.book.asks.prices 0 = _ at hlp'
        rw [hlp, hlp'] at hge
        have hlt : l.price < l'.price := h.uncrossed .Buy l hl l' hl'
        exact absurd hlt (Int.not_lt.mpr hge)
      · rw [if_neg hasks] at ha
        exact ha rfl
    · rw [if_neg hbids] at hb
      exact hb rfl
  have hbalance := balances_conserved h.balances h.sim
  apply List.append_eq_nil_iff.mpr
  refine ⟨?_, ?_⟩
  · rw [hfills, if_neg (fun hne => hne rfl)]
    exact failed_nil (by simp)
  · apply failed_nil
    intro c hc
    rcases List.mem_cons.mp hc with rfl | hc
    · exact decide_eq_false (by rw [hbid, hask]; simp)
    rcases List.mem_cons.mp hc with rfl | hc
    · exact decide_eq_false hcrossed
    rcases List.mem_singleton.mp hc with rfl
    exact decide_eq_false fun hviolated => hviolated.2 hbalance

/-! ## Section 4: Adding -/

theorem drawnType_listed (t : UInt64) : (drawnType t).Listed := by
  unfold drawnType OrderType.Listed
  split
  · exact Or.inl rfl
  · split
    · exact Or.inr (Or.inl rfl)
    · split
      · exact Or.inr (Or.inr (Or.inl rfl))
      · exact Or.inr (Or.inr (Or.inr rfl))

/-- The ledger takes what both books did with an order. -/
theorem settle_keeps {d : Driver} {out : Outcome} {res : RefBook.Outcome}
    (hadd : Added a o out takes a' res) (h : Balances d a.total) :
    (settle d o res out.ret (.ofNat (filledQty takes))).2 = [] ∧
      Balances (settle d o res out.ret (.ofNat (filledQty takes))).1 a'.total := by
  obtain ⟨hok, hfilled, hatomic, htotal, hwhole, hrested⟩ := hadd
  obtain ⟨s, f, c, r, e, hs, hf, hc, hr, he, hsum⟩ := h
  rw [takesTotal_eq] at hfilled htotal hwhole hrested
  have hqty : o.qty.toUInt64 = .ofNat o.qty.toNat := (UInt64.ofNat_uInt32ToNat o.qty).symm
  have hsub : UInt64.ofNat o.qty.toNat - .ofNat (filledQty takes) =
      .ofNat (o.qty.toNat - filledQty takes) := (UInt64.ofNat_sub (by omega)).symm
  have heng : UInt64.ofNat (filledQty takes) = res.filled.toUInt64 := by
    rw [← UInt64.ofNat_uInt32ToNat, show filledQty takes = res.filled.toNat by omega]
  have hret : out.ret = (!res.rejected && !res.capacity_rejected) := hok.symm
  -- a refused order leaves nothing in the book
  have hnone : out.ret = false → (res.resting.toNat : Int) = 0 := by
    intro hfalse
    by_cases hzero : res.resting = 0
    · rw [hzero]
      rfl
    · have htrue := (hrested hzero).2.1
      rw [hok, hfalse] at htrue
      cases htrue
  -- Rejected, rejected for want of room, resting in part, or expired.
  unfold settle
  simp only [hs, hf, hr, he, hqty, hsub, ← UInt64.ofNat_add]
  cases hrej : res.rejected with
  | true =>
    have hzero : filledQty takes = 0 := by
      rw [hatomic hrej]
      rfl
    rw [hrej] at hret
    have hresting := hnone hret
    refine ⟨?_, s + o.qty.toNat, f + filledQty takes, c, r + (o.qty.toNat - filledQty takes), e,
      rfl, rfl, hc, rfl, rfl, by omega⟩
    exact failed_nil (by simp [hret, hzero])
  | false =>
    rw [hrej] at hret
    cases hcap : res.capacity_rejected with
    | true =>
      rw [hcap] at hret
      have hresting := hnone hret
      refine ⟨?_, s + o.qty.toNat, f + filledQty takes, c, r, e + (o.qty.toNat - filledQty takes),
        rfl, rfl, hc, rfl, rfl, by omega⟩
      exact failed_nil (by simp [hret, heng])
    | false =>
      rw [hcap] at hret
      refine ⟨failed_nil (by simp [hret, heng]), ?_⟩
      by_cases hrest : o.type = .Limit ∧ res.resting ≠ 0
      · have hall := (hrested hrest.2).2.2
        rw [if_neg Bool.false_ne_true, if_neg Bool.false_ne_true, if_pos hrest]
        exact ⟨s + o.qty.toNat, f + filledQty takes, c, r, e, rfl, rfl, hc, rfl, rfl, by omega⟩
      · have hresting : (res.resting.toNat : Int) = 0 := by
          by_contra hne
          have hne' : res.resting ≠ 0 := by
            intro hzero
            rw [hzero] at hne
            exact hne rfl
          exact hrest ⟨(hrested hne').1, hne'⟩
        rw [if_neg Bool.false_ne_true, if_neg Bool.false_ne_true, if_neg hrest]
        exact ⟨s + o.qty.toNat, f + filledQty takes, c, r, e + (o.qty.toNat - filledQty takes), rfl,
          rfl, hc, rfl, rfl, by omega⟩

/-- The ledger is all that changes. -/
theorem settle_frame (d : Driver) (o : Order) (out : RefBook.Outcome) (ok : Bool) (f : UInt64) :
    (settle d o out ok f).1.book = d.book ∧ (settle d o out ok f).1.ref = d.ref ∧
      (settle d o out ok f).1.next_id = d.next_id := by
  unfold settle
  by_cases hrej : out.rejected = true
  · simp only [hrej, if_true, and_self]
  · by_cases hcap : out.capacity_rejected = true
    · simp only [hrej, hcap, if_true]
      exact ⟨rfl, rfl, rfl⟩
    · simp only [hrej, hcap]
      by_cases hrest : o.type = .Limit ∧ out.resting ≠ 0
      · rw [if_pos hrest]
        exact ⟨rfl, rfl, rfl⟩
      · rw [if_neg hrest]
        exact ⟨rfl, rfl, rfl⟩

/-- What is asked of an event: nothing fails, the fills agree, and the
    invariant is kept. -/
def Keeps (n : Nat) (result : Except Abort Done) : Prop :=
  ∃ done a', result = .ok done ∧ done.failures = [] ∧ done.engine_fills = done.ref_fills ∧
    Inv n done.driver a'

variable {rng : Nat → UInt64} {d : Driver} {n : Nat}

/-- The ids to come, after one was used. -/
theorem next_id_toNat (hfew : d.next_id.toNat + (n + 1) ≤ UInt64.size) (hn : 0 < n) :
    (d.next_id + 1).toNat = d.next_id.toNat + 1 := by
  have hsize : UInt64.size = 2 ^ 64 := rfl
  rw [UInt64.toNat_add]
  show (d.next_id.toNat + 1) % 2 ^ 64 = _
  omega

theorem add_event_keeps (h : Inv (n + 1) d a) : Keeps n (add_event rng d) := by
  obtain ⟨hfew, hlater⟩ := h.ids (Nat.succ_pos n)
  obtain ⟨o, ho⟩ : ∃ o, o = drawnOrder rng d := ⟨_, rfl⟩
  have hid : o.id = d.next_id := by rw [ho]; rfl
  have hqty : o.qty = o.qty_remaining := by rw [ho]; rfl
  have hlisted : o.type.Listed := by
    rw [ho]
    exact drawnType_listed _
  obtain ⟨resp, book, a', takes, happly, hstep, hrep, hw, hevs, _⟩ := h.rep.apply h.wf (.add o)
  change d.book.add_order o = some (resp, book) at happly
  have hpriced : Priced OnGrid a' := by
    refine hstep.priced h.wf h.priced ?_
    intro o' heq _
    cases heq
    rw [ho]
    exact gridPrice_onGrid _
  -- All prices are on the grid, so 41 levels at most.
  have hlevels : (a'.levels o.side).length < kMaxLevels :=
    Nat.lt_of_le_of_lt (length_levels_le hw hpriced o.side) (by decide)
  obtain ⟨res, r', hadd, hsim, hadded⟩ := h.sim.added h.wf hqty hlisted hstep hlevels
  have hfills : resp.reports.map ExecutionReport.toFill = takes.map (Take.toFill o.id) :=
    fills_eq hevs
  have hsum : ((takes.map (Take.toFill o.id)).map fun f => f.qty.toUInt64).sum =
      UInt64.ofNat (filledQty takes) := by
    have hqtys := sum_toUInt64 (takes.map Take.qty)
    rw [List.map_map, List.map_map] at hqtys
    rw [List.map_map]
    exact hqtys
  have hexact : Exact a' := by
    refine hstep.exact h.wf h.exact ?_
    intro o' heq _
    cases heq
    exact hlater o.id (Nat.le_of_eq (by rw [hid]))
  let d' : Driver :=
    { d with
      book := book
      ref := r'
      next_id := d.next_id + 1
      draws := if tracked rng d then d.draws + 7 else d.draws + 6 }
  have hbal : Balances d' a.total := h.balances
  obtain ⟨hnone, hbalances⟩ := settle_keeps hadded hbal
  obtain ⟨hbook, href, hnext⟩ := settle_frame d' o res resp.ret (.ofNat (filledQty takes))
  refine ⟨⟨(settle d' o res resp.ret (.ofNat (filledQty takes))).1, takes.map (Take.toFill o.id),
    takes.map (Take.toFill o.id), (settle d' o res resp.ret (.ofNat (filledQty takes))).2⟩, a', ?_,
    hnone, rfl, ?_⟩
  · simp only [add_event, ← ho, happly, hadd, hfills, hsum]
    rfl
  · refine ⟨?_, hw, hexact, ?_, hstep.uncrossed h.wf h.uncrossed, hpriced, hbalances, ?_⟩
    · rw [hbook]
      exact hrep
    · rw [href]
      exact hsim
    · intro hn
      have hsucc := next_id_toNat hfew hn
      rw [hnext]
      show (d.next_id + 1).toNat + n ≤ UInt64.size ∧ _
      rw [hsucc]
      refine ⟨by omega, ?_⟩
      intro id hle
      refine (hstep.absent h.wf (hlater id (by omega)) ?_).1
      intro o' heq _ hsame
      cases heq
      rw [← hsame, hid] at hle
      omega

/-! ## Section 5: Cancelling and modifying -/

/-- A call that adds nothing keeps what is asked of the two books. -/
theorem Inv.of_step {op : Op} {out : Outcome} {book : OrderBook} {r' : RefBook} {d' : Driver}
    (h : Inv (n + 1) d a) (hop : ∀ o, op ≠ .add o) (hstep : Step a op out takes a')
    (hrep : Rep book a') (hsim : RefSim a' r') (hbook : d'.book = book) (href : d'.ref = r')
    (hnext : d'.next_id = d.next_id) (hbal : Balances d' a'.total) : Inv n d' a' := by
  obtain ⟨hfew, hlater⟩ := h.ids (Nat.succ_pos n)
  refine ⟨?_, hstep.wf h.wf, ?_, ?_, hstep.uncrossed h.wf h.uncrossed, ?_, hbal, ?_⟩
  · rw [hbook]
    exact hrep
  · exact hstep.exact h.wf h.exact fun o heq => absurd heq (hop o)
  · rw [href]
    exact hsim
  · exact hstep.priced h.wf h.priced fun o heq => absurd heq (hop o)
  · intro _
    rw [hnext]
    refine ⟨by omega, ?_⟩
    intro id hle
    exact (hstep.absent h.wf (hlater id hle) fun o heq => absurd heq (hop o)).1

theorem cancel_event_keeps (h : Inv (n + 1) d a) : Keeps n (cancel_event rng d) := by
  obtain ⟨id, hid⟩ : ∃ id, id = d.live.getD (drawnPlace rng d) 0 := ⟨_, rfl⟩
  obtain ⟨resp, book, a', takes, happly, hstep, hrep, hw, hevs, _⟩ := h.rep.apply h.wf (.cancel id)
  change d.book.cancel_order id = some (resp, book) at happly
  obtain ⟨r', hcancel, hsim⟩ := h.sim.cancel_step h.wf h.exact hstep
  have hfills : resp.reports.map ExecutionReport.toFill = [] := fills_eq hevs
  let d' : Driver :=
    { d with
      book := book
      ref := r'
      live := swap_remove d.live (drawnPlace rng d)
      cancelled :=
        if resp.ret then d.cancelled + ((d.ref.peek id).getD 0).toUInt64 else d.cancelled
      draws := d.draws + 2 }
  have hbal : Balances d' a'.total := by
    obtain ⟨s, f, c, r, e, hs, hf, hc, hr, he, hsum⟩ := h.balances
    have hret : resp.ret = resp.outcome.ret := rfl
    generalize resp.outcome = out at hstep hret
    cases hstep with
    | cancel_unknown _ =>
      refine ⟨s, f, c, r, e, hs, hf, ?_, hr, he, hsum⟩
      show (if resp.ret = true then _ else _) = _
      rw [hret, if_neg (by simp [Outcome.ret]), hc]
    | @cancelled _ s' L R px q₁ q₂ entry hindex heid hls =>
      subst heid
      have hpeek := h.sim.peek_some h.wf h.exact hls
      refine ⟨s, f, c + entry.qty.toNat, r, e, hs, hf, ?_, hr, he, ?_⟩
      · show (if resp.ret = true then _ else _) = _
        rw [hret, if_pos (show (Outcome.cancelled entry.slot).ret = true from rfl), hpeek, hc,
          UInt64.ofNat_add, UInt64.ofNat_uInt32ToNat]
        rfl
      · rw [total_drop hls]
        omega
  refine ⟨⟨d', [], [], []⟩, a', ?_, rfl, rfl,
    h.of_step (fun _ hc => by cases hc) hstep hrep hsim rfl rfl rfl hbal⟩
  simp only [cancel_event, ← hid, happly, hcancel, hfills]
  congr 2
  exact failed_nil (by simp [Response.ret])

/-- A modification replaces the quantity found. -/
theorem modify_total {id : OrderId} {nq rem : Qty} {out : Outcome} (h : Inv (n + 1) d a)
    (hpeek : d.ref.peek id = some rem) (hstep : Step a (.modify id nq) out takes a') :
    out.ret = true ∧ a'.total = a.total - rem.toNat + nq.toNat := by
  cases hstep with
  | modify_unknown hid =>
    rw [h.sim.peek_none h.exact hid] at hpeek
    cases hpeek
  | increased hid heid hls hqty =>
    subst heid
    rw [h.sim.peek_some h.wf h.exact hls] at hpeek
    cases hpeek
    exact ⟨rfl, total_increase hls nq⟩
  | decreased hid heid hls hqty hnew =>
    subst heid
    rw [h.sim.peek_some h.wf h.exact hls] at hpeek
    cases hpeek
    exact ⟨rfl, total_requantify hls nq⟩
  | emptied hid heid hls =>
    subst heid
    rw [h.sim.peek_some h.wf h.exact hls] at hpeek
    cases hpeek
    refine ⟨rfl, ?_⟩
    rw [total_drop hls, UInt32.toNat_zero]
    omega

theorem modify_event_keeps (h : Inv (n + 1) d a) :
    Keeps n (modify_event rng d) ∨ modify_event rng d = .error .division_by_zero := by
  obtain ⟨id, hid⟩ : ∃ id, id = d.live.getD (drawnPlace rng d) 0 := ⟨_, rfl⟩
  cases hpeek : d.ref.peek id with
  | none =>
    left
    refine ⟨⟨{ d with live := swap_remove d.live (drawnPlace rng d), draws := d.draws + 2 }, [], [],
      []⟩, a, ?_, rfl, rfl, ?_⟩
    · simp only [modify_event, ← hid, hpeek]
    · obtain ⟨hfew, hlater⟩ := h.ids (Nat.succ_pos n)
      have hfew' : d.next_id.toNat + n ≤ UInt64.size := by omega
      exact ⟨h.rep, h.wf, h.exact, h.sim, h.uncrossed, h.priced, h.balances,
        fun _ => ⟨hfew', hlater⟩⟩
  | some rem =>
    by_cases hzero : rem + 1 = 0
    · right
      simp only [modify_event, ← hid, hpeek, hzero, if_true]
    · left
      obtain ⟨nq, hnq⟩ : ∃ nq, nq = drawnQty rng d rem := ⟨_, rfl⟩
      obtain ⟨resp, book, a', takes, happly, hstep, hrep, hw, hevs, _⟩ :=
        h.rep.apply h.wf (.modify id nq)
      change d.book.modify_order id nq = some (resp, book) at happly
      obtain ⟨r', hmodify, hsim⟩ := h.sim.modify_step h.wf h.exact hstep
      obtain ⟨hret, htotal⟩ := modify_total h hpeek hstep
      rw [hret] at hmodify
      have hfills : resp.reports.map ExecutionReport.toFill = [] := fills_eq hevs
      let d' : Driver :=
        { d with
          book := book
          ref := r'
          live := if nq = 0 then swap_remove d.live (drawnPlace rng d) else d.live
          submitted := if nq ≥ rem then d.submitted + (nq - rem).toUInt64 else d.submitted
          cancelled := if nq ≥ rem then d.cancelled else d.cancelled + (rem - nq).toUInt64
          draws := d.draws + 4 }
      have hbal : Balances d' a'.total := by
        obtain ⟨s, f, c, r, e, hs, hf, hc, hr, he, hsum⟩ := h.balances
        by_cases hge : nq ≥ rem
        · have hsub := UInt32.toNat_sub_of_le nq rem hge
          have hle := UInt32.le_iff_toNat_le.mp hge
          refine ⟨s + (nq - rem).toNat, f, c, r, e, ?_, hf, ?_, hr, he, by omega⟩
          · show (if nq ≥ rem then _ else _) = _
            rw [if_pos hge, hs, UInt64.ofNat_add, UInt64.ofNat_uInt32ToNat]
          · show (if nq ≥ rem then _ else _) = _
            rw [if_pos hge, hc]
        · have hlt := UInt32.not_le.mp hge
          have hsub := UInt32.toNat_sub_of_le rem nq (UInt32.le_of_lt hlt)
          have hlt' := UInt32.lt_iff_toNat_lt.mp hlt
          refine ⟨s, f, c + (rem - nq).toNat, r, e, ?_, hf, ?_, hr, he, by omega⟩
          · show (if nq ≥ rem then _ else _) = _
            rw [if_neg hge, hs]
          · show (if nq ≥ rem then _ else _) = _
            rw [if_neg hge, hc, UInt64.ofNat_add, UInt64.ofNat_uInt32ToNat]
      refine ⟨⟨d', [], [], []⟩, a', ?_, rfl, rfl,
        h.of_step (fun _ hc => by cases hc) hstep hrep hsim rfl rfl rfl hbal⟩
      simp only [modify_event, ← hid, hpeek, if_neg hzero, ← hnq, hmodify, if_true, happly, hfills]
      congr 2
      exact failed_nil (by simp [Response.ret, hret])

/-! ## Section 6: The whole test -/

theorem event_keeps (rng : Nat → UInt64) (h : Inv (n + 1) d a) :
    Keeps n (event rng d) ∨ event rng d = .error .division_by_zero := by
  unfold event
  by_cases hadd : rng d.draws % 100 < 70 ∨ d.live = []
  · simp only [hadd, if_true]
    exact Or.inl (add_event_keeps h)
  · by_cases hcancel : rng d.draws % 100 < 90
    · simp only [hadd, hcancel, if_true, if_false]
      exact Or.inl (cancel_event_keeps h)
    · simp only [hadd, hcancel, if_false]
      exact modify_event_keeps h

theorem loop_keeps (rng : Nat → UInt64) (n : Nat) :
    ∀ {i : Nat} {d : Driver} {a : LevelBook}, Inv n d a →
      (∃ d' a', loop rng n i d = .ok (d', none) ∧ Inv 0 d' a') ∨
        loop rng n i d = .error .division_by_zero := by
  induction n with
  | zero =>
    intro i d a h
    exact Or.inl ⟨d, a, rfl, h⟩
  | succ n ih =>
    intro i d a h
    unfold loop
    rcases event_keeps rng h with ⟨done, a', hevent, hnone, hfills, hinv⟩ | habort
    · have hcheck : done.failures ++ cross_check i done = [] := by
        rw [hnone, cross_check_nil hinv hfills]
        rfl
      simp only [hevent, hcheck]
      exact ih hinv
    · right
      simp only [habort]

theorem inv_start (events : UInt64) (mem : OrderBook) :
    Inv events.toNat (start mem) LevelBook.empty := by
  refine ⟨rep_fresh mem 0, wf_empty, exact_empty, refSim_empty, uncrossed_empty, ?_, ?_, ?_⟩
  · exact fun _ _ hl => absurd hl List.not_mem_nil
  · exact ⟨0, 0, 0, 0, 0, rfl, rfl, rfl, rfl, rfl, rfl⟩
  · intro _
    have hlt := events.toNat_lt
    refine ⟨?_, fun _ _ _ _ he => absurd he List.not_mem_nil⟩
    show 1 + events.toNat ≤ 2 ^ 64
    omega

/-- Whatever the random numbers, the number of events and the memory of the
    order book, the test passes, unless the driver itself divides by zero. -/
theorem differential_test_passes (rng : Nat → UInt64) (events : UInt64) (mem : OrderBook) :
    main rng events mem = .ok .PASS ∨ main rng events mem = .error .division_by_zero := by
  unfold main
  rcases loop_keeps rng events.toNat (i := 0) (inv_start events mem) with ⟨d, a, hloop, hinv⟩ | habort
  · left
    simp only [hloop]
    rw [if_pos (balances_conserved hinv.balances hinv.sim)]
  · right
    simp only [habort]

example : main (fun i => .ofNat (i * 37)) 4 zeroed = .ok .PASS := by decide +kernel

-- One order of quantity 1, raised as far as it can be, event after event.
example :
    main (fun i => if i = 4 then 99 else if i < 6 then 0
      else [95, 0, 99, 18446744073709551615].getD ((i - 6) % 4) 0) 34 zeroed =
        .error .division_by_zero := by decide +kernel

end DifferentialTest

end OptionsEngine
