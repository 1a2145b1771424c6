import OptionsEngine.OrderBook.Cancel
import OptionsEngine.RefBook.Simulation

/-! # The order book is observationally equal to the reference model

    A run is observed call by call: the returned boolean, the fills, and then
    both sides' prices and queues and the best prices.  The order book's trace
    is read off its arrays and links, the reference model's off its maps.
    Where added orders are as the differential test makes them, the traces of
    every run are equal (`trace_eq_reference`). -/

namespace OptionsEngine

open Function OrderBook

/-! ## Section 1: Traces -/

/-- What is visible of one call. -/
structure Observation where
  ret : Bool
  fills : List Fill
  bids : List RefLevel
  asks : List RefLevel
  best_bid : Price
  best_ask : Price
  deriving DecidableEq

/-- A report as the test's sink records it. -/
def ExecutionReport.toFill (x : ExecutionReport) : Fill :=
  ⟨x.order_id, x.contra_order_id, x.exec_price, x.exec_qty⟩

namespace OrderBook

/-- The prices of a side, each with its orders from head to tail. -/
def levelsOf (b : OrderBook) (s : OptionsEngine.Side) : List RefLevel :=
  (List.range (b.side s).count).map fun i =>
    ((b.side s).prices i,
      (b.queue s i).map fun x => ⟨b.slots.ids x, b.slots.qtys x, b.slots.accounts x⟩)

def observe (b : OrderBook) (r : Response) : Observation where
  ret := r.ret
  fills := r.reports.map ExecutionReport.toFill
  bids := b.levelsOf .Buy
  asks := b.levelsOf .Sell
  best_bid := b.best_quote.bid_price
  best_ask := b.best_quote.ask_price

def trace (b : OrderBook) : List Op → Option (List Observation)
  | [] => some []
  | op :: ops =>
    (b.apply op).bind fun (r, b') => (b'.trace ops).map fun t => b'.observe r :: t

end OrderBook

namespace RefBook

def observe (r : RefBook) (ret : Bool) (fills : List Fill) : Observation where
  ret := ret
  fills := fills
  bids := r.bids
  asks := r.asks
  best_bid := r.best_bid
  best_ask := r.best_ask

def trace (r : RefBook) : List Op → List Observation
  | [] => []
  | op :: ops =>
    let (ret, fills, r') := r.apply op
    r'.observe ret fills :: r'.trace ops

end RefBook

/-- An added order is one the differential test may add. -/
def Admissible (b : OrderBook) : Op → Prop
  | .add o => o.qty = o.qty_remaining ∧ o.type.Listed ∧ ¬ b.Carries o.id
  | _ => True

instance (b : OrderBook) : (op : Op) → Decidable (Admissible b op)
  | .add o => inferInstanceAs (Decidable (o.qty = o.qty_remaining ∧ o.type.Listed ∧ ¬ b.Carries o.id))
  | .cancel _ => .isTrue trivial
  | .modify _ _ => .isTrue trivial

/-! ## Section 2: Equal observations -/

variable {b : OrderBook} {a : LevelBook} {s : Side} {r : RefBook}

theorem Admissible.freshAdd {op : Op} (h : Admissible b op) : FreshAdd b op := by
  cases op with
  | add o => exact Or.inr h.2.2
  | cancel id => trivial
  | modify id n => trivial

theorem Admissible.refOk {op : Op} (h : Admissible b op) : RefOk op := by
  cases op with
  | add o => exact ⟨h.1, h.2.1⟩
  | cancel id => trivial
  | modify id n => trivial

theorem Rep.levelsOf_eq (h : Rep b a) (hw : WF a) (s : Side) :
    b.levelsOf s = (a.levels s).map Level.toRef := by
  refine h.map_levels _ _ ?_
  intro L l R hls
  have hq := h.queue hls
  rw [h.queue_eq hw hls, (h.row hls).cells.1, Level.toRef, Level.slots, List.map_map]
  congr 1
  apply List.map_congr_left
  intro e he
  have hst := hq.stored e he
  simp only [comp_apply, hst.id, hst.qty, hst.account]
  rfl

/-- The best price of a side, or the sentinel of an empty one. -/
theorem Rep.best_price_eq (h : Rep b a) (s : Side) :
    (if (b.side s).count > 0 then (b.side s).prices 0 else PRICE_INVALID) =
      (((a.levels s).map Level.toRef).head?.map Prod.fst).getD PRICE_INVALID := by
  have hcount := (h.sides s).count_eq
  cases hls : a.levels s with
  | nil =>
    rw [hls] at hcount
    have hzero : ¬ (b.side s).count > 0 := by rw [hcount]; simp
    rw [if_neg hzero]
    rfl
  | cons l ls =>
    obtain ⟨px, q⟩ := l
    have hpos : (b.side s).count > 0 := by rw [(h.best hls).1]; omega
    rw [if_pos hpos, (h.best hls).2.1]
    rfl

theorem fills_eq {symbol : SymbolId} {op : Op} {evs : List MatchEvent} {takes : List Take}
    (h : EventsOf symbol op evs takes) :
    (evs.map MatchEvent.report).map ExecutionReport.toFill = fillsOf op takes := by
  cases op with
  | add o =>
    have hall : List.Forall₂ (EventOf symbol o) evs takes := h
    clear h
    unfold fillsOf
    induction hall with
    | nil => rfl
    | cons hev _ ih =>
      simp only [List.map_cons, hev.report] at ih ⊢
      rw [ih]
      rfl
  | cancel id =>
    rw [h.1]
    rfl
  | modify id n =>
    rw [h.1]
    rfl

theorem RefSim.observe_eq {symbol : SymbolId} {op : Op} {resp : Response} {takes : List Take}
    (hsim : RefSim a r) (hrep : Rep b a) (hw : WF a)
    (hevs : EventsOf symbol op resp.events takes) :
    b.observe resp = r.observe resp.outcome.ret (fillsOf op takes) := by
  have hbid : b.best_quote.bid_price = r.best_bid := by
    have hbest := hrep.best_price_eq .Buy
    rw [← hsim.sides .Buy] at hbest
    exact hbest
  have hask : b.best_quote.ask_price = r.best_ask := by
    have hbest := hrep.best_price_eq .Sell
    rw [← hsim.sides .Sell] at hbest
    exact hbest
  have hbids : b.levelsOf .Buy = r.bids := by
    rw [hrep.levelsOf_eq hw, ← hsim.sides .Buy]
    rfl
  have hasks : b.levelsOf .Sell = r.asks := by
    rw [hrep.levelsOf_eq hw, ← hsim.sides .Sell]
    rfl
  simp only [OrderBook.observe, RefBook.observe, hbid, hask, hbids, hasks, Response.reports,
    fills_eq hevs]
  rfl

/-! ## Section 3: Equal traces -/

theorem Rep.trace_eq (ops : List Op) :
    ∀ {b : OrderBook} {a : LevelBook} {r : RefBook}, Rep b a → WF a → Exact a → RefSim a r →
      b.Meets Admissible ops → b.trace ops = some (r.trace ops) := by
  induction ops with
  | nil =>
    intro b a r _ _ _ _ _
    rfl
  | cons op ops ih =>
    intro b a r hrep hw he hsim hmeets
    obtain ⟨hadm, hrest⟩ := hmeets
    obtain ⟨resp, b₁, a₁, takes, happly, hstep, hrep₁, hw₁, hevs, _⟩ := hrep.apply hw op
    rw [happly] at hrest
    -- the same step of the book of levels is what both books did
    obtain ⟨r₁, hr, hsim₁⟩ := hsim.step hw he hadm.refOk hstep
    have he₁ := hstep.exact hw he (hrep.newId hw hadm.freshAdd)
    have htail := ih hrep₁ hw₁ he₁ hsim₁ hrest
    have hobs := hsim₁.observe_eq hrep₁ hw₁ hevs
    simp only [OrderBook.trace, happly, Option.bind_some, htail, Option.map_some, RefBook.trace,
      hr, hobs]

/-- Every run of admissible calls shows the same on the order book and on the
    reference model. -/
theorem trace_eq_reference (mem : OrderBook) (symbol : SymbolId) (ops : List Op)
    (h : (fresh mem symbol).Meets Admissible ops) :
    (fresh mem symbol).trace ops = some (RefBook.empty.trace ops) :=
  Rep.trace_eq ops (rep_fresh mem symbol) wf_empty exact_empty refSim_empty h

/-- Two sellers, a buyer that takes one of them and part of the other, an
    increase, a decrease and a cancel. -/
theorem trace_eq_reference_six_calls :
    (fresh zeroed 0).trace
        [.add (sell 1 100 5), .add (sell 2 100 5), .add (buy 3 101 7), .modify 2 9,
          .modify 2 4, .cancel 2] =
      some (RefBook.empty.trace
        [.add (sell 1 100 5), .add (sell 2 100 5), .add (buy 3 101 7), .modify 2 9,
          .modify 2 4, .cancel 2]) :=
  trace_eq_reference zeroed 0 _ (by decide +kernel)

end OptionsEngine
