import Mathlib.Logic.Function.Basic
import OptionsEngine.SpscQueue
import OptionsEngine.Types

/-! # The execution layer (`core/execution_layer.hpp`, `core/execution_layer.cpp`)

    Execution reports are popped from the inbound queue and booked into one
    position per symbol.  Quantities and amounts are exact integers here, where
    the source has `int64_t`.  The processing thread, which calls `poll` until
    it is stopped, is that of `ExecutionLayer.Thread`. -/

namespace OptionsEngine

open Ring

structure Position where
  symbol : SymbolId
  /-- Positive is long, negative is short. -/
  net_qty : Int
  realized_pnl : Int
  avg_cost : Price
  total_fills : UInt64
  deriving DecidableEq, Repr

namespace Position

/-- What `positions_[symbol]` creates for a symbol it does not have. -/
def empty : Position := ⟨0, 0, 0, 0, 0⟩

end Position

/-- The executed quantity, negative for a sell. -/
def ExecutionReport.signed_qty (rpt : ExecutionReport) : Int :=
  if rpt.side = .Buy then rpt.exec_qty.toNat else -rpt.exec_qty.toNat

namespace Position

/-- The report trades against the open position. -/
def Closes (pos : Position) (rpt : ExecutionReport) : Prop :=
  (pos.net_qty > 0 ∧ rpt.signed_qty < 0) ∨ (pos.net_qty < 0 ∧ rpt.signed_qty > 0)

instance (pos : Position) (rpt : ExecutionReport) : Decidable (pos.Closes rpt) :=
  inferInstanceAs (Decidable (_ ∨ _))

/-- The P&L a report realizes. -/
def pnl (pos : Position) (rpt : ExecutionReport) : Int :=
  if pos.Closes rpt then
    let close_qty : Int := min pos.net_qty.natAbs rpt.signed_qty.natAbs
    let pnl_per_unit := rpt.exec_price - pos.avg_cost
    pnl_per_unit * close_qty * (if pos.net_qty > 0 then 1 else -1)
  else 0

/-- What `process_report` does to the position of the report's symbol. -/
def process (pos : Position) (rpt : ExecutionReport) : Position :=
  let new_net := pos.net_qty + rpt.signed_qty
  { symbol := rpt.symbol
    net_qty := new_net
    realized_pnl := pos.realized_pnl + pos.pnl rpt
    avg_cost :=
      if new_net ≠ 0 then
        -- set when a position is opened, and kept until it is closed
        if pos.net_qty = 0 then rpt.exec_price else pos.avg_cost
      else 0
    total_fills := pos.total_fills + 1 }

end Position

structure ExecutionLayer where
  inbound : SPSCQueue ExecutionReport
  /-- Whether a fill callback is set. -/
  fill_cb : Bool
  positions : SymbolId → Option Position
  stat_fills : UInt64

namespace ExecutionLayer

def kQueueDepth : Capacity := ⟨65536, one_lt_depth, pow_two_depth, depth_fits⟩

/-- The constructor, with an inbound queue that is already there. -/
def fresh (inbound : SPSCQueue ExecutionReport) : ExecutionLayer := ⟨inbound, false, fun _ => none, 0⟩

/-- Book one report; the second component is the calls `fill_cb_(rpt, pos)`. -/
def process_report (l : ExecutionLayer) (rpt : ExecutionReport) :
    ExecutionLayer × List (ExecutionReport × Position) :=
  let pos := ((l.positions rpt.symbol).getD .empty).process rpt
  ({ l with
      stat_fills := l.stat_fills + 1
      positions := Function.update l.positions rpt.symbol (some pos) },
   if l.fill_cb then [(rpt, pos)] else [])

/-- Process up to `max_msgs` reports; returns their number and the calls of
    the fill callback. -/
def poll (l : ExecutionLayer) : Nat → ExecutionLayer × Nat × List (ExecutionReport × Position)
  | 0 => (l, 0, [])
  | max_msgs + 1 =>
    match l.inbound.try_pop kQueueDepth with
    | (_, none) => (l, 0, [])
    | (inbound, some rpt) =>
      let (l, calls) := { l with inbound := inbound }.process_report rpt
      let (l, count, more) := l.poll max_msgs
      (l, count + 1, calls ++ more)

def get_position (l : ExecutionLayer) (id : SymbolId) : Option Position := l.positions id

/-- Process a sequence of reports. -/
def run (l : ExecutionLayer) (rs : List ExecutionReport) : ExecutionLayer :=
  rs.foldl (fun l rpt => (l.process_report rpt).1) l

/-- The position of a symbol; one without reports is empty. -/
def position (l : ExecutionLayer) (s : SymbolId) : Position := (l.get_position s).getD .empty

/-! ## What processing reports does -/

variable {l : ExecutionLayer} {rs : List ExecutionReport} {rpt : ExecutionReport} {s : SymbolId}

theorem run_snoc (l : ExecutionLayer) (rs : List ExecutionReport) (rpt : ExecutionReport) :
    l.run (rs ++ [rpt]) = ((l.run rs).process_report rpt).1 := by
  simp [run]

/-- A report is booked into the position of its symbol ... -/
theorem position_process_report_self (l : ExecutionLayer) (rpt : ExecutionReport) :
    (l.process_report rpt).1.position rpt.symbol = (l.position rpt.symbol).process rpt := by
  simp [position, get_position, process_report]

/-- ... and into no other. -/
theorem position_process_report_ne (l : ExecutionLayer) (h : rpt.symbol ≠ s) :
    (l.process_report rpt).1.position s = l.position s := by
  simp [position, get_position, process_report, Function.update_of_ne (Ne.symm h)]

@[simp] theorem position_fresh (inbound : SPSCQueue ExecutionReport) (s : SymbolId) :
    (fresh inbound).position s = .empty := rfl

/-- `poll` processes the oldest reports of the queue, in their order. -/
theorem poll_eq_run (max_msgs : Nat) :
    ∀ {l : ExecutionLayer} {n : Nat} {items : List ExecutionReport},
      l.inbound.Holds kQueueDepth n items →
      ∃ q, (l.poll max_msgs).1 = { l with inbound := q }.run (items.take max_msgs) ∧
        q.Holds kQueueDepth (n + (items.take max_msgs).length) (items.drop max_msgs) ∧
        (l.poll max_msgs).2.1 = (items.take max_msgs).length := by
  induction max_msgs with
  | zero =>
    intro l n items h
    exact ⟨l.inbound, rfl, h, rfl⟩
  | succ max_msgs ih =>
    intro l n items h
    cases items with
    | nil =>
      refine ⟨l.inbound, ?_, h, ?_⟩
      · simp [poll, h.try_pop_nil, run]
      · simp [poll, h.try_pop_nil]
    | cons rpt items =>
      obtain ⟨q, hpop, hq⟩ := h.try_pop_cons
      have hnext : ({ l with inbound := q }.process_report rpt).1.inbound.Holds kQueueDepth
          (n + 1) items := hq
      obtain ⟨q', hrun, hq', hcount⟩ := ih hnext
      refine ⟨q', ?_, ?_, ?_⟩
      · simp only [poll, hpop]
        exact hrun
      · rw [List.take_succ_cons, List.length_cons, List.drop_succ_cons, Nat.add_comm _ 1,
          ← Nat.add_assoc]
        exact hq'
      · simp only [poll, hpop, hcount, List.take_succ_cons, List.length_cons]

end ExecutionLayer

end OptionsEngine
