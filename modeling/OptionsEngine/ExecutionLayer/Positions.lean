import Mathlib.Algebra.BigOperators.Group.List.Basic
import Mathlib.Data.List.Induction
import Mathlib.Tactic.LinearCombination
import Mathlib.Tactic.Ring
import OptionsEngine.ExecutionLayer

/-! # Cost basis and realized P&L

    `avg_cost` is the price of the report that opened the position, and stays
    so while the position is open: no later report is averaged in, and a report
    that reverses the position does not replace it.

    * `cash_identity`: at a flat position, realized P&L differs from the cash
      that changed hands by the mispricing of what was opened on top of an
      open position (`drift`).
    * `cost_basis_iff`: the cost basis belongs to the open position exactly if
      every reversal happens at the old cost basis. -/

namespace OptionsEngine

open ExecutionLayer

variable {pos : Position} {rpt : ExecutionReport} {rs : List ExecutionReport} {s : SymbolId}

/-! ## Section 1: Cash -/

/-- The reports of one symbol. -/
def ownReports (s : SymbolId) (rs : List ExecutionReport) : List ExecutionReport :=
  rs.filter fun rpt => rpt.symbol = s

/-- The value traded on one side. -/
def turnover (side : Side) (rs : List ExecutionReport) : Int :=
  ((rs.filter fun rpt => rpt.side = side).map fun rpt => rpt.exec_price * (rpt.exec_qty.toNat : Int)).sum

/-- What the sells brought in less what the buys cost. -/
def cash (rs : List ExecutionReport) : Int := turnover .Sell rs - turnover .Buy rs

namespace Position

/-- The signed quantity by which a report adds to or reverses a position that
    is open already. -/
def opened (pos : Position) (rpt : ExecutionReport) : Int :=
  if pos.net_qty = 0 then 0
  else if pos.Closes rpt then
    if pos.net_qty.natAbs < rpt.signed_qty.natAbs then pos.net_qty + rpt.signed_qty else 0
  else rpt.signed_qty

/-- What the report adds to an open position, it adds at the cost basis. -/
def AtCost (pos : Position) (rpt : ExecutionReport) : Prop :=
  pos.opened rpt ≠ 0 → rpt.exec_price = pos.avg_cost

/-- The position after a sequence of reports. -/
def after (pos : Position) (rs : List ExecutionReport) : Position := rs.foldl process pos

/-- The mispricing of what the reports add to a position that is open. -/
def drift (pos : Position) : List ExecutionReport → Int
  | [] => 0
  | rpt :: rs => pos.opened rpt * (rpt.exec_price - pos.avg_cost) + (pos.process rpt).drift rs

theorem after_snoc (pos : Position) (rs : List ExecutionReport) (rpt : ExecutionReport) :
    pos.after (rs ++ [rpt]) = (pos.after rs).process rpt := by
  simp [after]

theorem drift_snoc (pos : Position) (rs : List ExecutionReport) (rpt : ExecutionReport) :
    pos.drift (rs ++ [rpt]) = pos.drift rs +
      (pos.after rs).opened rpt * (rpt.exec_price - (pos.after rs).avg_cost) := by
  induction rs generalizing pos with
  | nil => simp [drift, after]
  | cons r rs ih =>
    have hafter : pos.after (r :: rs) = (pos.process r).after rs := rfl
    rw [List.cons_append, drift, drift, ih, hafter, Int.add_assoc]

/-- Realized P&L is earned on the part of a report that is not opened. -/
theorem pnl_eq (hopen : pos.net_qty ≠ 0) :
    pos.pnl rpt = (rpt.exec_price - pos.avg_cost) * (pos.opened rpt - rpt.signed_qty) := by
  unfold pnl opened
  rw [if_neg hopen]
  split
  · next hcloses =>
    -- the closed quantity, with the sign of the position
    have hclosed : (min pos.net_qty.natAbs rpt.signed_qty.natAbs : Int) *
        (if pos.net_qty > 0 then 1 else -1) =
        (if pos.net_qty.natAbs < rpt.signed_qty.natAbs then pos.net_qty + rpt.signed_qty else 0) -
          rpt.signed_qty := by
      rcases hcloses with ⟨hlong, hsell⟩ | ⟨hshort, hbuy⟩
      · rw [if_pos hlong]
        split <;> omega
      · rw [if_neg (by omega)]
        split <;> omega
    simp only
    rw [Int.mul_assoc, hclosed]
  · simp

end Position

theorem cash_snoc (rs : List ExecutionReport) (rpt : ExecutionReport) :
    cash (rs ++ [rpt]) = cash rs - rpt.exec_price * rpt.signed_qty := by
  unfold cash turnover ExecutionReport.signed_qty
  cases hside : rpt.side with
  | Buy =>
    simp [hside]
    ring
  | Sell =>
    simp [hside]
    ring

/-- What has been realized is the cash, the open position at its cost basis,
    and the drift. -/
theorem realized_eq (rs : List ExecutionReport) :
    (Position.empty.after rs).realized_pnl =
      cash rs + (Position.empty.after rs).net_qty * (Position.empty.after rs).avg_cost +
        Position.empty.drift rs := by
  induction rs using List.reverseRecOn with
  | nil => rfl
  | append_singleton rs rpt ih =>
    rw [Position.after_snoc, Position.drift_snoc, cash_snoc]
    generalize Position.empty.after rs = pos at ih ⊢
    by_cases hflat : pos.net_qty = 0
    · -- a position is opened, or nothing happens
      have hcloses : ¬ pos.Closes rpt := by
        unfold Position.Closes
        omega
      have hpnl : pos.pnl rpt = 0 := if_neg hcloses
      have hopened : pos.opened rpt = 0 := if_pos hflat
      rw [hflat] at ih
      simp only [Position.process, hpnl, hopened, hflat, Int.zero_add]
      by_cases hzero : rpt.signed_qty = 0
      · simp only [hzero]
        linear_combination ih
      · rw [if_pos hzero, if_pos trivial]
        linear_combination ih
    · simp only [Position.process, Position.pnl_eq hflat]
      by_cases hclose : pos.net_qty + rpt.signed_qty = 0
      · -- closed out: nothing is opened
        have hcloses : pos.Closes rpt := by
          unfold Position.Closes
          omega
        have hopened : pos.opened rpt = 0 := by
          unfold Position.opened
          rw [if_neg hflat, if_pos hcloses, if_neg (by omega)]
        rw [if_neg (not_not.mpr hclose), hopened]
        linear_combination ih + pos.avg_cost * hclose
      · rw [if_pos hclose, if_neg hflat]
        linear_combination ih

/-- Reports that open at the cost basis only do not drift. -/
theorem drift_eq_zero (rs : List ExecutionReport)
    (h : ∀ past rpt rest, rs = past ++ rpt :: rest → (Position.empty.after past).AtCost rpt) :
    Position.empty.drift rs = 0 := by
  induction rs using List.reverseRecOn with
  | nil => rfl
  | append_singleton rs rpt ih =>
    have hpast : Position.empty.drift rs = 0 :=
      ih fun past r rest hrs => h past r (rest ++ [rpt]) (by rw [hrs]; simp)
    have hlast := h rs rpt [] rfl
    rw [Position.drift_snoc, hpast, Int.zero_add]
    by_cases hopened : (Position.empty.after rs).opened rpt = 0
    · rw [hopened, Int.zero_mul]
    · rw [hlast hopened, Int.sub_self, Int.mul_zero]

/-- The position of a symbol is that of its own reports. -/
theorem position_run (inbound : SPSCQueue ExecutionReport) (s : SymbolId)
    (rs : List ExecutionReport) :
    ((fresh inbound).run rs).position s = Position.empty.after (ownReports s rs) := by
  induction rs using List.reverseRecOn with
  | nil => rfl
  | append_singleton rs rpt ih =>
    rw [run_snoc]
    by_cases hs : rpt.symbol = s
    · have hown : ownReports s (rs ++ [rpt]) = ownReports s rs ++ [rpt] := by
        simp [ownReports, hs]
      subst hs
      rw [hown, Position.after_snoc, position_process_report_self, ih]
    · have hown : ownReports s (rs ++ [rpt]) = ownReports s rs := by
        simp [ownReports, hs]
      rw [hown, position_process_report_ne _ hs, ih]

/-- At a flat position, realized P&L is the cash of the symbol's reports
    exactly if what they added to open positions was not mispriced on balance;
    so it is if all of that was added at the cost basis. -/
theorem cash_identity (inbound : SPSCQueue ExecutionReport) (rs : List ExecutionReport)
    (s : SymbolId) (hflat : (((fresh inbound).run rs).position s).net_qty = 0) :
    ((((fresh inbound).run rs).position s).realized_pnl = cash (ownReports s rs) ↔
      Position.empty.drift (ownReports s rs) = 0) ∧
    ((∀ past rpt rest, ownReports s rs = past ++ rpt :: rest →
        (Position.empty.after past).AtCost rpt) →
      (((fresh inbound).run rs).position s).realized_pnl = cash (ownReports s rs)) := by
  rw [position_run] at hflat ⊢
  have hreal := realized_eq (ownReports s rs)
  rw [hflat, Int.zero_mul, Int.add_zero] at hreal
  constructor
  · omega
  · intro hcost
    rw [hreal, drift_eq_zero _ hcost, Int.add_zero]

/-- A fill on symbol 0. -/
def fillOf (side : Side) (px : Price) (qty : Qty) : ExecutionReport :=
  ⟨1, 2, px, qty, 0, 0, side, .Fill⟩

/-- Bought once and sold in two parts. -/
theorem cash_identity_round_trip :
    let rs := [fillOf .Buy 100 3, fillOf .Sell 120 1, fillOf .Sell 90 2]
    (((fresh (.fresh fun _ => fillOf .Buy 0 0)).run rs).position 0).realized_pnl =
      cash (ownReports 0 rs) := by
  refine ((cash_identity (.fresh fun _ => fillOf .Buy 0 0) _ 0 (by decide)).1).mpr ?_
  decide

/-- The second buy is not averaged in: 400 are realized on 300 of cash. -/
theorem added_fill_not_averaged :
    let rs := [fillOf .Buy 100 1, fillOf .Buy 200 1, fillOf .Sell 300 2]
    let pos := ((fresh (.fresh fun _ => fillOf .Buy 0 0)).run rs).position 0
    pos.net_qty = 0 ∧ pos.realized_pnl = 400 ∧ cash (ownReports 0 rs) = 300 := by
  decide

/-! ## Section 2: The cost basis -/

namespace Position

/-- The report turns a long position into a short one or the other way. -/
def Reverses (pos : Position) (rpt : ExecutionReport) : Prop :=
  (0 < pos.net_qty ∧ pos.net_qty + rpt.signed_qty < 0) ∨
  (pos.net_qty < 0 ∧ 0 < pos.net_qty + rpt.signed_qty)

instance (pos : Position) (rpt : ExecutionReport) : Decidable (pos.Reverses rpt) :=
  inferInstanceAs (Decidable (_ ∨ _))

end Position

/-- The side on which a position of this net quantity was taken. -/
def sideOfNet (net : Int) : Side := if 0 < net then .Buy else .Sell

/-- The net quantity, and the reports since it last was zero or changed sign;
    the report that changed the sign is one of them. -/
def trackReport (t : Int × List ExecutionReport) (rpt : ExecutionReport) :
    Int × List ExecutionReport :=
  let net := t.1 + rpt.signed_qty
  (net,
    if net = 0 then []
    else if t.1 = 0 ∨ sideOfNet t.1 ≠ sideOfNet net then [rpt]
    else t.2 ++ [rpt])

def track (rs : List ExecutionReport) : Int × List ExecutionReport := rs.foldl trackReport (0, [])

/-- The reports on the side of the open position since it was opened. -/
def openReports (rs : List ExecutionReport) : List ExecutionReport :=
  (track rs).2.filter fun rpt => rpt.side = sideOfNet (track rs).1

/-- An open position has a cost basis between the lowest and the highest price
    of the reports that built it. -/
def CostInRange (pos : Position) (rs : List ExecutionReport) : Prop :=
  pos.net_qty ≠ 0 → ∃ lo ∈ openReports rs, ∃ hi ∈ openReports rs,
    lo.exec_price ≤ pos.avg_cost ∧ pos.avg_cost ≤ hi.exec_price

theorem track_snoc (rs : List ExecutionReport) (rpt : ExecutionReport) :
    track (rs ++ [rpt]) = trackReport (track rs) rpt := by
  simp [track]

theorem track_net (rs : List ExecutionReport) :
    (track rs).1 = (Position.empty.after rs).net_qty := by
  induction rs using List.reverseRecOn with
  | nil => rfl
  | append_singleton rs rpt ih =>
    rw [track_snoc, Position.after_snoc, trackReport, ih]
    rfl

/-- A report that leaves a position reversed or newly open is on its side. -/
theorem side_of_opening {net : Int} (hnew : net + rpt.signed_qty ≠ 0)
    (h : net = 0 ∨ sideOfNet net ≠ sideOfNet (net + rpt.signed_qty)) :
    rpt.side = sideOfNet (net + rpt.signed_qty) := by
  unfold sideOfNet ExecutionReport.signed_qty at *
  cases hside : rpt.side with
  | Buy =>
    simp only [hside, if_true] at h hnew ⊢
    rw [if_pos]
    rcases h with h | h
    · omega
    · by_contra hneg
      rw [if_neg hneg, if_neg (by omega)] at h
      exact h rfl
  | Sell =>
    simp only [hside, reduceCtorEq, if_false] at h hnew ⊢
    rw [if_neg]
    rcases h with h | h
    · omega
    · intro hpos
      rw [if_pos hpos, if_pos (by omega)] at h
      exact h rfl

/-- A reversal neither starts nor ends flat. -/
theorem Position.Reverses.net_ne_zero (h : pos.Reverses rpt) :
    pos.net_qty ≠ 0 ∧ pos.net_qty + rpt.signed_qty ≠ 0 := by
  unfold Position.Reverses at h
  omega

theorem reverses_iff (hnew : pos.net_qty + rpt.signed_qty ≠ 0) (hopen : pos.net_qty ≠ 0) :
    pos.Reverses rpt ↔ sideOfNet pos.net_qty ≠ sideOfNet (pos.net_qty + rpt.signed_qty) := by
  unfold Position.Reverses sideOfNet
  by_cases h1 : 0 < pos.net_qty <;> by_cases h2 : 0 < pos.net_qty + rpt.signed_qty
  all_goals simp [h1, h2]
  all_goals omega

/-- Directly after a reversal, only its own report counts. -/
theorem openReports_reversed (hrev : (Position.empty.after rs).Reverses rpt) :
    openReports (rs ++ [rpt]) = [rpt] := by
  obtain ⟨hopen, hnew⟩ := hrev.net_ne_zero
  have hside := (reverses_iff hnew hopen).mp hrev
  have htrack : track (rs ++ [rpt]) =
      ((Position.empty.after rs).net_qty + rpt.signed_qty, [rpt]) := by
    rw [track_snoc, trackReport, track_net]
    rw [if_neg hnew, if_pos (Or.inr hside)]
  rw [openReports, htrack]
  simp [side_of_opening hnew (Or.inr hside)]

/-- The cost basis is the price of a report that built the position. -/
def Based (rs : List ExecutionReport) : Prop :=
  (Position.empty.after rs).net_qty ≠ 0 →
    ∃ r ∈ openReports rs, r.exec_price = (Position.empty.after rs).avg_cost

theorem Based.snoc (h : Based rs)
    (hrev : (Position.empty.after rs).Reverses rpt →
      rpt.exec_price = (Position.empty.after rs).avg_cost) : Based (rs ++ [rpt]) := by
  intro hnew
  rw [Position.after_snoc] at hnew ⊢
  have htrack : track (rs ++ [rpt]) = trackReport (track rs) rpt := track_snoc rs rpt
  have hnet := track_net rs
  unfold Based openReports at h
  unfold openReports
  rw [htrack]
  rw [hnet] at h
  generalize Position.empty.after rs = pos at *
  generalize track rs = t at *
  obtain ⟨net, reports⟩ := t
  simp only at hnet
  subst hnet
  have hnew' : pos.net_qty + rpt.signed_qty ≠ 0 := hnew
  simp only [trackReport, Position.process]
  rw [if_neg hnew', if_pos hnew']
  by_cases hflat : pos.net_qty = 0
  · -- newly opened, at the price of this report
    rw [if_pos (Or.inl hflat), if_pos hflat]
    exact ⟨rpt, by simp [side_of_opening hnew' (Or.inl hflat)], rfl⟩
  rw [if_neg hflat]
  by_cases hside : sideOfNet pos.net_qty = sideOfNet (pos.net_qty + rpt.signed_qty)
  · -- the same position: the report behind its cost basis is still counted
    rw [if_neg (by tauto), ← hside]
    obtain ⟨r, hr, hprice⟩ := h hflat
    refine ⟨r, ?_, hprice⟩
    rw [List.filter_append]
    exact List.mem_append_left _ hr
  · rw [if_pos (Or.inr hside)]
    refine ⟨rpt, by simp [side_of_opening hnew' (Or.inr hside)], ?_⟩
    exact hrev ((reverses_iff hnew' hflat).mpr hside)

/-- If the cost basis is in range after a reversal, it is the price of the
    reversal. -/
theorem cost_of_reversal (hrev : (Position.empty.after rs).Reverses rpt)
    (hrange : CostInRange (Position.empty.after (rs ++ [rpt])) (rs ++ [rpt])) :
    rpt.exec_price = (Position.empty.after rs).avg_cost := by
  rw [CostInRange, openReports_reversed hrev, Position.after_snoc] at hrange
  generalize Position.empty.after rs = pos at *
  obtain ⟨hopen, hnew⟩ := hrev.net_ne_zero
  obtain ⟨lo, hlo, hi, hhi, h1, h2⟩ := hrange hnew
  rw [List.mem_singleton] at hlo hhi
  subst hlo hhi
  -- the report is not averaged in, so the basis is still the old one
  simp only [Position.process] at h1 h2
  rw [if_pos hnew, if_neg hopen] at h1 h2
  exact Int.le_antisymm h1 h2

theorem ownReports_take_self {n : Nat} (hn : rs[n]? = some rpt) (hs : rpt.symbol = s) :
    ownReports s (rs.take (n + 1)) = ownReports s (rs.take n) ++ [rpt] := by
  rw [List.take_add_one, hn]
  simp [ownReports, hs]

theorem ownReports_take_ne {n : Nat} (hn : rs[n]? = some rpt) (hs : rpt.symbol ≠ s) :
    ownReports s (rs.take (n + 1)) = ownReports s (rs.take n) := by
  rw [List.take_add_one, hn]
  simp [ownReports, hs]

/-- Along a run that reverses at the cost basis only. -/
theorem based_take (h : ∀ n rpt, rs[n]? = some rpt → rpt.symbol = s →
      (Position.empty.after (ownReports s (rs.take n))).Reverses rpt →
      rpt.exec_price = (Position.empty.after (ownReports s (rs.take n))).avg_cost) (n : Nat) :
    Based (ownReports s (rs.take n)) := by
  induction n with
  | zero => exact fun hc => absurd rfl hc
  | succ n ih =>
    cases hn : rs[n]? with
    | none => rwa [List.take_add_one, hn, Option.toList_none, List.append_nil]
    | some rpt =>
      by_cases hs : rpt.symbol = s
      · rw [ownReports_take_self hn hs]
        exact ih.snoc (h n rpt hn hs)
      · rwa [ownReports_take_ne hn hs]

/-- In every state of a run the cost basis is in the range of the open
    position exactly if every report that reverses the position is at the cost
    basis it finds. -/
theorem cost_basis_iff (inbound : SPSCQueue ExecutionReport) (rs : List ExecutionReport)
    (s : SymbolId) :
    (∀ n, CostInRange (((fresh inbound).run (rs.take n)).position s)
      (ownReports s (rs.take n))) ↔
    ∀ n rpt, rs[n]? = some rpt → rpt.symbol = s →
      (((fresh inbound).run (rs.take n)).position s).Reverses rpt →
      rpt.exec_price = (((fresh inbound).run (rs.take n)).position s).avg_cost := by
  simp only [position_run]
  constructor
  · intro h n rpt hn hs hrev
    have hrange := h (n + 1)
    rw [ownReports_take_self hn hs] at hrange
    exact cost_of_reversal hrev hrange
  · intro h n hopen
    obtain ⟨r, hr, hprice⟩ := based_take h n hopen
    exact ⟨r, hr, r, hr, Int.le_of_eq hprice, Int.le_of_eq hprice.symm⟩

/-- One bought at 100, three sold at 150: the two that are short now keep the
    cost basis of the long position. -/
theorem reversed_position_keeps_cost :
    let rs := [fillOf .Buy 100 1, fillOf .Sell 150 3]
    let pos := ((fresh (.fresh fun _ => fillOf .Buy 0 0)).run rs).position 0
    pos.net_qty = -2 ∧ pos.avg_cost = 100 ∧ openReports (ownReports 0 rs) = [fillOf .Sell 150 3] ∧
      ¬ CostInRange pos (ownReports 0 rs) := by
  have hopen : openReports (ownReports 0 [fillOf .Buy 100 1, fillOf .Sell 150 3]) =
      [fillOf .Sell 150 3] := by decide
  refine ⟨by decide, by decide, hopen, ?_⟩
  intro h
  obtain ⟨lo, hlo, _, _, hle, _⟩ := h (by decide)
  rw [hopen, List.mem_singleton] at hlo
  subst hlo
  revert hle
  decide

end OptionsEngine
