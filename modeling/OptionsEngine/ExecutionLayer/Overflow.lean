import OptionsEngine.ExecutionLayer.Positions

/-! # `process_report` in 64-bit arithmetic

    The same function with every operation on `int64_t` checked: an operation
    that overflows has no result.  Quantities never overflow in fewer than 2^31
    reports.  Amounts may: a price is any `int64_t`.

    `pnl_in_range_iff`: no operation overflows exactly if what every closing
    report realizes fits, and so does the total. -/

namespace OptionsEngine

open ExecutionLayer

variable {x : Int} {pos : Position} {rpt : ExecutionReport} {rs : List ExecutionReport}

/-! ## Section 1: Checked operations -/

/-- The values of an `int64_t`. -/
def InInt64 (x : Int) : Prop := -2 ^ 63 ≤ x ∧ x < 2 ^ 63

instance : DecidablePred InInt64 := fun _ => inferInstanceAs (Decidable (_ ∧ _))

/-- The result of an operation on `int64_t`; none if it overflows. -/
def int64 (x : Int) : Option Int := if InInt64 x then some x else none

/-- `std::abs` on an `int64_t`. -/
def abs64 (x : Int) : Option Int := int64 x.natAbs

theorem int64_of (h : InInt64 x) : int64 x = some x := if_pos h

theorem int64_not (h : ¬ InInt64 x) : int64 x = none := if_neg h

def ExecutionReport.signed_qty64 (rpt : ExecutionReport) : Option Int :=
  if rpt.side = .Buy then some rpt.exec_qty.toNat else int64 (-rpt.exec_qty.toNat)

namespace Position

/-- The new `realized_pnl`. -/
def realized64 (pos : Position) (rpt : ExecutionReport) (signed_qty : Int) : Option Int :=
  if (pos.net_qty > 0 ∧ signed_qty < 0) ∨ (pos.net_qty < 0 ∧ signed_qty > 0) then do
    let close_qty := min (← abs64 pos.net_qty) (← abs64 signed_qty)
    let pnl_per_unit ← int64 (rpt.exec_price - pos.avg_cost)
    let pnl ← int64 (pnl_per_unit * close_qty)
    let pnl ← int64 (pnl * (if pos.net_qty > 0 then 1 else -1))
    int64 (pos.realized_pnl + pnl)
  else some pos.realized_pnl

def process64 (pos : Position) (rpt : ExecutionReport) : Option Position := do
  let signed_qty ← rpt.signed_qty64
  let realized_pnl ← pos.realized64 rpt signed_qty
  let new_net ← int64 (pos.net_qty + signed_qty)
  some
    { symbol := rpt.symbol
      net_qty := new_net
      realized_pnl := realized_pnl
      avg_cost :=
        if new_net ≠ 0 then
          if pos.net_qty = 0 then rpt.exec_price else pos.avg_cost
        else 0
      total_fills := pos.total_fills + 1 }

end Position

namespace ExecutionLayer

def process_report64 (l : ExecutionLayer) (rpt : ExecutionReport) :
    Option (ExecutionLayer × List (ExecutionReport × Position)) := do
  let pos ← ((l.positions rpt.symbol).getD .empty).process64 rpt
  some
    ({ l with
        stat_fills := l.stat_fills + 1
        positions := Function.update l.positions rpt.symbol (some pos) },
     if l.fill_cb then [(rpt, pos)] else [])

/-- Process a sequence of reports; none as soon as an operation overflows. -/
def run64 (l : ExecutionLayer) (rs : List ExecutionReport) : Option ExecutionLayer :=
  rs.foldlM (fun l rpt => (l.process_report64 rpt).map Prod.fst) l

end ExecutionLayer

/-! ## Section 2: Quantities -/

theorem natAbs_signed_qty (rpt : ExecutionReport) :
    rpt.signed_qty.natAbs = rpt.exec_qty.toNat := by
  unfold ExecutionReport.signed_qty
  split <;> omega

theorem signed_qty64_eq (rpt : ExecutionReport) : rpt.signed_qty64 = some rpt.signed_qty := by
  have hqty := rpt.exec_qty.toNat_lt
  unfold ExecutionReport.signed_qty64 ExecutionReport.signed_qty
  split
  · rfl
  · apply int64_of
    unfold InInt64
    omega

/-- So many reports have been booked at most. -/
def Position.Moved (pos : Position) (n : Nat) : Prop := pos.net_qty.natAbs ≤ n * (2 ^ 32 - 1)

theorem moved_process {n : Nat} (h : pos.Moved n) (rpt : ExecutionReport) :
    (pos.process rpt).Moved (n + 1) := by
  have hqty := rpt.exec_qty.toNat_lt
  have hsigned := natAbs_signed_qty rpt
  unfold Position.Moved at *
  simp only [Position.process]
  omega

theorem moved_run (inbound : SPSCQueue ExecutionReport) (rs : List ExecutionReport) (s : SymbolId) :
    (((fresh inbound).run rs).position s).Moved rs.length := by
  induction rs using List.reverseRecOn with
  | nil => exact Nat.zero_le _
  | append_singleton rs rpt ih =>
    rw [run_snoc, List.length_append, List.length_singleton]
    by_cases hs : rpt.symbol = s
    · subst hs
      rw [position_process_report_self]
      exact moved_process ih rpt
    · rw [position_process_report_ne _ hs]
      exact Nat.le_trans ih (Nat.mul_le_mul_right _ (Nat.le_succ _))

/-! ## Section 3: Amounts -/

namespace Position

/-- The quantity of the open position that a report closes. -/
def closed (pos : Position) (rpt : ExecutionReport) : Nat :=
  min pos.net_qty.natAbs rpt.exec_qty.toNat

/-- The price of a report less `avg_cost` as it finds it, for all it closes.
    After a reversal that is the price of the position before. -/
def spread (pos : Position) (rpt : ExecutionReport) : Int :=
  (rpt.exec_price - pos.avg_cost) * pos.closed rpt

/-- If a report closes part of the position, its gain or loss is in the range
    of an `int64_t` (for a short position also before the sign is changed), and
    so is the total. -/
def InRange (pos : Position) (rpt : ExecutionReport) : Prop :=
  pos.Closes rpt →
    InInt64 (pos.spread rpt) ∧
    if pos.net_qty > 0 then InInt64 (pos.realized_pnl + pos.spread rpt)
    else pos.spread rpt ≠ -2 ^ 63 ∧ InInt64 (pos.realized_pnl - pos.spread rpt)

instance (pos : Position) (rpt : ExecutionReport) : Decidable (pos.InRange rpt) :=
  inferInstanceAs (Decidable (_ → _))

theorem closed_pos (h : pos.Closes rpt) : 0 < pos.closed rpt := by
  have hsigned := natAbs_signed_qty rpt
  unfold Closes at h
  unfold closed
  omega

/-- A difference is in range if a multiple of it is. -/
theorem inInt64_of_mul {d : Int} {q : Nat} (hq : 0 < q) (h : InInt64 (d * q)) : InInt64 d := by
  obtain ⟨hlo, hhi⟩ := h
  have hq' : (1 : Int) ≤ q := by omega
  rcases Int.le_total 0 d with hd | hd
  · have hle : d * 1 ≤ d * q := Int.mul_le_mul_of_nonneg_left hq' hd
    unfold InInt64
    omega
  · have hle : d * q ≤ d * 1 := Int.mul_le_mul_of_nonpos_left hd hq'
    unfold InInt64
    omega

/-- The two products are computed exactly if the first is in range and can
    take the sign of the position. -/
theorem products64 (d sign total : Int) {q : Nat} (hq : 0 < q) :
    (do
      let pnl_per_unit ← int64 d
      let pnl ← int64 (pnl_per_unit * q)
      let pnl ← int64 (pnl * sign)
      int64 (total + pnl)) =
    if InInt64 (d * q) ∧ InInt64 (d * q * sign) ∧ InInt64 (total + d * q * sign) then
      some (total + d * q * sign)
    else none := by
  by_cases hprod : InInt64 (d * q)
  · rw [int64_of (inInt64_of_mul hq hprod), Option.bind_eq_bind, Option.bind_some, int64_of hprod,
      Option.bind_some]
    by_cases hsign : InInt64 (d * q * sign)
    · rw [int64_of hsign, Option.bind_some, int64]
      simp [hprod, hsign]
    · rw [int64_not hsign, Option.bind_none, if_neg (fun h => hsign h.2.1)]
  · rw [if_neg (fun h => hprod h.1)]
    by_cases hd : InInt64 d
    · rw [int64_of hd, Option.bind_eq_bind, Option.bind_some, int64_not hprod, Option.bind_none]
    · rw [int64_not hd, Option.bind_eq_bind, Option.bind_none]

/-- The sign of the position is that of the gain. -/
theorem inRange_iff (hcloses : pos.Closes rpt) :
    pos.InRange rpt ↔ InInt64 (pos.spread rpt) ∧
      InInt64 (pos.spread rpt * (if pos.net_qty > 0 then 1 else -1)) ∧
      InInt64 (pos.realized_pnl + pos.spread rpt * (if pos.net_qty > 0 then 1 else -1)) := by
  unfold InRange InInt64
  simp only [hcloses, forall_true_left]
  generalize pos.spread rpt = g
  split <;> omega

theorem pnl_eq_spread (hcloses : pos.Closes rpt) :
    pos.pnl rpt = pos.spread rpt * (if pos.net_qty > 0 then 1 else -1) := by
  unfold pnl spread closed
  rw [if_pos hcloses, natAbs_signed_qty]
  simp only [Nat.cast_min]

theorem abs64_eq (h : x.natAbs < 2 ^ 63) : abs64 x = some x.natAbs := by
  apply int64_of
  unfold InInt64
  omega

/-- The realized P&L is exact if the amounts are in range. -/
theorem realized64_eq (hnet : pos.net_qty.natAbs < 2 ^ 63) :
    pos.realized64 rpt rpt.signed_qty =
      if pos.InRange rpt then some (pos.realized_pnl + pos.pnl rpt) else none := by
  show (if pos.Closes rpt then _ else _) = _
  by_cases hcloses : pos.Closes rpt
  · have hqty : rpt.signed_qty.natAbs < 2 ^ 63 := by
      have hlt := rpt.exec_qty.toNat_lt
      have hsigned := natAbs_signed_qty rpt
      omega
    have hclosed : min (pos.net_qty.natAbs : Int) rpt.signed_qty.natAbs = (pos.closed rpt : Int) := by
      rw [natAbs_signed_qty, closed, Nat.cast_min]
    have hprod := products64 (rpt.exec_price - pos.avg_cost) (if pos.net_qty > 0 then 1 else -1)
      pos.realized_pnl (closed_pos hcloses)
    rw [if_pos hcloses, abs64_eq hnet, abs64_eq hqty]
    simp only [Option.pure_def, Option.bind_eq_bind, Option.bind_some, hclosed] at hprod ⊢
    rw [hprod, pnl_eq_spread hcloses]
    exact if_congr (inRange_iff hcloses).symm rfl rfl
  · have hin : pos.InRange rpt := fun hc => absurd hc hcloses
    have hpnl : pos.pnl rpt = 0 := if_neg hcloses
    rw [if_neg hcloses, if_pos hin, hpnl, Int.add_zero]

/-- So is the whole position. -/
theorem process64_eq {n : Nat} (h : pos.Moved n) (hn : n + 1 < 2 ^ 31) (rpt : ExecutionReport) :
    pos.process64 rpt = if pos.InRange rpt then some (pos.process rpt) else none := by
  have hqty := rpt.exec_qty.toNat_lt
  have hsigned := natAbs_signed_qty rpt
  unfold Moved at h
  have hnet : pos.net_qty.natAbs < 2 ^ 63 := by omega
  have hnew : InInt64 (pos.net_qty + rpt.signed_qty) := by
    unfold InInt64
    omega
  unfold process64
  rw [signed_qty64_eq, Option.bind_eq_bind, Option.bind_some, realized64_eq hnet]
  by_cases hin : pos.InRange rpt
  · rw [if_pos hin, if_pos hin, Option.bind_some, int64_of hnew, Option.bind_some]
    rfl
  · rw [if_neg hin, if_neg hin, Option.bind_none]

end Position

/-! ## Section 4: Runs -/

namespace ExecutionLayer

theorem run64_snoc (l : ExecutionLayer) (rs : List ExecutionReport) (rpt : ExecutionReport) :
    l.run64 (rs ++ [rpt]) = (l.run64 rs).bind fun l => (l.process_report64 rpt).map Prod.fst := by
  unfold run64
  rw [List.foldlM_append]
  simp

theorem process_report64_eq {l : ExecutionLayer} {n : Nat} (h : (l.position rpt.symbol).Moved n)
    (hn : n + 1 < 2 ^ 31) :
    (l.process_report64 rpt).map Prod.fst =
      if (l.position rpt.symbol).InRange rpt then some (l.process_report rpt).1 else none := by
  have hpos := Position.process64_eq h hn rpt
  unfold position get_position at hpos h ⊢
  unfold process_report64 process_report
  rw [hpos]
  split <;> rfl

end ExecutionLayer

/-- Every report finds the position of its symbol such that its gain and the
    total are in range. -/
def AllInRange (inbound : SPSCQueue ExecutionReport) (rs : List ExecutionReport) : Prop :=
  ∀ past rpt rest, rs = past ++ rpt :: rest →
    (((fresh inbound).run past).position rpt.symbol).InRange rpt

theorem allInRange_snoc {inbound : SPSCQueue ExecutionReport} :
    AllInRange inbound (rs ++ [rpt]) ↔
      AllInRange inbound rs ∧ (((fresh inbound).run rs).position rpt.symbol).InRange rpt := by
  constructor
  · intro h
    refine ⟨fun past r rest hrs => ?_, h rs rpt [] rfl⟩
    exact h past r (rest ++ [rpt]) (by rw [hrs]; simp)
  · rintro ⟨hrs, hlast⟩ past r rest heq
    rcases List.eq_nil_or_concat rest with rfl | ⟨rest', r', rfl⟩
    · obtain ⟨rfl, hr⟩ := List.append_inj' heq rfl
      rw [List.singleton_inj] at hr
      rwa [← hr]
    · rw [List.concat_eq_append, ← List.cons_append, ← List.append_assoc] at heq
      obtain ⟨hpast, _⟩ := List.append_inj' heq rfl
      exact hrs past r rest' hpast

/-- Up to the first amount out of range, the 64-bit run is the exact one. -/
theorem run64_eq (inbound : SPSCQueue ExecutionReport) (rs : List ExecutionReport)
    (hlen : rs.length < 2 ^ 31) :
    (AllInRange inbound rs → (fresh inbound).run64 rs = some ((fresh inbound).run rs)) ∧
    (¬ AllInRange inbound rs → (fresh inbound).run64 rs = none) := by
  induction rs using List.reverseRecOn with
  | nil => exact ⟨fun _ => rfl, fun h => absurd (fun past r rest hc => by simp at hc) h⟩
  | append_singleton rs rpt ih =>
    rw [List.length_append, List.length_singleton] at hlen
    obtain ⟨hexact, hover⟩ := ih (by omega)
    rw [allInRange_snoc, run64_snoc, run_snoc]
    by_cases hrs : AllInRange inbound rs
    · have hstep := process_report64_eq (moved_run inbound rs rpt.symbol) hlen
      rw [hexact hrs, Option.bind_some, hstep]
      constructor
      · rintro ⟨_, hlast⟩
        exact if_pos hlast
      · intro hnot
        exact if_neg fun hlast => hnot ⟨hrs, hlast⟩
    · rw [hover hrs, Option.bind_none]
      exact ⟨fun h => absurd h.1 hrs, fun _ => rfl⟩

/-- In fewer than 2^31 reports, no operation of `process_report` overflows
    exactly if every closing report realizes an amount that fits, and the total
    fits; then the 64-bit result is the exact one. -/
theorem pnl_in_range_iff (inbound : SPSCQueue ExecutionReport) (rs : List ExecutionReport)
    (hlen : rs.length < 2 ^ 31) :
    ((fresh inbound).run64 rs ≠ none ↔ AllInRange inbound rs) ∧
      ∀ l, (fresh inbound).run64 rs = some l → l = (fresh inbound).run rs := by
  obtain ⟨hexact, hover⟩ := run64_eq inbound rs hlen
  by_cases hrs : AllInRange inbound rs
  · rw [hexact hrs]
    exact ⟨⟨fun _ => hrs, fun _ => Option.some_ne_none _⟩, fun l hl => (Option.some.inj hl).symm⟩
  · rw [hover hrs]
    exact ⟨⟨fun h => absurd rfl h, fun h => absurd h hrs⟩, fun l hl => nomatch hl⟩

/-- One bought and sold again at a gain of 20. -/
theorem pnl_in_range_round_trip :
    (fresh (.fresh fun _ => fillOf .Buy 0 0)).run64 [fillOf .Buy 100 1, fillOf .Sell 120 1] ≠ none := by
  refine ((pnl_in_range_iff _ _ (by decide)).1).mpr ?_
  intro past rpt rest h
  match past, h with
  | [], h =>
    obtain ⟨rfl, _⟩ := List.cons.inj h
    decide
  | [_], h =>
    obtain ⟨rfl, htail⟩ := List.cons.inj h
    obtain ⟨rfl, _⟩ := List.cons.inj htail
    decide
  | _ :: _ :: past, h => simp at h

/-- The difference of two prices does not fit: one bought at the least price
    and sold at the greatest. -/
theorem price_difference_overflows :
    let rs := [fillOf .Buy (-2 ^ 63) 1, fillOf .Sell (2 ^ 63 - 1) 1]
    rs.length < 2 ^ 31 ∧ (∀ rpt ∈ rs, InInt64 rpt.exec_price) ∧
      (fresh (.fresh fun _ => fillOf .Buy 0 0)).run64 rs = none := by
  intro rs
  refine ⟨by decide, by decide, ?_⟩
  obtain ⟨_, hover⟩ := run64_eq (.fresh fun _ => fillOf .Buy 0 0) rs (by decide)
  apply hover
  intro h
  have hsell := h [fillOf .Buy (-2 ^ 63) 1] (fillOf .Sell (2 ^ 63 - 1) 1) [] rfl
  revert hsell
  decide

end OptionsEngine
