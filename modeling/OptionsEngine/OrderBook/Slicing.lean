import OptionsEngine.LevelBook.Determined
import OptionsEngine.LevelBook.Slicing
import OptionsEngine.OrderBook.Capacity
import OptionsEngine.OrderBook.ReportStream

/-! # Orders sent in slices

    A Market or IOC order does not rest, so nothing of it stays behind between
    one slice and the next.  Sending it in slices executes what the whole order
    would, against the same resting orders at the same prices, and leaves the
    same book (`sliced_order`). -/

namespace OptionsEngine

open Function OrderBook Execution

/-- A part of an order. -/
def Order.slice (o : Order) (qty : Qty) : Order := { o with qty := qty, qty_remaining := qty }

def MatchEvent.execution (ev : MatchEvent) : Execution :=
  ⟨ev.slot, ev.report.contra_order_id, ev.report.exec_price, ev.report.exec_qty.toNat⟩

def Response.executions (r : Response) : List Execution := r.events.map MatchEvent.execution

/-- The quantity of all slices. -/
def sliceTotal (slices : List Qty) : Nat := (slices.map UInt32.toNat).sum

variable {a a' : LevelBook} {b : OrderBook} {s : Side} {o : Order} {q rem rem' : Qty}
  {takes : List Take} {walled : Bool}

/-- Matching does not look at the quantity an order came with. -/
theorem Matching.of_slice (h : Matching (o.slice q) s a rem takes a' rem' walled) :
    Matching o s a rem takes a' rem' walled := by
  induction h with
  | filled a => exact .filled a
  | exhausted hrem hls => exact .exhausted hrem hls
  | price hrem hls hstop => exact .price hrem hls hstop
  | wall hrem hls hgo hwall => exact .wall hrem hls hgo hwall
  | take hrem hls hgo hwall _ ih => exact .take hrem hls hgo hwall ih

theorem map_execution_eq {symbol : SymbolId} {evs : List MatchEvent}
    (h : List.Forall₂ (EventOf symbol o) evs takes) :
    evs.map MatchEvent.execution = takes.map Take.execution := by
  induction h with
  | nil => rfl
  | @cons ev t _ _ hof _ ih =>
    have hexec : ev.execution = t.execution := by
      rw [MatchEvent.execution, hof.slot, hof.report]
      rfl
    rw [List.map_cons, List.map_cons, hexec, ih]

/-- A Market or IOC order is matched and forgotten. -/
theorem Step.of_passing (htype : o.type = .Market ∨ o.type = .IOC) {out : Outcome}
    (h : Step a (.add o) out takes a') :
    ∃ rem walled, Matching o o.side.opposite a o.qty_remaining takes a' rem walled := by
  have himm : Immediate o := by
    rcases htype with htype | htype
    · exact .inl htype
    · exact .inr (.inl htype)
  cases h with
  | fok_rejected hfok =>
    rw [hfok] at htype
    rcases htype with htype | htype <;> cases htype
  | immediate _ _ hm => exact ⟨_, _, hm⟩
  | filled hno | stp_walled hno | level_rejected hno | slot_rejected hno | rested hno =>
    exact absurd himm hno

theorem Rep.add_passing (h : Rep b a) (hw : WF a) (htype : o.type = .Market ∨ o.type = .IOC) :
    ∃ r b' a' takes rem walled, b.apply (.add o) = some (r, b') ∧ Rep b' a' ∧ WF a' ∧
      Matching o o.side.opposite a o.qty_remaining takes a' rem walled ∧
      r.executions = takes.map Take.execution := by
  obtain ⟨r, b', a', takes, happly, hstep, hrep, hwf, hevs, _⟩ := h.apply hw (.add o)
  obtain ⟨rem, walled, hm⟩ := hstep.of_passing htype
  exact ⟨r, b', a', takes, rem, walled, happly, hrep, hwf, hm, map_execution_eq hevs⟩

/-- The slices of an order, one after the other, are matched as their sum would
    be. -/
theorem Rep.run_slices (htype : o.type = .Market ∨ o.type = .IOC) (slices : List Qty) :
    ∀ {b a}, Rep b a → WF a → sliceTotal slices < 2 ^ 32 →
      ∃ rs b' a' takes rem walled,
        b.run (slices.map fun q => .add (o.slice q)) = some (rs, b') ∧ Rep b' a' ∧ WF a' ∧
        Matching o o.side.opposite a (.ofNat (sliceTotal slices)) takes a' rem walled ∧
        coalesce (rs.flatMap Response.executions) = coalesce (takes.map Take.execution) := by
  induction slices with
  | nil =>
    intro b a h hw _
    exact ⟨[], b, a, [], 0, false, rfl, h, hw, .filled a, rfl⟩
  | cons q slices ih =>
    intro b a h hw hlt
    have htotal : sliceTotal (q :: slices) = q.toNat + sliceTotal slices := by
      simp [sliceTotal]
    have htype' : (o.slice q).type = .Market ∨ (o.slice q).type = .IOC := htype
    obtain ⟨r, b₁, a₁, takes₁, rem₁, walled₁, happly, hrep₁, hw₁, hm₁, hfills₁⟩ :=
      h.add_passing hw htype'
    obtain ⟨rs, b', a', takes₂, rem₂, walled₂, hrun, hrep, hw', hm₂, hfills₂⟩ :=
      ih hrep₁ hw₁ (by omega)
    have hofNat : (UInt32.ofNat (sliceTotal slices)).toNat = sliceTotal slices :=
      UInt32.toNat_ofNat_of_lt (Nat.lt_of_le_of_lt (Nat.le_add_left _ q.toNat) (htotal ▸ hlt))
    have hsum : q + .ofNat (sliceTotal slices) = .ofNat (sliceTotal (q :: slices)) := by
      rw [htotal, UInt32.ofNat_add, UInt32.ofNat_toNat]
    have hadd : q.toNat + (UInt32.ofNat (sliceTotal slices)).toNat < 2 ^ 32 := by
      rw [hofNat, ← htotal]
      exact hlt
    obtain ⟨takes, rem, walled, hm, hfills⟩ := hm₁.of_slice.join hm₂ hadd
    refine ⟨r :: rs, b', a', takes, rem, walled, run_cons happly hrun, hrep, hw', ?_, ?_⟩
    · rw [← hsum]
      exact hm
    · rw [List.flatMap_cons, hfills₁, coalesce_append_congr _ hfills₂]
      exact hfills

/-- One run of matching takes from every order once. -/
theorem Matching.coalesce_executions (h : Matching o s a rem takes a' rem' walled) (hw : WF a) :
    coalesce (takes.map Take.execution) = takes.map Take.execution := by
  apply coalesce_eq_self
  rw [List.pairwise_map]
  apply h.pairwise hw
  intro left t es ls post hcut t' ht'
  exact hcut.slot_ne ht'

/-- From every reachable book on: a Market or IOC order that is sent in slices
    executes as the whole order would, against the same resting orders in the
    same sequence and at the same prices, but for the orders that a slice ended
    in, which are filled in parts; and it leaves the same book. -/
theorem sliced_order (mem : OrderBook) (symbol : SymbolId) (ops : List Op) (o : Order)
    (htype : o.type = .Market ∨ o.type = .IOC) (slices : List Qty)
    (hslices : sliceTotal slices = o.qty_remaining.toNat) :
    ∃ rs b r b₁ rs₂ b₂, (fresh mem symbol).run ops = some (rs, b) ∧
      b.apply (.add o) = some (r, b₁) ∧
      b.run (slices.map fun q => .add (o.slice q)) = some (rs₂, b₂) ∧
      coalesce (rs₂.flatMap Response.executions) = r.executions ∧ SameBook b₁ b₂ := by
  obtain ⟨rs, b, _, a, hrun, _, _, _, hrep, hw⟩ := run_refines mem symbol ops
  obtain ⟨r, b₁, a₁, takes, rem, walled, happly, hrep₁, hw₁, hm, hfills⟩ :=
    hrep.add_passing hw htype
  obtain ⟨rs₂, b₂, a₂, takes₂, rem₂, walled₂, hslice, hrep₂, hw₂, hm₂, hfills₂⟩ :=
    Rep.run_slices htype slices hrep hw (by rw [hslices]; exact o.qty_remaining.toNat_lt)
  rw [hslices, UInt32.ofNat_toNat] at hm₂
  obtain ⟨rfl, rfl, rfl, rfl⟩ := hm.determined hm₂
  refine ⟨rs, b, r, b₁, rs₂, b₂, hrun, happly, hslice, ?_, hrep₁.same hrep₂ hw₁⟩
  rw [hfills₂, hfills, hm.coalesce_executions hw]

/-- An IOC order for 7 against two resting orders of 5, in slices of 3, 3 and 1:
    the first resting order is filled in parts. -/
theorem sliced_buy :
    ∃ rs b r b₁ rs₂ b₂,
      (fresh zeroed 0).run [.add (sell 1 100 5), .add (sell 2 101 5)] = some (rs, b) ∧
      b.apply (.add { buy 3 101 7 with type := .IOC }) = some (r, b₁) ∧
      b.run ([3, 3, 1].map fun q => .add (Order.slice { buy 3 101 7 with type := .IOC } q)) =
        some (rs₂, b₂) ∧
      coalesce (rs₂.flatMap Response.executions) = r.executions ∧ SameBook b₁ b₂ :=
  sliced_order zeroed 0 _ _ (.inr rfl) [3, 3, 1] rfl

end OptionsEngine
