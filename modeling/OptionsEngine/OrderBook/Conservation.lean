import Mathlib.Algebra.BigOperators.Group.List.Basic
import Mathlib.Algebra.Ring.Int.Defs
import OptionsEngine.LevelBook.Liquidity
import OptionsEngine.OrderBook.Observe

/-! # Quantity is conserved

    A ledger kept beside a run, entry by entry what the calls say they did to
    quantities (`Ledger.record`), balances with the quantity resting in the
    slots after every call.  The books balance exactly: the 32-bit
    subtractions on slots and aggressors never wrap, because a fill is never
    larger than either of them. -/

namespace OptionsEngine

open Function OrderBook

/-! ## Section 1: The ledger -/

structure Ledger where
  /-- Quantities of added orders. -/
  added : Int
  /-- Quantity increases by `modify_order`. -/
  increased : Int
  /-- Executed quantity, over all reports. -/
  executed : Int
  /-- Quantities removed by cancels and by decreases. -/
  removed : Int
  /-- Remainders of orders for which `add_order` returned false. -/
  rejected : Int
  /-- Remainders of Market and IOC orders and of orders stopped at a
      self-trade wall. -/
  expired : Int

def Ledger.zero : Ledger := ⟨0, 0, 0, 0, 0, 0⟩

/-- The quantity executed by one call. -/
def Response.executed (r : Response) : Int :=
  (r.reports.map fun x => (x.exec_qty.toNat : Int)).sum

/-- What one call left unfilled of an order. -/
def Response.remainder (r : Response) (o : Order) : Int := o.qty_remaining.toNat - r.executed

/-- Enter a call on `b` that was answered by `r`. -/
def Ledger.record (l : Ledger) (b : OrderBook) (op : Op) (r : Response) : Ledger :=
  match op with
  | .add o =>
    { l with
      added := l.added + o.qty_remaining.toNat
      executed := l.executed + r.executed
      rejected := l.rejected + if r.ret then 0 else r.remainder o
      expired := l.expired +
        if r.ret ∧ (o.type = .Market ∨ o.type = .IOC ∨ r.outcome = .stp_walled)
        then r.remainder o else 0 }
  | .cancel _ =>
    match r.outcome with
    | .cancelled slot => { l with removed := l.removed + (b.slots.qtys slot).toNat }
    | _ => l
  | .modify _ new_qty =>
    match r.outcome with
    | .modified slot =>
      if b.slots.qtys slot < new_qty then
        { l with increased := l.increased + (new_qty.toNat - (b.slots.qtys slot).toNat) }
      else { l with removed := l.removed + ((b.slots.qtys slot).toNat - new_qty.toNat) }
    | _ => l

/-- The ledger of a run, begun as `l`. -/
def OrderBook.ledger (b : OrderBook) : List Op → Ledger → Ledger
  | [], l => l
  | op :: ops, l =>
    match b.apply op with
    | none => l
    | some (r, b') => b'.ledger ops (l.record b op r)

/-- The quantity resting in the slots of both sides. -/
def OrderBook.restingQty (b : OrderBook) : Int :=
  ((b.resting .Buy ++ b.resting .Sell).map fun x => ((b.slots.qtys x).toNat : Int)).sum

/-- What came in is what was executed, twice, what rests and what left. -/
def Balanced (l : Ledger) (resting : Int) : Prop :=
  l.added + l.increased = 2 * l.executed + resting + l.removed + l.rejected + l.expired

/-! ## Section 2: Totals of the levels -/

/-- The quantity of the entries of a side. -/
def sideTotal (ls : List Level) : Int := ((entriesOf ls).map fun e => (e.qty.toNat : Int)).sum

def LevelBook.total (a : LevelBook) : Int := sideTotal (a.levels .Buy) + sideTotal (a.levels .Sell)

/-- The quantity of the fills of a call. -/
def takesTotal (takes : List Take) : Int := (takes.map fun t => (t.qty.toNat : Int)).sum

variable {a a' : LevelBook} {b : OrderBook} {s : Side} {L R : List Level} {px : Price}
  {q₁ q₂ : List Entry} {e : Entry} {o : Order}

theorem LevelBook.total_side (a : LevelBook) (s : Side) :
    a.total = sideTotal (a.levels s) + sideTotal (a.levels s.opposite) := by
  cases s with
  | Buy => rfl
  | Sell => exact Int.add_comm _ _

theorem sideTotal_split (L R : List Level) (px : Price) (q : List Entry) :
    sideTotal (L ++ ⟨px, q⟩ :: R) =
      sideTotal L + (q.map fun e => (e.qty.toNat : Int)).sum + sideTotal R := by
  simp [sideTotal, Int.add_assoc]

theorem sideTotal_keep (L R : List Level) (px : Price) (q : List Entry) :
    sideTotal (L ++ keep px q ++ R) =
      sideTotal L + (q.map fun e => (e.qty.toNat : Int)).sum + sideTotal R := by
  simp [sideTotal, Int.add_assoc]

theorem total_drop (hls : a.levels s = L ++ ⟨px, q₁ ++ e :: q₂⟩ :: R) (id : OrderId)
    (slot : Nat) :
    (a.drop s (L ++ keep px (q₁ ++ q₂) ++ R) id slot).total = a.total - e.qty.toNat := by
  rw [LevelBook.total_side _ s, LevelBook.total_side a s, levels_drop, levels_drop_opposite, hls, sideTotal_keep,
    sideTotal_split]
  simp only [List.map_append, List.map_cons, List.sum_append, List.sum_cons]
  omega

/-- Replacing a queue replaces its quantity. -/
theorem total_setLevels {q q' : List Entry} (hls : a.levels s = L ++ ⟨px, q⟩ :: R) :
    (a.setLevels s (L ++ ⟨px, q'⟩ :: R)).total = a.total -
      (q.map fun e => (e.qty.toNat : Int)).sum + (q'.map fun e => (e.qty.toNat : Int)).sum := by
  rw [LevelBook.total_side _ s, LevelBook.total_side a s, levels_setLevels,
    levels_setLevels_opposite, hls, sideTotal_split, sideTotal_split]
  omega

theorem total_requantify (hls : a.levels s = L ++ ⟨px, q₁ ++ e :: q₂⟩ :: R) (n : Qty) :
    (a.setLevels s (L ++ ⟨px, q₁ ++ { e with qty := n } :: q₂⟩ :: R)).total =
      a.total - e.qty.toNat + n.toNat := by
  rw [total_setLevels hls]
  simp only [List.map_append, List.map_cons, List.sum_append, List.sum_cons]
  omega

theorem total_increase (hls : a.levels s = L ++ ⟨px, q₁ ++ e :: q₂⟩ :: R) (n : Qty) :
    (a.setLevels s (L ++ ⟨px, q₁ ++ q₂ ++ [{ e with qty := n }]⟩ :: R)).total =
      a.total - e.qty.toNat + n.toNat := by
  rw [total_setLevels hls]
  simp only [List.map_append, List.map_cons, List.map_nil, List.sum_append, List.sum_cons,
    List.sum_nil]
  omega

theorem total_rest (o : Order) (slot : Nat) (free : List Nat) (rem : Qty) :
    (a.rest o slot free rem).total = a.total + rem.toNat := by
  have hperm := (entriesOf_insertEntry o.side o.price (restingEntry o slot rem)
    (a.levels o.side)).map fun e => (e.qty.toNat : Int)
  have hsum := hperm.sum_eq
  rw [LevelBook.total_side _ o.side, LevelBook.total_side a o.side, levels_rest, levels_rest_opposite, sideTotal, hsum]
  simp only [List.map_cons, List.sum_cons, restingEntry, sideTotal]
  omega

/-- A fill takes its quantity from the book. -/
theorem total_take {es : List Entry} {ls : List Level} (hls : a.levels s = ⟨px, e :: es⟩ :: ls)
    (rem : Qty) :
    (a.take s px e es ls (min rem e.qty)).total = a.total - (min rem e.qty).toNat := by
  have hls' : a.levels s = [] ++ ⟨px, [] ++ e :: es⟩ :: ls := hls
  have hle : (min rem e.qty).toNat ≤ e.qty.toNat := by
    rw [UInt32.toNat_min]
    exact Nat.min_le_right _ _
  -- the whole entry leaves, or a part of it that is no larger
  rcases take_cases a s px e es ls (min rem e.qty) with ⟨hall, htake⟩ | ⟨_, htake⟩
  · rw [htake, total_drop hls' e.id e.slot, hall]
  · rw [htake, total_requantify hls']
    have hsub := UInt32.toNat_sub_of_le _ _ (UInt32.le_iff_toNat_le.mpr hle)
    omega

/-- Matching moves quantity from the book and the aggressor into fills. -/
theorem Matching.conserves {rem rem' : Qty} {takes : List Take} {walled : Bool}
    (h : Matching o s a rem takes a' rem' walled) :
    a.total = a'.total + takesTotal takes ∧ (rem.toNat : Int) = rem'.toNat + takesTotal takes := by
  induction h with
  | filled a => simp [takesTotal]
  | exhausted hrem hls => simp [takesTotal]
  | price hrem hls hstop => simp [takesTotal]
  | wall hrem hls hgo hwall => simp [takesTotal]
  | @take a a' rem rem' px e es ls takes walled hrem hls hgo hwall hrest ih =>
    obtain ⟨hbook, haggr⟩ := ih
    rw [total_take hls] at hbook
    have hleft := toNat_sub_min (x := rem) (y := e.qty)
    have hmin := UInt32.toNat_min (x := rem) (y := e.qty)
    simp only [takesTotal, List.map_cons, List.sum_cons] at hbook haggr ⊢
    refine ⟨?_, ?_⟩
    · omega
    · omega

/-! ## Section 3: One call balances -/

theorem executed_eq {symbol : SymbolId} {out : Outcome} {evs : List MatchEvent}
    {takes : List Take} (h : List.Forall₂ (EventOf symbol o) evs takes) :
    (Response.mk out evs).executed = takesTotal takes := by
  unfold Response.executed Response.reports takesTotal
  induction h with
  | nil => rfl
  | cons hev _ ih =>
    simp only [List.map_cons, List.sum_cons, hev.report] at ih ⊢
    rw [ih]
    rfl

theorem Rep.restingQty_eq (h : Rep b a) (hw : WF a) : b.restingQty = a.total := by
  have hside : ∀ s, ((b.resting s).map fun x => ((b.slots.qtys x).toNat : Int)) =
      (entriesOf (a.levels s)).map fun e => (e.qty.toNat : Int) := by
    intro s
    rw [h.resting_eq hw, slotsOf_eq, List.map_map]
    apply List.map_congr_left
    intro e he
    obtain ⟨l, _, _, hst⟩ := h.stored he
    simp only [comp_apply, hst.qty]
  unfold OrderBook.restingQty LevelBook.total sideTotal
  rw [List.map_append, List.sum_append, hside, hside]

/-- An added order: what matching left of it is rejected, expires or rests. -/
theorem Balanced.add {l : Ledger} {symbol : SymbolId} {out : Outcome} {evs : List MatchEvent}
    {takes : List Take} {rem : Qty} {resting : Int} (h : Balanced l a.total)
    (hevs : List.Forall₂ (EventOf symbol o) evs takes)
    (hbook : a.total = a'.total + takesTotal takes)
    (haggr : (o.qty_remaining.toNat : Int) = rem.toNat + takesTotal takes)
    (hleft : a'.total + rem.toNat = resting + (if out.ret then (0 : Int) else rem.toNat) +
      if out.ret ∧ (o.type = .Market ∨ o.type = .IOC ∨ out = .stp_walled)
      then (rem.toNat : Int) else 0) :
    Balanced (l.record b (.add o) ⟨out, evs⟩) resting := by
  have hexec : (Response.mk out evs).executed = takesTotal takes := executed_eq hevs
  have hrem : (Response.mk out evs).remainder o = rem.toNat := by
    rw [Response.remainder, hexec]
    omega
  unfold Balanced at h ⊢
  simp only [Ledger.record, hexec, hrem, Response.ret]
  omega

/-- Every call keeps the balance. -/
theorem Balanced.step {l : Ledger} {symbol : SymbolId} {op : Op} {r : Response}
    {takes : List Take} (h : Balanced l a.total) (hrep : Rep b a)
    (hstep : Step a op r.outcome takes a') (hevs : EventsOf symbol op r.events takes) :
    Balanced (l.record b op r) a'.total := by
  obtain ⟨out, evs⟩ := r
  change Step a op out takes a' at hstep
  change EventsOf symbol op evs takes at hevs
  cases hstep with
  | @fok_rejected o htype hshort =>
    have hbook : a.total = a.total + takesTotal [] := by simp [takesTotal]
    have haggr : (o.qty_remaining.toNat : Int) = o.qty_remaining.toNat + takesTotal [] := by
      simp [takesTotal]
    exact h.add hevs hbook haggr (by simp [Outcome.ret])
  | @immediate _ o takes rem walled himm hfok hm =>
    obtain ⟨hbook, haggr⟩ := hm.conserves
    refine h.add hevs hbook haggr ?_
    by_cases hrest : o.type = .Market ∨ o.type = .IOC
    · simp [Outcome.ret, hrest]
    · -- a fill-or-kill order that passed the pre-check leaves nothing
      have htype : o.type = .FOK := by
        rcases himm with hc | hc | hc
        · exact absurd (Or.inl hc) hrest
        · exact absurd (Or.inr hc) hrest
        · exact hc
      have hzero := hm.filled_of_not_short (hfok htype)
      simp [Outcome.ret, hrest, hzero]
  | filled himm hm =>
    obtain ⟨hbook, haggr⟩ := hm.conserves
    exact h.add hevs hbook haggr (by simp [Outcome.ret])
  | stp_walled himm hm hrem =>
    obtain ⟨hbook, haggr⟩ := hm.conserves
    exact h.add hevs hbook haggr (by simp [Outcome.ret])
  | level_rejected himm hm hrem hnew hfull =>
    obtain ⟨hbook, haggr⟩ := hm.conserves
    exact h.add hevs hbook haggr (by simp [Outcome.ret])
  | slot_rejected himm hm hrem hroom hfree =>
    obtain ⟨hbook, haggr⟩ := hm.conserves
    exact h.add hevs hbook haggr (by simp [Outcome.ret])
  | @rested a₁ o takes rem slot free himm hm hrem hroom hfree =>
    obtain ⟨hbook, haggr⟩ := hm.conserves
    have hrest : ¬ (o.type = .Market ∨ o.type = .IOC) := fun hc => himm (hc.imp id Or.inl)
    exact h.add hevs hbook haggr (by simp [Outcome.ret, hrest, total_rest])
  | cancel_unknown hid => exact h
  | cancelled hid heid hls =>
    unfold Balanced at h ⊢
    rw [total_drop hls]
    simp only [Ledger.record, hrep.qty_at hls]
    omega
  | modify_unknown hid => exact h
  | increased hid heid hls hqty =>
    unfold Balanced at h ⊢
    rw [total_increase hls]
    simp only [Ledger.record, hrep.qty_at hls]
    rw [if_pos hqty]
    dsimp only
    omega
  | decreased hid heid hls hqty hnew =>
    unfold Balanced at h ⊢
    rw [total_requantify hls]
    simp only [Ledger.record, hrep.qty_at hls]
    rw [if_neg (UInt32.not_lt.mpr hqty)]
    dsimp only
    omega
  | @emptied id s L R px q₁ q₂ e hid heid hls =>
    have hnlt : ¬ e.qty < 0 := by simp
    have h0 : (0 : Qty).toNat = 0 := rfl
    unfold Balanced at h ⊢
    rw [total_drop hls]
    simp only [Ledger.record, hrep.qty_at hls]
    rw [if_neg hnlt]
    dsimp only
    omega

/-! ## Section 4: Whole runs -/

theorem Rep.run_balanced (ops : List Op) :
    ∀ {b : OrderBook} {a : LevelBook} {l : Ledger}, Rep b a → WF a → Balanced l a.total →
      ∃ rs b' a', b.run ops = some (rs, b') ∧ Rep b' a' ∧ WF a' ∧
        Balanced (b.ledger ops l) a'.total := by
  induction ops with
  | nil =>
    intro b a l hrep hw h
    exact ⟨[], b, a, rfl, hrep, hw, h⟩
  | cons op ops ih =>
    intro b a l hrep hw h
    obtain ⟨r, b₁, a₁, takes, happly, hstep, hrep₁, hw₁, hevs, _⟩ := hrep.apply hw op
    obtain ⟨rs, b', a', hrun, hrep', hw', hl⟩ := ih hrep₁ hw₁ (h.step hrep hstep hevs)
    refine ⟨r :: rs, b', a', run_cons happly hrun, hrep', hw', ?_⟩
    simp only [OrderBook.ledger, happly]
    exact hl

/-- After every run, the ledger balances with the resting quantity. -/
theorem quantity_conserved (mem : OrderBook) (symbol : SymbolId) (ops : List Op) :
    ∃ rs b, (fresh mem symbol).run ops = some (rs, b) ∧
      Balanced ((fresh mem symbol).ledger ops .zero) b.restingQty := by
  have hstart : Balanced .zero LevelBook.empty.total := rfl
  obtain ⟨rs, b, a, hrun, hrep, hw, hl⟩ :=
    Rep.run_balanced ops (rep_fresh mem symbol) wf_empty hstart
  refine ⟨rs, b, hrun, ?_⟩
  rw [hrep.restingQty_eq hw]
  exact hl

end OptionsEngine
