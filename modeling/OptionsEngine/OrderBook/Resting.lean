import OptionsEngine.OrderBook.Refinement

/-! # The simplest orders

    An order that may rest and whose limit the other side does not reach is
    booked as it comes, if a level and a slot can be had (`Rests`).  Sequences
    of such orders fill a book up to any size (`run_resting`).

    In an empty book an order rests alone (`Step.rests_alone`), and one that
    meets it there leaves the book empty again (`Step.meets_alone`). -/

namespace OptionsEngine

open Function OrderBook

variable {b : OrderBook} {a a' : LevelBook} {s : Side} {o : Order}

/-- The best price of side `s` is out of reach of `o`, or there is none. -/
def Quiet (a : LevelBook) (s : Side) (o : Order) : Prop :=
  ∀ l ∈ (a.levels s).head?, price_stops o l.price = true

/-- Nothing happens to an order that the other side does not reach. -/
theorem Matching.quiet {rem rem' : Qty} {takes : List Take} {walled : Bool}
    (h : Matching o s a rem takes a' rem' walled) (hquiet : Quiet a s o) :
    takes = [] ∧ a' = a ∧ rem' = rem ∧ walled = false := by
  have hreach : ∀ {px : Price} {q : List Entry} {ls : List Level},
      a.levels s = ⟨px, q⟩ :: ls → price_stops o px = false → False := by
    intro px q ls hls hgo
    have hstop := hquiet ⟨px, q⟩ (by rw [hls]; rfl)
    rw [hgo] at hstop
    exact Bool.false_ne_true hstop
  cases h with
  | filled => exact ⟨rfl, rfl, rfl, rfl⟩
  | exhausted hrem hls => exact ⟨rfl, rfl, rfl, rfl⟩
  | price hrem hls hstop => exact ⟨rfl, rfl, rfl, rfl⟩
  | wall hrem hls hgo hwall => exact (hreach hls hgo).elim
  | take hrem hls hgo hwall hrest => exact (hreach hls hgo).elim

theorem not_immediate_of_limit (h : o.type = .Limit) : ¬ Immediate o := by
  unfold Immediate
  rw [h]
  decide

/-- A side without levels reaches no order. -/
theorem quiet_of_nil (hls : a.levels s = []) : Quiet a s o := by
  simp [Quiet, hls]

/-- An order that meets a single one of no more than its quantity uses it up,
    and finds the side empty. -/
theorem Matching.single {rem rem' f : Qty} {takes : List Take} {walled : Bool} {px : Price}
    {e : Entry} (h : Matching o s a rem takes a' rem' walled) (hls : a.levels s = [⟨px, [e]⟩])
    (hgo : price_stops o px = false) (hwall : ¬ walls o e) (hrem : rem ≠ 0) (hqty : e.qty = f)
    (hle : min rem f = f) :
    takes = [⟨a, px, e, f, rem - f⟩] ∧ rem' = rem - f ∧ walled = false ∧ a'.levels s = [] ∧
      a'.levels s.opposite = a.levels s.opposite := by
  subst hqty
  cases h with
  | filled => exact absurd rfl hrem
  | exhausted _ hnil => rw [hls] at hnil; cases hnil
  | price _ hls' hstop =>
    rw [hls] at hls'
    cases hls'
    rw [hgo] at hstop
    cases hstop
  | wall _ hls' _ hwall' =>
    rw [hls] at hls'
    cases hls'
    exact absurd hwall' hwall
  | take _ hls' _ _ hrest =>
    rw [hls] at hls'
    cases hls'
    rw [hle] at hrest ⊢
    have htake : a.take s px e [] [] e.qty =
        { levels := update a.levels s [], free := e.slot :: a.free,
          index := update a.index e.id none } := if_pos rfl
    have hnil : (a.take s px e [] [] e.qty).levels s = [] := by
      rw [htake]
      exact update_self _ _ _
    obtain ⟨rfl, rfl, rfl, rfl⟩ := hrest.quiet (quiet_of_nil hnil)
    refine ⟨rfl, rfl, rfl, hnil, ?_⟩
    rw [htake]
    exact update_of_ne s.opposite_ne _ _

/-- A quiet order with a quantity is booked, or rejected for lack of room. -/
theorem Step.rests {out : Outcome} {takes : List Take} (h : Step a (.add o) out takes a')
    (himm : ¬ Immediate o) (hqty : o.qty_remaining ≠ 0) (hquiet : Quiet a o.side.opposite o) :
    takes = [] ∧ Rests a o out a' := by
  cases h with
  | fok_rejected htype hshort => exact absurd (Or.inr (Or.inr htype)) himm
  | immediate himm' hfok hm => exact absurd himm' himm
  | filled himm' hm => exact absurd (hm.quiet hquiet).2.2.1.symm hqty
  | stp_walled himm' hm hrem => exact absurd (hm.quiet hquiet).2.2.2 (by simp)
  | level_rejected himm' hm hrem hnew hfull =>
    obtain ⟨rfl, rfl, rfl, _⟩ := hm.quiet hquiet
    exact ⟨rfl, .level_rejected hnew hfull⟩
  | slot_rejected himm' hm hrem hroom hfree =>
    obtain ⟨rfl, rfl, rfl, _⟩ := hm.quiet hquiet
    exact ⟨rfl, .slot_rejected hroom hfree⟩
  | rested himm' hm hrem hroom hfree =>
    obtain ⟨rfl, rfl, rfl, _⟩ := hm.quiet hquiet
    exact ⟨rfl, .rested hroom hfree⟩

/-- An order that never rests only runs against the other side. -/
theorem Step.of_immediate {out : Outcome} {takes : List Take} (h : Step a (.add o) out takes a')
    (himm : Immediate o) (hfok : o.type ≠ .FOK) :
    ∃ rem walled, Matching o o.side.opposite a o.qty_remaining takes a' rem walled := by
  cases h with
  | fok_rejected htype hshort => exact absurd htype hfok
  | immediate himm' hfok hm => exact ⟨_, _, hm⟩
  | filled himm' hm => exact absurd himm himm'
  | stp_walled himm' hm hrem => exact absurd himm himm'
  | level_rejected himm' hm hrem hnew hfull => exact absurd himm himm'
  | slot_rejected himm' hm hrem hroom hfree => exact absurd himm himm'
  | rested himm' hm hrem hroom hfree => exact absurd himm himm'

/-- A market order without a quantity does nothing. -/
theorem Step.idle {out : Outcome} {takes : List Take} (h : Step a (.add o) out takes a')
    (htype : o.type = .Market) (hqty : o.qty_remaining = 0) : takes = [] ∧ a' = a := by
  obtain ⟨rem, walled, hm⟩ := h.of_immediate (Or.inl htype) (by rw [htype]; decide)
  rw [hqty] at hm
  cases hm with
  | filled => exact ⟨rfl, rfl⟩
  | exhausted hrem => exact absurd rfl hrem
  | price hrem => exact absurd rfl hrem
  | wall hrem => exact absurd rfl hrem
  | take hrem => exact absurd rfl hrem

/-- An empty book has free slots. -/
theorem WF.free_ne_nil (hw : WF a) (hempty : ∀ t, a.levels t = []) : a.free ≠ [] := by
  intro hnil
  have hlen := hw.slots.length_eq
  simp [hempty, hnil, kMaxOrders] at hlen

/-- The levels of a book with a single order. -/
def alone (s : Side) (px : Price) (e : Entry) : Side → List Level := update (fun _ => []) s [⟨px, [e]⟩]

/-- In an empty book a limit order rests alone. -/
theorem Step.rests_alone {out : Outcome} {takes : List Take} (h : Step a (.add o) out takes a')
    (hw : WF a) (hempty : ∀ t, a.levels t = []) (htype : o.type = .Limit)
    (hqty : o.qty_remaining ≠ 0) :
    takes = [] ∧
      ∃ slot, a'.levels = alone o.side o.price (restingEntry o slot o.qty_remaining) := by
  obtain ⟨rfl, hrests⟩ := h.rests (not_immediate_of_limit htype) hqty (quiet_of_nil (hempty _))
  cases hrests with
  | level_rejected hnew hfull => simp [hempty, kMaxLevels] at hfull
  | slot_rejected hroom hfree => exact absurd hfree (hw.free_ne_nil hempty)
  | @rested slot free hroom hfree =>
    have hlevels : a.levels = fun _ => [] := funext hempty
    exact ⟨rfl, slot, by simp only [LevelBook.rest, hlevels, insertEntry, alone]⟩

/-- The limit of an order lets it trade at its own price. -/
theorem price_stops_own (o : Order) : price_stops o o.price = false := by
  unfold price_stops
  split
  · rfl
  · cases o.side <;> simp

/-- An order that never rests uses up the single order of the book, and leaves
    the book empty. -/
theorem Step.meets_alone {out : Outcome} {takes : List Take} {px : Price} {e : Entry}
    (h : Step a (.add o) out takes a') (htype : o.type = .IOC)
    (halone : a.levels = alone o.side.opposite px e) (hgo : price_stops o px = false)
    (hwall : ¬ walls o e) (hrem : o.qty_remaining ≠ 0) (hle : min o.qty_remaining e.qty = e.qty) :
    takes = [⟨a, px, e, e.qty, o.qty_remaining - e.qty⟩] ∧ ∀ t, a'.levels t = [] := by
  obtain ⟨rem, walled, hm⟩ := h.of_immediate (Or.inr (Or.inl htype)) (by rw [htype]; decide)
  have hls : a.levels o.side.opposite = [⟨px, [e]⟩] := by rw [halone]; exact update_self _ _ _
  obtain ⟨htakes, _, _, hnone, hown⟩ := hm.single hls hgo hwall hrem rfl hle
  refine ⟨htakes, fun t => ?_⟩
  rcases o.side.opposite.eq_or_opposite t with rfl | rfl
  · exact hnone
  · rw [hown, halone]
    exact update_of_ne (Side.opposite_ne _) _ _

/-- What it takes for an order to be booked as it comes, once it has a slot. -/
structure Restable (a : LevelBook) (o : Order) : Prop where
  may_rest : ¬ Immediate o
  qty : o.qty_remaining ≠ 0
  quiet : Quiet a o.side.opposite o
  room : (∃ l ∈ a.levels o.side, l.price = o.price) ∨ (a.levels o.side).length < kMaxLevels

theorem Rep.add_rests {slot : Nat} {free : List Nat} (h : Rep b a) (hw : WF a)
    (ho : Restable a o) (hfree : a.free = slot :: free) :
    ∃ b', b.add_order o = some (⟨.rested slot, []⟩, b') ∧
      Rep b' (a.rest o slot free o.qty_remaining) ∧ WF (a.rest o slot free o.qty_remaining) ∧
      b'.symbol = b.symbol := by
  obtain ⟨out, evs, b', a', takes, hrun, hstep, hrep, hevs, hsym⟩ := h.add_order hw o
  have hw' := hstep.wf hw
  obtain ⟨rfl, hrests⟩ := hstep.rests ho.may_rest ho.qty ho.quiet
  cases hevs
  cases hrests with
  | level_rejected hnew hfull =>
    rcases ho.room with ⟨l, hl, hp⟩ | hlt
    · exact absurd hp (hnew l hl)
    · omega
  | slot_rejected hroom hnone => simp [hfree] at hnone
  | rested hroom hfree' =>
    obtain ⟨rfl, rfl⟩ : slot = _ ∧ free = _ := by
      rw [hfree] at hfree'
      simpa using hfree'
    exact ⟨b', hrun, hrep, hw', hsym⟩

theorem restable_limit (htype : o.type = .Limit) (hqty : o.qty_remaining ≠ 0)
    (hnone : a.levels o.side.opposite = []) (hroom : (a.levels o.side).length < kMaxLevels) :
    Restable a o :=
  ⟨not_immediate_of_limit htype, hqty, quiet_of_nil hnone, Or.inr hroom⟩

/-- Book `order 0`, `order 1`, and so on, in a new book; `P n` is what is kept
    of the levels after `n` of them. -/
theorem run_resting (mem : OrderBook) (symbol : SymbolId) (order : Nat → Order)
    (P : Nat → LevelBook → Prop) {N : Nat} (hN : N ≤ kMaxOrders) (hstart : P 0 LevelBook.empty)
    (hnext : ∀ n a, n < N → P n a → Restable a (order n) ∧
      ∀ slot free, P (n + 1) (a.rest (order n) slot free (order n).qty_remaining)) :
    ∃ rs b a, (fresh mem symbol).run ((List.range N).map fun n => .add (order n)) = some (rs, b) ∧
      Rep b a ∧ WF a ∧ P N a ∧ a.free.length + N = kMaxOrders := by
  induction N with
  | zero =>
    exact ⟨[], fresh mem symbol, .empty, rfl, rep_fresh mem symbol, wf_empty, hstart,
      by simp [LevelBook.empty]⟩
  | succ N ih =>
    obtain ⟨rs, b, a, hrun, hrep, hw, hP, hfree⟩ :=
      ih (by omega) fun n a hn => hnext n a (by omega)
    obtain ⟨ho, hP'⟩ := hnext N a (by omega) hP
    -- a slot is left, since fewer orders rest than the pool has slots
    obtain ⟨slot, free, hslot⟩ : ∃ slot free, a.free = slot :: free := by
      cases hc : a.free with
      | nil => rw [hc] at hfree; simp at hfree; omega
      | cons slot free => exact ⟨slot, free, rfl⟩
    obtain ⟨b', hadd, hrep', hw', _⟩ := hrep.add_rests hw ho hslot
    refine ⟨rs ++ [⟨.rested slot, []⟩], b', _, ?_, hrep', hw', hP' slot free, ?_⟩
    · rw [List.range_succ, List.map_append]
      exact run_snoc hrun hadd
    · rw [hslot, List.length_cons] at hfree
      simp only [LevelBook.rest]
      omega

end OptionsEngine
