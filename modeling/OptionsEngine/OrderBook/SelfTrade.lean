import OptionsEngine.OrderBook.Conservation
import OptionsEngine.OrderBook.Priority
import OptionsEngine.OrderBook.Resting

/-! # Self-trade prevention

    The book keeps an account per slot, and a slot is used again by order after
    order.  `submitters` computes from a run who submitted what rests in a
    slot.

    * `Submitted`: every entry has the id and the account of its submitter.
      Fills, cancels and modifications change neither; a new entry brings its
      own.
    * `self_trade_prevented`: no fill pairs two orders of one tracked account,
      and an accepted remainder disappears only in front of an order of its
      own account. -/

namespace OptionsEngine

open Function OrderBook

/-! ## Section 1: Who submitted what rests -/

namespace OrderBook

/-- The submitted order per slot, after a call. -/
def submit (op : Op) (r : Response) (sub : Nat → Order) : Nat → Order :=
  match op, r.outcome with
  | .add o, .rested slot => update sub slot o
  | _, _ => sub

/-- The submitted order per slot, after a run. -/
def submitters (b : OrderBook) : List Op → (Nat → Order) → Nat → Order
  | [], sub => sub
  | op :: ops, sub =>
    match b.apply op with
    | none => sub
    | some (r, b') => b'.submitters ops (submit op r sub)

end OrderBook

/-- The entry `e` is what is left of the order `o` of one of the calls `ops`. -/
structure SubmittedAs (ops : List Op) (e : Entry) (o : Order) : Prop where
  call : Op.add o ∈ ops
  id : e.id = o.id
  account : e.account = o.account_id

/-- What rests was submitted. -/
def Submitted (ops : List Op) (sub : Nat → Order) (a : LevelBook) : Prop :=
  ∀ s, ∀ e ∈ entriesOf (a.levels s), SubmittedAs ops e (sub e.slot)

variable {b b' : OrderBook} {a a' : LevelBook} {s : Side} {o : Order} {ops : List Op}
  {sub : Nat → Order} {r : Response}

theorem Submitted.thinned (h : Submitted ops sub a) (ht : Thinned a a') : Submitted ops sub a' := by
  intro s e he
  obtain ⟨e', he', hkey⟩ := ht.mem_key he
  have hsub := h s e' he'
  rw [Entry.slot_of_key hkey] at hsub
  exact ⟨hsub.call, (Entry.id_of_key hkey).symm.trans hsub.id,
    (Entry.account_of_key hkey).symm.trans hsub.account⟩

/-- An increase moves an entry, with its id and its account. -/
theorem Submitted.increase {L R : List Level} {px : Price} {q₁ q₂ : List Entry} {e : Entry}
    {n : Qty} (h : Submitted ops sub a) (hls : a.levels s = L ++ ⟨px, q₁ ++ e :: q₂⟩ :: R) :
    Submitted ops sub (a.setLevels s (L ++ ⟨px, q₁ ++ q₂ ++ [{ e with qty := n }]⟩ :: R)) := by
  intro t x hx
  rcases s.eq_or_opposite t with rfl | rfl
  · have hold := h t
    rw [hls] at hold
    rw [levels_setLevels] at hx
    simp only [entriesOf_append, entriesOf_cons, List.mem_append, List.mem_cons,
      List.not_mem_nil, or_false] at hx hold
    rcases hx with hx | ((hx | hx) | rfl) | hx
    · exact hold x (Or.inl hx)
    · exact hold x (Or.inr (Or.inl (Or.inl hx)))
    · exact hold x (Or.inr (Or.inl (Or.inr (Or.inr hx))))
    · have he := hold e (Or.inr (Or.inl (Or.inr (Or.inl rfl))))
      exact ⟨he.call, he.id, he.account⟩
    · exact hold x (Or.inr (Or.inr hx))
  · rw [levels_setLevels_opposite] at hx
    exact h _ x hx

/-- A booked remainder is entered under its submitter; the slot was free, so
    nobody else's entry is in it. -/
theorem Submitted.rest {slot : Nat} {free : List Nat} {rem : Qty} (h : Submitted ops sub a)
    (hw : WF a) (hfree : a.free = slot :: free) (hop : Op.add o ∈ ops) :
    Submitted ops (update sub slot o) (a.rest o slot free rem) := by
  have hslot : Slotted a := hw.slots
  have hold : ∀ t, ∀ e ∈ entriesOf (a.levels t), SubmittedAs ops e (update sub slot o e.slot) := by
    intro t e he
    have hne : e.slot ≠ slot := by
      rintro rfl
      refine hslot.free_apart (by rw [hfree]; simp) t (x := e.slot) ?_
      rw [slotsOf_eq]
      exact List.mem_map.mpr ⟨e, he, rfl⟩
    rw [update_of_ne hne]
    exact h t e he
  intro t e he
  rcases o.side.eq_or_opposite t with rfl | rfl
  · rw [levels_rest] at he
    rcases mem_insertEntry.mp he with rfl | he
    · show SubmittedAs ops _ (update sub slot o slot)
      rw [update_self]
      exact ⟨hop, rfl, rfl⟩
    · exact hold _ e he
  · rw [levels_rest_opposite] at he
    exact hold _ e he

/-- Only a booking enters a submitter. -/
theorem submit_eq {op : Op} (hout : ∀ slot, r.outcome ≠ .rested slot) : submit op r sub = sub := by
  unfold OrderBook.submit
  split
  · next slot hrested => exact absurd hrested (hout slot)
  · rfl

theorem Submitted.step {op : Op} {takes : List Take} (h : Submitted ops sub a) (hw : WF a)
    (hop : op ∈ ops) (hstep : Step a op r.outcome takes a') :
    Submitted ops (submit op r sub) a' := by
  obtain ⟨out, evs⟩ := r
  cases hstep.edit with
  | thinned hthin hout =>
    rw [submit_eq hout]
    exact h.thinned hthin
  | increased hls => exact h.increase hls
  | booked himm hm hrem hfree => exact (h.thinned hm.thinned).rest (hm.wf hw) hfree hop

theorem Rep.run_submitted (all : List Op) (ops : List Op) :
    ∀ {b : OrderBook} {a : LevelBook} {sub : Nat → Order}, ops ⊆ all → Rep b a → WF a →
      Submitted all sub a →
      ∃ rs b' a', b.run ops = some (rs, b') ∧ Rep b' a' ∧ WF a' ∧
        Submitted all (b.submitters ops sub) a' := by
  induction ops with
  | nil =>
    intro b a sub _ hrep hw h
    exact ⟨[], b, a, rfl, hrep, hw, h⟩
  | cons op ops ih =>
    intro b a sub hsub hrep hw h
    obtain ⟨hop, hrest⟩ := List.cons_subset.mp hsub
    obtain ⟨r, b₁, a₁, takes, happly, hstep, hrep₁, hw₁, _⟩ := hrep.apply hw op
    obtain ⟨rs, b', a', hrun, hrep', hw', hs⟩ := ih hrest hrep₁ hw₁ (h.step hw hop hstep)
    refine ⟨r :: rs, b', a', run_cons happly hrun, hrep', hw', ?_⟩
    simp only [OrderBook.submitters, happly]
    exact hs

/-! ## Section 2: Walls -/

/-- A slot of side `s` is in use that was not. -/
def Joined (b b' : OrderBook) (s : Side) : Prop := ∃ x ∈ b'.resting s, x ∉ b.resting s

/-- What self-trade prevention owes to the call that added `o`, where `sub`
    submitted what rested before it. -/
structure SelfTradePrevented (ops : List Op) (sub : Nat → Order) (b b' : OrderBook) (o : Order)
    (r : Response) : Prop where
  passive : ∀ ev ∈ r.events, Op.add (sub ev.slot) ∈ ops ∧
    ev.report.contra_order_id = (sub ev.slot).id
  across : ∀ ev ∈ r.events, o.account_id ≠ 0 → (sub ev.slot).account_id ≠ o.account_id
  /-- A remainder that is accepted and does not rest has the account of the
      first order it did not trade with. -/
  walled : o.type = .Limit → r.ret = true → r.executed ≠ o.qty_remaining.toNat →
    ¬ Joined b b' o.side →
      ∃ x xs, b'.resting o.side.opposite = x :: xs ∧
        ¬ better o.side (b'.slots.prices x) o.price ∧ o.account_id ≠ 0 ∧
        b'.slots.accounts x = o.account_id ∧ (sub x).account_id = o.account_id

/-- Matching that stopped at a wall stands in front of it. -/
theorem Matching.at_wall {rem rem' : Qty} {takes : List Take} {walled : Bool}
    (h : Matching o s a rem takes a' rem' walled) (hwalled : walled = true) :
    ∃ px e es ls, a'.levels s = ⟨px, e :: es⟩ :: ls ∧ price_stops o px = false ∧ walls o e := by
  induction h with
  | filled a => cases hwalled
  | exhausted hrem hls => cases hwalled
  | price hrem hls hstop => cases hwalled
  | wall hrem hls hgo hwall => exact ⟨_, _, _, _, hls, hgo, hwall⟩
  | take hrem hls hgo hwall hrest ih => exact ih hwalled

/-- A fill is against an order of its submitter. -/
theorem TakeOf.submitted {t : Take} (ht : TakeOf o s a t) (h : Submitted ops sub a) :
    SubmittedAs ops t.entry (sub t.entry.slot) := by
  obtain ⟨es, ls, hls⟩ := ht.head
  exact h.thinned ht.thinned s t.entry (by rw [hls]; simp)

/-- The first order of a side. -/
theorem Rep.first {px : Price} {e : Entry} {es : List Entry} {ls : List Level} (h : Rep b a)
    (hw : WF a) (hls : a.levels s = ⟨px, e :: es⟩ :: ls) :
    (∃ xs, b.resting s = e.slot :: xs) ∧ Stored b.slots px e := by
  have hst : Stored b.slots px e := (h.queue (L := []) hls).stored e (by simp)
  refine ⟨?_, hst⟩
  rw [h.resting_eq hw, hls]
  exact ⟨_, rfl⟩

/-- A booked remainder takes a slot of its side. -/
theorem Matching.joined {rem rem' : Qty} {takes : List Take} {walled : Bool} {slot : Nat}
    {free : List Nat} {n : Qty} {a'' : LevelBook}
    (hm : Matching o o.side.opposite a rem takes a'' rem' walled) (hrep : Rep b a) (hw : WF a)
    (hfree : a''.free = slot :: free) (hrep' : Rep b' (a''.rest o slot free n))
    (hw' : WF (a''.rest o slot free n)) : Joined b b' o.side := by
  have hslot : Slotted a'' := (hm.wf hw).slots
  have hown := hm.own_side
  rw [Side.opposite_opposite] at hown
  refine ⟨slot, ?_, ?_⟩
  · rw [hrep'.mem_resting hw', levels_rest]
    exact ⟨restingEntry o slot n, mem_insertEntry.mpr (Or.inl rfl), rfl⟩
  · rw [hrep.resting_eq hw, ← hown]
    exact hslot.free_apart (by rw [hfree]; simp) o.side

/-- An accepted limit order with quantity left is walled, or rests. -/
theorem Step.wall_or_joined {symbol : SymbolId} {takes : List Take}
    (h : Step a (.add o) r.outcome takes a') (hrep : Rep b a) (hw : WF a) (hrep' : Rep b' a')
    (hevs : List.Forall₂ (EventOf symbol o) r.events takes) (htype : o.type = .Limit)
    (hret : r.ret = true) (hleft : r.executed ≠ o.qty_remaining.toNat) :
    (Thinned a a' ∧ ∃ px e es ls, a'.levels o.side.opposite = ⟨px, e :: es⟩ :: ls ∧
      price_stops o px = false ∧ walls o e) ∨ Joined b b' o.side := by
  have hlimit := not_immediate_of_limit htype
  obtain ⟨out, evs⟩ := r
  have hw' := h.wf hw
  change Step a (.add o) out takes a' at h
  cases h with
  | fok_rejected htype' hshort => cases hret
  | immediate himm hfok hm => exact absurd himm hlimit
  | filled himm hm =>
    obtain ⟨_, haggr⟩ := hm.conserves
    rw [executed_eq hevs] at hleft
    have hzero : (0 : Qty).toNat = 0 := rfl
    omega
  | stp_walled himm hm hrem => exact Or.inl ⟨hm.thinned, hm.at_wall rfl⟩
  | level_rejected himm hm hrem hnew hfull => cases hret
  | slot_rejected himm hm hrem hroom hfree => cases hret
  | rested himm hm hrem hroom hfree => exact Or.inr (hm.joined hrep hw hfree hrep' hw')

/-- After every run, the next order is not filled against an order of its own
    account, and nothing but such an order makes its remainder disappear. -/
theorem self_trade_prevented (mem : OrderBook) (symbol : SymbolId) (ops : List Op) (o₀ o : Order) :
    ∃ rs b r b', (fresh mem symbol).run ops = some (rs, b) ∧ b.add_order o = some (r, b') ∧
      SelfTradePrevented ops ((fresh mem symbol).submitters ops fun _ => o₀) b b' o r := by
  have hstart : Submitted ops (fun _ => o₀) LevelBook.empty :=
    fun _ e he => absurd he List.not_mem_nil
  obtain ⟨rs, b, a, hrun, hrep, hw, hsub⟩ :=
    Rep.run_submitted ops ops (List.Subset.refl ops) (rep_fresh mem symbol) wf_empty hstart
  obtain ⟨r, b', a', takes, happly, hstep, hrep', hw', hevs, _⟩ := hrep.apply hw (.add o)
  refine ⟨rs, b, r, b', hrun, happly, ?_, ?_, ?_⟩
  · intro ev hev
    obtain ⟨t, ht, hevt⟩ := forall₂_mem_left hevs ev hev
    have hof := (hstep.takeOf hw t ht).submitted hsub
    rw [hevt.slot, hevt.report]
    exact ⟨hof.call, hof.id⟩
  · intro ev hev haccount heq
    obtain ⟨t, ht, hevt⟩ := forall₂_mem_left hevs ev hev
    have htake := hstep.takeOf hw t ht
    rw [hevt.slot, ← (htake.submitted hsub).account] at heq
    exact htake.no_wall ⟨haccount, heq.symm⟩
  · intro htype hret hleft hnone
    obtain ⟨hthin, px, e, es, ls, hls, hgo, hwall⟩ | hjoined :=
      hstep.wall_or_joined hrep hw hrep' hevs htype hret hleft
    · obtain ⟨⟨xs, hfirst⟩, hst⟩ := hrep'.first hw' hls
      have hlimit : o.type ≠ .Market := by rw [htype]; decide
      have hof := hsub.thinned hthin o.side.opposite e (by rw [hls]; simp)
      refine ⟨e.slot, xs, hfirst, ?_, hwall.1, ?_, ?_⟩
      · rw [hst.price]
        exact not_better_of_within hlimit hgo
      · rw [hst.account]
        exact hwall.2.symm
      · rw [← hof.account]
        exact hwall.2.symm
    · exact absurd hjoined hnone

-- two orders of account 3 that would cross: the second one is accepted and gone
example : ((fresh zeroed 0).run [.add { sell 7 100 5 with account_id := 3 },
      .add { buy 8 100 5 with account_id := 3 }]).map (fun x =>
        (x.1.map (fun r => (r.ret, r.reports.length)), x.2.resting .Sell, x.2.resting .Buy)) =
    some ([(true, 0), (true, 0)], [0], []) := by
  decide +kernel

end OptionsEngine
