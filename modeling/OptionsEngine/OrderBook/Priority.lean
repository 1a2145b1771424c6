import OptionsEngine.LevelBook.Thinned
import OptionsEngine.OrderBook.Observe

/-! # Price-time priority

    The book stores no times.  `stamps` computes them from a run: the slot of
    a resting order is stamped with the position of the `add_order` that
    rested it or of its last quantity increase, whichever is later.

    * `Stamped`: in every queue the stamps increase from head to tail, and all
      are below the current position.  Thinning keeps that; a new entry and an
      increased one go to the back with the highest stamp.
    * `HasPriority`: what a fill owes to priority, read off the arrays at the
      moment of the fill. -/

namespace OptionsEngine

open Function OrderBook

/-! ## Section 1: Stamps -/

namespace OrderBook

/-- The stamps after the call at position `n`. -/
def stamp (n : Nat) (b : OrderBook) (op : Op) (r : Response) (st : Nat → Nat) : Nat → Nat :=
  match op, r.outcome with
  | .add _, .rested slot => update st slot n
  | .modify _ new_qty, .modified slot =>
    if b.slots.qtys slot < new_qty then update st slot n else st
  | _, _ => st

/-- The stamps after a run whose first call has position `n`. -/
def stamps (b : OrderBook) : List Op → Nat → (Nat → Nat) → Nat → Nat
  | [], _, st => st
  | op :: ops, n, st =>
    match b.apply op with
    | none => st
    | some (r, b') => b'.stamps ops (n + 1) (b.stamp n op r st)

end OrderBook

/-- Queues are in stamp order, with all stamps below `n`. -/
structure Stamped (a : LevelBook) (st : Nat → Nat) (n : Nat) : Prop where
  ordered : ∀ s, ∀ l ∈ a.levels s, l.slots.Pairwise fun x y => st x < st y
  below : ∀ s, ∀ x ∈ slotsOf (a.levels s), st x < n

/-- A fill of `o` is against the order with priority on the other side. -/
structure HasPriority (st : Nat → Nat) (o : Order) (ev : MatchEvent) : Prop where
  /-- The passive order rests on the other side. -/
  resting : ev.slot ∈ ev.book.resting o.side.opposite
  passive : ev.report.contra_order_id = ev.book.slots.ids ev.slot
  /-- Nobody there has a better price. -/
  best_price : ∀ x ∈ ev.book.resting o.side.opposite,
    ¬ better o.side.opposite (ev.book.slots.prices x) (ev.book.slots.prices ev.slot)
  /-- Nobody with the same price has a smaller stamp. -/
  first : ∀ x ∈ ev.book.resting o.side.opposite,
    ev.book.slots.prices x = ev.book.slots.prices ev.slot → x ≠ ev.slot → st ev.slot < st x
  exec_price : ev.report.exec_price = ev.book.slots.prices ev.slot
  /-- Only a Market order trades beyond its price. -/
  limit : o.type ≠ .Market → ¬ better o.side ev.report.exec_price o.price

variable {a a' : LevelBook} {b : OrderBook} {s : Side} {st : Nat → Nat} {n : Nat} {o : Order}

/-! ## Section 2: One call keeps the stamp order -/

theorem slots_sublist {l l' : Level}
    (h : (l'.queue.map Entry.key).Sublist (l.queue.map Entry.key)) :
    l'.slots.Sublist l.slots := by
  have := h.map Prod.fst
  simpa [List.map_map, Function.comp_def, Entry.key, Level.slots] using this

theorem Stamped.thinned (h : Stamped a st n) (ht : Thinned a a') : Stamped a' st n := by
  refine ⟨?_, ?_⟩
  · intro s l' hl'
    obtain ⟨l, hl, _, hsub⟩ := ht s l' hl'
    exact (h.ordered s l hl).sublist (slots_sublist hsub)
  · intro s x hx
    obtain ⟨l', hl', hxl'⟩ := mem_slotsOf.mp hx
    obtain ⟨l, hl, _, hsub⟩ := ht s l' hl'
    exact h.below s x (mem_slotsOf.mpr ⟨l, hl, (slots_sublist hsub).subset hxl'⟩)

theorem Stamped.mono {m : Nat} (h : Stamped a st n) (hnm : n ≤ m) : Stamped a st m :=
  ⟨h.ordered, fun s x hx => Nat.lt_of_lt_of_le (h.below s x hx) hnm⟩

/-- A queue that was in stamp order, with a newly stamped slot at its back. -/
theorem ordered_snoc {xs : List Nat} {x : Nat} (hord : xs.Pairwise fun y z => st y < st z)
    (hbelow : ∀ y ∈ xs, st y < n) (hx : x ∉ xs) :
    (xs ++ [x]).Pairwise fun y z => update st x n y < update st x n z := by
  have hkeep : ∀ y ∈ xs, update st x n y = st y :=
    fun y hy => update_of_ne (fun heq : y = x => hx (heq ▸ hy)) _ _
  rw [List.pairwise_append]
  refine ⟨?_, by simp, ?_⟩
  · refine List.Pairwise.imp_of_mem ?_ hord
    intro y z hy hz hyz
    rw [hkeep y hy, hkeep z hz]
    exact hyz
  · intro y hy z hz
    rw [List.mem_singleton.mp hz, update_self, hkeep y hy]
    exact hbelow y hy

/-- Stamping a slot matters to no queue without it. -/
theorem ordered_frame {xs : List Nat} {x : Nat} (hord : xs.Pairwise fun y z => st y < st z)
    (hx : x ∉ xs) : xs.Pairwise fun y z => update st x n y < update st x n z := by
  refine List.Pairwise.imp_of_mem ?_ hord
  intro y z hy hz hyz
  rw [update_of_ne fun heq : y = x => hx (heq ▸ hy), update_of_ne fun heq : z = x => hx (heq ▸ hz)]
  exact hyz

theorem below_update {x y : Nat} (h : st y < n ∨ y = x) : update st x n y < n + 1 := by
  by_cases heq : y = x
  · rw [heq, update_self]
    omega
  · rw [update_of_ne heq]
    have := h.resolve_right heq
    omega

/-- An increase sends the entry to the back of its queue, with the highest
    stamp. -/
theorem Stamped.increase {L R : List Level} {px : Price} {q₁ q₂ : List Entry} {e : Entry}
    {new_qty : Qty} (h : Stamped a st n) (hw : WF a)
    (hls : a.levels s = L ++ ⟨px, q₁ ++ e :: q₂⟩ :: R) :
    Stamped (a.setLevels s (L ++ ⟨px, q₁ ++ q₂ ++ [{ e with qty := new_qty }]⟩ :: R))
      (update st e.slot n) (n + 1) := by
  have hap : Apart a s L ⟨px, q₁ ++ e :: q₂⟩ R := Slotted.apart hw.slots hls
  have hmem : e.slot ∈ (⟨px, q₁ ++ e :: q₂⟩ : Level).slots := by simp
  have hL := hap.left _ hmem
  have hR := hap.right _ hmem
  have ho := hap.other _ hmem
  have hnot := hap.notMem
  rw [List.map_append] at hnot
  have hord := h.ordered s ⟨px, q₁ ++ e :: q₂⟩ (by rw [hls]; simp)
  have hbelow := h.below s
  rw [hls] at hbelow
  have hrest : (q₁.map Entry.slot ++ q₂.map Entry.slot).Sublist
      (⟨px, q₁ ++ e :: q₂⟩ : Level).slots := by
    simp only [slots_mk, List.map_append, List.map_cons]
    exact (List.sublist_cons_self _ _).append_left _
  refine ⟨?_, ?_⟩
  · intro t l hl
    rcases s.eq_or_opposite t with rfl | rfl
    · rw [levels_setLevels] at hl
      simp only [List.mem_append, List.mem_cons] at hl
      rcases hl with hl | rfl | hl
      · refine ordered_frame (h.ordered t l (by rw [hls]; simp [hl])) ?_
        exact fun hx => hL (mem_slotsOf.mpr ⟨l, hl, hx⟩)
      -- the queue without the entry is in order, and the entry joins with the highest stamp
      · have hsnoc := ordered_snoc (n := n) (hord.sublist hrest)
          (fun y hy => hbelow y (by
            rw [slotsOf_append, slotsOf_cons, List.mem_append, List.mem_append]
            exact Or.inr (Or.inl (hrest.subset hy)))) hnot
        simpa using hsnoc
      · refine ordered_frame (h.ordered t l (by rw [hls]; simp [hl])) ?_
        exact fun hx => hR (mem_slotsOf.mpr ⟨l, hl, hx⟩)
    · rw [levels_setLevels_opposite] at hl
      refine ordered_frame (h.ordered _ l hl) ?_
      exact fun hx => ho (mem_slotsOf.mpr ⟨l, hl, hx⟩)
  · intro t x hx
    apply below_update
    rcases s.eq_or_opposite t with rfl | rfl
    · rw [levels_setLevels] at hx
      by_cases hxe : x = e.slot
      · exact Or.inr hxe
      · refine Or.inl (hbelow x ?_)
        simp only [slotsOf_append, slotsOf_cons, slots_mk, List.map_append, List.map_cons,
          List.map_nil, List.mem_append, List.mem_cons, List.not_mem_nil, or_false] at hx ⊢
        tauto
    · rw [levels_setLevels_opposite] at hx
      exact Or.inl (h.below _ x hx)

/-- A booked remainder goes to the back of its queue, with the highest stamp. -/
theorem Stamped.rest {slot : Nat} {free : List Nat} {rem : Qty} (h : Stamped a st n) (hw : WF a)
    (hfree : a.free = slot :: free) :
    Stamped (a.rest o slot free rem) (update st slot n) (n + 1) := by
  have hslot : Slotted a := hw.slots
  have hx : ∀ t, slot ∉ slotsOf (a.levels t) := fun t => hslot.free_apart (by rw [hfree]; simp) t
  have hold : ∀ t, ∀ l ∈ a.levels t,
      l.slots.Pairwise fun y z => update st slot n y < update st slot n z := by
    intro t l hl
    exact ordered_frame (h.ordered t l hl) fun hm => hx t (mem_slotsOf.mpr ⟨l, hl, hm⟩)
  refine ⟨?_, ?_⟩
  · intro t l hl
    rcases o.side.eq_or_opposite t with rfl | rfl
    · rw [levels_rest] at hl
      rcases insertEntry_cases (hw.sorted o.side) (restingEntry o slot rem) with
        ⟨L, q, R, hls, hins⟩ | ⟨L, R, hls, _, _, _, hins⟩
      · rw [hins] at hl
        simp only [List.mem_append, List.mem_cons] at hl
        rcases hl with hl | rfl | hl
        · exact hold o.side l (by rw [hls]; simp [hl])
        · have hmem : (⟨o.price, q⟩ : Level) ∈ a.levels o.side := by rw [hls]; simp
          have hsnoc := ordered_snoc (n := n) (x := slot) (h.ordered o.side _ hmem)
            (fun y hy => h.below o.side y (mem_slotsOf.mpr ⟨_, hmem, hy⟩))
            (fun hm => hx o.side (mem_slotsOf.mpr ⟨_, hmem, hm⟩))
          simpa [restingEntry] using hsnoc
        · exact hold o.side l (by rw [hls]; simp [hl])
      · rw [hins] at hl
        simp only [List.mem_append, List.mem_cons] at hl
        rcases hl with hl | rfl | hl
        · exact hold o.side l (by rw [hls]; simp [hl])
        · simp
        · exact hold o.side l (by rw [hls]; simp [hl])
    · rw [levels_rest_opposite] at hl
      exact hold _ l hl
  · intro t x hxt
    apply below_update
    rcases o.side.eq_or_opposite t with rfl | rfl
    · rw [levels_rest, slotsOf_eq] at hxt
      obtain ⟨e, he, rfl⟩ := List.mem_map.mp hxt
      rcases mem_insertEntry.mp he with rfl | he
      · exact Or.inr rfl
      · refine Or.inl (h.below o.side _ ?_)
        rw [slotsOf_eq]
        exact List.mem_map.mpr ⟨e, he, rfl⟩
    · rw [levels_rest_opposite] at hxt
      exact Or.inl (h.below _ x hxt)

theorem Stamped.step {op : Op} {r : Response} {takes : List Take} (h : Stamped a st n)
    (hrep : Rep b a) (hw : WF a) (hstep : Step a op r.outcome takes a') :
    Stamped a' (b.stamp n op r st) (n + 1) := by
  obtain ⟨out, evs⟩ := r
  change Step a op out takes a' at hstep
  have hthin : ∀ {a'}, Thinned a a' → Stamped a' st (n + 1) :=
    fun ht => (h.thinned ht).mono (Nat.le_succ n)
  cases hstep with
  | fok_rejected htype hshort => exact hthin (.refl a)
  | immediate himm hfok hm => exact hthin hm.thinned
  | filled himm hm => exact hthin hm.thinned
  | stp_walled himm hm hrem => exact hthin hm.thinned
  | level_rejected himm hm hrem hnew hfull => exact hthin hm.thinned
  | slot_rejected himm hm hrem hroom hfree => exact hthin hm.thinned
  | rested himm hm hrem hroom hfree => exact (h.thinned hm.thinned).rest (hm.wf hw) hfree
  | cancel_unknown hid => exact hthin (.refl a)
  | cancelled hid heid hls => exact hthin (.drop hls _ _)
  | modify_unknown hid => exact hthin (.refl a)
  | @increased id new_qty s L R px q₁ q₂ e hid heid hls hqty =>
    have hlt : b.slots.qtys e.slot < new_qty := by rw [hrep.qty_at hls]; exact hqty
    simp only [OrderBook.stamp]
    rw [if_pos hlt]
    exact h.increase hw hls
  | @decreased id new_qty s L R px q₁ q₂ e hid heid hls hqty hnew =>
    have hnlt : ¬ b.slots.qtys e.slot < new_qty := by
      rw [hrep.qty_at hls]
      exact UInt32.not_lt.mpr hqty
    simp only [OrderBook.stamp]
    rw [if_neg hnlt]
    exact hthin (.requantify hls _)
  | @emptied id s L R px q₁ q₂ e hid heid hls =>
    have hnlt : ¬ b.slots.qtys e.slot < 0 := by simp
    simp only [OrderBook.stamp]
    rw [if_neg hnlt]
    exact hthin (.drop hls _ _)

/-! ## Section 3: Fills have priority -/

/-- Not stopped by a price means the price is not beyond the limit. -/
theorem not_better_of_within {p : Price} (htype : o.type ≠ .Market)
    (h : price_stops o p = false) : ¬ better o.side p o.price := by
  unfold price_stops at h
  rw [if_neg htype] at h
  cases hs : o.side with
  | Buy =>
    rw [hs] at h
    exact of_decide_eq_false h
  | Sell =>
    rw [hs] at h
    exact of_decide_eq_false h

/-- A resting slot of a book, with its level. -/
theorem Rep.resting_level (h : Rep b a) (hw : WF a) {x : Nat} (hx : x ∈ b.resting s) :
    ∃ l ∈ a.levels s, x ∈ l.slots ∧ b.slots.prices x = l.price := by
  obtain ⟨e, he, rfl⟩ := (h.mem_resting hw).mp hx
  obtain ⟨l, hl, hel, hst⟩ := h.stored he
  exact ⟨l, hl, mem_slots hel, hst.price⟩

theorem EventOf.hasPriority {symbol : SymbolId} {ev : MatchEvent} {t : Take}
    (hev : EventOf symbol o ev t) (ht : TakeOf o o.side.opposite a t) (h : Stamped a st n) :
    HasPriority st o ev := by
  obtain ⟨es, ls, hls⟩ := ht.head
  have hmem : t.entry ∈ entriesOf (t.book.levels o.side.opposite) := by rw [hls]; simp
  have hst := (hev.book.queue (L := []) hls).stored t.entry (by simp)
  have hsorted := hev.wf.sorted o.side.opposite
  rw [hls] at hsorted
  -- the level of any resting slot is the best one or behind it
  have hlevel : ∀ x ∈ ev.book.resting o.side.opposite,
      x ∈ (t.entry :: es).map Entry.slot ∧ ev.book.slots.prices x = t.price ∨
      better o.side.opposite t.price (ev.book.slots.prices x) := by
    intro x hx
    obtain ⟨l, hl, hxl, hxp⟩ := hev.book.resting_level hev.wf hx
    rw [hls] at hl
    rcases List.mem_cons.mp hl with rfl | hl
    · exact Or.inl ⟨hxl, hxp⟩
    · right
      rw [hxp]
      exact (List.pairwise_cons.mp hsorted).1 l hl
  refine ⟨?_, ?_, ?_, ?_, ?_, ?_⟩
  · rw [hev.slot]
    exact (hev.book.mem_resting hev.wf).mpr ⟨t.entry, hmem, rfl⟩
  · rw [hev.report, hev.slot, hst.id]
    rfl
  · intro x hx
    rw [hev.slot, hst.price]
    rcases hlevel x hx with ⟨_, hxp⟩ | hb
    · rw [hxp]
      exact better_irrefl _ _
    · exact fun hc => better_irrefl _ _ (better_trans hb hc)
  · intro x hx hprice hne
    rw [hev.slot, hst.price] at hprice
    rw [hev.slot] at hne ⊢
    rcases hlevel x hx with ⟨hxq, _⟩ | hb
    · -- in the best queue, the head has the smallest stamp
      have hord := (h.thinned ht.thinned).ordered o.side.opposite ⟨t.price, t.entry :: es⟩
        (by rw [hls]; simp)
      rw [slots_mk, List.map_cons, List.pairwise_cons] at hord
      rw [List.map_cons, List.mem_cons] at hxq
      exact hord.1 x (hxq.resolve_left hne)
    · rw [hprice] at hb
      exact absurd hb (better_irrefl _ _)
  · rw [hev.report, hev.slot, hst.price]
    rfl
  · intro htype
    rw [hev.report]
    exact not_better_of_within htype ht.within

/-! ## Section 4: Whole runs -/

theorem Rep.run_stamped (ops : List Op) :
    ∀ {b : OrderBook} {a : LevelBook} {st : Nat → Nat} {n : Nat}, Rep b a → WF a →
      Stamped a st n →
      ∃ rs b' a', b.run ops = some (rs, b') ∧ Rep b' a' ∧ WF a' ∧
        Stamped a' (b.stamps ops n st) (n + ops.length) := by
  induction ops with
  | nil =>
    intro b a st n hrep hw h
    exact ⟨[], b, a, rfl, hrep, hw, h⟩
  | cons op ops ih =>
    intro b a st n hrep hw h
    -- this call stamps with `n`, the rest of the run from `n + 1` on
    obtain ⟨r, b₁, a₁, takes, happly, hstep, hrep₁, hw₁, _⟩ := hrep.apply hw op
    obtain ⟨rs, b', a', hrun, hrep', hw', hst⟩ := ih hrep₁ hw₁ (h.step hrep hw hstep)
    refine ⟨r :: rs, b', a', run_cons happly hrun, hrep', hw', ?_⟩
    rw [List.length_cons, Nat.add_comm ops.length 1, ← Nat.add_assoc]
    simp only [OrderBook.stamps, happly]
    exact hst

theorem stamped_empty (st : Nat → Nat) : Stamped LevelBook.empty st 0 :=
  ⟨fun _ _ hl => absurd hl List.not_mem_nil, fun _ _ hx => absurd hx List.not_mem_nil⟩

/-- After every run, every fill of the next order is against the order with
    price-time priority, at that order's price and within the limit. -/
theorem price_time_priority (mem : OrderBook) (symbol : SymbolId) (ops : List Op) (o : Order) :
    ∃ rs b r b', (fresh mem symbol).run ops = some (rs, b) ∧ b.add_order o = some (r, b') ∧
      ∀ ev ∈ r.events, HasPriority ((fresh mem symbol).stamps ops 0 fun _ => 0) o ev := by
  obtain ⟨rs, b, a, hrun, hrep, hw, hst⟩ :=
    Rep.run_stamped ops (rep_fresh mem symbol) wf_empty (stamped_empty fun _ => 0)
  obtain ⟨r, b', a', takes, happly, hstep, _, _, hevs, _⟩ := hrep.apply hw (.add o)
  refine ⟨rs, b, r, b', hrun, happly, ?_⟩
  intro ev hev
  obtain ⟨t, ht, hevt⟩ := forall₂_mem_left hevs ev hev
  exact hevt.hasPriority (hstep.takeOf hw t ht) hst

end OptionsEngine
