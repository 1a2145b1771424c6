import OptionsEngine.LevelBook.Exact
import OptionsEngine.OrderBook.Observe

/-! # Cancelling by id

    `add_order` does not look whether an id is already resting, and the index
    holds one slot per id: booking an id a second time makes the index forget
    the first order, and removing either of them erases the id.

    * `CancelExact b`: in the book `b` cancels and modifications reach exactly
      the resting orders, and a cancelled id is not filled again.
    * `repeated_id_survives_cancel`: it fails once an id is booked twice.
    * `cancel_exact`: it holds in every state of every run in which no order
      that may rest brings an id that is already resting. -/

namespace OptionsEngine

open Function OrderBook

/-! ## Section 1: Exact cancels -/

/-- A cancel succeeds exactly on the ids that rest, a resting order can be
    modified, and once cancelled it is not filled before its id is added
    again. -/
structure CancelExact (b : OrderBook) : Prop where
  cancel_iff : ∀ id, (b.cancel_order id).map (fun x => x.1.ret) = some true ↔ b.Carries id
  modify_ok : ∀ id new_qty, b.Carries id →
    (b.modify_order id new_qty).map (fun x => x.1.ret) = some true
  stays_gone : ∀ id r b', b.cancel_order id = some (r, b') → r.ret = true →
    ∀ later, (∀ o, Op.add o ∈ later → o.id ≠ id) →
      ∃ rs b'', b'.run later = some (rs, b'') ∧
        ∀ r' ∈ rs, ∀ x ∈ r'.reports, x.contra_order_id ≠ id

/-- An order that may rest brings an id that is not resting. -/
def FreshAdd (b : OrderBook) : Op → Prop
  | .add o => Immediate o ∨ ¬ b.Carries o.id
  | _ => True

instance (b : OrderBook) : (op : Op) → Decidable (FreshAdd b op)
  | .add o => inferInstanceAs (Decidable (Immediate o ∨ ¬ b.Carries o.id))
  | .cancel _ => .isTrue trivial
  | .modify _ _ => .isTrue trivial

variable {b : OrderBook} {a : LevelBook}

/-- Nobody carries the id, in the arrays and in the levels. -/
theorem Rep.absent_iff (h : Rep b a) (hw : WF a) (id : OrderId) :
    Absent a id ↔ ¬ b.Carries id := by
  rw [h.carries_iff hw]
  constructor
  · rintro habs ⟨s, e, he, hid⟩
    exact habs s e he hid
  · intro hno s e he hid
    exact hno ⟨s, e, he, hid⟩

theorem Rep.newId (h : Rep b a) (hw : WF a) {op : Op} (hf : FreshAdd b op) : NewId a op := by
  intro o hop himm
  subst hop
  exact (h.absent_iff hw o.id).mpr (hf.resolve_left himm)

/-- An id is indexed exactly if it rests. -/
theorem Exact.carries_iff (he : Exact a) (h : Rep b a) (hw : WF a) (id : OrderId) :
    b.Carries id ↔ ∃ slot s, a.index id = some (slot, s) := by
  rw [h.carries_iff hw]
  constructor
  · rintro ⟨s, e, hmem, rfl⟩
    exact ⟨e.slot, s, he s e hmem⟩
  · rintro ⟨slot, s, hid⟩
    obtain ⟨e, hmem, _, heid⟩ := hw.indexed id slot s hid
    exact ⟨s, e, hmem, heid⟩

/-! ## Section 2: What an exact index gives -/

/-- No fill is against an id that nobody carries, until it is added. -/
theorem Rep.run_absent (id : OrderId) (ops : List Op) :
    ∀ {b : OrderBook} {a : LevelBook}, Rep b a → WF a → Absent a id →
      (∀ o, Op.add o ∈ ops → o.id ≠ id) →
      ∃ rs b', b.run ops = some (rs, b') ∧
        ∀ r ∈ rs, ∀ x ∈ r.reports, x.contra_order_id ≠ id := by
  induction ops with
  | nil =>
    intro b a _ _ _ _
    exact ⟨[], b, rfl, by simp⟩
  | cons op ops ih =>
    intro b a hrep hw habs hadd
    obtain ⟨r, b₁, a₁, takes, happly, hstep, hrep₁, hw₁, hevs, _⟩ := hrep.apply hw op
    obtain ⟨habs₁, htakes⟩ := hstep.absent hw habs fun o ho _ => hadd o (by simp [ho])
    obtain ⟨rs, b', hrun, hall⟩ := ih hrep₁ hw₁ habs₁ fun o ho => hadd o (by simp [ho])
    refine ⟨r :: rs, b', run_cons happly hrun, ?_⟩
    intro r' hr' x hx
    rcases List.mem_cons.mp hr' with rfl | hr'
    · -- the reports of this call name the entries it filled
      obtain ⟨ev, hev, rfl⟩ := List.mem_map.mp hx
      cases op with
      | add o =>
        obtain ⟨t, ht, hevt⟩ := forall₂_mem_left hevs ev hev
        rw [hevt.report]
        exact htakes t ht
      | cancel id' => rw [hevs.1] at hev; simp at hev
      | modify id' n => rw [hevs.1] at hev; simp at hev
    · exact hall r' hr' x hx

theorem Exact.cancelExact (he : Exact a) (h : Rep b a) (hw : WF a) : CancelExact b := by
  refine ⟨?_, ?_, ?_⟩
  · intro id
    obtain ⟨out, b', a', hrun, hstep, _, _⟩ := h.cancel_order hw id
    rw [hrun, he.carries_iff h hw]
    cases hstep with
    | cancel_unknown hid => simp [hid, Response.ret, Outcome.ret]
    | cancelled hid heid hls => simp [hid, Response.ret, Outcome.ret]
  · intro id new_qty hc
    obtain ⟨slot, s, hid⟩ := (he.carries_iff h hw id).mp hc
    obtain ⟨out, b', a', hrun, hstep, _, _⟩ := h.modify_order hw id new_qty
    rw [hrun]
    cases hstep with
    | modify_unknown hnone => rw [hid] at hnone; simp at hnone
    | increased hid heid hls hqty => rfl
    | decreased hid heid hls hqty hnew => rfl
    | emptied hid heid hls => rfl
  · intro id r b' hcancel hret later hadd
    obtain ⟨out, b₁, a₁, hrun, hstep, hrep₁, _⟩ := h.cancel_order hw id
    rw [hrun] at hcancel
    obtain ⟨hr, rfl⟩ : ({ outcome := out, events := [] } : Response) = r ∧ b₁ = b' := by
      simpa using hcancel
    rw [← hr] at hret
    have hw₁ := hstep.wf hw
    -- with an exact index, the cancelled order was the only one of its id
    refine Rep.run_absent id later hrep₁ hw₁ ?_ hadd
    cases hstep with
    | cancel_unknown hid => simp [Response.ret, Outcome.ret] at hret
    | cancelled hid heid hls =>
      subst heid
      exact he.absent_of_drop hw hls

theorem Rep.run_exact (ops : List Op) :
    ∀ {b : OrderBook} {a : LevelBook}, Rep b a → WF a → Exact a → b.Meets FreshAdd ops →
      ∃ rs b' a', b.run ops = some (rs, b') ∧ Rep b' a' ∧ WF a' ∧ Exact a' := by
  induction ops with
  | nil =>
    intro b a hrep hw he _
    exact ⟨[], b, a, rfl, hrep, hw, he⟩
  | cons op ops ih =>
    intro b a hrep hw he hmeets
    obtain ⟨r, b₁, a₁, takes, happly, hstep, hrep₁, hw₁, _⟩ := hrep.apply hw op
    obtain ⟨hfresh, hrest⟩ := hmeets
    rw [happly] at hrest
    have he₁ := hstep.exact hw he (hrep.newId hw hfresh)
    obtain ⟨rs, b', a', hrun, hrep', hw', he'⟩ := ih hrep₁ hw₁ he₁ hrest
    exact ⟨r :: rs, b', a', run_cons happly hrun, hrep', hw', he'⟩

/-! ## Section 3: Runs -/

/-- Where every order that may rest brings a fresh id, cancels are exact in
    every state reached. -/
theorem cancel_exact (mem : OrderBook) (symbol : SymbolId) (ops : List Op)
    (h : (fresh mem symbol).Meets FreshAdd ops) :
    ∃ rs b, (fresh mem symbol).run ops = some (rs, b) ∧ CancelExact b := by
  obtain ⟨rs, b, a, hrun, hrep, hw, he⟩ :=
    Rep.run_exact ops (rep_fresh mem symbol) wf_empty exact_empty h
  exact ⟨rs, b, hrun, he.cancelExact hrep hw⟩

/-- Rest two orders, fill one, cancel the other and add its id again. -/
theorem cancel_exact_on_fresh_ids :
    ∃ rs b, (fresh zeroed 0).run
        [.add (sell 7 100 5), .add (sell 8 101 5), .add (buy 9 100 5), .cancel 8,
          .add (sell 8 102 5)] = some (rs, b) ∧ CancelExact b :=
  cancel_exact zeroed 0 _ (by decide +kernel)

/-- An id booked twice: after a successful cancel an order with that id still
    rests, cannot be cancelled, and is filled by the next buyer. -/
theorem repeated_id_survives_cancel :
    ∃ rs b, (fresh zeroed 0).run [.add (sell 7 100 5), .add (sell 7 101 5), .cancel 7] =
        some (rs, b) ∧ rs.map Response.ret = [true, true, true] ∧ b.Carries 7 ∧
      (b.cancel_order 7).map (fun x => x.1.ret) = some false ∧
      (b.add_order (buy 9 100 5)).map (fun x => x.1.reports.map (·.contra_order_id)) = some [7] ∧
      ¬ CancelExact b := by
  have hrun : ((fresh zeroed 0).run
      [.add (sell 7 100 5), .add (sell 7 101 5), .cancel 7]).map (fun x =>
        (x.1.map Response.ret, decide (x.2.Carries 7),
          (x.2.cancel_order 7).map (fun y => y.1.ret),
          (x.2.add_order (buy 9 100 5)).map fun y => y.1.reports.map (·.contra_order_id))) =
      some ([true, true, true], true, some false, some [7]) := by
    decide +kernel
  obtain ⟨⟨rs, b⟩, heq, hval⟩ := Option.map_eq_some_iff.mp hrun
  simp only [Prod.mk.injEq, decide_eq_true_eq] at hval
  obtain ⟨hrets, hcarries, hcancel, hfill⟩ := hval
  refine ⟨rs, b, heq, hrets, hcarries, hcancel, hfill, ?_⟩
  intro hexact
  have htrue := (hexact.cancel_iff 7).mpr hcarries
  rw [hcancel] at htrue
  simp at htrue

end OptionsEngine
