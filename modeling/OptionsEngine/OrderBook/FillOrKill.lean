import OptionsEngine.LevelBook.Thinned
import OptionsEngine.OrderBook.Conservation

/-! # Fill-or-kill

    `available_liquidity` and `try_match` are two walks over the same levels,
    one that only reads and one that fills.  On every reachable book they agree
    on whether an order is filled completely, so a fill-or-kill order trades
    its whole quantity or leaves no trace. -/

namespace OptionsEngine

open Function OrderBook

variable {b : OrderBook} {a : LevelBook} {o : Order}

/-- The pre-check finds the quantity exactly if matching fills it. -/
def PredictsFill (b : OrderBook) (o : Order) : Prop :=
  ∃ available walled m, b.available_liquidity o = some available ∧
    b.try_match o = some (walled, m) ∧
    (o.qty_remaining ≤ available ↔ m.incoming.qty_remaining = 0)

/-- What a fill-or-kill order may do to a book: `r` is the response and `b'`
    the book after it. -/
structure FillOrKill (b : OrderBook) (o : Order) (r : Response) (b' : OrderBook) : Prop where
  /-- It is filled completely, or nothing happens. -/
  all_or_none :
    (r.ret = true ∧ r.executed = o.qty_remaining.toNat) ∨
    (r.ret = false ∧ r.reports = [] ∧ b'.bids = b.bids ∧ b'.asks = b.asks ∧
      b'.slots = b.slots ∧ b'.index = b.index)
  /-- Whatever rests after it rested before. -/
  never_rests : ∀ s, ∀ x ∈ b'.resting s, x ∈ b.resting s ∧ b'.slots.ids x = b.slots.ids x

theorem Rep.predicts_fill (h : Rep b a) (hw : WF a) (o : Order) : PredictsFill b o := by
  obtain ⟨available, hav, hshort⟩ := h.available_liquidity hw o
  obtain ⟨walled, m, takes, a', rem, hrun, hm, _, _, hin, _, _⟩ := h.try_match hw o
  refine ⟨available, walled, m, hav, hrun, ?_⟩
  have hfilled := hm.filled_iff (Nat.zero_add _)
  rw [← UInt32.not_lt, hshort, hin, hfilled, Short]
  omega

/-- Orders that are left of a thinned book rested before, under the same id. -/
theorem Rep.rested_before {b' : OrderBook} {a' : LevelBook} (h : Rep b a) (hw : WF a)
    (h' : Rep b' a') (hw' : WF a') (hthin : Thinned a a') :
    ∀ s, ∀ x ∈ b'.resting s, x ∈ b.resting s ∧ b'.slots.ids x = b.slots.ids x := by
  intro s x hx
  obtain ⟨e', he', rfl⟩ := (h'.mem_resting hw').mp hx
  obtain ⟨e, he, hkey⟩ := hthin.mem_key he'
  have hslot := Entry.slot_of_key hkey
  obtain ⟨_, _, _, hst'⟩ := h'.stored he'
  obtain ⟨_, _, _, hst⟩ := h.stored he
  refine ⟨(h.mem_resting hw).mpr ⟨e, he, hslot⟩, ?_⟩
  rw [hst'.id, ← hslot, hst.id, Entry.id_of_key hkey]

theorem Rep.fill_or_kill (h : Rep b a) (hw : WF a) (hfok : o.type = .FOK) :
    ∃ r b', b.add_order o = some (r, b') ∧ FillOrKill b o r b' := by
  have h₁ : Rep { b with stat_orders := b.stat_orders + 1 } a :=
    h.congr (fun t => by cases t <;> rfl) rfl rfl
  have himm : o.type = .Market ∨ o.type = .IOC ∨ o.type = .FOK := Or.inr (Or.inr hfok)
  obtain ⟨available, hav, hshort⟩ := h₁.available_liquidity hw o
  unfold OrderBook.add_order
  simp only
  rw [if_pos himm, if_pos hfok, hav, Option.bind_some]
  by_cases hs : Short a o
  · -- killed: the pre-check has only read
    rw [if_pos (hshort.mpr hs)]
    refine ⟨_, _, rfl, Or.inr ⟨rfl, rfl, rfl, rfl, rfl, rfl⟩, ?_⟩
    have h₂ : Rep { b with stat_orders := b.stat_orders + 1, stat_rejected := b.stat_rejected + 1 } a :=
      h.congr (fun t => by cases t <;> rfl) rfl rfl
    exact h.rested_before hw h₂ hw (.refl a)
  · -- filled: matching finds what the pre-check found
    rw [if_neg fun hc => hs (hshort.mp hc)]
    obtain ⟨walled, m, takes, a', rem, hrun, hm, hrep, hw', _, hevs, _⟩ := h₁.try_match hw o
    obtain rfl : rem = 0 := hm.filled_of_not_short hs
    refine ⟨_, _, by rw [OrderBook.add_immediate, hrun, Option.map_some], Or.inl ⟨rfl, ?_⟩,
      h.rested_before hw hrep hw' hm.thinned⟩
    have hexec : (Response.mk .immediate m.events).executed = takesTotal takes := executed_eq hevs
    have hqty := hm.conserves.2
    rw [hexec, hqty]
    simp

/-- On every reachable book the pre-check predicts matching for every order,
    and a fill-or-kill order is filled completely or leaves the book as it was. -/
theorem fill_or_kill_atomic (mem : OrderBook) (symbol : SymbolId) (ops : List Op) :
    ∃ rs b, (fresh mem symbol).run ops = some (rs, b) ∧ (∀ o, PredictsFill b o) ∧
      ∀ o, o.type = .FOK → ∃ r b', b.add_order o = some (r, b') ∧ FillOrKill b o r b' := by
  obtain ⟨rs, b, calls, a, hrun, _, _, _, hrep, hw⟩ := run_refines mem symbol ops
  exact ⟨rs, b, hrun, hrep.predicts_fill hw, fun o hfok => hrep.fill_or_kill hw hfok⟩

end OptionsEngine
