import OptionsEngine.OrderBook.Refinement

/-! # Every loop ends

    None of the loops of the book counts its passes: the matching loops go on
    while there are orders, the walk of the pre-check while a link is not null,
    the search of the index while cells are taken.  On a book that represents a
    book of levels, the orders of a level, the levels of a side and the entries
    of a cluster are what they use up.

    `Terminates b` lists the loops one by one, each without a bound (`Ends`),
    and the operations made of them.  It holds in every state a run from the
    constructor reaches (`operations_terminate`). -/

namespace OptionsEngine

open Function Loop LinkedQueue OrderBook

/-- The table `remove` re-inserts the rest of a cluster into, once the entry in
    cell `h` is taken out. -/
def OrderBook.OrderIndex.emptied (t : OrderIndex) (h : Nat) : Nat → OrderIndex.Entry :=
  update t.table h { t.table h with slot := OrderIndex.kEmpty, key := 0 }

/-- The loops of the operations on `b` end, and so do the operations. -/
structure Terminates (b : OrderBook) : Prop where
  /-- The search of the index. -/
  probe : ∀ id, ∃ h, Ends (ProbeTable.probeStep OrderIndex.layout b.index.table id)
    (OrderIndex.hash id) h
  /-- The re-insertion after a removal. -/
  reinsert : ∀ id h, b.index.probe id = some h → (b.index.table h).slot ≠ OrderIndex.kEmpty →
    ∃ t, Ends (ProbeTable.reinsertStep OrderIndex.layout fun e =>
      { e with slot := OrderIndex.kEmpty }) (b.index.emptied h, (h + 1) % OrderIndex.kTableSize) t
  /-- The queue walk of the pre-check, on any level and with any total so far. -/
  queue_walk : ∀ s i o total, i < (b.side s).count →
    ∃ r, Ends (liquidity_slot b.slots o) ((b.side s).head_idxs i, total) r
  available_liquidity : ∀ o, ∃ total,
    Ends (liquidity_level (b.side o.side.opposite) b.slots o) (0, 0) total
  try_match : ∀ o, ∃ r, Ends (match_level o.side.opposite) ⟨b, o, []⟩ r
  add_order : ∀ o, ∃ r b', b.add_order o = some (r, b')
  cancel_order : ∀ id, ∃ r b', b.cancel_order id = some (r, b')
  modify_order : ∀ id new_qty, ∃ r b', b.modify_order id new_qty = some (r, b')

variable {b : OrderBook} {a : LevelBook}

theorem Rep.probe_ends (h : Rep b a) (hw : WF a) (id : OrderId) :
    ∃ p, Ends (ProbeTable.probeStep OrderIndex.layout b.index.table id) (OrderIndex.hash id) p := by
  obtain ⟨p, _, hprobe, _⟩ := h.index.probe (h.hasEmpty hw) id
  exact ⟨p, ends_of_loop hprobe⟩

theorem Rep.reinsert_ends (h : Rep b a) (hw : WF a) {id : OrderId} {p : Nat}
    (hprobe : b.index.probe id = some p) (hslot : (b.index.table p).slot ≠ OrderIndex.kEmpty) :
    ∃ t, Ends (ProbeTable.reinsertStep OrderIndex.layout fun e =>
      { e with slot := OrderIndex.kEmpty })
      (b.index.emptied p, (p + 1) % OrderIndex.kTableSize) t := by
  obtain ⟨t', hremove, _⟩ := h.index.remove (h.hasEmpty hw) id
  -- `remove` returned, so the loop it contains has left
  rw [OrderIndex.remove, hprobe, Option.bind_some, if_neg hslot] at hremove
  obtain ⟨t, hloop, _⟩ := Option.map_eq_some_iff.mp hremove
  exact ⟨t, ends_of_loop hloop⟩

theorem Rep.queue_walk_ends (h : Rep b a) (hw : WF a) (s : Side) (o : Order) (total : Nat)
    {i : Nat} (hi : i < (b.side s).count) :
    ∃ r, Ends (liquidity_slot b.slots o) ((b.side s).head_idxs i, total) r := by
  have hlen : i < (a.levels s).length := by
    rw [← (h.sides s).count_eq]
    exact hi
  have hls : a.levels s = (a.levels s).take i ++ (a.levels s)[i] :: (a.levels s).drop (i + 1) := by
    rw [← List.drop_eq_getElem_cons hlen, List.take_append_drop]
  have hpos : ((a.levels s).take i).length = i := List.length_take_of_le (Nat.le_of_lt hlen)
  have hap : Apart a s _ _ _ := Slotted.apart hw.slots hls
  have hq := h.queue hls
  obtain ⟨_, _, _, hhead, _⟩ := (h.row hls).cells
  rw [hpos] at hhead
  rw [hhead]
  exact ⟨_, ends_of_loop (liquidity_queue _ _ (Nat.lt_succ_self _) hq.linked.chain hap.null_notMem
    hq.stored)⟩

theorem Rep.terminates (h : Rep b a) (hw : WF a) : Terminates b where
  probe := h.probe_ends hw
  reinsert := fun _ _ hprobe hslot => h.reinsert_ends hw hprobe hslot
  queue_walk := fun s _ o total hi => h.queue_walk_ends hw s o total hi
  available_liquidity := by
    intro o
    obtain ⟨_, hav, _⟩ := h.available_liquidity hw o
    obtain ⟨total, hloop, _⟩ := Option.map_eq_some_iff.mp hav
    exact ⟨total, ends_of_loop hloop⟩
  try_match := by
    intro o
    obtain ⟨walled, m, _, _, _, hrun, _⟩ := h.try_match hw o
    exact ⟨(walled, m), ends_of_loop hrun⟩
  add_order := by
    intro o
    obtain ⟨r, b', _, _, happly, _⟩ := h.apply hw (.add o)
    exact ⟨r, b', happly⟩
  cancel_order := by
    intro id
    obtain ⟨r, b', _, _, happly, _⟩ := h.apply hw (.cancel id)
    exact ⟨r, b', happly⟩
  modify_order := by
    intro id new_qty
    obtain ⟨r, b', _, _, happly, _⟩ := h.apply hw (.modify id new_qty)
    exact ⟨r, b', happly⟩

/-- After every run from the constructor, which itself ends, every loop and
    every operation ends whatever its arguments. -/
theorem operations_terminate (mem : OrderBook) (symbol : SymbolId) (ops : List Op) :
    ∃ rs b, (fresh mem symbol).run ops = some (rs, b) ∧ Terminates b := by
  obtain ⟨rs, b, _, a, hrun, _, _, _, hrep, hw⟩ := run_refines mem symbol ops
  exact ⟨rs, b, hrun, hrep.terminates hw⟩

end OptionsEngine
