import OptionsEngine.OrderBook.Updates

/-! # Resting, cancelling and modifying

    The parts of the public operations that do not match, each as what it does
    to the levels. -/

namespace OptionsEngine

open Function LiveArray LinkedQueue OrderBook

variable {b : OrderBook} {a : LevelBook} {s : Side} {L R : List Level} {q : List Entry}
  {o : Order}

/-! ## Section 1: Resting -/

/-- Creating an empty level. -/
theorem Rep.open_level (h : Rep b a) {side : OrderBook.Side} {p : Price}
    (hside : SideRep side (L ++ ⟨p, []⟩ :: R)) (hls : a.levels s = L ++ R) :
    Rep (b.setSide s side) (a.setLevels s (L ++ ⟨p, []⟩ :: R)) := by
  refine ⟨?_, ?_, ?_, ?_, ?_, ?_⟩
  · intro t
    rcases s.eq_or_opposite t with rfl | rfl
    · rw [levels_setLevels, side_setSide]; exact hside
    · rw [levels_setLevels_opposite, side_setSide_opposite]; exact h.sides _
  · intro t
    rw [slots_setSide]
    rcases s.eq_or_opposite t with rfl | rfl
    · rw [levels_setLevels]
      have hq := h.queues t
      rw [hls] at hq
      intro k hk
      simp only [List.mem_append, List.mem_cons] at hk
      rcases hk with hk | rfl | hk
      · exact hq k (by simp [hk])
      · exact ⟨by simp, by simp⟩
      · exact hq k (by simp [hk])
    · rw [levels_setLevels_opposite]; exact h.queues _
  · rw [slots_setSide]; exact h.free_head
  · rw [slots_setSide]; exact h.free_chain
  · rw [slots_setSide]; exact h.used
  · rw [index_setSide]; exact h.index

/-- Taking a slot off the free list. -/
theorem Rep.alloc (h : Rep b a) {x : Nat} {fs : List Nat} (hfree : a.free = x :: fs)
    (hx : x < kMaxOrders) :
    b.slots.alloc = (x, { b.slots with free_head := fs.headD NULL_IDX, used := b.slots.used + 1 }) ∧
      Rep { b with
        slots := { b.slots with free_head := fs.headD NULL_IDX, used := b.slots.used + 1 } }
        { a with free := fs } := by
  have hhead : b.slots.free_head = x := by rw [h.free_head, hfree]; rfl
  have hchain := h.free_chain
  rw [hfree, chain_cons] at hchain
  refine ⟨?_, ?_⟩
  · rw [SlotPool.alloc, hhead, if_neg (ne_null hx)]
    simp only [hchain.1]
  · refine ⟨?_, fun t => (h.queues t).frame fun y _ => ⟨rfl, rfl, rfl, rfl, rfl, rfl⟩, rfl,
      hchain.2, ?_, h.index⟩
    · intro t; rw [side_slots]; exact h.sides t
    · have hu := h.used
      have hk : kMaxOrders = 65536 := rfl
      rw [hfree, List.length_cons] at hu
      show (b.slots.used + 1).toNat + fs.length = kMaxOrders
      rw [UInt32.toNat_add]
      show (b.slots.used.toNat + 1) % 2 ^ 32 + _ = _
      omega

/-- What the search for the level of a resting order ends in. -/
theorem find_or_insert_cases {side : OrderBook.Side} {ls : List Level} (h : SideRep side ls)
    (hsorted : ls.Pairwise fun k k' => better s k.price k'.price) (p : Price) :
    (find_or_insert side p (s = .Buy) = none ∧ (∀ k ∈ ls, k.price ≠ p) ∧
      kMaxLevels ≤ ls.length) ∨
    (∃ L q R, ls = L ++ ⟨p, q⟩ :: R ∧ (∀ k ∈ L, better s k.price p) ∧
      find_or_insert side p (s = .Buy) = some (L.length, false, side)) ∨
    (∃ L R side', ls = L ++ R ∧ (∀ k ∈ L, better s k.price p) ∧
      (∀ k ∈ R.head?, better s p k.price) ∧ ls.length < kMaxLevels ∧
      find_or_insert side p (s = .Buy) = some (L.length, true, side') ∧
      SideRep side' (L ++ ⟨p, []⟩ :: R)) := by
  -- a level of the price, or a place for one if there is room
  by_cases hex : ∃ k ∈ ls, k.price = p
  · obtain ⟨k, hk, rfl⟩ := hex
    obtain ⟨L, R, rfl⟩ := List.append_of_mem hk
    have hL := better_of_sorted hsorted
    have hne : ∀ l' ∈ L, l'.price ≠ k.price :=
      fun l' hl' heq => better_irrefl s l'.price (by simpa [heq] using hL l' hl')
    refine Or.inr (Or.inl ⟨L, k.queue, R, rfl, hL, ?_⟩)
    rw [find_or_insert, h.find_level_some rfl hne]
  · have hnew : ∀ k ∈ ls, k.price ≠ p := fun k hk heq => hex ⟨k, hk, heq⟩
    by_cases hroom : ls.length < kMaxLevels
    · obtain ⟨L, R, rfl, hL, hR⟩ := split_at_price hsorted hnew
      have hnb : ∀ l ∈ R.head?, ¬ better s l.price p :=
        fun l hl hb => better_irrefl s _ (better_trans (hR l hl) hb)
      obtain ⟨side', hins, hside'⟩ := h.insert_level s hroom hL hnb
      refine Or.inr (Or.inr ⟨L, R, side', rfl, hL, hR, hroom, ?_, hside'⟩)
      rw [find_or_insert, h.find_level_none hnew, hins]
    · refine Or.inl ⟨?_, hnew, Nat.le_of_not_lt hroom⟩
      have hfull : side.count ≥ kMaxLevels := by
        rw [h.count_eq]
        exact Nat.le_of_not_lt hroom
      rw [find_or_insert, h.find_level_none hnew, OrderBook.Side.insert_level, if_pos hfull]

/-- Writing a fresh slot and appending it to the queue of a level. -/
theorem Rep.append (h : Rep b a) {p : Price} (hls : a.levels s = L ++ ⟨p, q⟩ :: R)
    (hap : Apart a s L ⟨p, q⟩ R) {x : Nat} (hx : ∀ t, x ∉ slotsOf (a.levels t))
    (hp : o.price = p) {r : OrderBook.Side × SlotPool}
    (hr : r = append_new (b.side s) (write_slot b.slots x o) L.length x) :
    Rep { b.setSide s (recount r.1 L.length o.qty_remaining) with slots := r.2 }
      (a.setLevels s (L ++ ⟨p, q ++ [restingEntry o x o.qty_remaining]⟩ :: R)) := by
  obtain ⟨_, _, _, hhead, htail⟩ := (h.row hls).cells
  have hst : Stored (write_slot b.slots x o) p (restingEntry o x o.qty_remaining) :=
    ⟨update_self _ _ _, update_self _ _ _, update_self _ _ _, by rw [← hp]; exact update_self _ _ _⟩
  have hwrite : ∀ y, y ≠ x → SameSlot b.slots (write_slot b.slots x o) y := fun y hy =>
    ⟨update_of_ne hy _ _, update_of_ne hy _ _, update_of_ne hy _ _, rfl, update_of_ne hy _ _,
      update_of_ne hy _ _⟩
  -- the new slot is not the tail it is linked behind
  have hne : (b.side s).head_idxs L.length ≠ NULL_IDX → (b.side s).tail_idxs L.length ≠ x := by
    intro hcell heq
    rw [hhead, Ne, headD_null hap.null_notMem] at hcell
    rw [htail] at heq
    refine hx s ?_
    rw [hls, ← heq]
    simp only [slotsOf_append, slotsOf_cons, List.mem_append]
    exact Or.inr (Or.inl (getLastD_mem hcell _))
  rw [append_new_eq (update_self _ _ _) hne] at hr
  exact h.join hls hap (e := restingEntry o x o.qty_remaining) hx hst hwrite ⟨rfl, rfl, rfl⟩ hr

/-- What `rest_order` leaves of the levels. -/
inductive Rests (a : LevelBook) (o : Order) : Outcome → LevelBook → Prop where
  | level_rejected (hnew : ∀ l ∈ a.levels o.side, l.price ≠ o.price)
      (hfull : kMaxLevels ≤ (a.levels o.side).length) : Rests a o .level_rejected a
  | slot_rejected (hroom : (∃ l ∈ a.levels o.side, l.price = o.price) ∨
        (a.levels o.side).length < kMaxLevels)
      (hfree : a.free = []) : Rests a o .slot_rejected a
  | rested {slot : Nat} {free : List Nat}
      (hroom : (∃ l ∈ a.levels o.side, l.price = o.price) ∨
        (a.levels o.side).length < kMaxLevels)
      (hfree : a.free = slot :: free) :
      Rests a o (.rested slot) (a.rest o slot free o.qty_remaining)

/-- No slot is left, and no level had to be created. -/
theorem Rep.alloc_fails (h : Rep b a) (hfree : a.free = []) :
    b.slots.alloc = (NULL_IDX, b.slots) := by
  have hhead : b.slots.free_head = NULL_IDX := by rw [h.free_head, hfree]; rfl
  rw [SlotPool.alloc, if_pos hhead]

/-- Booking a remainder at a level that is there: the level, or its queue, may
    just have been created. -/
theorem Rep.rest_at (h : Rep b a) (hne : ProbeTable.HasEmpty OrderIndex.layout b.index.table)
    {p : Price} (hls : a.levels s = L ++ ⟨p, q⟩ :: R) (hap : Apart a s L ⟨p, q⟩ R)
    {x : Nat} {fs : List Nat} (hfree : a.free = x :: fs) (hx : ∀ t, x ∉ slotsOf (a.levels t))
    (hlt : x < kMaxOrders) (hp : o.price = p) {r : OrderBook.Side × SlotPool}
    (hr : r = append_new (b.side s) (write_slot b.slots.alloc.2 x o) L.length x) :
    b.slots.alloc.1 = x ∧
    ∃ t, b.index.insert o.id x (sideIdx s) = some (true, t) ∧
      Rep { b.setSide s (recount r.1 L.length o.qty_remaining) with slots := r.2, index := t }
        { levels := update a.levels s
            (L ++ ⟨p, q ++ [restingEntry o x o.qty_remaining]⟩ :: R)
          free := fs
          index := update a.index o.id (some (x, s)) } := by
  obtain ⟨halloc, hrep⟩ := h.alloc hfree hlt
  obtain ⟨t, hins, ht⟩ := h.index.insert hne o.id (sideIdx s) (ne_null hlt)
  refine ⟨by rw [halloc], t, hins, ?_⟩
  rw [halloc] at hr
  have hap' : Apart { a with free := fs } s L ⟨p, q⟩ R :=
    ⟨hap.nodup, hap.left, hap.right, hap.other,
      fun y hy hm => hap.free y hy (by rw [hfree]; exact List.mem_cons_of_mem _ hm), hap.lt⟩
  have happ := hrep.append (o := o) hls hap' hx hp (r := r) (by rw [side_slots]; exact hr)
  have henc : encode (update a.index o.id (some (x, s))) =
      update (encode a.index) o.id (some (x, sideIdx s)) := by
    rw [encode_update]; rfl
  rw [← henc] at ht
  have hset := happ.set_index ht
  refine hset.congr ?_ rfl rfl
  intro u
  cases s <;> cases u <;> rfl

/-- The book `rest_order` leaves when it finds a level and a slot. -/
theorem rest_order_found (events : List MatchEvent) {n x : Nat} {created : Bool}
    {side : OrderBook.Side} {t : OrderIndex} {r : OrderBook.Side × SlotPool}
    (hfind : find_or_insert (b.side o.side) o.price (o.side = .Buy) = some (n, created, side))
    (halloc : b.slots.alloc.1 = x) (hx : x ≠ NULL_IDX)
    (hins : b.index.insert o.id x (sideIdx o.side) = some (true, t))
    (hr : r = append_new side (write_slot b.slots.alloc.2 x o) n x) :
    b.rest_order o events = some ({ outcome := .rested x, events := events },
      { b.setSide o.side (recount r.1 n o.qty_remaining) with slots := r.2, index := t }) := by
  rw [OrderBook.rest_order, hfind]
  simp only [halloc, if_neg hx, hins, Option.map_some, hr, recount]

theorem Rep.rest_order (h : Rep b a) (hw : WF a) (events : List MatchEvent) :
    ∃ out b' a', b.rest_order o events = some ({ outcome := out, events := events }, b') ∧
      Rep b' a' ∧ Rests a o out a' ∧ b'.symbol = b.symbol := by
  have hslot : Slotted a := hw.slots
  have hne := h.hasEmpty hw
  rcases find_or_insert_cases (h.sides o.side) (hw.sorted o.side) o.price with
    ⟨hfind, hnew, hfull⟩ | ⟨L, q, R, hls, hL, hfind⟩ | ⟨L, R, side', hls, hL, hR, hroom, hfind, hside'⟩
  · refine ⟨.level_rejected, { b with stat_rejected := b.stat_rejected + 1 }, a, ?_, ?_,
      .level_rejected hnew hfull, rfl⟩
    · rw [OrderBook.rest_order, hfind]
    · exact h.congr (fun s => by cases s <;> rfl) rfl rfl
  · have hex : ∃ l ∈ a.levels o.side, l.price = o.price := ⟨⟨o.price, q⟩, by rw [hls]; simp, rfl⟩
    cases hfree : a.free with
    | nil =>
      refine ⟨.slot_rejected, { b.setSide o.side (b.side o.side) with
        stat_rejected := b.stat_rejected + 1 }, a, ?_, ?_, .slot_rejected (Or.inl hex) hfree, by simp⟩
      · rw [OrderBook.rest_order, hfind]
        simp [h.alloc_fails hfree]
      · exact h.congr (fun s => by cases s <;> cases o.side <;> rfl) (by simp) (by simp)
    | cons x fs =>
      have hmem : x ∈ a.free := by rw [hfree]; simp
      obtain ⟨halloc, t, hins, hrep⟩ := h.rest_at (o := o) hne hls (hslot.apart hls) hfree
        (fun t => hslot.free_apart hmem t) (hslot.free_lt hmem) rfl rfl
      have hrun := rest_order_found events hfind halloc
        (ne_null (hslot.free_lt hmem)) hins rfl
      refine ⟨.rested x, _, a.rest o x fs o.qty_remaining, hrun, ?_, .rested (Or.inl hex) hfree,
        by simp⟩
      rw [LevelBook.rest, hls, insertEntry_existing hL]
      exact hrep
  · cases hfree : a.free with
    | nil =>
      refine ⟨.slot_rejected, { b.setSide o.side (side'.remove_level L.length) with
        stat_rejected := b.stat_rejected + 1 }, a, ?_, ?_, .slot_rejected (Or.inr hroom) hfree,
        by simp⟩
      · rw [OrderBook.rest_order, hfind]
        simp [h.alloc_fails hfree]
      · -- the level just created goes again
        have hopen := h.open_level hside' hls
        have hback := hopen.remove_level (levels_setLevels _ _ _)
        have hsame : (a.setLevels o.side (L ++ ⟨o.price, []⟩ :: R)).setLevels o.side (L ++ R) = a := by
          simp only [LevelBook.setLevels, update_idem]
          rw [← hls, update_eq_self]
        rw [hsame] at hback
        exact hback.congr (fun s => by cases s <;> cases o.side <;> rfl) (by simp) (by simp)
    | cons x fs =>
      have hmem : x ∈ a.free := by rw [hfree]; simp
      have hopen := h.open_level hside' hls
      have hlev : ∀ t, x ∉ slotsOf ((a.setLevels o.side (L ++ ⟨o.price, []⟩ :: R)).levels t) := by
        intro t
        have hxt := hslot.free_apart hmem t
        rcases o.side.eq_or_opposite t with rfl | rfl
        · rw [hls] at hxt
          simpa using hxt
        · simpa using hxt
      have hap : Apart (a.setLevels o.side (L ++ ⟨o.price, []⟩ :: R)) o.side L ⟨o.price, []⟩ R :=
        ⟨by simp, by simp, by simp, by simp, by simp, by simp⟩
      obtain ⟨halloc, t, hins, hrep⟩ := hopen.rest_at (o := o) (by simpa using hne)
        (levels_setLevels _ _ _) hap hfree hlev (hslot.free_lt hmem) rfl rfl
      rw [slots_setSide] at halloc
      rw [index_setSide] at hins
      have hrun := rest_order_found events hfind halloc
        (ne_null (hslot.free_lt hmem)) hins rfl
      refine ⟨.rested x, _, a.rest o x fs o.qty_remaining, hrun, ?_, .rested (Or.inr hroom) hfree,
        by simp⟩
      rw [LevelBook.rest, hls, insertEntry_new hL hR]
      simp only [LevelBook.setLevels, update_idem, side_setSide, slots_setSide,
        List.nil_append] at hrep
      refine hrep.congr ?_ rfl rfl
      intro s
      cases s <;> cases o.side <;> rfl

/-! ## Section 2: Cancelling and modifying -/

/-- The level of an indexed slot is found: it is never gone. -/
theorem Rep.locate (h : Rep b a) (hw : WF a) {id : OrderId} {slot : Nat}
    (hid : a.index id = some (slot, s)) :
    ∃ L px q₁ e q₂ R, a.levels s = L ++ ⟨px, q₁ ++ e :: q₂⟩ :: R ∧ e.slot = slot ∧ e.id = id ∧
      b.slots.qtys slot = e.qty ∧
      (b.side s).find_level (b.slots.prices slot) = some L.length := by
  obtain ⟨e, he, rfl, rfl⟩ := hw.indexed id slot s hid
  obtain ⟨L, px, q₁, q₂, R, hls⟩ := split_entry he
  have hst := (h.queue hls).stored e (by simp)
  have hsorted := hw.sorted s
  rw [hls] at hsorted
  have hne : ∀ l' ∈ L, l'.price ≠ px := fun l' hl' heq =>
    better_irrefl s px (heq ▸ better_of_sorted hsorted l' hl')
  refine ⟨L, px, q₁, e, q₂, R, hls, rfl, rfl, hst.qty, ?_⟩
  rw [hst.price]
  exact (h.row hls).find_level_some rfl hne

/-- What `lookup` returns, decoded. -/
theorem Rep.lookup (h : Rep b a) (hw : WF a) (id : OrderId) :
    b.index.lookup id = some (encode a.index id) := h.index.lookup (h.hasEmpty hw) id

/-- Erasing an id from the index. -/
theorem Rep.erase (h : Rep b a) (hw : WF a) (id : OrderId) :
    ∃ found t, b.index.remove id = some (found, t) ∧
      t.Represents (encode (update a.index id none)) := by
  obtain ⟨t, hrem, ht⟩ := h.index.remove (h.hasEmpty hw) id
  refine ⟨_, t, hrem, ?_⟩
  rw [encode_update]
  exact ht

@[simp] theorem index_remove_order (b : OrderBook) (s : Side) (n x : Nat) :
    (b.remove_order_from_level s n x).index = b.index := by
  simp [OrderBook.remove_order_from_level]

@[simp] theorem symbol_remove_order (b : OrderBook) (s : Side) (n x : Nat) :
    (b.remove_order_from_level s n x).symbol = b.symbol := by
  simp [OrderBook.remove_order_from_level]

theorem cancel_order_found {id : OrderId} {slot n : Nat} {found : Bool} {t : OrderIndex}
    (hlook : b.index.lookup id = some (some (slot, sideIdx s)))
    (hfind : (b.side s).find_level (b.slots.prices slot) = some n)
    (hrem : b.index.remove id = some (found, t)) :
    b.cancel_order id = some ({ outcome := .cancelled slot, events := [] },
      { b.remove_order_from_level s n slot with
        index := t
        stat_cancelled := (b.remove_order_from_level s n slot).stat_cancelled + 1 }) := by
  simp only [OrderBook.cancel_order, hlook, Option.bind_some, sideOf_sideIdx, hfind,
    index_remove_order, hrem, Option.map_some]

theorem Rep.cancel_order (h : Rep b a) (hw : WF a) (id : OrderId) :
    ∃ out b' a', b.cancel_order id = some ({ outcome := out, events := [] }, b') ∧
      Step a (.cancel id) out [] a' ∧ Rep b' a' ∧ b'.symbol = b.symbol := by
  have hlook := h.lookup hw id
  cases hid : a.index id with
  | none =>
    have hnone : encode a.index id = none := by simp [encode, hid]
    refine ⟨.unknown_id, b, a, ?_, .cancel_unknown hid, h, rfl⟩
    rw [OrderBook.cancel_order, hlook, hnone, Option.bind_some]
  | some v =>
    obtain ⟨slot, s⟩ := v
    obtain ⟨L, px, q₁, e, q₂, R, hls, rfl, heid, _, hfind⟩ := h.locate hw hid
    obtain ⟨found, t, hrem, ht⟩ := h.erase hw id
    have henc : encode a.index id = some (e.slot, sideIdx s) := by simp [encode, hid]
    rw [henc] at hlook
    refine ⟨.cancelled e.slot, _, _, cancel_order_found hlook hfind hrem,
      .cancelled hid heid hls, ?_, by simp⟩
    have hgone := (h.remove_order_from_level hw.slots hls).set_index ht
    exact hgone.congr (fun u => by cases u <;> rfl) rfl rfl

/-- `modify_order`, once its level has been found. -/
theorem modify_order_found {id : OrderId} (new_qty : Qty) {slot n : Nat}
    (hlook : b.index.lookup id = some (some (slot, sideIdx s)))
    (hfind : (b.side s).find_level (b.slots.prices slot) = some n)
    {old_qty : Qty} (hold : b.slots.qtys slot = old_qty)
    {r : OrderBook.Side × SlotPool}
    (hr : r = append_again (unlink (b.side s) b.slots n slot).1
      (unlink (b.side s) b.slots n slot).2 n slot)
    {b₁ : OrderBook}
    (hb₁ : b₁ = { b.setSide s
        { b.side s with
          qtys := update (b.side s).qtys n ((b.side s).qtys n - (old_qty - new_qty)) } with
      slots := { b.slots with qtys := update b.slots.qtys slot new_qty } }) :
    b.modify_order id new_qty =
      if new_qty > old_qty then
        some ({ outcome := .modified slot, events := [] },
          { b.setSide s
              { r.1 with qtys := update r.1.qtys n (r.1.qtys n + (new_qty - old_qty)) } with
            slots := { r.2 with qtys := update r.2.qtys slot new_qty } })
      else if new_qty < old_qty then
        if new_qty = 0 then
          (b.index.remove id).map fun (_, index) =>
            ({ outcome := .modified slot, events := [] },
              { b₁.remove_order_from_level s n slot with index := index })
        else some ({ outcome := .modified slot, events := [] }, b₁)
      else some ({ outcome := .modified slot, events := [] }, b) := by
  subst hr hb₁
  simp only [OrderBook.modify_order, hlook, Option.bind_some, sideOf_sideIdx, hfind,
    index_remove_order, index_setSide, hold]

theorem Rep.modify_order (h : Rep b a) (hw : WF a) (id : OrderId) (new_qty : Qty) :
    ∃ out b' a', b.modify_order id new_qty = some ({ outcome := out, events := [] }, b') ∧
      Step a (.modify id new_qty) out [] a' ∧ Rep b' a' ∧ b'.symbol = b.symbol := by
  have hlook := h.lookup hw id
  cases hid : a.index id with
  | none =>
    have hnone : encode a.index id = none := by simp [encode, hid]
    refine ⟨.unknown_id, b, a, ?_, .modify_unknown hid, h, rfl⟩
    rw [OrderBook.modify_order, hlook, hnone, Option.bind_some]
  | some v =>
    obtain ⟨slot, s⟩ := v
    obtain ⟨L, px, q₁, e, q₂, R, hls, rfl, heid, hold, hfind⟩ := h.locate hw hid
    have henc : encode a.index id = some (e.slot, sideIdx s) := by simp [encode, hid]
    rw [henc] at hlook
    have hrun := modify_order_found new_qty hlook hfind hold rfl rfl
    -- up: to the back; down: in place, and out of the book at zero; equal: nothing
    by_cases hgt : new_qty > e.qty
    · rw [if_pos hgt] at hrun
      exact ⟨_, _, _, hrun, .increased hid heid hls hgt, h.increase hw.slots hls rfl, by simp⟩
    rw [if_neg hgt] at hrun
    have hle : new_qty ≤ e.qty := UInt32.not_lt.mp hgt
    by_cases hlt : new_qty < e.qty
    · rw [if_pos hlt] at hrun
      have hdec := h.decrease hw.slots hls hle
      by_cases hzero : new_qty = 0
      · subst hzero
        obtain ⟨found, t, hrem, ht⟩ := h.erase hw id
        rw [if_pos rfl, hrem, Option.map_some] at hrun
        refine ⟨_, _, _, hrun, .emptied hid heid hls, ?_, by simp⟩
        have hslot : Slotted (a.setLevels s (L ++ ⟨px, q₁ ++ { e with qty := 0 } :: q₂⟩ :: R)) :=
          Slotted.setLevels hw.slots (by rw [hls]; simp)
        have hgone := (hdec.remove_order_from_level hslot (levels_setLevels _ _ _)).set_index ht
        simpa [LevelBook.setLevels, LevelBook.drop] using hgone
      · rw [if_neg hzero] at hrun
        exact ⟨_, _, _, hrun, .decreased hid heid hls hle hzero, hdec, by simp⟩
    · rw [if_neg hlt] at hrun
      have heq : new_qty = e.qty := UInt32.le_antisymm hle (UInt32.not_lt.mp hlt)
      have hpos : new_qty ≠ 0 := by
        rw [heq]
        exact hw.positive s e (by rw [hls]; simp)
      -- an equal quantity is a decrease by nothing
      have hstep := Step.decreased hid heid hls hle hpos
      have hsame : a.setLevels s (L ++ ⟨px, q₁ ++ { e with qty := new_qty } :: q₂⟩ :: R) = a := by
        rw [heq, LevelBook.setLevels, ← hls, update_eq_self]
      rw [hsame] at hstep
      exact ⟨_, _, _, hrun, hstep, h, rfl⟩

end OptionsEngine
