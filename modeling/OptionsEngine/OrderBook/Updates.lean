import OptionsEngine.OrderBook.Represents

/-! # The updates of the arrays, as updates of the levels

    One lemma per primitive update of the book: what it does to the levels it
    represents.  `Rep.update_level` is the common frame argument: a level's
    row and queue change, its slots are apart from all others, so everything
    else still represents what it did. -/

namespace OptionsEngine

open Function LiveArray LinkedQueue OrderBook

variable {b b' : OrderBook} {a : LevelBook} {s : Side} {L R : List Level} {l l' : Level}
  {px : Price} {e : Entry} {es q₁ q₂ : List Entry} {ls : List Level}

/-! ## Section 1: Framing -/

theorem QueuesRep.replace {p p' : SlotPool} (h : QueuesRep p (L ++ l :: R))
    (hL : ∀ x ∈ slotsOf L, SameSlot p p' x) (hR : ∀ x ∈ slotsOf R, SameSlot p p' x)
    (hl : QueueRep p' l') : QueuesRep p' (L ++ l' :: R) := by
  intro k hk
  rcases List.mem_append.mp hk with hkL | hkR
  · exact (h k (by simp [hkL])).frame fun x hx => hL x (mem_slotsOf.mpr ⟨k, hkL, hx⟩)
  · rcases List.mem_cons.mp hkR with rfl | hkR
    · exact hl
    · exact (h k (by simp [hkR])).frame fun x hx => hR x (mem_slotsOf.mpr ⟨k, hkR, hx⟩)

/-- Changing one level: its row, its queue and its slots, nobody else's. -/
theorem Rep.replace_level (h : Rep b a) (hls : a.levels s = L ++ l :: R)
    (hother : b'.side s.opposite = b.side s.opposite)
    (hside : SideRep (b'.side s) (L ++ l' :: R))
    (hL : ∀ x ∈ slotsOf L, SameSlot b.slots b'.slots x)
    (hR : ∀ x ∈ slotsOf R, SameSlot b.slots b'.slots x)
    (hopp : ∀ x ∈ slotsOf (a.levels s.opposite), SameSlot b.slots b'.slots x)
    (hqueue : QueueRep b'.slots l')
    (hhead : b'.slots.free_head = b.slots.free_head)
    (hnexts : b'.slots.free_nexts = b.slots.free_nexts)
    (hused : b'.slots.used = b.slots.used) (hindex : b'.index = b.index) :
    Rep b' (a.setLevels s (L ++ l' :: R)) := by
  refine ⟨?_, ?_, ?_, ?_, ?_, ?_⟩
  · intro t
    rcases s.eq_or_opposite t with rfl | rfl
    · rw [levels_setLevels]; exact hside
    · rw [levels_setLevels_opposite, hother]; exact h.sides _
  · intro t
    rcases s.eq_or_opposite t with rfl | rfl
    · rw [levels_setLevels]
      have hold := h.queues t
      rw [hls] at hold
      exact hold.replace hL hR hqueue
    · rw [levels_setLevels_opposite]
      exact (h.queues _).frame hopp
  · rw [hhead]; exact h.free_head
  · rw [hnexts]; exact h.free_chain
  · rw [hused]; exact h.used
  · rw [hindex]; exact h.index

/-- ... in a book whose slots are apart. -/
theorem Rep.update_level (h : Rep b a) (hslot : Slotted a) (hls : a.levels s = L ++ l :: R)
    (hother : b'.side s.opposite = b.side s.opposite)
    (hside : SideRep (b'.side s) (L ++ l' :: R))
    (hsame : ∀ x, x ∉ l.slots → SameSlot b.slots b'.slots x)
    (hqueue : QueueRep b'.slots l')
    (hhead : b'.slots.free_head = b.slots.free_head)
    (hnexts : b'.slots.free_nexts = b.slots.free_nexts)
    (hused : b'.slots.used = b.slots.used) (hindex : b'.index = b.index) :
    Rep b' (a.setLevels s (L ++ l' :: R)) := by
  have hap := hslot.apart hls
  refine h.replace_level hls hother hside ?_ ?_ ?_ hqueue hhead hnexts hused hindex
  · exact fun x hx => hsame x fun hl => hap.left x hl hx
  · exact fun x hx => hsame x fun hl => hap.right x hl hx
  · exact fun x hx => hsame x fun hl => hap.other x hl hx

/-- Freeing a slot that is in no queue and not on the free list. -/
theorem Rep.free_slot (h : Rep b a) {x : Nat} (hx : x ∉ a.free)
    (hlen : a.free.length < kMaxOrders) :
    Rep { b with slots := b.slots.free_slot x } { a with free := x :: a.free } where
  sides := fun t => by rw [side_slots]; exact h.sides t
  queues := fun t => (h.queues t).frame fun y _ => ⟨rfl, rfl, rfl, rfl, rfl, rfl⟩
  free_head := rfl
  free_chain := by
    have hpush := h.free_chain.push hx
    rw [← h.free_head] at hpush
    exact hpush
  used := by
    have hu := h.used
    -- `used` is not zero: a slot is missing from the free list
    have hone : (1 : UInt32) ≤ b.slots.used := by
      rw [UInt32.le_iff_toNat_le]
      show 1 ≤ _
      omega
    show (b.slots.used - 1).toNat + (a.free.length + 1) = _
    rw [UInt32.toNat_sub_of_le _ _ hone]
    rw [UInt32.le_iff_toNat_le] at hone
    change 1 ≤ _ at hone
    show b.slots.used.toNat - 1 + _ = _
    omega
  index := h.index

/-- Replacing the index. -/
theorem Rep.set_index (h : Rep b a) {t : OrderIndex} {m : OrderId → Option (Nat × Side)}
    (ht : t.Represents (encode m)) : Rep { b with index := t } { a with index := m } where
  sides := fun u => by rw [side_index]; exact h.sides u
  queues := h.queues
  free_head := h.free_head
  free_chain := h.free_chain
  used := h.used
  index := ht

/-- Removing a level whose queue is empty. -/
theorem Rep.remove_level (h : Rep b a) (hls : a.levels s = L ++ ⟨px, []⟩ :: R) :
    Rep (b.setSide s ((b.side s).remove_level L.length)) (a.setLevels s (L ++ R)) := by
  refine ⟨?_, ?_, ?_, ?_, ?_, ?_⟩
  · intro t
    rcases s.eq_or_opposite t with rfl | rfl
    · rw [levels_setLevels, side_setSide]; exact (h.row hls).remove
    · rw [levels_setLevels_opposite, side_setSide_opposite]; exact h.sides _
  · intro t
    rw [slots_setSide]
    rcases s.eq_or_opposite t with rfl | rfl
    · rw [levels_setLevels]
      have hq := h.queues t
      rw [hls] at hq
      intro k hk
      exact hq k (by
        rcases List.mem_append.mp hk with hk | hk
        · simp [hk]
        · simp [hk])
    · rw [levels_setLevels_opposite]; exact h.queues _
  · rw [slots_setSide]; exact h.free_head
  · rw [slots_setSide]; exact h.free_chain
  · rw [slots_setSide]; exact h.used
  · rw [index_setSide]; exact h.index

/-! ## Section 2: Counters -/

theorem ofNat_sub_toNat {n : Nat} {f : UInt32} (h : f.toNat ≤ n) :
    UInt32.ofNat n - f = UInt32.ofNat (n - f.toNat) := by
  rw [UInt32.ofNat_sub h, UInt32.ofNat_toNat]

theorem ofNat_add_toNat (n : Nat) (f : UInt32) :
    UInt32.ofNat n + f = UInt32.ofNat (n + f.toNat) := by
  rw [UInt32.ofNat_add, UInt32.ofNat_toNat]

theorem ofNat_succ_sub_one (n : Nat) : UInt32.ofNat (n + 1) - 1 = UInt32.ofNat n := by
  rw [ofNat_sub_toNat (by simp)]
  rfl

theorem min_toNat_le_right (x y : UInt32) : (min x y).toNat ≤ y.toNat := by
  rw [UInt32.toNat_min]
  exact Nat.min_le_right _ _

theorem toNat_sub_min_right (x y : UInt32) : (y - min x y).toNat = y.toNat - (min x y).toNat :=
  UInt32.toNat_sub_of_le _ _ (UInt32.le_iff_toNat_le.mpr (min_toNat_le_right x y))

/-- The cells of a row, read off the arrays. -/
theorem SideRep.cells {side : OrderBook.Side} (h : SideRep side (L ++ l :: R)) :
    side.prices L.length = l.price ∧ side.qtys L.length = UInt32.ofNat l.total ∧
      side.order_counts L.length = UInt32.ofNat l.queue.length ∧
      side.head_idxs L.length = l.slots.headD NULL_IDX ∧
      side.tail_idxs L.length = l.slots.getLastD NULL_IDX := by
  have hr := h.row_at
  simp only [OrderBook.Side.row, Level.row, Row.mk.injEq] at hr
  exact hr

/-! ## Section 3: Unlinking -/

theorem getLastD_of_ne_nil {xs : List Nat} (h : xs ≠ []) (d d' : Nat) :
    xs.getLastD d = xs.getLastD d' := by
  cases xs with
  | nil => exact absurd rfl h
  | cons x xs => rw [List.getLastD_cons, List.getLastD_cons]

/-- The state after unlinking the slot of `e` from its level. -/
structure Unlinked (side : OrderBook.Side) (p : SlotPool) (n : Nat) (xs : List Nat) (e : Entry)
    (ys : List Nat) : Prop where
  linked : Seg (unlink side p n e.slot).2.nexts (unlink side p n e.slot).2.prevs NULL_IDX
    (xs ++ ys) NULL_IDX
  head : (unlink side p n e.slot).1.head_idxs n = (xs ++ ys).headD NULL_IDX
  tail : (unlink side p n e.slot).1.tail_idxs n = (xs ++ ys).getLastD NULL_IDX
  heads : ∀ i, i ≠ n → (unlink side p n e.slot).1.head_idxs i = side.head_idxs i
  tails : ∀ i, i ≠ n → (unlink side p n e.slot).1.tail_idxs i = side.tail_idxs i
  nexts : ∀ x, x ∉ xs → (unlink side p n e.slot).2.nexts x = p.nexts x
  prevs : ∀ x, x ∉ ys → (unlink side p n e.slot).2.prevs x = p.prevs x

theorem getLastD_null {xs : List Nat} (h : NULL_IDX ∉ xs) :
    xs.getLastD NULL_IDX = NULL_IDX ↔ xs = [] := by
  rcases List.eq_nil_or_concat xs with rfl | ⟨zs, z, rfl⟩
  · simp
  · rw [List.concat_eq_append] at *
    rw [List.getLastD_concat]
    constructor
    · intro hz; exact absurd (by simp [hz]) h
    · intro hz; simp at hz

theorem headD_null {xs : List Nat} (h : NULL_IDX ∉ xs) :
    xs.headD NULL_IDX = NULL_IDX ↔ xs = [] := by
  cases xs with
  | nil => simp
  | cons x xs =>
    simp only [List.headD_cons, reduceCtorEq, iff_false]
    exact fun hx => h (by simp [hx])

theorem getLastD_mem {xs : List Nat} (h : xs ≠ []) (d : Nat) : xs.getLastD d ∈ xs := by
  rcases List.eq_nil_or_concat xs with rfl | ⟨zs, z, rfl⟩
  · exact absurd rfl h
  · rw [List.concat_eq_append, List.getLastD_concat]
    simp

theorem headD_mem {xs : List Nat} (h : xs ≠ []) (d : Nat) : xs.headD d ∈ xs := by
  cases xs with
  | nil => exact absurd rfl h
  | cons x xs => simp

theorem unlinked {side : OrderBook.Side} {p : SlotPool} {n : Nat} {xs ys : List Nat}
    (hseg : Seg p.nexts p.prevs NULL_IDX (xs ++ e.slot :: ys) NULL_IDX)
    (hnd : (xs ++ e.slot :: ys).Nodup) (hnull : NULL_IDX ∉ xs ++ e.slot :: ys)
    (hhead : side.head_idxs n = (xs ++ e.slot :: ys).headD NULL_IDX)
    (htail : side.tail_idxs n = (xs ++ e.slot :: ys).getLastD NULL_IDX) :
    Unlinked side p n xs e ys := by
  have hmid := ((seg_append _ _ _ _).mp hseg).2
  have hprev : p.prevs e.slot = xs.getLastD NULL_IDX := hmid.1
  have hnext : p.nexts e.slot = ys.headD NULL_IDX := hmid.2.1
  have hnx : NULL_IDX ∉ xs := fun h => hnull (by simp [h])
  have hny : NULL_IDX ∉ ys := fun h => hnull (by simp [h])
  have hpn := getLastD_null hnx
  have hnn := headD_null hny
  -- a neighbour is null exactly at that end of the queue
  refine ⟨?_, ?_, ?_, ?_, ?_, ?_, ?_⟩
  · have h := hseg.unlink hnd hnull
    simp only [unlink, hprev, hnext]
    simpa only [unlinkNexts, unlinkPrevs, ite_not] using h
  · simp only [unlink, hprev, hnext]
    by_cases hx : xs = []
    · subst hx
      simp
    · rw [if_pos (fun h => hx (hpn.mp h)), hhead]
      cases xs with
      | nil => exact absurd rfl hx
      | cons x xs => rfl
  · simp only [unlink, hprev, hnext]
    by_cases hy : ys = []
    · subst hy
      simp
    · rw [if_pos (fun h => hy (hnn.mp h)), htail, getLastD_append, getLastD_append,
        List.getLastD_cons]
      exact getLastD_of_ne_nil hy _ _
  · intro i hi
    simp only [unlink]
    split
    · rfl
    · exact update_of_ne hi _ _
  · intro i hi
    simp only [unlink]
    split
    · rfl
    · exact update_of_ne hi _ _
  · intro x hx
    simp only [unlink, hprev, hnext]
    split
    · next h =>
      have hne : xs ≠ [] := fun hx' => h (hpn.mpr hx')
      exact update_of_ne (fun heq : x = _ => hx (heq ▸ getLastD_mem hne _)) _ _
    · rfl
  · intro x hx
    simp only [unlink, hprev, hnext]
    split
    · next h =>
      have hne : ys ≠ [] := fun hy' => h (hnn.mpr hy')
      exact update_of_ne (fun heq : x = _ => hx (heq ▸ headD_mem hne _)) _ _
    · rfl

/-- What the book says about a level in the middle of a side. -/
theorem Rep.unlinked (h : Rep b a) (hap : Apart a s L ⟨px, q₁ ++ e :: q₂⟩ R)
    (hls : a.levels s = L ++ ⟨px, q₁ ++ e :: q₂⟩ :: R) {side : OrderBook.Side}
    (hhead : side.head_idxs = (b.side s).head_idxs)
    (htail : side.tail_idxs = (b.side s).tail_idxs) :
    Unlinked side b.slots L.length (q₁.map Entry.slot) e (q₂.map Entry.slot) := by
  obtain ⟨_, _, _, hh, ht⟩ := (h.row hls).cells
  have hslots : (⟨px, q₁ ++ e :: q₂⟩ : Level).slots =
      q₁.map Entry.slot ++ e.slot :: q₂.map Entry.slot := by simp
  have hlink := (h.queue hls).linked
  have hnd := hap.nodup
  have hnull := hap.null_notMem
  rw [hslots] at hh ht hlink hnd hnull
  exact OptionsEngine.unlinked hlink hnd hnull (by rw [hhead, hh]) (by rw [htail, ht])

theorem ofNat_eq_zero {n : Nat} (h : n ≤ kMaxOrders) : UInt32.ofNat n = 0 ↔ n = 0 := by
  have hk : kMaxOrders = 65536 := rfl
  rw [UInt32.ofNat_eq_iff_mod_eq_toNat]
  show n % 2 ^ 32 = 0 ↔ n = 0
  omega

/-- The side with an order of quantity `f` taken off the counters of level `n`. -/
def uncount (side : OrderBook.Side) (n : Nat) (f : Qty) : OrderBook.Side :=
  { side with
    qtys := update side.qtys n (side.qtys n - f)
    order_counts := update side.order_counts n (side.order_counts n - 1) }

/-- The row and the links of a level after a slot has left its queue, before
    the slot is freed. -/
theorem Rep.remove_order (h : Rep b a) (hslot : Slotted a)
    (hls : a.levels s = L ++ ⟨px, q₁ ++ e :: q₂⟩ :: R) {r : OrderBook.Side × SlotPool}
    (hr : r = unlink (uncount (b.side s) L.length e.qty) b.slots L.length e.slot) :
    Rep { b.setSide s r.1 with slots := r.2 } (a.setLevels s (L ++ ⟨px, q₁ ++ q₂⟩ :: R)) := by
  subst hr
  have hq := h.queue hls
  obtain ⟨hc1, hc2, hc3, _, _⟩ := (h.row hls).cells
  have hun : Unlinked (uncount (b.side s) L.length e.qty) b.slots L.length (q₁.map Entry.slot) e
      (q₂.map Entry.slot) := h.unlinked (hslot.apart hls) hls rfl rfl
  refine h.update_level hslot hls (side_setSide_slots_opposite _ _ _ _) ?_ ?_ ?_ rfl rfl rfl
    (index_setSide _ _ _)
  · rw [side_setSide_slots]
    refine (h.row hls).set rfl ?_ ?_
    · intro i hi
      simp only [OrderBook.Side.row, Row.mk.injEq]
      exact ⟨rfl, update_of_ne hi _ _, update_of_ne hi _ _, hun.heads i hi, hun.tails i hi⟩
    · simp only [OrderBook.Side.row, Level.row, Row.mk.injEq, slots_mk, List.map_append]
      refine ⟨hc1, ?_, ?_, hun.head, hun.tail⟩
      · rw [total_middle] at hc2
        show update _ _ _ L.length = _
        rw [update_self, hc2, ofNat_sub_toNat (Nat.le_add_left _ _), Nat.add_sub_cancel]
      · have hlen : (q₁ ++ e :: q₂).length = (q₁ ++ q₂).length + 1 := by simp; omega
        show update _ _ _ L.length = _
        rw [update_self, hc3, hlen, ofNat_succ_sub_one]
  · intro x hx
    have hx1 : x ∉ q₁.map Entry.slot := fun hm => hx (by simp_all)
    have hx2 : x ∉ q₂.map Entry.slot := fun hm => hx (by simp_all)
    exact ⟨rfl, rfl, hun.nexts x hx1, hun.prevs x hx2, rfl, rfl⟩
  · refine ⟨?_, ?_⟩
    · have hlink := hun.linked
      rwa [← List.map_append] at hlink
    · intro e' he'
      have hmem : e' ∈ q₁ ++ e :: q₂ := by
        rcases List.mem_append.mp he' with hm | hm
        · simp [hm]
        · simp [hm]
      exact (hq.stored e' hmem).congr ⟨rfl, rfl, rfl, rfl⟩

/-- `remove_order_from_level` takes the entry out, frees its slot and drops
    the level if that was its last order. -/
theorem Rep.remove_order_from_level (h : Rep b a) (hslot : Slotted a)
    (hls : a.levels s = L ++ ⟨px, q₁ ++ e :: q₂⟩ :: R) :
    Rep (b.remove_order_from_level s L.length e.slot)
      { a with
        levels := update a.levels s (L ++ keep px (q₁ ++ q₂) ++ R)
        free := e.slot :: a.free } := by
  have hap := hslot.apart hls
  have hmem : e.slot ∈ slotsOf (a.levels s) := by rw [hls]; simp
  have hqty : b.slots.qtys e.slot = e.qty := ((h.queue hls).stored e (by simp)).qty
  generalize hr : unlink (uncount (b.side s) L.length e.qty) b.slots L.length e.slot = r
  have hfreed := (h.remove_order hslot hls hr.symm).free_slot (x := e.slot)
    (hap.free _ (by simp)) (hslot.free_length_lt hmem)
  have hcount : r.1.order_counts L.length = UInt32.ofNat (q₁ ++ q₂).length := by
    have hside := hfreed.row (levels_setLevels _ _ _)
    rw [side_slots, side_setSide_slots] at hside
    exact hside.cells.2.2.1
  have hle : (q₁ ++ q₂).length ≤ kMaxOrders := by
    have := hap.length_le
    simp only [List.length_append, List.length_cons] at this ⊢
    omega
  have hcode : b.remove_order_from_level s L.length e.slot =
      { b.setSide s (if r.1.order_counts L.length = 0 then r.1.remove_level L.length else r.1) with
        slots := r.2.free_slot e.slot } := by
    rw [← hr, uncount, ← hqty]
    rfl
  rw [hcode]
  -- the count of the level decides whether it goes
  by_cases hnil : q₁ ++ q₂ = []
  · have hzero : r.1.order_counts L.length = 0 := by
      rw [hcount, hnil]; rfl
    have hempty : (a.setLevels s (L ++ ⟨px, q₁ ++ q₂⟩ :: R)).levels s = L ++ ⟨px, []⟩ :: R := by
      rw [levels_setLevels, hnil]
    have hgone := hfreed.remove_level hempty
    have hkeep : L ++ keep px (q₁ ++ q₂) ++ R = L ++ R := by simp [keep, hnil]
    rw [side_slots, side_setSide_slots] at hgone
    rw [hkeep, if_pos hzero]
    have hlevels : update a.levels s (L ++ R) =
        update (update a.levels s (L ++ ⟨px, q₁ ++ q₂⟩ :: R)) s (L ++ R) := by
      rw [update_idem]
    rw [hlevels]
    refine hgone.congr ?_ ?_ ?_
    · intro u; cases s <;> cases u <;> rfl
    · rw [slots_setSide]
    · simp
  · have hne : r.1.order_counts L.length ≠ 0 := by
      rw [hcount, Ne, ofNat_eq_zero hle]
      simpa using hnil
    have hkeep : L ++ keep px (q₁ ++ q₂) ++ R = L ++ ⟨px, q₁ ++ q₂⟩ :: R := by
      simp [keep, hnil]
    rw [hkeep, if_neg hne]
    exact hfreed

/-! ## Section 4: Appending -/

/-- The state `r` after appending slot `x` to the queue `qs` of level `n`. -/
structure Appended (side : OrderBook.Side) (p : SlotPool) (r : OrderBook.Side × SlotPool)
    (n : Nat) (qs : List Nat) (x : Nat) : Prop where
  linked : Seg r.2.nexts r.2.prevs NULL_IDX (qs ++ [x]) NULL_IDX
  head : r.1.head_idxs n = (qs ++ [x]).headD NULL_IDX
  tail : r.1.tail_idxs n = (qs ++ [x]).getLastD NULL_IDX
  heads : ∀ i, i ≠ n → r.1.head_idxs i = side.head_idxs i
  tails : ∀ i, i ≠ n → r.1.tail_idxs i = side.tail_idxs i
  nexts : ∀ y, y ∉ qs → y ≠ x → r.2.nexts y = p.nexts y
  prevs : ∀ y, y ≠ x → r.2.prevs y = p.prevs y
  same_side : r.1.prices = side.prices ∧ r.1.qtys = side.qtys ∧
    r.1.order_counts = side.order_counts ∧ r.1.count = side.count
  same_slots : r.2.ids = p.ids ∧ r.2.qtys = p.qtys ∧ r.2.prices = p.prices ∧
    r.2.accounts = p.accounts
  same_free : r.2.free_head = p.free_head ∧ r.2.free_nexts = p.free_nexts ∧ r.2.used = p.used

section append
variable {side : OrderBook.Side} {p : SlotPool} {n x : Nat} {qs : List Nat}

theorem appended_again (hseg : Seg p.nexts p.prevs NULL_IDX qs NULL_IDX) (hnd : qs.Nodup)
    (hnull : NULL_IDX ∉ qs) (hx : x ∉ qs)
    (hhead : side.head_idxs n = qs.headD NULL_IDX)
    (htail : side.tail_idxs n = qs.getLastD NULL_IDX) :
    Appended side p (append_again side p n x) n qs x := by
  -- the queue is empty, or its tail `t` gets a successor
  rcases List.eq_nil_or_concat qs with rfl | ⟨zs, t, rfl⟩
  · have h0 : side.head_idxs n = NULL_IDX := hhead
    simp only [append_again, if_pos h0]
    refine ⟨by simp, by simp, by simp, ?_, ?_, ?_, ?_, ⟨rfl, rfl, rfl, rfl⟩,
      ⟨rfl, rfl, rfl, rfl⟩, ⟨rfl, rfl, rfl⟩⟩
    · exact fun i hi => update_of_ne hi _ _
    · exact fun i hi => update_of_ne hi _ _
    · exact fun y _ hy => update_of_ne hy _ _
    · exact fun y hy => update_of_ne hy _ _
  · rw [List.concat_eq_append] at *
    have h0 : side.head_idxs n ≠ NULL_IDX := by
      rw [hhead, Ne, headD_null hnull]
      simp
    have ht : side.tail_idxs n = t := by rw [htail, List.getLastD_concat]
    simp only [append_again, if_neg h0, ht]
    refine ⟨hseg.snoc hnd hx, ?_, ?_, fun _ _ => rfl, ?_, ?_, ?_, ⟨rfl, rfl, rfl, rfl⟩,
      ⟨rfl, rfl, rfl, rfl⟩, ⟨rfl, rfl, rfl⟩⟩
    · rw [hhead, headD_append (zs ++ [t])]
      cases zs <;> rfl
    · rw [List.getLastD_concat]
      exact update_self _ _ _
    · exact fun i hi => update_of_ne hi _ _
    · intro y hy hyx
      have hyt : y ≠ t := fun heq => hy (by simp [heq])
      show update _ _ _ y = _
      rw [update_of_ne hyx, update_of_ne hyt]
    · exact fun y hy => update_of_ne hy _ _

/-- A fresh slot, whose forward link was cleared beforehand, ends with the same
    links. -/
theorem append_new_eq (hnx : p.nexts x = NULL_IDX)
    (htail : side.head_idxs n ≠ NULL_IDX → side.tail_idxs n ≠ x) :
    append_new side p n x = append_again side p n x := by
  have hself : update p.nexts x NULL_IDX = p.nexts := by rw [← hnx, update_eq_self]
  unfold append_new append_again
  split
  · rw [hself]
  · next h0 =>
    dsimp only
    rw [update_comm (htail h0), hself]

end append

/-- The side with an order of quantity `f` added to the counters of level `n`. -/
def recount (side : OrderBook.Side) (n : Nat) (f : Qty) : OrderBook.Side :=
  { side with
    qtys := update side.qtys n (side.qtys n + f)
    order_counts := update side.order_counts n (side.order_counts n + 1) }

/-- An order that was written to a slot outside all queues joins the back of
    the queue of a level. -/
theorem Rep.join (h : Rep b a) (hls : a.levels s = L ++ ⟨px, es⟩ :: R)
    (hap : Apart a s L ⟨px, es⟩ R) (hout : ∀ t, e.slot ∉ slotsOf (a.levels t))
    {p : SlotPool} (hst : Stored p px e) (hwrite : ∀ y, y ≠ e.slot → SameSlot b.slots p y)
    (hfree : p.free_head = b.slots.free_head ∧ p.free_nexts = b.slots.free_nexts ∧
      p.used = b.slots.used)
    {r : OrderBook.Side × SlotPool} (hr : r = append_again (b.side s) p L.length e.slot) :
    Rep { b.setSide s (recount r.1 L.length e.qty) with slots := r.2 }
      (a.setLevels s (L ++ ⟨px, es ++ [e]⟩ :: R)) := by
  obtain ⟨hc1, hc2, hc3, hc4, hc5⟩ := (h.row hls).cells
  have hown := hout s
  rw [hls, slotsOf_append, slotsOf_cons, List.mem_append, List.mem_append, slots_mk] at hown
  obtain ⟨hxL, hxq, hxR⟩ :
      e.slot ∉ slotsOf L ∧ e.slot ∉ es.map Entry.slot ∧ e.slot ∉ slotsOf R := by tauto
  have hne : ∀ y ∈ es.map Entry.slot, y ≠ e.slot := fun y hy heq => hxq (heq ▸ hy)
  -- writing the slot does not touch the queue it is going to join
  have hqueue : QueueRep p ⟨px, es⟩ :=
    (h.queue hls).frame fun y hy => hwrite y (hne y hy)
  have happ : Appended (b.side s) p r L.length (es.map Entry.slot) e.slot :=
    hr ▸ appended_again hqueue.linked hap.nodup hap.null_notMem hxq hc4 hc5
  obtain ⟨hs1, hs2, hs3, hs4⟩ := happ.same_side
  obtain ⟨hp1, hp2, hp3, hp4⟩ := happ.same_slots
  obtain ⟨hf1, hf2, hf3⟩ := happ.same_free
  have hslots : es.map Entry.slot ++ [e.slot] = (es ++ [e]).map Entry.slot := by simp
  have hframe : ∀ y, y ∉ es.map Entry.slot → y ≠ e.slot → SameSlot b.slots r.2 y :=
    fun y hyq hyx => (hwrite y hyx).trans
      ⟨by rw [hp1], by rw [hp2], happ.nexts y hyq hyx, happ.prevs y hyx, by rw [hp3], by rw [hp4]⟩
  refine h.replace_level hls (side_setSide_slots_opposite _ _ _ _) ?_ ?_ ?_ ?_ ?_
    (hf1.trans hfree.1) (hf2.trans hfree.2.1) (hf3.trans hfree.2.2) (index_setSide _ _ _)
  · rw [side_setSide_slots]
    refine (h.row hls).set hs4 ?_ ?_
    · intro i hi
      simp only [OrderBook.Side.row, recount, update_of_ne hi, hs1, hs2, hs3, happ.heads i hi,
        happ.tails i hi]
    · simp only [OrderBook.Side.row, recount, Level.row, Row.mk.injEq, update_self, hs1, hs2, hs3,
        happ.head, happ.tail, hslots, slots_mk]
      refine ⟨hc1, ?_, ?_, trivial, trivial⟩
      · rw [hc2, ofNat_add_toNat, total_middle, List.append_nil]
      · rw [hc3, List.length_append, List.length_singleton, UInt32.ofNat_add]
        rfl
  · exact fun y hy => hframe y (fun hm => hap.left y hm hy) fun he => hxL (he ▸ hy)
  · exact fun y hy => hframe y (fun hm => hap.right y hm hy) fun he => hxR (he ▸ hy)
  · exact fun y hy => hframe y (fun hm => hap.other y hm hy) fun he => hout s.opposite (he ▸ hy)
  · refine ⟨by rw [slots_mk, ← hslots]; exact happ.linked, ?_⟩
    intro e' he'
    rcases List.mem_append.mp he' with hm | hm
    · exact (hqueue.stored e' hm).congr happ.same_slots
    · rw [List.mem_singleton] at hm
      exact hm ▸ hst.congr happ.same_slots

/-! ## Section 5: Modifying -/

/-- A decrease only rewrites quantities. -/
theorem Rep.decrease (h : Rep b a) (hslot : Slotted a)
    (hls : a.levels s = L ++ ⟨px, q₁ ++ e :: q₂⟩ :: R) {new_qty : Qty} (hle : new_qty ≤ e.qty) :
    Rep
      { b.setSide s
          { b.side s with
            qtys := update (b.side s).qtys L.length
              ((b.side s).qtys L.length - (e.qty - new_qty)) } with
        slots := { b.slots with qtys := update b.slots.qtys e.slot new_qty } }
      (a.setLevels s (L ++ ⟨px, q₁ ++ { e with qty := new_qty } :: q₂⟩ :: R)) := by
  have hap := hslot.apart hls
  have hq := h.queue hls
  obtain ⟨hc1, hc2, hc3, hc4, hc5⟩ := (h.row hls).cells
  have hsub := UInt32.toNat_sub_of_le _ _ hle
  have hle' := UInt32.le_iff_toNat_le.mp hle
  have hslots : (q₁ ++ { e with qty := new_qty } :: q₂).map Entry.slot =
      (q₁ ++ e :: q₂).map Entry.slot := by simp
  refine h.update_level hslot hls (side_setSide_slots_opposite _ _ _ _) ?_ ?_ ?_ rfl rfl rfl
    (index_setSide _ _ _)
  · rw [side_setSide_slots]
    refine (h.row hls).set rfl ?_ ?_
    · intro i hi
      simp only [OrderBook.Side.row, update_of_ne hi]
    · simp only [OrderBook.Side.row, Level.row, Row.mk.injEq, update_self, slots_mk, hslots]
      refine ⟨hc1, ?_, by rw [hc3]; simp, hc4, hc5⟩
      rw [total_middle] at hc2 ⊢
      rw [hc2, ofNat_sub_toNat (by omega)]
      congr 1
      dsimp only
      omega
  · exact fun x hx => sameSlot_set_qty _ _ fun hxe => hx (by simp [hxe])
  · refine ⟨by rw [slots_mk, hslots]; exact hq.linked, ?_⟩
    intro e' he'
    rcases List.mem_append.mp he' with hm | hm
    · exact (hq.stored e' (by simp [hm])).frame
        (sameSlot_set_qty _ _ (hap.slot_ne (by simp [hm])))
    · rcases List.mem_cons.mp hm with rfl | hm
      · exact (hq.stored e (by simp)).set_qty new_qty
      · exact (hq.stored e' (by simp [hm])).frame
          (sameSlot_set_qty _ _ (hap.slot_ne (by simp [hm])))

/-- Unlinking and appending do not look at the counters or the quantities. -/
theorem unlink_uncount (side : OrderBook.Side) (p : SlotPool) (n x : Nat) (f : Qty) :
    unlink (uncount side n f) p n x = (uncount (unlink side p n x).1 n f, (unlink side p n x).2) :=
  rfl

theorem append_again_uncount (side : OrderBook.Side) (p : SlotPool) (n x : Nat) (f : Qty)
    (q : Nat → Qty) :
    append_again (uncount side n f) { p with qtys := q } n x =
      (uncount (append_again side p n x).1 n f, { (append_again side p n x).2 with qtys := q }) := by
  rw [append_again, append_again]
  show (if side.head_idxs n = NULL_IDX then _ else _) = _
  split <;> rfl

theorem recount_uncount (side : OrderBook.Side) (n : Nat) (old new : Qty) :
    recount (uncount side n old) n new =
      { side with qtys := update side.qtys n (side.qtys n + (new - old)) } := by
  have hqty : side.qtys n - old + new = side.qtys n + (new - old) := by
    rw [UInt32.sub_eq_add_neg, UInt32.sub_eq_add_neg, UInt32.add_assoc, UInt32.add_comm (-old)]
  simp only [recount, uncount, update_idem, update_self, hqty, UInt32.sub_add_cancel,
    update_eq_self]

/-- An increase moves the entry to the back of its queue. -/
theorem Rep.increase (h : Rep b a) (hslot : Slotted a)
    (hls : a.levels s = L ++ ⟨px, q₁ ++ e :: q₂⟩ :: R) {new_qty : Qty}
    {r : OrderBook.Side × SlotPool}
    (hr : r = append_again (unlink (b.side s) b.slots L.length e.slot).1
      (unlink (b.side s) b.slots L.length e.slot).2 L.length e.slot) :
    Rep
      { b.setSide s
          { r.1 with
            qtys := update r.1.qtys L.length (r.1.qtys L.length + (new_qty - e.qty)) } with
        slots := { r.2 with qtys := update r.2.qtys e.slot new_qty } }
      (a.setLevels s (L ++ ⟨px, q₁ ++ q₂ ++ [{ e with qty := new_qty }]⟩ :: R)) := by
  -- "exactly as if it were a brand-new order": the order is removed, then joins again
  obtain ⟨hap, hout⟩ := (hslot.apart hls).without
  have hrem := h.remove_order hslot hls rfl
  have hst : Stored (unlink (b.side s) b.slots L.length e.slot).2 px e :=
    ((h.queue hls).stored e (by simp)).congr ⟨rfl, rfl, rfl, rfl⟩
  have hjoin := hrem.join (levels_setLevels _ _ _) hap (e := { e with qty := new_qty }) hout
    (hst.set_qty new_qty) (fun y hy => sameSlot_set_qty _ _ hy) ⟨rfl, rfl, rfl⟩ rfl
  rw [side_setSide_slots, unlink_uncount, append_again_uncount, recount_uncount, ← hr] at hjoin
  rw [LevelBook.setLevels, LevelBook.setLevels, update_idem] at hjoin
  have hqtys : (unlink (b.side s) b.slots L.length e.slot).2.qtys = r.2.qtys := by
    rw [hr, append_again]
    split <;> rfl
  rw [hqtys] at hjoin
  refine hjoin.congr ?_ rfl (by simp)
  intro t
  cases s <;> cases t <;> rfl

/-! ## Section 6: Matching -/

/-- A fill against the head of the best level takes its quantity off, as a
    decrease does. -/
theorem Rep.fill_head {m : MatchState} (h : Rep m.book a) (hslot : Slotted a)
    (hls : a.levels s = ⟨px, e :: es⟩ :: ls) :
    Rep (OrderBook.fill_head s px m e.slot).book
      (a.setLevels s
        (⟨px, { e with qty := e.qty - min m.incoming.qty_remaining e.qty } :: es⟩ :: ls)) := by
  have hst := (h.queue (L := []) hls).stored e (by simp)
  have hmin : min m.incoming.qty_remaining e.qty ≤ e.qty :=
    UInt32.le_iff_toNat_le.mpr (min_toNat_le_right _ _)
  have hle : e.qty - min m.incoming.qty_remaining e.qty ≤ e.qty := by
    rw [UInt32.le_iff_toNat_le, toNat_sub_min_right]
    exact Nat.sub_le _ _
  have hhead : a.levels s = [] ++ ⟨px, [] ++ e :: es⟩ :: ls := hls
  have hdec := h.decrease hslot hhead hle
  have hback : e.qty - (e.qty - min m.incoming.qty_remaining e.qty) =
      min m.incoming.qty_remaining e.qty := by
    rw [← UInt32.toNat_inj, UInt32.toNat_sub_of_le _ _ hle, UInt32.toNat_sub_of_le _ _ hmin]
    have := min_toNat_le_right m.incoming.qty_remaining e.qty
    omega
  rw [hback] at hdec
  refine hdec.congr ?_ ?_ ?_
  · intro t
    simp only [OrderBook.fill_head, hst.qty]
    cases s <;> cases t <;> rfl
  · simp only [OrderBook.fill_head, hst.qty]
  · simp only [OrderBook.fill_head, index_setSide]

/-- The table keeps an empty entry while ids index distinct slots of the pool. -/
theorem Rep.hasEmpty (h : Rep b a) (hw : WF a) :
    ProbeTable.HasEmpty OrderIndex.layout b.index.table := by
  have hslot : Slotted a := hw.slots
  have hfind : ∀ id v, encode a.index id = some v →
      ∃ t, ∃ e ∈ entriesOf (a.levels t), e.slot = v.1 ∧ e.id = id := by
    intro id v hv
    cases hm : a.index id with
    | none => simp [encode, hm] at hv
    | some w =>
      obtain ⟨e, he, h1, h2⟩ := hw.indexed id w.1 w.2 hm
      have hv' : v = (w.1, sideIdx w.2) := by simpa [encode, hm] using hv.symm
      exact ⟨w.2, e, he, by rw [hv', h1], h2⟩
  have hmem : ∀ t, ∀ e ∈ entriesOf (a.levels t), e.slot ∈ slotsOf (a.levels t) := by
    intro t e he
    rw [slotsOf_eq]
    exact List.mem_map.mpr ⟨e, he, rfl⟩
  refine h.index.hasEmpty ?_ ?_
  · intro id v hv
    obtain ⟨t, e, he, h1, _⟩ := hfind id v hv
    rw [← h1]
    exact hslot.lt t (by simp [hmem t e he])
  · intro id id' v v' hv hv' heq
    obtain ⟨t, e, he, h1, h2⟩ := hfind id v hv
    obtain ⟨t', e', he', h1', h2'⟩ := hfind id' v' hv'
    -- both entries store their id in the same slot
    have hid : ∀ u, ∀ e ∈ entriesOf (a.levels u), b.slots.ids e.slot = e.id := by
      intro u e he
      obtain ⟨k, hk, hek⟩ := List.mem_flatMap.mp he
      exact ((h.queues u k hk).stored e hek).id
    rw [← h2, ← h2', ← hid t e he, ← hid t' e' he', h1, h1', heq]

/-- Dequeuing the head writes the links that unlinking it would. -/
theorem dequeue_eq_unlink (side : OrderBook.Side) {p : SlotPool} {n x : Nat}
    (hprev : p.prevs x = NULL_IDX) :
    unlink (uncount side n 0) p n x =
      ({ side with
          head_idxs := update side.head_idxs n (p.nexts x)
          tail_idxs :=
            if p.nexts x = NULL_IDX then update side.tail_idxs n NULL_IDX else side.tail_idxs
          order_counts := update side.order_counts n (side.order_counts n - 1) },
        if p.nexts x = NULL_IDX then p
        else { p with prevs := update p.prevs (p.nexts x) NULL_IDX }) := by
  have hqtys : update side.qtys n (side.qtys n - 0) = side.qtys := by
    rw [UInt32.sub_zero, update_eq_self]
  simp only [unlink, uncount, hprev, hqtys, ne_eq, not_true_eq_false, if_false]
  by_cases hnext : p.nexts x = NULL_IDX
  · simp only [hnext, not_true_eq_false, if_false, if_true]
  · simp only [hnext, not_false_eq_true, if_false, if_true]

/-- Dequeuing a used-up head: its slot is freed and its id erased. -/
theorem Rep.dequeue_head (h : Rep b a) (hslot : Slotted a)
    (hne : ProbeTable.HasEmpty OrderIndex.layout b.index.table)
    (hls : a.levels s = ⟨px, e :: es⟩ :: ls) (hqty : e.qty = 0) :
    ∃ b', OrderBook.dequeue_head s b e.slot = some b' ∧
      Rep b' (a.drop s (⟨px, es⟩ :: ls) e.id e.slot) := by
  have hap := hslot.apart (L := []) hls
  have hq := h.queue (L := []) hls
  have hst := hq.stored e (by simp)
  have hmem : e.slot ∈ slotsOf (a.levels s) := by rw [hls]; simp
  have hprev : b.slots.prevs e.slot = NULL_IDX := hq.linked.1
  -- the index is erased by id; the slot it held need not be this one
  obtain ⟨t, hrem, ht⟩ := h.index.remove hne e.id
  have hhead : a.levels s = [] ++ ⟨px, [] ++ e :: es⟩ :: ls := hls
  have hunl := h.remove_order hslot hhead rfl
  rw [hqty, List.length_nil, dequeue_eq_unlink (b.side s) hprev] at hunl
  have hfreed := hunl.free_slot (hap.free e.slot (by simp)) (hslot.free_length_lt hmem)
  have henc : encode (update a.index e.id none) = update (encode a.index) e.id none := by
    rw [encode_update]; rfl
  rw [← henc] at ht
  refine ⟨_, ?_, hfreed.set_index ht⟩
  rw [OrderBook.dequeue_head, hst.id, hrem]
  rfl

end OptionsEngine
