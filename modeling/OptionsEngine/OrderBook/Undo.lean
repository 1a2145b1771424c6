import OptionsEngine.LevelBook.Inverse
import OptionsEngine.OrderBook.Capacity
import OptionsEngine.OrderBook.Cancel

/-! # Undoing and re-entering an order

    * `cancel_undoes_add`: an order that has just been booked can be cancelled,
      and the book is as before, down to the order of the free slots.
    * `modify_reenters_iff`: a modification is worth a cancel and a new order,
      as long as the index still finds the order. -/

namespace OptionsEngine

open Function LiveArray OrderBook

variable {b b' : OrderBook} {a a' : LevelBook} {s : Side} {o : Order} {rs : List Response}
  {r : Response}

/-! ## Section 1: Cancelling what was just added -/

/-- An id that nobody carries is not indexed. -/
theorem WF.index_absent (hw : WF a) {id : OrderId} (habs : Absent a id) : a.index id = none := by
  cases hid : a.index id with
  | none => rfl
  | some v =>
    obtain ⟨e, he, _, heid⟩ := hw.indexed id v.1 v.2 hid
    exact absurd heid (habs v.2 e he)

/-- A call without reports has no fills. -/
theorem takes_of_no_reports {symbol : SymbolId} {takes : List Take}
    (h : List.Forall₂ (EventOf symbol o) r.events takes) (hquiet : r.reports = []) : takes = [] := by
  have hnone : r.events = [] := List.map_eq_nil_iff.mp hquiet
  rw [hnone, List.forall₂_nil_left_iff] at h
  exact h

/-- A cancel of the order that has just been booked. -/
theorem Rep.cancel_rested {slot : Nat} {free : List Nat} {rem : Qty} (hrep : Rep b a) (hw : WF a)
    (hrep' : Rep b' (a.rest o slot free rem)) (hw' : WF (a.rest o slot free rem))
    (hfree : a.free = slot :: free) (habs : Absent a o.id) :
    ∃ r' b'', b'.cancel_order o.id = some (r', b'') ∧ r'.ret = true ∧ SameBook b b'' := by
  have hindex : (a.rest o slot free rem).index o.id = some (slot, o.side) := update_self _ _ _
  obtain ⟨out, b'', a'', hcancel, hstep, hrep'', _⟩ := hrep'.cancel_order hw' o.id
  refine ⟨_, b'', hcancel, ?_⟩
  cases hstep with
  | cancel_unknown hid => simp [hindex] at hid
  | @cancelled _ t L R px q₁ q₂ e hid heid hls =>
    obtain ⟨hslot, rfl⟩ : slot = e.slot ∧ o.side = t := by simpa [hindex] using hid
    rw [hw.rest_drop hw' hfree (hw.index_absent habs) hls hslot.symm] at hrep''
    exact ⟨rfl, hrep.same hrep'' hw⟩

/-- An order that was booked without a fill under an id of its own, and is then
    cancelled, leaves the book as it found it. -/
theorem cancel_undoes_add {mem : OrderBook} {symbol : SymbolId} {ops : List Op}
    (hrun : (fresh mem symbol).run ops = some (rs, b)) (hnew : ¬ b.Carries o.id)
    (hadd : b.add_order o = some (r, b')) (hquiet : r.reports = []) (hrests : b'.Carries o.id) :
    ∃ r' b'', b'.cancel_order o.id = some (r', b'') ∧ r'.ret = true ∧ SameBook b b'' := by
  obtain ⟨a, a', takes, hrep, hw, hstep, hrep', hevs⟩ := reachable_step hrun hadd
  have hw' := hstep.wf hw
  have habs : Absent a o.id := (hrep.absent_iff hw o.id).mpr hnew
  obtain rfl := takes_of_no_reports hevs hquiet
  -- without a fill, only a booking brings the id into the book
  have hmoved : a' ≠ a := by
    rintro rfl
    exact (hrep'.absent_iff hw o.id).mp habs hrests
  obtain ⟨out, evs⟩ := r
  change Step a (.add o) out [] a' at hstep
  cases hstep with
  | fok_rejected htype hshort => exact absurd rfl hmoved
  | immediate himm hfok hm => exact absurd (hm.untouched rfl) hmoved
  | filled himm hm => exact absurd (hm.untouched rfl) hmoved
  | stp_walled himm hm hrem => exact absurd (hm.untouched rfl) hmoved
  | level_rejected himm hm hrem hn hfull => exact absurd (hm.untouched rfl) hmoved
  | slot_rejected himm hm hrem hroom hfree => exact absurd (hm.untouched rfl) hmoved
  | rested himm hm hrem hroom hfree =>
    obtain rfl := hm.untouched rfl
    exact hrep.cancel_rested hw hrep' hw' hfree habs

/-- A second order at a price, booked and cancelled again. -/
theorem cancel_undoes_add_at_price :
    ∃ rs b r b' r' b'', (fresh zeroed 0).run [.add (sell 7 100 5)] = some (rs, b) ∧
      b.add_order (sell 8 100 5) = some (r, b') ∧ b'.cancel_order 8 = some (r', b'') ∧
      r'.ret = true ∧ SameBook b b'' := by
  have hrun : ((fresh zeroed 0).run [.add (sell 7 100 5)]).map (fun x =>
      (decide (x.2.Carries 8), (x.2.add_order (sell 8 100 5)).map fun y =>
        (y.1.reports, decide (y.2.Carries 8)))) = some (false, some ([], true)) := by
    decide +kernel
  obtain ⟨⟨rs, b⟩, hb, hval⟩ := Option.map_eq_some_iff.mp hrun
  simp only [Prod.mk.injEq, decide_eq_false_iff_not] at hval
  obtain ⟨hnew, hadds⟩ := hval
  obtain ⟨⟨r, b'⟩, hadd, hval⟩ := Option.map_eq_some_iff.mp hadds
  simp only [Prod.mk.injEq, decide_eq_true_eq] at hval
  obtain ⟨r', b'', hcancel, hret, hsame⟩ :=
    cancel_undoes_add hb (o := sell 8 100 5) hnew hadd hval.1 hval.2
  exact ⟨rs, b, r, b', r', b'', hb, hadd, hcancel, hret, hsame⟩

/-! ## Section 2: Modifying as re-entering -/

/-- The index finds an order with this id. -/
def OrderBook.Finds (b : OrderBook) (id : OrderId) : Prop :=
  ∃ v, b.index.lookup id = some (some v)

/-- No two resting orders have the same id. -/
def OrderBook.UniqueIds (b : OrderBook) : Prop :=
  ((b.resting .Buy ++ b.resting .Sell).map b.slots.ids).Nodup

instance (b : OrderBook) : Decidable b.UniqueIds := inferInstanceAs (Decidable (List.Nodup _))

/-- The order resting in slot `x` of side `s`, entered anew with quantity `n`. -/
def OrderBook.reentry (b : OrderBook) (s : OptionsEngine.Side) (x : Nat) (n : Qty) : Order where
  id := b.slots.ids x
  price := b.slots.prices x
  qty := n
  qty_remaining := n
  symbol := b.symbol
  side := s
  type := .Limit
  account_id := b.slots.accounts x

/-- `b'` is `b` with quantity `n` in slot `x` of side `s`, and the total of its
    level changed accordingly. -/
structure OnlyQuantity (b b' : OrderBook) (s : Side) (x : Nat) (n : Qty) : Prop where
  count : ∀ t, (b'.side t).count = (b.side t).count
  rows : ∀ t, ∀ i < (b.side t).count, x ∉ b.queue t i → (b'.side t).row i = (b.side t).row i
  level : ∀ i < (b.side s).count, x ∈ b.queue s i → (b'.side s).row i =
    { (b.side s).row i with qty := (b.side s).qtys i - b.slots.qtys x + n }
  queues : ∀ t, ∀ i < (b.side t).count, b'.queue t i = b.queue t i
  orders : ∀ t, ∀ y ∈ b.resting t,
    SameSlot { b.slots with qtys := update b.slots.qtys x n } b'.slots y
  index : ∀ id, b'.index.lookup id = b.index.lookup id
  free : b'.freeList = b.freeList

/-- What modifying the order in slot `x` of side `s` comes to. -/
structure Reenters (b : OrderBook) (s : Side) (x : Nat) : Prop where
  /-- More quantity: as if cancelled and entered anew. -/
  increase : ∀ n, b.slots.qtys x < n →
    ∃ r b₁ rc b₂ ra b₃, b.modify_order (b.slots.ids x) n = some (r, b₁) ∧
      b.cancel_order (b.slots.ids x) = some (rc, b₂) ∧
      b₂.add_order (b.reentry s x n) = some (ra, b₃) ∧ ra.ret = true ∧ ra.reports = [] ∧
      SameBook b₁ b₃
  /-- No quantity: as if cancelled. -/
  remove : ∃ r b₁ rc b₂, b.modify_order (b.slots.ids x) 0 = some (r, b₁) ∧
    b.cancel_order (b.slots.ids x) = some (rc, b₂) ∧ SameBook b₁ b₂
  /-- No more than before: in place. -/
  decrease : ∀ n, n ≠ 0 → n ≤ b.slots.qtys x →
    ∃ r b₁, b.modify_order (b.slots.ids x) n = some (r, b₁) ∧ OnlyQuantity b b₁ s x n

theorem Rep.finds_iff (h : Rep b a) (hw : WF a) (id : OrderId) :
    b.Finds id ↔ ∃ v, a.index id = some v := by
  unfold OrderBook.Finds
  rw [h.lookup hw]
  cases hid : a.index id with
  | none => simp [encode, hid]
  | some v => simp [encode, hid]

/-- With unique ids, what the index finds is the one order with the id. -/
theorem Rep.index_eq (h : Rep b a) (hw : WF a) (hunique : b.UniqueIds) {e : Entry}
    (he : e ∈ entriesOf (a.levels s)) (hfinds : b.Finds e.id) :
    a.index e.id = some (e.slot, s) := by
  have hslot : Slotted a := hw.slots
  obtain ⟨⟨slot, t⟩, hid⟩ := (h.finds_iff hw e.id).mp hfinds
  obtain ⟨e', he', rfl, heid⟩ := hw.indexed e.id slot t hid
  obtain ⟨l, hl, hel, hst⟩ := h.stored he
  obtain ⟨l', hl', hel', hst'⟩ := h.stored he'
  have hx := (mem_both_sides b e.slot).mpr ⟨s, (h.mem_resting hw).mpr ⟨e, he, rfl⟩⟩
  have hx' := (mem_both_sides b e'.slot).mpr ⟨t, (h.mem_resting hw).mpr ⟨e', he', rfl⟩⟩
  have heq : e'.slot = e.slot :=
    List.inj_on_of_nodup_map hunique hx' hx (by rw [hst'.id, hst.id, heid])
  rw [hid, heq]
  rcases s.eq_or_opposite t with rfl | rfl
  · rfl
  · -- no slot is on both sides
    obtain ⟨L, R, hls⟩ := List.append_of_mem hl
    refine absurd ?_ ((hslot.apart hls).other _ (mem_slots hel))
    rw [← heq]
    exact mem_slotsOf.mpr ⟨l', hl', mem_slots hel'⟩

/-- Where every order is the one its id is indexed to, ids are unique. -/
theorem Exact.uniqueIds (he : Exact a) (h : Rep b a) (hw : WF a) : b.UniqueIds := by
  have hslot : Slotted a := hw.slots
  have hnodup : (b.resting .Buy ++ b.resting .Sell).Nodup := by
    have hall := hslot.nodup .Buy
    rw [h.resting_eq hw, h.resting_eq hw]
    refine hall.sublist (List.Sublist.append_left ?_ _)
    exact List.sublist_append_left _ _
  have hentry : ∀ x ∈ b.resting .Buy ++ b.resting .Sell,
      ∃ s, a.index (b.slots.ids x) = some (x, s) := by
    intro x hx
    obtain ⟨s, hxs⟩ := (mem_both_sides b x).mp hx
    obtain ⟨e, hmem, rfl⟩ := (h.mem_resting hw).mp hxs
    obtain ⟨l, _, _, hst⟩ := h.stored hmem
    rw [hst.id]
    exact ⟨s, he s e hmem⟩
  refine List.Nodup.map_on ?_ hnodup
  intro x hx y hy heq
  obtain ⟨s, hs⟩ := hentry x hx
  obtain ⟨t, ht⟩ := hentry y hy
  rw [heq, ht] at hs
  exact (congrArg Prod.fst (Option.some.inj hs)).symm

/-- A cancel of the entry that the index holds. -/
theorem Step.cancel_at {out : Outcome} {takes : List Take} {L R : List Level} {px : Price}
    {q₁ q₂ : List Entry} {e : Entry} (h : Step a (.cancel e.id) out takes a') (hw : WF a)
    (hls : a.levels s = L ++ ⟨px, q₁ ++ e :: q₂⟩ :: R) (hindex : a.index e.id = some (e.slot, s)) :
    a' = a.drop s (L ++ keep px (q₁ ++ q₂) ++ R) e.id e.slot := by
  cases h with
  | cancel_unknown hid => simp [hindex] at hid
  | cancelled hid heid hls' =>
    obtain ⟨hslot, rfl⟩ : e.slot = _ ∧ s = _ := by simpa [hindex] using hid
    obtain ⟨⟨rfl, rfl⟩, rfl, ⟨rfl, rfl⟩, rfl⟩ := hw.split_unique hls hls' hslot.symm
    rfl

/-- A modification of the entry that the index holds. -/
theorem Step.modify_at {n : Qty} {out : Outcome} {takes : List Take} {L R : List Level}
    {px : Price} {q₁ q₂ : List Entry} {e : Entry} (h : Step a (.modify e.id n) out takes a')
    (hw : WF a) (hls : a.levels s = L ++ ⟨px, q₁ ++ e :: q₂⟩ :: R)
    (hindex : a.index e.id = some (e.slot, s)) :
    (e.qty < n ∧ a' = a.setLevels s (L ++ ⟨px, q₁ ++ q₂ ++ [{ e with qty := n }]⟩ :: R)) ∨
      (n ≤ e.qty ∧ n ≠ 0) ∨
      (n = 0 ∧ a' = a.drop s (L ++ keep px (q₁ ++ q₂) ++ R) e.id e.slot) := by
  cases h with
  | modify_unknown hid => simp [hindex] at hid
  | increased hid heid hls' hqty =>
    obtain ⟨hslot, rfl⟩ : e.slot = _ ∧ s = _ := by simpa [hindex] using hid
    obtain ⟨⟨rfl, rfl⟩, rfl, ⟨rfl, rfl⟩, rfl⟩ := hw.split_unique hls hls' hslot.symm
    exact Or.inl ⟨hqty, rfl⟩
  | decreased hid heid hls' hqty hnew =>
    obtain ⟨hslot, rfl⟩ : e.slot = _ ∧ s = _ := by simpa [hindex] using hid
    obtain ⟨_, _, _, rfl⟩ := hw.split_unique hls hls' hslot.symm
    exact Or.inr (Or.inl ⟨hqty, hnew⟩)
  | emptied hid heid hls' =>
    obtain ⟨hslot, rfl⟩ : e.slot = _ ∧ s = _ := by simpa [hindex] using hid
    obtain ⟨⟨rfl, rfl⟩, rfl, ⟨rfl, rfl⟩, rfl⟩ := hw.split_unique hls hls' hslot.symm
    exact Or.inr (Or.inr ⟨rfl, rfl⟩)

/-- An id that the index does not hold changes nothing. -/
theorem Step.modify_lost {id : OrderId} {n : Qty} {out : Outcome} {takes : List Take}
    (h : Step a (.modify id n) out takes a') (hindex : a.index id = none) : a' = a := by
  cases h with
  | modify_unknown hid => rfl
  | increased hid heid hls hqty => simp [hindex] at hid
  | decreased hid heid hls hqty hnew => simp [hindex] at hid
  | emptied hid heid hls => simp [hindex] at hid

theorem Step.cancel_lost {id : OrderId} {out : Outcome} {takes : List Take}
    (h : Step a (.cancel id) out takes a') (hindex : a.index id = none) : a' = a := by
  cases h with
  | cancel_unknown hid => rfl
  | cancelled hid heid hls => simp [hindex] at hid

/-- A price beyond the limit stops an order that has one. -/
theorem stops_of_better (htype : o.type = .Limit) {p : Price} (h : better o.side p o.price) :
    price_stops o p = true := by
  have hmarket : o.type ≠ .Market := by rw [htype]; decide
  unfold price_stops
  rw [if_neg hmarket]
  cases hs : o.side with
  | Buy =>
    rw [hs] at h
    exact decide_eq_true h
  | Sell =>
    rw [hs] at h
    exact decide_eq_true h

/-- An order at a price of its own side does not reach the other side. -/
theorem Uncrossed.quiet (hu : Uncrossed a) (htype : o.type = .Limit) {l : Level}
    (hl : l ∈ a.levels o.side) (hprice : l.price = o.price) : Quiet a o.side.opposite o := by
  intro k hk
  apply stops_of_better htype
  rw [← hprice]
  exact hu o.side l hl k (List.mem_of_mem_head? hk)

section found
variable {L R : List Level} {px : Price} {q₁ q₂ : List Entry} {e : Entry}

/-- An order entered anew at its price does not reach the other side. -/
theorem Uncrossed.quiet_reentry (hu : Uncrossed a)
    (hls : a.levels s = L ++ ⟨px, q₁ ++ e :: q₂⟩ :: R) (hst : Stored b.slots px e) (n : Qty) :
    Quiet a s.opposite (b.reentry s e.slot n) := by
  have hmem : (⟨px, q₁ ++ e :: q₂⟩ : Level) ∈ a.levels s := by rw [hls]; simp
  exact hu.quiet (o := b.reentry s e.slot n) rfl hmem hst.price.symm

/-- More quantity: the entry goes to the back, as it does when it is dropped
    and booked again. -/
theorem Rep.modify_up (h : Rep b a) (hw : WF a) (hu : Uncrossed a)
    (hls : a.levels s = L ++ ⟨px, q₁ ++ e :: q₂⟩ :: R) (hindex : a.index e.id = some (e.slot, s))
    {n : Qty} (hn : e.qty < n) :
    ∃ r b₁ rc b₂ ra b₃, b.modify_order e.id n = some (r, b₁) ∧
      b.cancel_order e.id = some (rc, b₂) ∧ b₂.add_order (b.reentry s e.slot n) = some (ra, b₃) ∧
      ra.ret = true ∧ ra.reports = [] ∧ SameBook b₁ b₃ := by
  have hst : Stored b.slots px e := (h.queue hls).stored e (by simp)
  have hpos : n ≠ 0 := by
    rintro rfl
    exact absurd hn (by simp)
  obtain ⟨out, b₁, a₁, hmodify, hstep₁, hrep₁, _⟩ := h.modify_order hw e.id n
  obtain ⟨outc, b₂, a₂, hcancel, hstep₂, hrep₂, _⟩ := h.cancel_order hw e.id
  have hw₁ := hstep₁.wf hw
  have hw₂ := hstep₂.wf hw
  obtain rfl := hstep₂.cancel_at hw hls hindex
  obtain ⟨_, rfl⟩ | ⟨hle, _⟩ | ⟨hzero, _⟩ := hstep₁.modify_at hw hls hindex
  · let o := b.reentry s e.slot n
    have hprice : o.price = px := hst.price
    have hid : o.id = e.id := hst.id
    have haccount : o.account_id = e.account := hst.account
    have ho : Restable (a.drop s (L ++ keep px (q₁ ++ q₂) ++ R) e.id e.slot) o := by
      refine ⟨not_immediate_of_limit rfl, hpos, ?_, ?_⟩
      · show Quiet _ s.opposite o
        unfold Quiet
        rw [levels_drop_opposite]
        exact hu.quiet_reentry hls hst n
      · show (∃ l ∈ LevelBook.levels _ s, _) ∨ (LevelBook.levels _ s).length < _
        rw [levels_drop, hprice]
        exact hw.room_after_drop hls
    obtain ⟨b₃, hadd, hrep₃, _⟩ := hrep₂.add_rests hw₂ ho rfl
    have hback := hw.drop_rest hls hindex (o := o) rfl hprice hid haccount n
    change Rep b₃ (LevelBook.rest _ o e.slot a.free n) at hrep₃
    rw [hback] at hrep₃
    exact ⟨_, b₁, _, b₂, _, b₃, hmodify, hcancel, hadd, rfl, rfl, hrep₁.same hrep₃ hw₁⟩
  · exact absurd hn (UInt32.not_lt.mpr hle)
  · exact absurd hzero hpos

/-- No quantity: the entry goes, as it does when it is cancelled. -/
theorem Rep.modify_zero (h : Rep b a) (hw : WF a)
    (hls : a.levels s = L ++ ⟨px, q₁ ++ e :: q₂⟩ :: R) (hindex : a.index e.id = some (e.slot, s)) :
    ∃ r b₁ rc b₂, b.modify_order e.id 0 = some (r, b₁) ∧
      b.cancel_order e.id = some (rc, b₂) ∧ SameBook b₁ b₂ := by
  obtain ⟨out, b₁, a₁, hmodify, hstep₁, hrep₁, _⟩ := h.modify_order hw e.id 0
  obtain ⟨outc, b₂, a₂, hcancel, hstep₂, hrep₂, _⟩ := h.cancel_order hw e.id
  have hw₁ := hstep₁.wf hw
  obtain rfl := hstep₂.cancel_at hw hls hindex
  obtain ⟨hn, _⟩ | ⟨_, hnew⟩ | ⟨_, rfl⟩ := hstep₁.modify_at hw hls hindex
  · exact absurd hn (by simp)
  · exact absurd rfl hnew
  · exact ⟨_, b₁, _, b₂, hmodify, hcancel, hrep₁.same hrep₂ hw₁⟩

/-- The level that holds a slot. -/
theorem Rep.queue_index (h : Rep b a) (hw : WF a)
    (hls : a.levels s = L ++ ⟨px, q₁ ++ e :: q₂⟩ :: R) {i : Nat} (hi : i < (b.side s).count) :
    e.slot ∈ b.queue s i ↔ i = L.length := by
  constructor
  · intro hmem
    obtain ⟨L', l', R', hls', rfl⟩ := h.level_at hi
    rw [h.queue_eq hw hls'] at hmem
    obtain ⟨e', he', hslot⟩ := List.mem_map.mp hmem
    obtain ⟨q₁', q₂', hq⟩ := List.append_of_mem he'
    have hls'' : a.levels s = L' ++ ⟨l'.price, q₁' ++ e' :: q₂'⟩ :: R' := by rw [hls', ← hq]
    obtain ⟨⟨rfl, _⟩, _⟩ := hw.split_unique hls hls'' hslot
    rfl
  · rintro rfl
    rw [h.queue_eq hw hls]
    simp

/-- Quantity `n` in slot `x` of level `i`. -/
def OrderBook.shrink (b : OrderBook) (s : OptionsEngine.Side) (i x : Nat) (n : Qty) : OrderBook :=
  { b.setSide s
      { b.side s with
        qtys := update (b.side s).qtys i ((b.side s).qtys i - (b.slots.qtys x - n)) } with
    slots := { b.slots with qtys := update b.slots.qtys x n } }

theorem shrink_self (b : OrderBook) (s : Side) (i x : Nat) :
    b.shrink s i x (b.slots.qtys x) = b := by
  unfold OrderBook.shrink
  rw [UInt32.sub_self, UInt32.sub_zero, update_eq_self, update_eq_self]
  cases s <;> rfl

/-- Less quantity, but some: in place. -/
theorem Rep.modify_down (h : Rep b a) (hw : WF a)
    (hls : a.levels s = L ++ ⟨px, q₁ ++ e :: q₂⟩ :: R) (hindex : a.index e.id = some (e.slot, s))
    {n : Qty} (hnew : n ≠ 0) (hn : n ≤ e.qty) :
    ∃ r, b.modify_order e.id n = some (r, b.shrink s L.length e.slot n) := by
  have hlook := h.lookup hw e.id
  obtain ⟨L', px', q₁', e', q₂', R', hls', hslot, _, hold, hfind⟩ := h.locate hw hindex
  obtain ⟨⟨rfl, rfl⟩, rfl, ⟨rfl, rfl⟩, rfl⟩ := hw.split_unique hls hls' hslot
  have henc : encode a.index e'.id = some (e'.slot, sideIdx s) := by simp [encode, hindex]
  rw [henc] at hlook
  have hrun := modify_order_found n hlook hfind hold rfl rfl
  rw [if_neg (UInt32.not_lt.mpr hn)] at hrun
  by_cases hlt : n < e'.qty
  · rw [if_pos hlt, if_neg hnew, ← hold] at hrun
    exact ⟨_, hrun⟩
  · rw [if_neg hlt] at hrun
    obtain rfl : n = b.slots.qtys e'.slot := by
      rw [hold]
      exact UInt32.le_antisymm hn (UInt32.not_lt.mp hlt)
    rw [shrink_self]
    exact ⟨_, hrun⟩

theorem Rep.shrink_only (h : Rep b a) (hw : WF a)
    (hls : a.levels s = L ++ ⟨px, q₁ ++ e :: q₂⟩ :: R) (n : Qty) :
    OnlyQuantity b (b.shrink s L.length e.slot n) s e.slot n := by
  have hqueue : ∀ t i, (b.shrink s L.length e.slot n).queue t i = b.queue t i := by
    intro t i
    cases s <;> cases t <;> rfl
  refine ⟨?_, ?_, ?_, ?_, ?_, ?_, ?_⟩
  · intro t
    cases s <;> cases t <;> rfl
  · intro t i hi hx
    rcases s.eq_or_opposite t with rfl | rfl
    · have hne : i ≠ L.length := fun heq => hx ((h.queue_index hw hls hi).mpr heq)
      unfold OrderBook.shrink
      rw [side_setSide_slots]
      unfold OrderBook.Side.row
      simp only [update_of_ne hne]
    · unfold OrderBook.shrink
      rw [side_setSide_slots_opposite]
  · intro i hi hx
    obtain rfl := (h.queue_index hw hls hi).mp hx
    unfold OrderBook.shrink
    rw [side_setSide_slots]
    unfold OrderBook.Side.row
    simp only [update_self, Row.mk.injEq, true_and, and_true]
    grind
  · exact fun t i _ => hqueue t i
  · intro t y _
    exact SameSlot.refl _ _
  · intro id
    cases s <;> rfl
  · cases s <;> rfl

/-- What the index finds can be modified as if entered anew. -/
theorem Rep.reenters (h : Rep b a) (hw : WF a) (hu : Uncrossed a)
    (hls : a.levels s = L ++ ⟨px, q₁ ++ e :: q₂⟩ :: R)
    (hindex : a.index e.id = some (e.slot, s)) : Reenters b s e.slot := by
  have hst : Stored b.slots px e := (h.queue hls).stored e (by simp)
  constructor
  · intro n hn
    rw [hst.qty] at hn
    rw [hst.id]
    exact h.modify_up hw hu hls hindex hn
  · rw [hst.id]
    exact h.modify_zero hw hls hindex
  · intro n hnew hn
    rw [hst.qty] at hn
    obtain ⟨r, hmodify⟩ := h.modify_down hw hls hindex hnew hn
    rw [hst.id]
    exact ⟨r, _, hmodify, h.shrink_only hw hls n⟩

/-- An order that is accepted and reaches nobody takes a slot. -/
theorem Rep.entered_twice {b₁ b₂ : OrderBook} (h : Rep b a) (h₁ : Rep b₁ a) (hw : WF a)
    (htype : o.type = .Limit) (hqty : o.qty_remaining ≠ 0) (hquiet : Quiet a o.side.opposite o)
    (hadd : b₁.add_order o = some (r, b₂)) (hret : r.ret = true) : ¬ SameBook b b₂ := by
  intro hsame
  obtain ⟨out, evs, b₂', a₂, takes, hadd', hstep, hrep₂, _⟩ := h₁.add_order hw o
  obtain ⟨rfl, rfl⟩ := Prod.mk.inj (Option.some.inj (hadd.symm.trans hadd'))
  have hw₂ := hstep.wf hw
  obtain ⟨_, hrests⟩ := hstep.rests (not_immediate_of_limit htype) hqty hquiet
  cases hrests with
  | level_rejected hnew hfull => cases hret
  | slot_rejected hroom hfree => cases hret
  | rested hroom hfree =>
    have hlist := hsame.free
    rw [h.freeList_eq hw, hrep₂.freeList_eq hw₂, hfree] at hlist
    exact absurd hlist.symm (List.cons_ne_self _ _)

/-- What the index does not find stays as it is when it is modified, and
    entering it anew adds a second order. -/
theorem Rep.not_reenters (h : Rep b a) (hw : WF a) (hu : Uncrossed a)
    (hls : a.levels s = L ++ ⟨px, q₁ ++ e :: q₂⟩ :: R) (hindex : a.index e.id = none) :
    ¬ Reenters b s e.slot := by
  intro hre
  have hst : Stored b.slots px e := (h.queue hls).stored e (by simp)
  have hmodify : ∀ {n r b₁}, b.modify_order e.id n = some (r, b₁) → Rep b₁ a := by
    intro n r b₁ hrun
    obtain ⟨out, b₁', a₁, hrun', hstep, hrep, _⟩ := h.modify_order hw e.id n
    obtain ⟨rfl, rfl⟩ := Prod.mk.inj (Option.some.inj (hrun.symm.trans hrun'))
    rwa [hstep.modify_lost hindex] at hrep
  by_cases hone : e.qty = 1
  · obtain ⟨r, b₁, rc, b₂, ra, b₃, hrun₁, hrun₂, hrun₃, hret, _, hsame⟩ :=
      hre.increase 2 (by rw [hst.qty, hone]; decide)
    rw [hst.id] at hrun₁ hrun₂
    have hrep₁ := hmodify hrun₁
    have hrep₂ : Rep b₂ a := by
      obtain ⟨out, b₂', a₂, hrun', hstep, hrep, _⟩ := h.cancel_order hw e.id
      obtain ⟨rfl, rfl⟩ := Prod.mk.inj (Option.some.inj (hrun₂.symm.trans hrun'))
      rwa [hstep.cancel_lost hindex] at hrep
    have hqty : (b.reentry s e.slot 2).qty_remaining ≠ 0 := (by decide : (2 : Qty) ≠ 0)
    exact hrep₁.entered_twice hrep₂ hw rfl hqty (hu.quiet_reentry hls hst 2) hrun₃ hret hsame
  · have hpos : e.qty ≠ 0 := hw.positive s e (by rw [hls]; simp)
    have hle : 1 ≤ e.qty := by
      have hne : e.qty.toNat ≠ 0 := fun hz => hpos (UInt32.toNat_inj.mp hz)
      exact UInt32.le_iff_toNat_le.mpr (Nat.one_le_iff_ne_zero.mpr hne)
    obtain ⟨r, b₁, hrun₁, honly⟩ := hre.decrease 1 (by decide) (by rw [hst.qty]; exact hle)
    rw [hst.id] at hrun₁
    have hst₁ : Stored b₁.slots px e := ((hmodify hrun₁).queue hls).stored e (by simp)
    have hmem : e.slot ∈ b.resting s :=
      (h.mem_resting hw).mpr ⟨e, by rw [hls]; simp, rfl⟩
    have hqty := (honly.orders s _ hmem).qtys
    change b₁.slots.qtys e.slot = update b.slots.qtys e.slot 1 e.slot at hqty
    rw [hst₁.qty, update_self] at hqty
    exact hone hqty

end found

/-- A reachable book, as levels. -/
theorem reachable_levels {mem : OrderBook} {symbol : SymbolId} {ops : List Op}
    (hrun : (fresh mem symbol).run ops = some (rs, b)) : ∃ a, Rep b a ∧ WF a ∧ Uncrossed a := by
  obtain ⟨rs₁, b₁, _, a, hrun₁, hsteps, _, _, hrep, hw⟩ := run_refines mem symbol ops
  obtain ⟨rfl, rfl⟩ : rs₁ = rs ∧ b₁ = b := by
    rw [hrun] at hrun₁
    simpa using hrun₁.symm
  exact ⟨a, hrep, hw, hsteps.uncrossed wf_empty uncrossed_empty⟩

/-- Where ids are unique, a modification of a resting order is worth a cancel
    and a new order exactly if the index finds the order. -/
theorem modify_reenters_iff {mem : OrderBook} {symbol : SymbolId} {ops : List Op}
    (hrun : (fresh mem symbol).run ops = some (rs, b)) (hunique : b.UniqueIds) {x : Nat}
    (hx : x ∈ b.resting s) : Reenters b s x ↔ b.Finds (b.slots.ids x) := by
  obtain ⟨a, hrep, hw, hu⟩ := reachable_levels hrun
  obtain ⟨e, he, rfl⟩ := (hrep.mem_resting hw).mp hx
  obtain ⟨L, px, q₁, q₂, R, hls⟩ := split_entry he
  have hst : Stored b.slots px e := (hrep.queue hls).stored e (by simp)
  rw [hst.id]
  constructor
  · intro hre
    by_contra hlost
    have hnone : a.index e.id = none := by
      cases hid : a.index e.id with
      | none => rfl
      | some v => exact absurd ((hrep.finds_iff hw e.id).mpr ⟨v, hid⟩) hlost
    exact hrep.not_reenters hw hu hls hnone hre
  · intro hfinds
    exact hrep.reenters hw hu hls (hrep.index_eq hw hunique he hfinds)

/-- Two orders at one price; the first one can be modified. -/
theorem modify_reenters_first :
    ∃ rs b, (fresh zeroed 0).run [.add (sell 7 100 5), .add (sell 8 100 5)] = some (rs, b) ∧
      Reenters b .Sell 0 := by
  have hrun : ((fresh zeroed 0).run [.add (sell 7 100 5), .add (sell 8 100 5)]).map (fun x =>
      (decide x.2.UniqueIds, decide (0 ∈ x.2.resting .Sell),
        x.2.index.lookup (x.2.slots.ids 0))) = some (true, true, some (some (0, 1))) := by
    decide +kernel
  obtain ⟨⟨rs, b⟩, hb, hval⟩ := Option.map_eq_some_iff.mp hrun
  simp only [Prod.mk.injEq, decide_eq_true_eq] at hval
  obtain ⟨hunique, hx, hfinds⟩ := hval
  exact ⟨rs, b, hb, (modify_reenters_iff hb hunique hx).mpr ⟨_, hfinds⟩⟩

/-- An id booked twice and cancelled once: the order that is left has its id
    for itself, but can no longer be modified. -/
theorem lost_order_not_reentered :
    ∃ rs b, (fresh zeroed 0).run [.add (sell 7 100 5), .add (sell 7 101 5), .cancel 7] =
        some (rs, b) ∧ b.UniqueIds ∧ 0 ∈ b.resting .Sell ∧
      (b.modify_order 7 10).map (fun x => (x.1.ret, x.2.asks.count, x.2.asks.qtys 0)) =
        some (false, 1, 5) ∧
      ((b.cancel_order 7).bind fun x => x.2.add_order (b.reentry .Sell 0 10)).map
        (fun x => (x.1.ret, x.2.asks.qtys 0)) = some (true, 15) ∧
      ¬ Reenters b .Sell 0 := by
  have hrun : ((fresh zeroed 0).run
      [.add (sell 7 100 5), .add (sell 7 101 5), .cancel 7]).map (fun x =>
        (decide ((x.2.UniqueIds ∧ 0 ∈ x.2.resting .Sell) ∧
            x.2.slots.ids 0 = 7 ∧ x.2.slots.qtys 0 = 5),
          decide ((x.2.modify_order 7 10).map (fun x => (x.1.ret, x.2.asks.count, x.2.asks.qtys 0)) =
            some (false, 1, 5)),
          ((x.2.cancel_order 7).bind fun y => y.2.add_order (x.2.reentry .Sell 0 10)).map
            (fun x => (x.1.ret, x.2.asks.qtys 0)))) =
      some (true, true, some (true, 15)) := by
    decide +kernel
  obtain ⟨⟨rs, b⟩, hb, hval⟩ := Option.map_eq_some_iff.mp hrun
  simp only [Prod.mk.injEq, decide_eq_true_eq] at hval
  obtain ⟨⟨⟨hunique, hx⟩, hid, hqty⟩, hmodify, hreenter⟩ := hval
  refine ⟨rs, b, hb, hunique, hx, hmodify, hreenter, ?_⟩
  intro hre
  obtain ⟨r, b₁, rc, b₂, ra, b₃, hrun₁, hrun₂, hrun₃, _, _, hsame⟩ :=
    hre.increase 10 (by rw [hqty]; decide)
  rw [hid] at hrun₁ hrun₂
  rw [hrun₁] at hmodify
  rw [hrun₂, Option.bind_some, hrun₃] at hreenter
  simp only [Option.map_some, Option.some.injEq, Prod.mk.injEq] at hmodify hreenter
  obtain ⟨_, hcount, hqty₁⟩ := hmodify
  -- the level of the order holds 5 on the one path, and 15 on the other
  have hrow := congrArg Row.qty (hsame.rows .Sell 0 (Nat.lt_of_lt_of_eq Nat.one_pos hcount.symm))
  change b₃.asks.qtys 0 = b₁.asks.qtys 0 at hrow
  rw [hqty₁, hreenter.2] at hrow
  exact absurd hrow (by decide)

end OptionsEngine
