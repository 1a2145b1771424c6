import OptionsEngine.LevelBook.Thinned

/-! # When the index knows every order

    The index holds one slot per id.  It is `Exact` if every resting entry is
    the one its id is indexed to; then ids are unique among resting entries.
    Every call keeps that, except a booking under an id that another resting
    entry carries: the index forgets the older entry. -/

namespace OptionsEngine

open Function OrderBook

variable {a a' : LevelBook} {s t : Side} {L R : List Level} {px : Price} {q₁ q₂ : List Entry}
  {e x : Entry} {o : Order} {id : OrderId}

/-! ## Section 1: Exactness -/

/-- Every resting entry is the one its id is indexed to. -/
def Exact (a : LevelBook) : Prop :=
  ∀ s, ∀ e ∈ entriesOf (a.levels s), a.index e.id = some (e.slot, s)

/-- No resting entry carries the id. -/
def Absent (a : LevelBook) (id : OrderId) : Prop :=
  ∀ s, ∀ e ∈ entriesOf (a.levels s), e.id ≠ id

/-- Every entry of `a'` was in `a`, perhaps with another quantity or place. -/
def Inherits (a a' : LevelBook) : Prop :=
  ∀ s, ∀ e' ∈ entriesOf (a'.levels s), ∃ e ∈ entriesOf (a.levels s), e.key = e'.key

theorem Thinned.inherits (h : Thinned a a') : Inherits a a' := fun _ _ he' => h.mem_key he'

theorem Absent.inherit (h : Absent a id) (hi : Inherits a a') : Absent a' id := by
  intro s e' he'
  obtain ⟨e, he, hkey⟩ := hi s e' he'
  rw [← Entry.id_of_key hkey]
  exact h s e he

theorem Exact.inherit (h : Exact a) (hi : Inherits a a') (hindex : a'.index = a.index) :
    Exact a' := by
  intro s e' he'
  obtain ⟨e, he, hkey⟩ := hi s e' he'
  rw [hindex, ← Entry.id_of_key hkey, ← Entry.slot_of_key hkey]
  exact h s e he

/-- Moving an entry to the back of its queue. -/
theorem inherits_increase (hls : a.levels s = L ++ ⟨px, q₁ ++ e :: q₂⟩ :: R) (n : Qty) :
    Inherits a (a.setLevels s (L ++ ⟨px, q₁ ++ q₂ ++ [{ e with qty := n }]⟩ :: R)) := by
  intro t x hx
  rcases s.eq_or_opposite t with rfl | rfl
  · rw [levels_setLevels] at hx
    rw [hls]
    simp only [entriesOf_append, entriesOf_cons, List.mem_append, List.mem_cons,
      List.not_mem_nil, or_false] at hx ⊢
    rcases hx with hx | ((hx | hx) | rfl) | hx
    · exact ⟨x, Or.inl hx, rfl⟩
    · exact ⟨x, Or.inr (Or.inl (Or.inl hx)), rfl⟩
    · exact ⟨x, Or.inr (Or.inl (Or.inr (Or.inr hx))), rfl⟩
    · exact ⟨e, Or.inr (Or.inl (Or.inr (Or.inl rfl))), rfl⟩
    · exact ⟨x, Or.inr (Or.inr hx), rfl⟩
  · rw [levels_setLevels_opposite] at hx
    exact ⟨x, hx, rfl⟩

/-- The entries that are left after `e` went have other slots. -/
theorem WF.slot_ne_of_drop (hw : WF a) (hls : a.levels s = L ++ ⟨px, q₁ ++ e :: q₂⟩ :: R)
    (slot : Nat)
    (hx : x ∈ entriesOf ((a.drop s (L ++ keep px (q₁ ++ q₂) ++ R) id slot).levels t)) :
    x.slot ≠ e.slot := by
  have hap : Apart a s L ⟨px, q₁ ++ e :: q₂⟩ R := Slotted.apart hw.slots hls
  have hmem : e.slot ∈ (⟨px, q₁ ++ e :: q₂⟩ : Level).slots := by simp
  intro heq
  rcases s.eq_or_opposite t with rfl | rfl
  · rw [levels_drop] at hx
    simp only [entriesOf_append, entriesOf_keep, List.mem_append] at hx
    rcases hx with (hx | hx) | hx
    · exact hap.left _ hmem (by rw [slotsOf_eq, ← heq]; exact List.mem_map.mpr ⟨x, hx, rfl⟩)
    · exact hap.slot_ne (List.mem_append.mpr hx) heq
    · exact hap.right _ hmem (by rw [slotsOf_eq, ← heq]; exact List.mem_map.mpr ⟨x, hx, rfl⟩)
  · rw [levels_drop_opposite] at hx
    exact hap.other _ hmem (by rw [slotsOf_eq, ← heq]; exact List.mem_map.mpr ⟨x, hx, rfl⟩)

/-- When an entry goes, its id goes with it. -/
theorem Exact.absent_of_drop (h : Exact a) (hw : WF a)
    (hls : a.levels s = L ++ ⟨px, q₁ ++ e :: q₂⟩ :: R) :
    Absent (a.drop s (L ++ keep px (q₁ ++ q₂) ++ R) e.id e.slot) e.id := by
  intro t x hx heq
  obtain ⟨y, hy, hkey⟩ := (Thinned.drop hls e.id e.slot).mem_key hx
  have hne := hw.slot_ne_of_drop hls e.slot hx
  -- `y`, the entry `x` was, and `e` have one id, so they are indexed alike
  have hye := h t y hy
  have hee := h s e (by rw [hls]; simp)
  rw [Entry.id_of_key hkey, heq, hee] at hye
  have hslot : e.slot = y.slot := by
    have := Option.some.inj hye
    exact congrArg Prod.fst this
  exact hne (by rw [← Entry.slot_of_key hkey, hslot])

theorem Exact.drop (h : Exact a) (hw : WF a) (hls : a.levels s = L ++ ⟨px, q₁ ++ e :: q₂⟩ :: R) :
    Exact (a.drop s (L ++ keep px (q₁ ++ q₂) ++ R) e.id e.slot) := by
  intro t x hx
  have hid := h.absent_of_drop hw hls t x hx
  obtain ⟨y, hy, hkey⟩ := (Thinned.drop hls e.id e.slot).mem_key hx
  have hindex : (a.drop s (L ++ keep px (q₁ ++ q₂) ++ R) e.id e.slot).index x.id = a.index x.id :=
    update_of_ne hid _ _
  rw [hindex, ← Entry.id_of_key hkey, ← Entry.slot_of_key hkey]
  exact h t y hy

theorem Exact.take {es : List Entry} {ls : List Level} (h : Exact a) (hw : WF a)
    (hls : a.levels s = ⟨px, e :: es⟩ :: ls) (f : Qty) : Exact (a.take s px e es ls f) := by
  have hls' : a.levels s = [] ++ ⟨px, [] ++ e :: es⟩ :: ls := hls
  rcases take_cases a s px e es ls f with ⟨_, htake⟩ | ⟨_, htake⟩
  · rw [htake]
    exact h.drop hw hls'
  · rw [htake]
    exact h.inherit (Thinned.requantify hls' _).inherits rfl

theorem Matching.exact {rem rem' : Qty} {takes : List Take} {walled : Bool}
    (hm : Matching o s a rem takes a' rem' walled) (hw : WF a) (h : Exact a) : Exact a' := by
  induction hm with
  | filled a => exact h
  | exhausted hrem hls => exact h
  | price hrem hls hstop => exact h
  | wall hrem hls hgo hwall => exact h
  | take hrem hls hgo hwall hrest ih => exact ih (hw.take hls _) (h.take hw hls _)

/-- Booking an entry under an id that nobody carries. -/
theorem Exact.rest {slot : Nat} {free : List Nat} {rem : Qty} (h : Exact a)
    (hnew : Absent a o.id) : Exact (a.rest o slot free rem) := by
  intro t x hx
  have hold : ∀ u, x ∈ entriesOf (a.levels u) →
      (a.rest o slot free rem).index x.id = some (x.slot, u) := by
    intro u hxu
    have hkeep : (a.rest o slot free rem).index x.id = a.index x.id :=
      update_of_ne (hnew u x hxu) _ _
    rw [hkeep]
    exact h u x hxu
  rcases o.side.eq_or_opposite t with rfl | rfl
  · rw [levels_rest] at hx
    rcases mem_insertEntry.mp hx with rfl | hx
    · exact update_self _ _ _
    · exact hold _ hx
  · rw [levels_rest_opposite] at hx
    exact hold _ hx

/-! ## Section 2: Calls -/

/-- An order that may rest brings an id that no resting entry carries. -/
def NewId (a : LevelBook) (op : Op) : Prop :=
  ∀ o, op = .add o → ¬ Immediate o → Absent a o.id

theorem Step.exact {op : Op} {out : Outcome} {takes : List Take} (hs : Step a op out takes a')
    (hw : WF a) (h : Exact a) (hnew : NewId a op) : Exact a' := by
  cases hs with
  | fok_rejected htype hshort => exact h
  | immediate himm hfok hm => exact hm.exact hw h
  | filled himm hm => exact hm.exact hw h
  | stp_walled himm hm hrem => exact hm.exact hw h
  | level_rejected himm hm hrem hn hfull => exact hm.exact hw h
  | slot_rejected himm hm hrem hroom hfree => exact hm.exact hw h
  | @rested a₁ o takes rem slot free himm hm hrem hroom hfree =>
    -- matching does not bring the id back, so it is still new when the remainder rests
    exact (hm.exact hw h).rest ((hnew o rfl himm).inherit hm.thinned.inherits)
  | cancel_unknown hid => exact h
  | cancelled hid heid hls =>
    subst heid
    exact h.drop hw hls
  | modify_unknown hid => exact h
  | increased hid heid hls hqty => exact h.inherit (inherits_increase hls _) rfl
  | decreased hid heid hls hqty hn => exact h.inherit (Thinned.requantify hls _).inherits rfl
  | emptied hid heid hls =>
    subst heid
    exact h.drop hw hls

/-- An id that nobody carries stays away until an order that may rest brings
    it, and no fill is against it. -/
theorem Step.absent {op : Op} {out : Outcome} {takes : List Take} (hs : Step a op out takes a')
    (hw : WF a) (h : Absent a id) (hadd : ∀ o, op = .add o → ¬ Immediate o → o.id ≠ id) :
    Absent a' id ∧ ∀ tk ∈ takes, tk.entry.id ≠ id := by
  refine ⟨?_, ?_⟩
  · cases hs.edit with
    | thinned hthin hout => exact h.inherit hthin.inherits
    | increased hls => exact h.inherit (inherits_increase hls _)
    | @booked a₁ o takes rem slot free himm hm hrem hfree =>
      have hmid := h.inherit hm.thinned.inherits
      intro t x hx
      rcases o.side.eq_or_opposite t with rfl | rfl
      · rw [levels_rest] at hx
        -- the entry booked now carries the id of the order added, which is another one
        rcases mem_insertEntry.mp hx with rfl | hx
        · exact hadd o rfl himm
        · exact hmid _ x hx
      · rw [levels_rest_opposite] at hx
        exact hmid _ x hx
  · intro tk htk
    cases op with
    | add o =>
      -- a fill is against an entry of a book thinned from `a`
      have hof := hs.takeOf hw tk htk
      obtain ⟨es, ls, hls⟩ := hof.head
      exact (h.inherit hof.thinned.inherits) o.side.opposite tk.entry (by rw [hls]; simp)
    | cancel id' => cases hs <;> simp at htk
    | modify id' n => cases hs <;> simp at htk

theorem exact_empty : Exact LevelBook.empty :=
  fun _ _ he => absurd he List.not_mem_nil

end OptionsEngine
