import OptionsEngine.LevelBook.Invariant

/-! # What fills and cancels leave

    `Thinned a a'`: every level of `a'` is a level of `a` from which orders may
    have left and in which quantities may have changed, but where nobody
    joined and nobody changed place.  Fills, cancels and decreases thin the
    book; only a resting remainder and a quantity increase do not (`Edit`). -/

namespace OptionsEngine

open Function OrderBook

variable {a a' : LevelBook} {s : Side} {L R : List Level} {px : Price} {q₁ q₂ : List Entry}
  {e : Entry}

/-- What an entry keeps for as long as it rests. -/
def Entry.key (e : Entry) : Nat × OrderId × UInt32 := (e.slot, e.id, e.account)

def Thinned (a a' : LevelBook) : Prop :=
  ∀ s, ∀ l' ∈ a'.levels s, ∃ l ∈ a.levels s, l.price = l'.price ∧
    (l'.queue.map Entry.key).Sublist (l.queue.map Entry.key)

namespace Thinned

theorem refl (a : LevelBook) : Thinned a a :=
  fun _ l hl => ⟨l, hl, rfl, List.Sublist.refl _⟩

theorem trans {a'' : LevelBook} (h : Thinned a a') (h' : Thinned a' a'') : Thinned a a'' := by
  intro s l hl
  obtain ⟨k, hk, hkp, hks⟩ := h' s l hl
  obtain ⟨j, hj, hjp, hjs⟩ := h s k hk
  exact ⟨j, hj, hjp.trans hkp, hks.trans hjs⟩

/-- Thinning one side thins the book. -/
theorem of_side (hopp : a'.levels s.opposite = a.levels s.opposite)
    (hown : ∀ l' ∈ a'.levels s, ∃ l ∈ a.levels s, l.price = l'.price ∧
      (l'.queue.map Entry.key).Sublist (l.queue.map Entry.key)) : Thinned a a' := by
  intro t l hl
  rcases s.eq_or_opposite t with rfl | rfl
  · exact hown l hl
  · rw [hopp] at hl
    exact ⟨l, hl, rfl, List.Sublist.refl _⟩

/-- An entry leaves. -/
theorem drop (hls : a.levels s = L ++ ⟨px, q₁ ++ e :: q₂⟩ :: R) (id : OrderId) (slot : Nat) :
    Thinned a (a.drop s (L ++ keep px (q₁ ++ q₂) ++ R) id slot) := by
  apply of_side (update_of_ne s.opposite_ne _ _)
  intro l hl
  rw [levels_drop] at hl
  rw [hls]
  simp only [List.mem_append] at hl
  rcases hl with (hl | hl) | hl
  · exact ⟨l, by simp [hl], rfl, List.Sublist.refl _⟩
  · unfold keep at hl
    split at hl
    · simp at hl
    · rw [List.mem_singleton.mp hl]
      refine ⟨⟨px, q₁ ++ e :: q₂⟩, by simp, rfl, ?_⟩
      -- the others keep their places
      apply List.Sublist.map
      exact (List.sublist_cons_self e q₂).append_left q₁
  · exact ⟨l, by simp [hl], rfl, List.Sublist.refl _⟩

/-- A quantity changes in place. -/
theorem requantify (hls : a.levels s = L ++ ⟨px, q₁ ++ e :: q₂⟩ :: R) (n : Qty) :
    Thinned a (a.setLevels s (L ++ ⟨px, q₁ ++ { e with qty := n } :: q₂⟩ :: R)) := by
  apply of_side (levels_setLevels_opposite _ _ _)
  intro l hl
  rw [levels_setLevels] at hl
  rw [hls]
  simp only [List.mem_append, List.mem_cons] at hl
  rcases hl with hl | rfl | hl
  · exact ⟨l, by simp [hl], rfl, List.Sublist.refl _⟩
  · refine ⟨⟨px, q₁ ++ e :: q₂⟩, by simp, rfl, ?_⟩
    simp [Entry.key]
  · exact ⟨l, by simp [hl], rfl, List.Sublist.refl _⟩

theorem take {es : List Entry} {ls : List Level} (hls : a.levels s = ⟨px, e :: es⟩ :: ls)
    (f : Qty) : Thinned a (a.take s px e es ls f) := by
  have hls' : a.levels s = [] ++ ⟨px, [] ++ e :: es⟩ :: ls := hls
  rcases take_cases a s px e es ls f with ⟨_, htake⟩ | ⟨_, htake⟩
  · rw [htake]
    exact drop hls' e.id e.slot
  · rw [htake]
    exact requantify hls' (e.qty - f)

/-- The entries that are left were there before. -/
theorem mem_key (h : Thinned a a') {e' : Entry} (he' : e' ∈ entriesOf (a'.levels s)) :
    ∃ e ∈ entriesOf (a.levels s), e.key = e'.key := by
  obtain ⟨l', hl', hel'⟩ := List.mem_flatMap.mp he'
  obtain ⟨l, hl, _, hsub⟩ := h s l' hl'
  have hmem := hsub.subset (List.mem_map.mpr ⟨e', hel', rfl⟩)
  obtain ⟨e, he, hkey⟩ := List.mem_map.mp hmem
  exact ⟨e, List.mem_flatMap.mpr ⟨l, hl, he⟩, hkey⟩

end Thinned

theorem Entry.slot_of_key {e e' : Entry} (h : e.key = e'.key) : e.slot = e'.slot :=
  congrArg Prod.fst h

theorem Entry.id_of_key {e e' : Entry} (h : e.key = e'.key) : e.id = e'.id :=
  congrArg (fun k => k.2.1) h

theorem Entry.account_of_key {e e' : Entry} (h : e.key = e'.key) : e.account = e'.account :=
  congrArg (fun k => k.2.2) h

variable {o : Order} {rem rem' : Qty} {takes : List Take} {walled : Bool}

/-- Matching thins the book. -/
theorem Matching.thinned (h : Matching o s a rem takes a' rem' walled) : Thinned a a' := by
  induction h with
  | filled a => exact .refl _
  | exhausted hrem hls => exact .refl _
  | price hrem hls hstop => exact .refl _
  | wall hrem hls hgo hwall => exact .refl _
  | take hrem hls hgo hwall hrest ih => exact (Thinned.take hls _).trans ih

/-- What is known of a fill at its moment: it is against the head of the best
    level of a book thinned from `a`, within the limit and across accounts. -/
structure TakeOf (o : Order) (s : Side) (a : LevelBook) (t : Take) : Prop where
  thinned : Thinned a t.book
  wf : WF t.book
  head : ∃ es ls, t.book.levels s = ⟨t.price, t.entry :: es⟩ :: ls
  within : price_stops o t.price = false
  no_wall : ¬ walls o t.entry

theorem Matching.takeOf (h : Matching o s a rem takes a' rem' walled) (hw : WF a) :
    ∀ t ∈ takes, TakeOf o s a t := by
  induction h with
  | filled a => simp
  | exhausted hrem hls => simp
  | price hrem hls hstop => simp
  | wall hrem hls hgo hwall => simp
  | take hrem hls hgo hwall hrest ih =>
    intro t ht
    rcases List.mem_cons.mp ht with rfl | ht
    · exact ⟨.refl _, hw, ⟨_, _, hls⟩, hgo, hwall⟩
    -- later fills see a book thinned by the earlier ones
    · have hrest := ih (hw.take hls _) t ht
      exact ⟨(Thinned.take hls _).trans hrest.thinned, hrest.wf, hrest.head, hrest.within,
        hrest.no_wall⟩

theorem Step.takeOf {out : Outcome} (h : Step a (.add o) out takes a') (hw : WF a) :
    ∀ t ∈ takes, TakeOf o o.side.opposite a t := by
  rcases h.matching with rfl | ⟨_, _, _, hm, _⟩
  · simp
  · exact hm.takeOf hw

/-- What a call comes to: the book is thinned, or an entry goes to the back of
    its queue, or matching is followed by a booking. -/
inductive Edit (a : LevelBook) : Op → Outcome → LevelBook → Prop where
  | thinned {op : Op} {out : Outcome} {a' : LevelBook} (hthin : Thinned a a')
      (hout : ∀ slot, out ≠ .rested slot) : Edit a op out a'
  | increased {id : OrderId} {n : Qty} {s : Side} {L R : List Level} {px : Price}
      {q₁ q₂ : List Entry} {e : Entry} (hls : a.levels s = L ++ ⟨px, q₁ ++ e :: q₂⟩ :: R) :
      Edit a (.modify id n) (.modified e.slot)
        (a.setLevels s (L ++ ⟨px, q₁ ++ q₂ ++ [{ e with qty := n }]⟩ :: R))
  | booked {a₁ : LevelBook} {o : Order} {takes : List Take} {rem : Qty} {slot : Nat}
      {free : List Nat} (himm : ¬ Immediate o)
      (hm : Matching o o.side.opposite a o.qty_remaining takes a₁ rem false) (hrem : rem ≠ 0)
      (hfree : a₁.free = slot :: free) :
      Edit a (.add o) (.rested slot) (a₁.rest o slot free rem)

theorem Step.edit {op : Op} {out : Outcome} (h : Step a op out takes a') : Edit a op out a' := by
  cases h with
  | fok_rejected htype hshort => exact .thinned (.refl a) nofun
  | immediate himm hfok hm => exact .thinned hm.thinned nofun
  | filled himm hm => exact .thinned hm.thinned nofun
  | stp_walled himm hm hrem => exact .thinned hm.thinned nofun
  | level_rejected himm hm hrem hnew hfull => exact .thinned hm.thinned nofun
  | slot_rejected himm hm hrem hroom hfree => exact .thinned hm.thinned nofun
  | rested himm hm hrem hroom hfree => exact .booked himm hm hrem hfree
  | cancel_unknown hid => exact .thinned (.refl a) nofun
  | cancelled hid heid hls => exact .thinned (.drop hls _ _) nofun
  | modify_unknown hid => exact .thinned (.refl a) nofun
  | increased hid heid hls hqty => exact .increased hls
  | decreased hid heid hls hqty hnew => exact .thinned (.requantify hls _) nofun
  | emptied hid heid hls => exact .thinned (.drop hls _ _) nofun

end OptionsEngine
