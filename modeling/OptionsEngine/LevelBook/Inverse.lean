import OptionsEngine.LevelBook.Invariant

/-! # Booking and dropping undo each other

    A resting entry stands at one place of the levels (`WF.split_unique`), so
    dropping it takes away exactly what booking it put there.

    * `WF.rest_drop`: an entry that was just booked, dropped again.
    * `WF.drop_rest`: an entry that was just dropped, booked again at the same
      price: it has gone to the back of its queue and kept its slot. -/

namespace OptionsEngine

open Function OrderBook

variable {a : LevelBook} {s : Side} {L L' R R' : List Level} {px px' : Price}
  {q₁ q₂ q₁' q₂' : List Entry} {e e' : Entry} {o : Order}

/-- A slot is found at one place only. -/
theorem WF.split_unique (hw : WF a) (hls : a.levels s = L ++ ⟨px, q₁ ++ e :: q₂⟩ :: R)
    (hls' : a.levels s = L' ++ ⟨px', q₁' ++ e' :: q₂'⟩ :: R') (hslot : e'.slot = e.slot) :
    (L' = L ∧ R' = R) ∧ px' = px ∧ (q₁' = q₁ ∧ q₂' = q₂) ∧ e' = e := by
  have hap : Apart a s L ⟨px, q₁ ++ e :: q₂⟩ R := Slotted.apart hw.slots hls
  have hmem : e.slot ∈ (⟨px, q₁ ++ e :: q₂⟩ : Level).slots := by simp
  have hmem' : e.slot ∈ (⟨px', q₁' ++ e' :: q₂'⟩ : Level).slots := by simp [hslot]
  have hL : (⟨px', q₁' ++ e' :: q₂'⟩ : Level) ∉ L :=
    fun h => hap.left _ hmem (mem_slotsOf.mpr ⟨_, h, hmem'⟩)
  have hR : (⟨px', q₁' ++ e' :: q₂'⟩ : Level) ∉ R :=
    fun h => hap.right _ hmem (mem_slotsOf.mpr ⟨_, h, hmem'⟩)
  obtain ⟨hLL, hlevel, hRR⟩ := (List.append_cons_inj_of_notMem hL hR).mp (hls.symm.trans hls')
  obtain ⟨hpx, hq⟩ := Level.mk.inj hlevel
  have hq₁ : e' ∉ q₁ := fun h => hap.slot_ne (List.mem_append_left _ h) hslot
  have hq₂ : e' ∉ q₂ := fun h => hap.slot_ne (List.mem_append_right _ h) hslot
  obtain ⟨hqq₁, he, hqq₂⟩ := (List.append_cons_inj_of_notMem hq₁ hq₂).mp hq
  exact ⟨⟨hLL.symm, hRR.symm⟩, hpx.symm, ⟨hqq₁.symm, hqq₂.symm⟩, he.symm⟩

/-- Where a booked entry stands: taking it away leaves the levels as they were. -/
theorem insertEntry_split {ls : List Level} {p : Price}
    (hsorted : ls.Pairwise fun k k' => better s k.price k'.price)
    (hne : ∀ l ∈ ls, l.queue ≠ []) (e : Entry) :
    ∃ L q R, insertEntry s p e ls = L ++ ⟨p, q ++ [e]⟩ :: R ∧ L ++ keep p q ++ R = ls := by
  rcases insertEntry_cases hsorted e with ⟨L, q, R, hls, hins⟩ | ⟨L, R, hls, _, _, _, hins⟩
  · refine ⟨L, q, R, hins, ?_⟩
    have hq : q ≠ [] := hne ⟨p, q⟩ (by rw [hls]; simp)
    rw [keep, if_neg hq, hls, List.append_assoc]
    rfl
  · refine ⟨L, [], R, hins, ?_⟩
    rw [keep, if_pos rfl, List.append_nil, hls]

theorem update_levels_self {ls : List Level} (h : ls = a.levels s) (other : List Level) :
    update (update a.levels s other) s ls = a.levels := by
  rw [update_idem, h, update_eq_self]

/-- The entry of a remainder, dropped right after it was booked. -/
theorem WF.rest_drop {slot : Nat} {free : List Nat} {rem : Qty} (hw : WF a)
    (hw' : WF (a.rest o slot free rem)) (hfree : a.free = slot :: free)
    (hindex : a.index o.id = none)
    (hls : (a.rest o slot free rem).levels o.side = L ++ ⟨px, q₁ ++ e :: q₂⟩ :: R)
    (hslot : e.slot = slot) :
    (a.rest o slot free rem).drop o.side (L ++ keep px (q₁ ++ q₂) ++ R) o.id e.slot = a := by
  obtain ⟨L', q, R', hins, hback⟩ := insertEntry_split (p := o.price) (hw.sorted o.side)
    (hw.nonempty o.side) (restingEntry o slot rem)
  have hls' : (a.rest o slot free rem).levels o.side =
      L' ++ ⟨o.price, q ++ restingEntry o slot rem :: []⟩ :: R' := by
    rw [levels_rest, hins]
  obtain ⟨⟨rfl, rfl⟩, rfl, ⟨rfl, rfl⟩, rfl⟩ := hw'.split_unique hls' hls hslot
  rw [List.append_nil, hback]
  unfold LevelBook.drop LevelBook.rest
  congr 1
  · exact update_levels_self rfl _
  · exact hfree.symm
  · rw [update_idem, ← hindex, update_eq_self]

/-- An entry that has left its queue comes back to its end. -/
theorem insertEntry_back (hsorted : (L ++ ⟨px, q₁ ++ e :: q₂⟩ :: R).Pairwise
      fun k k' => better s k.price k'.price) (x : Entry) :
    insertEntry s px x (L ++ keep px (q₁ ++ q₂) ++ R) = L ++ ⟨px, q₁ ++ q₂ ++ [x]⟩ :: R := by
  have hL : ∀ k ∈ L, better s k.price px := better_of_sorted hsorted
  have hR : ∀ k ∈ R.head?, better s px k.price := by
    intro k hk
    have hright := (List.pairwise_append.mp hsorted).2.1
    exact (List.pairwise_cons.mp hright).1 k (List.mem_of_mem_head? hk)
  unfold keep
  split
  · next hnil =>
    rw [List.append_nil, hnil]
    exact insertEntry_new hL hR
  · rw [List.append_assoc]
    exact insertEntry_existing hL

/-- An entry, booked again right after it was dropped. -/
theorem WF.drop_rest (hw : WF a) (hls : a.levels s = L ++ ⟨px, q₁ ++ e :: q₂⟩ :: R)
    (hindex : a.index e.id = some (e.slot, s)) (hside : o.side = s) (hprice : o.price = px)
    (hid : o.id = e.id) (haccount : o.account_id = e.account) (n : Qty) :
    (a.drop s (L ++ keep px (q₁ ++ q₂) ++ R) e.id e.slot).rest o e.slot a.free n =
      a.setLevels s (L ++ ⟨px, q₁ ++ q₂ ++ [{ e with qty := n }]⟩ :: R) := by
  have hsorted := hw.sorted s
  rw [hls] at hsorted
  have hentry : restingEntry o e.slot n = { e with qty := n } := by
    rw [restingEntry, hid, haccount]
  subst hside hprice
  unfold LevelBook.rest LevelBook.setLevels
  rw [levels_drop, hentry, insertEntry_back hsorted]
  congr 1
  · exact update_idem _ _ _
  · rw [hid, LevelBook.drop, update_idem, ← hindex, update_eq_self]

/-- A level may go with its last entry; either way there is room for one of
    its price. -/
theorem WF.room_after_drop (hw : WF a) (hls : a.levels s = L ++ ⟨px, q₁ ++ e :: q₂⟩ :: R) :
    (∃ l ∈ L ++ keep px (q₁ ++ q₂) ++ R, l.price = px) ∨
      (L ++ keep px (q₁ ++ q₂) ++ R).length < kMaxLevels := by
  have hcap := hw.capacity s
  rw [hls, List.length_append, List.length_cons] at hcap
  unfold keep
  split
  · right
    simp only [List.append_nil, List.length_append]
    omega
  · left
    exact ⟨⟨px, q₁ ++ q₂⟩, by simp, rfl⟩

end OptionsEngine
