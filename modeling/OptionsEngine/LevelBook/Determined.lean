import OptionsEngine.LevelBook.Inverse

/-! # A call is determined by the book of levels

    `Step` is a relation, but it leaves no choice: matching takes the best entry
    as long as it may (`Matching.determined`), a booking is decided by what
    matching leaves (`booking`), and a slot is found at one place only.

    * `Step.determined`: outcome, fills and new book of a call. -/

namespace OptionsEngine

open Function OrderBook

variable {a a₁ a₂ : LevelBook} {o : Order} {s : Side} {op : Op}

/-! ## Section 1: Matching -/

theorem Matching.determined {rem rem₁ rem₂ : Qty} {takes₁ takes₂ : List Take} {walled₁ walled₂ : Bool}
    (h₁ : Matching o s a rem takes₁ a₁ rem₁ walled₁) (h₂ : Matching o s a rem takes₂ a₂ rem₂ walled₂) :
    takes₁ = takes₂ ∧ a₁ = a₂ ∧ rem₁ = rem₂ ∧ walled₁ = walled₂ := by
  induction h₁ generalizing takes₂ a₂ rem₂ walled₂ with
  | filled a =>
    cases h₂ with
    | filled => exact ⟨rfl, rfl, rfl, rfl⟩
    | exhausted hrem | price hrem | wall hrem | take hrem => exact absurd rfl hrem
  | exhausted hrem hls =>
    cases h₂ with
    | filled => exact absurd rfl hrem
    | exhausted => exact ⟨rfl, rfl, rfl, rfl⟩
    | price _ hls' | wall _ hls' | take _ hls' =>
      rw [hls] at hls'
      cases hls'
  | price hrem hls hstop =>
    cases h₂ with
    | filled => exact absurd rfl hrem
    | exhausted _ hls' =>
      rw [hls] at hls'
      cases hls'
    | price => exact ⟨rfl, rfl, rfl, rfl⟩
    | wall _ hls' hgo' | take _ hls' hgo' =>
      rw [hls] at hls'
      cases hls'
      rw [hstop] at hgo'
      cases hgo'
  | wall hrem hls hgo hwall =>
    cases h₂ with
    | filled => exact absurd rfl hrem
    | exhausted _ hls' =>
      rw [hls] at hls'
      cases hls'
    | price _ hls' hstop' =>
      rw [hls] at hls'
      cases hls'
      rw [hgo] at hstop'
      cases hstop'
    | wall => exact ⟨rfl, rfl, rfl, rfl⟩
    | take _ hls' _ hwall' =>
      rw [hls] at hls'
      cases hls'
      exact absurd hwall hwall'
  | take hrem hls hgo hwall hrest ih =>
    cases h₂ with
    | filled => exact absurd rfl hrem
    | exhausted _ hls' =>
      rw [hls] at hls'
      cases hls'
    | price _ hls' hstop' =>
      rw [hls] at hls'
      cases hls'
      rw [hgo] at hstop'
      cases hstop'
    | wall _ hls' _ hwall' =>
      rw [hls] at hls'
      cases hls'
      exact absurd hwall' hwall
    | take _ hls' _ _ hrest' =>
      rw [hls] at hls'
      cases hls'
      obtain ⟨rfl, rfl, rfl, rfl⟩ := ih hrest'
      exact ⟨rfl, rfl, rfl, rfl⟩

/-! ## Section 2: Calls -/

/-- What becomes of the remainder of an order that may rest. -/
def booking (o : Order) (a : LevelBook) (rem : Qty) (walled : Bool) : Outcome × LevelBook :=
  if rem = 0 then (.filled, a)
  else if walled then (.stp_walled, a)
  else if (∀ l ∈ a.levels o.side, l.price ≠ o.price) ∧ kMaxLevels ≤ (a.levels o.side).length then
    (.level_rejected, a)
  else
    match a.free with
    | [] => (.slot_rejected, a)
    | slot :: free => (.rested slot, a.rest o slot free rem)

variable {out : Outcome} {takes : List Take} {a' : LevelBook}

theorem not_full (h : (∃ l ∈ a.levels o.side, l.price = o.price) ∨
      (a.levels o.side).length < kMaxLevels) :
    ¬ ((∀ l ∈ a.levels o.side, l.price ≠ o.price) ∧ kMaxLevels ≤ (a.levels o.side).length) := by
  intro ⟨hnew, hfull⟩
  rcases h with ⟨l, hl, hprice⟩ | hlt
  · exact hnew l hl hprice
  · exact absurd hfull (Nat.not_le.mpr hlt)

theorem Step.add_booking (himm : ¬ Immediate o) (h : Step a (.add o) out takes a') :
    ∃ a₁ rem walled, Matching o o.side.opposite a o.qty_remaining takes a₁ rem walled ∧
      (out, a') = booking o a₁ rem walled := by
  cases h with
  | fok_rejected htype => exact absurd (.inr (.inr htype)) himm
  | immediate himm' => exact absurd himm' himm
  | filled _ hm => exact ⟨_, _, _, hm, by rw [booking, if_pos rfl]⟩
  | stp_walled _ hm hrem => exact ⟨_, _, _, hm, by rw [booking, if_neg hrem, if_pos rfl]⟩
  | level_rejected _ hm hrem hnew hfull =>
    refine ⟨_, _, _, hm, ?_⟩
    rw [booking, if_neg hrem, if_neg Bool.false_ne_true, if_pos ⟨hnew, hfull⟩]
  | slot_rejected _ hm hrem hroom hfree =>
    refine ⟨_, _, _, hm, ?_⟩
    rw [booking, if_neg hrem, if_neg Bool.false_ne_true, if_neg (not_full hroom), hfree]
  | rested _ hm hrem hroom hfree =>
    refine ⟨_, _, _, hm, ?_⟩
    rw [booking, if_neg hrem, if_neg Bool.false_ne_true, if_neg (not_full hroom), hfree]

theorem Step.add_immediate (himm : Immediate o) (h : Step a (.add o) out takes a') :
    (o.type = .FOK ∧ Short a o ∧ out = .fok_rejected ∧ takes = [] ∧ a' = a) ∨
      (¬ (o.type = .FOK ∧ Short a o) ∧ out = .immediate ∧
        ∃ rem walled, Matching o o.side.opposite a o.qty_remaining takes a' rem walled) := by
  cases h with
  | fok_rejected htype hshort => exact .inl ⟨htype, hshort, rfl, rfl, rfl⟩
  | immediate _ hfok hm => exact .inr ⟨fun hboth => hfok hboth.1 hboth.2, rfl, _, _, hm⟩
  | filled hno | stp_walled hno | level_rejected hno | slot_rejected hno | rested hno =>
    exact absurd himm hno

theorem Step.add_determined {out₁ out₂ : Outcome} {takes₁ takes₂ : List Take}
    (h₁ : Step a (.add o) out₁ takes₁ a₁) (h₂ : Step a (.add o) out₂ takes₂ a₂) :
    out₁ = out₂ ∧ takes₁ = takes₂ ∧ a₁ = a₂ := by
  by_cases himm : Immediate o
  · rcases h₁.add_immediate himm with ⟨hfok, hshort, rfl, rfl, rfl⟩ | ⟨hgo, rfl, rem, walled, hm⟩
    · rcases h₂.add_immediate himm with ⟨_, _, rfl, rfl, rfl⟩ | ⟨hgo, _⟩
      · exact ⟨rfl, rfl, rfl⟩
      · exact absurd ⟨hfok, hshort⟩ hgo
    · rcases h₂.add_immediate himm with ⟨hfok, hshort, _⟩ | ⟨_, rfl, rem', walled', hm'⟩
      · exact absurd ⟨hfok, hshort⟩ hgo
      · obtain ⟨htakes, hbook, _⟩ := hm.determined hm'
        exact ⟨rfl, htakes, hbook⟩
  · obtain ⟨b₁, rem₁, walled₁, hm₁, heq₁⟩ := h₁.add_booking himm
    obtain ⟨b₂, rem₂, walled₂, hm₂, heq₂⟩ := h₂.add_booking himm
    obtain ⟨rfl, rfl, rfl, rfl⟩ := hm₁.determined hm₂
    obtain ⟨rfl, rfl⟩ := Prod.mk.inj (heq₁.trans heq₂.symm)
    exact ⟨rfl, rfl, rfl⟩

/-- A call changes a well-formed book in one way. -/
theorem Step.determined {out₁ out₂ : Outcome} {takes₁ takes₂ : List Take} (hw : WF a)
    (h₁ : Step a op out₁ takes₁ a₁) (h₂ : Step a op out₂ takes₂ a₂) :
    out₁ = out₂ ∧ takes₁ = takes₂ ∧ a₁ = a₂ := by
  cases op with
  | add o => exact h₁.add_determined h₂
  | cancel id =>
    cases h₁ with
    | cancel_unknown hid =>
      cases h₂ with
      | cancel_unknown => exact ⟨rfl, rfl, rfl⟩
      | cancelled hid' =>
        rw [hid] at hid'
        cases hid'
    | cancelled hid heid hls =>
      cases h₂ with
      | cancel_unknown hid' =>
        rw [hid] at hid'
        cases hid'
      | cancelled hid' heid' hls' =>
        obtain ⟨hslot, rfl⟩ := Prod.mk.inj (Option.some.inj (hid.symm.trans hid'))
        obtain ⟨⟨rfl, rfl⟩, rfl, ⟨rfl, rfl⟩, rfl⟩ := hw.split_unique hls hls' hslot.symm
        exact ⟨rfl, rfl, rfl⟩
  | modify id new_qty =>
    cases h₁ with
    | modify_unknown hid =>
      cases h₂ with
      | modify_unknown => exact ⟨rfl, rfl, rfl⟩
      | increased hid' | decreased hid' | emptied hid' =>
        rw [hid] at hid'
        cases hid'
    | increased hid heid hls hqty =>
      cases h₂ with
      | modify_unknown hid' =>
        rw [hid] at hid'
        cases hid'
      | increased hid' heid' hls' =>
        obtain ⟨hslot, rfl⟩ := Prod.mk.inj (Option.some.inj (hid.symm.trans hid'))
        obtain ⟨⟨rfl, rfl⟩, rfl, ⟨rfl, rfl⟩, rfl⟩ := hw.split_unique hls hls' hslot.symm
        exact ⟨rfl, rfl, rfl⟩
      | decreased hid' heid' hls' hqty' =>
        obtain ⟨hslot, rfl⟩ := Prod.mk.inj (Option.some.inj (hid.symm.trans hid'))
        obtain ⟨_, _, _, rfl⟩ := hw.split_unique hls hls' hslot.symm
        exact absurd hqty (UInt32.not_lt.mpr hqty')
      | emptied => exact absurd hqty UInt32.not_lt_zero
    | decreased hid heid hls hqty hnew =>
      cases h₂ with
      | modify_unknown hid' =>
        rw [hid] at hid'
        cases hid'
      | increased hid' heid' hls' hqty' =>
        obtain ⟨hslot, rfl⟩ := Prod.mk.inj (Option.some.inj (hid.symm.trans hid'))
        obtain ⟨_, _, _, rfl⟩ := hw.split_unique hls hls' hslot.symm
        exact absurd hqty' (UInt32.not_lt.mpr hqty)
      | decreased hid' heid' hls' =>
        obtain ⟨hslot, rfl⟩ := Prod.mk.inj (Option.some.inj (hid.symm.trans hid'))
        obtain ⟨⟨rfl, rfl⟩, rfl, ⟨rfl, rfl⟩, rfl⟩ := hw.split_unique hls hls' hslot.symm
        exact ⟨rfl, rfl, rfl⟩
      | emptied => exact absurd rfl hnew
    | emptied hid heid hls =>
      cases h₂ with
      | modify_unknown hid' =>
        rw [hid] at hid'
        cases hid'
      | increased _ _ _ hqty' => exact absurd hqty' UInt32.not_lt_zero
      | decreased _ _ _ _ hnew' => exact absurd rfl hnew'
      | emptied hid' heid' hls' =>
        obtain ⟨hslot, rfl⟩ := Prod.mk.inj (Option.some.inj (hid.symm.trans hid'))
        obtain ⟨⟨rfl, rfl⟩, rfl, ⟨rfl, rfl⟩, rfl⟩ := hw.split_unique hls hls' hslot.symm
        exact ⟨rfl, rfl, rfl⟩

end OptionsEngine
