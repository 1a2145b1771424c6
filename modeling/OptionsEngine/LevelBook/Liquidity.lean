import OptionsEngine.LevelBook.Invariant

/-! # The pre-check predicts matching

    `availableLevels` walks the levels matching would walk and stops where
    matching would stop, so an order is completely filled exactly if the walk
    finds its quantity. -/

namespace OptionsEngine

open Function OrderBook

variable {a a' : LevelBook} {s : Side} {o : Order} {rem rem' : Qty} {takes : List Take}
  {walled : Bool}

/-! ## Section 1: The walk -/

theorem availableQueue_ge (o : Order) (q : List Entry) (total : Nat) :
    total ≤ (availableQueue o total q).2 := by
  induction q generalizing total with
  | nil => exact Nat.le_refl _
  | cons e es ih =>
    unfold availableQueue
    split
    · exact Nat.le_refl _
    · split
      · exact Nat.le_add_right _ _
      · exact Nat.le_trans (Nat.le_add_right _ _) (ih _)

theorem availableLevels_ge (o : Order) (ls : List Level) (total : Nat) :
    total ≤ availableLevels o total ls := by
  induction ls generalizing total with
  | nil => exact Nat.le_refl _
  | cons l ls ih =>
    have hq := availableQueue_ge o l.queue total
    unfold availableLevels
    split
    · exact Nat.le_refl _
    · split
      · next heq => rw [heq] at hq; exact hq
      · next heq =>
        rw [heq] at hq
        exact Nat.le_trans hq (ih _)

/-- Passing an order that does not decide the walk. -/
theorem availableLevels_pass {px : Price} {e : Entry} {es : List Entry} {ls : List Level}
    {total : Nat} (hgo : price_stops o px = false) (hwall : ¬ walls o e)
    (hmore : ¬ total + e.qty.toNat ≥ o.qty_remaining.toNat) :
    availableLevels o total (⟨px, e :: es⟩ :: ls) =
      availableLevels o (total + e.qty.toNat) (keep px es ++ ls) := by
  have hne : ¬ price_stops o px = true := by simp [hgo]
  have hqueue : availableQueue o total (e :: es) = availableQueue o (total + e.qty.toNat) es := by
    simp only [availableQueue]
    rw [if_neg hwall, if_neg hmore]
  -- the last order of its level: the walk goes on at the next one
  by_cases hes : es = []
  · subst hes
    simp only [availableLevels, hqueue]
    rw [if_neg hne]
    simp [availableQueue, keep]
  · simp only [keep, if_neg hes, List.singleton_append, availableLevels, hqueue]
    rw [if_neg hne, if_neg hne]

/-! ## Section 2: Matching -/

theorem Matching.rem_zero (h : Matching o s a rem takes a' rem' walled) (hrem : rem = 0) :
    rem' = 0 := by
  cases h with
  | filled a => rfl
  | exhausted hne hls => exact hrem
  | price hne hls hstop => exact hrem
  | wall hne hls hgo hwall => exact hrem
  | take hne hls hgo hwall hrest => exact absurd hrem hne

theorem toNat_pos_of_ne {x : Qty} (h : x ≠ 0) : 0 < x.toNat :=
  Nat.pos_of_ne_zero fun hz => h (UInt32.toNat_inj.mp hz)

theorem toNat_sub_min {x y : Qty} : (x - min x y).toNat = x.toNat - min x.toNat y.toNat := by
  have hle : (min x y).toNat ≤ x.toNat := by
    rw [UInt32.toNat_min]
    exact Nat.min_le_left _ _
  rw [UInt32.toNat_sub_of_le _ _ (UInt32.le_iff_toNat_le.mpr hle), UInt32.toNat_min]

/-- Every fill is of a positive quantity, and what it leaves was there before. -/
theorem Matching.take_fits (h : Matching o s a rem takes a' rem' walled) (hw : WF a) :
    ∀ t ∈ takes, t.qty ≠ 0 ∧ t.qty.toNat + t.leaves.toNat ≤ rem.toNat := by
  induction h with
  | filled a => simp
  | exhausted hrem hls => simp
  | price hrem hls hstop => simp
  | wall hrem hls hgo hwall => simp
  | @take a a' rem rem' px e es ls takes walled hrem hls hgo hwall hrest ih =>
    intro t ht
    have hle : (rem - min rem e.qty).toNat = rem.toNat - min rem.toNat e.qty.toNat := toNat_sub_min
    rcases List.mem_cons.mp ht with rfl | ht
    · have hpos := toNat_pos_of_ne hrem
      have hqty := toNat_pos_of_ne (hw.positive s e (by rw [hls]; simp))
      refine ⟨fun hzero => ?_, ?_⟩
      · have hmin : (min rem e.qty).toNat = 0 := congrArg UInt32.toNat hzero
        rw [UInt32.toNat_min] at hmin
        omega
      · simp only [hle, UInt32.toNat_min]
        omega
    · obtain ⟨hne, hsum⟩ := ih (hw.take hls _) t ht
      exact ⟨hne, by omega⟩

/-- From a point where `total` has been found and `rem` is left, matching
    fills the order exactly if the walk goes on to find its quantity. -/
theorem Matching.filled_iff (h : Matching o s a rem takes a' rem' walled) {total : Nat}
    (htotal : total + rem.toNat = o.qty_remaining.toNat) :
    rem' = 0 ↔ o.qty_remaining.toNat ≤ availableLevels o total (a.levels s) := by
  -- along the fills, `total + rem` stays the quantity asked for
  induction h generalizing total with
  | filled a =>
    have hge := availableLevels_ge o (a.levels s) total
    have hzero : (0 : Qty).toNat = 0 := rfl
    constructor
    · intro _
      omega
    · intro _
      rfl
  | @exhausted a rem hrem hls =>
    have hpos := toNat_pos_of_ne hrem
    rw [hls]
    unfold availableLevels
    constructor
    · exact fun hz => absurd hz hrem
    · intro hle
      omega
  | @price a rem l ls hrem hls hstop =>
    have hpos := toNat_pos_of_ne hrem
    rw [hls]
    unfold availableLevels
    rw [if_pos hstop]
    constructor
    · exact fun hz => absurd hz hrem
    · intro hle
      omega
  | @wall a rem px e es ls hrem hls hgo hwall =>
    have hpos := toNat_pos_of_ne hrem
    have hne : ¬ price_stops o px = true := by simp [hgo]
    rw [hls]
    unfold availableLevels availableQueue
    rw [if_neg hne, if_pos hwall]
    constructor
    · exact fun hz => absurd hz hrem
    · intro hle
      have hle' : o.qty_remaining.toNat ≤ total := hle
      omega
  | @take a a' rem rem' px e es ls takes walled hrem hls hgo hwall hrest ih =>
    rw [hls]
    by_cases henough : total + e.qty.toNat ≥ o.qty_remaining.toNat
    · -- this order covers what is left
      have hleft : rem - min rem e.qty = 0 := by
        apply UInt32.toNat_inj.mp
        rw [toNat_sub_min]
        show _ = 0
        omega
      have hne : ¬ price_stops o px = true := by simp [hgo]
      have hwalk : availableLevels o total (⟨px, e :: es⟩ :: ls) = total + e.qty.toNat := by
        unfold availableLevels availableQueue
        rw [if_neg hne, if_neg hwall, if_pos henough]
      rw [hwalk]
      constructor
      · exact fun _ => henough
      · exact fun _ => hrest.rem_zero hleft
    · -- this order is used up, and the walk passes it
      have hall : min rem e.qty = e.qty := by
        apply UInt32.toNat_inj.mp
        rw [UInt32.toNat_min]
        omega
      have hlevels : (a.take s px e es ls (min rem e.qty)).levels s = keep px es ++ ls := by
        rw [LevelBook.take, if_pos hall]
        exact update_self _ _ _
      rw [availableLevels_pass hgo hwall henough, ← hlevels]
      apply ih
      rw [toNat_sub_min]
      omega

/-- An order that is not short is filled. -/
theorem Matching.filled_of_not_short
    (h : Matching o o.side.opposite a o.qty_remaining takes a' rem' walled)
    (hshort : ¬ Short a o) : rem' = 0 :=
  (h.filled_iff (Nat.zero_add _)).mpr (Nat.le_of_not_lt hshort)

end OptionsEngine
