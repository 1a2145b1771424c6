import OptionsEngine.LevelBook.Liquidity

/-! # Matching in slices

    An order that is matched in two slices takes from the other side what the
    whole would: the second slice goes on where the first one stopped
    (`Matching.join`).  Only the order in the queue at which the first slice
    ended is seen twice, so the fills agree once neighbouring fills against the
    same resting order are put together (`coalesce`). -/

namespace OptionsEngine

open Function OrderBook

/-! ## Section 1: Fills -/

/-- A fill, without the book it happened in. -/
structure Execution where
  slot : Nat
  id : OrderId
  price : Price
  qty : Nat
  deriving DecidableEq

def Take.execution (t : Take) : Execution := ⟨t.entry.slot, t.entry.id, t.price, t.qty.toNat⟩

namespace Execution

/-- Two fills against the same resting order. -/
def Same (f g : Execution) : Prop := f.slot = g.slot ∧ f.id = g.id ∧ f.price = g.price

instance (f g : Execution) : Decidable (f.Same g) := inferInstanceAs (Decidable (_ ∧ _))

/-- Put a fill in front of others, or together with the first of them. -/
def push (f : Execution) : List Execution → List Execution
  | [] => [f]
  | g :: gs => if f.Same g then { f with qty := f.qty + g.qty } :: gs else f :: g :: gs

/-- Neighbouring fills against the same order are put together. -/
def coalesce (fs : List Execution) : List Execution := fs.foldr push []

theorem coalesce_append (fs gs : List Execution) : coalesce (fs ++ gs) = fs.foldr push (coalesce gs) :=
  List.foldr_append

theorem coalesce_append_congr (fs : List Execution) {gs gs' : List Execution}
    (h : coalesce gs = coalesce gs') : coalesce (fs ++ gs) = coalesce (fs ++ gs') := by
  rw [coalesce_append, coalesce_append, h]

/-- A fill in two parts. -/
theorem push_push (f : Execution) (x y : Nat) (fs : List Execution) :
    push { f with qty := x } (push { f with qty := y } fs) = push { f with qty := x + y } fs := by
  cases fs with
  | nil => simp [push, Same]
  | cons g gs =>
    by_cases hsame : f.Same g
    · have hx : ∀ z, Same { f with qty := z } g := fun _ => hsame
      have hy : Same { f with qty := x } { f with qty := y + g.qty } := ⟨rfl, rfl, rfl⟩
      simp only [push, if_pos (hx _), if_pos hy, Nat.add_assoc]
    · have hx : ∀ z, ¬ Same { f with qty := z } g := fun _ => hsame
      have hy : Same { f with qty := x } { f with qty := y } := ⟨rfl, rfl, rfl⟩
      simp only [push, if_neg (hx _), if_pos hy]

/-- Fills against different orders stay as they are. -/
theorem coalesce_eq_self {fs : List Execution} (h : fs.Pairwise fun f g => f.slot ≠ g.slot) :
    coalesce fs = fs := by
  induction h with
  | nil => rfl
  | @cons f fs hne _ ih =>
    show push f (coalesce fs) = f :: fs
    rw [ih]
    cases fs with
    | nil => rfl
    | cons g gs => exact if_neg fun hsame => hne g List.mem_cons_self hsame.1

end Execution

open Execution

/-! ## Section 2: Two slices -/

variable {a a₁ a₂ : LevelBook} {s : Side} {o : Order} {x y rem₁ rem₂ : Qty}
  {takes₁ takes₂ : List Take} {walled₁ walled₂ : Bool} {px : Price} {e : Entry} {es : List Entry}
  {ls : List Level}

/-- Nothing comes of a second slice where the first one could not go on. -/
theorem Matching.takes_nothing (hx : x ≠ 0) (h₁ : Matching o s a x [] a x walled₁)
    (h₂ : Matching o s a y takes₂ a₂ rem₂ walled₂) : takes₂ = [] ∧ a₂ = a := by
  cases h₂ with
  | filled | exhausted | price | wall => exact ⟨rfl, rfl⟩
  | take hne hls hgo hwall hrest =>
    cases h₁ with
    | filled => exact absurd rfl hx
    | exhausted _ hls' =>
      rw [hls] at hls'
      cases hls'
    | price _ hls' hstop =>
      rw [hls] at hls'
      cases hls'
      rw [hgo] at hstop
      cases hstop
    | wall _ hls' _ hwall' =>
      rw [hls] at hls'
      cases hls'
      exact absurd hwall' hwall

/-- A part of an order, then some of what is left of it. -/
theorem take_take {f : Qty} (hf : f < e.qty) (g : Qty) :
    (a.take s px e es ls f).take s px { e with qty := e.qty - f } es ls g =
      a.take s px e es ls (f + g) := by
  have hne : f ≠ e.qty := UInt32.ne_of_lt hf
  have hiff : g = e.qty - f ↔ f + g = e.qty := by grind
  have hsub : e.qty - f - g = e.qty - (f + g) := by grind
  rw [LevelBook.take, LevelBook.take, LevelBook.take, if_neg hne]
  by_cases hall : g = e.qty - f
  · rw [if_pos hall, if_pos (hiff.mp hall)]
    simp only [update_idem]
  · rw [if_neg hall, if_neg (fun h => hall (hiff.mpr h))]
    simp only [update_idem, hsub]

theorem levels_take_part (a : LevelBook) (s : Side) (px : Price) (es : List Entry)
    (ls : List Level) {f : Qty} (hf : f < e.qty) :
    (a.take s px e es ls f).levels s = ⟨px, { e with qty := e.qty - f } :: es⟩ :: ls := by
  rw [LevelBook.take, if_neg (UInt32.ne_of_lt hf)]
  exact update_self _ _ _

theorem min_eq_of_lt {q : Qty} (h : x < q) : min x q = x := by
  apply UInt32.toNat_inj.mp
  have hlt := UInt32.lt_iff_toNat_lt.mp h
  rw [UInt32.toNat_min]
  omega

/-- The quantities of a fill that the first slice ends in. -/
theorem split_min {q : Qty} (hadd : x.toNat + y.toNat < 2 ^ 32) (hx : x < q) :
    min (x + y) q = x + min y (q - x) ∧ x + y - min (x + y) q = y - min y (q - x) ∧
      (x + min y (q - x)).toNat = x.toNat + (min y (q - x)).toNat := by
  have hlt := UInt32.lt_iff_toNat_lt.mp hx
  have hsub : (q - x).toNat = q.toNat - x.toNat :=
    UInt32.toNat_sub_of_le _ _ (UInt32.le_of_lt hx)
  have hmin : min (x + y) q = x + min y (q - x) := by
    apply UInt32.toNat_inj.mp
    rw [UInt32.toNat_min, UInt32.toNat_add, UInt32.toNat_add, UInt32.toNat_min, hsub]
    omega
  refine ⟨hmin, ?_, ?_⟩
  · rw [hmin]
    grind
  · rw [UInt32.toNat_add, UInt32.toNat_min, hsub]
    omega

/-- The quantities of a fill that the first slice goes past. -/
theorem whole_min {q : Qty} (hadd : x.toNat + y.toNat < 2 ^ 32) (hx : q ≤ x) :
    min x q = q ∧ min (x + y) q = q ∧ x + y - q = x - q + y := by
  have hle := UInt32.le_iff_toNat_le.mp hx
  refine ⟨?_, ?_, by grind⟩
  · apply UInt32.toNat_inj.mp
    rw [UInt32.toNat_min]
    omega
  · apply UInt32.toNat_inj.mp
    rw [UInt32.toNat_min, UInt32.toNat_add]
    omega

theorem add_ne_zero (hx : x ≠ 0) (hadd : x.toNat + y.toNat < 2 ^ 32) : x + y ≠ 0 := by
  intro hzero
  have hsum := congrArg UInt32.toNat hzero
  rw [UInt32.toNat_add, UInt32.toNat_zero] at hsum
  have hpos := toNat_pos_of_ne hx
  omega

/-- A fill, by its quantities. -/
theorem Matching.take_of_eq {f left : Qty} (hx : x ≠ 0) (hls : a.levels s = ⟨px, e :: es⟩ :: ls)
    (hgo : price_stops o px = false) (hwall : ¬ walls o e) (hf : min x e.qty = f)
    (hleft : x - min x e.qty = left)
    (hrest : Matching o s (a.take s px e es ls f) left takes₁ a₁ rem₁ walled₁) :
    Matching o s a x (⟨a, px, e, f, left⟩ :: takes₁) a₁ rem₁ walled₁ := by
  subst hf
  subst hleft
  exact .take hx hls hgo hwall hrest

theorem Matching.of_zero (h : Matching o s a 0 takes₁ a₁ rem₁ walled₁) : takes₁ = [] ∧ a₁ = a := by
  cases h with
  | filled => exact ⟨rfl, rfl⟩
  | exhausted hne | price hne | wall hne | take hne => exact absurd rfl hne

/-- The first slice ends in the order `e`, and the second goes on with what is
    left of it. -/
theorem Matching.join_part (hx : x ≠ 0) (hls : a.levels s = ⟨px, e :: es⟩ :: ls)
    (hgo : price_stops o px = false) (hwall : ¬ walls o e) (hlt : x < e.qty)
    (h₂ : Matching o s (a.take s px e es ls x) y takes₂ a₂ rem₂ walled₂)
    (hadd : x.toNat + y.toNat < 2 ^ 32) :
    ∃ takes rem walled, Matching o s a (x + y) takes a₂ rem walled ∧
      coalesce (⟨e.slot, e.id, px, x.toNat⟩ :: takes₂.map Take.execution) =
        coalesce (takes.map Take.execution) := by
  obtain ⟨hmin, hleft, hsum⟩ := split_min hadd hlt
  -- Of the ways for the second slice to stop, only an empty one is left at `e`.
  by_cases hy : y = 0
  · subst hy
    obtain ⟨rfl, rfl⟩ := h₂.of_zero
    have hall : min x e.qty = x := min_eq_of_lt hlt
    refine ⟨[⟨a, px, e, x, 0⟩], 0, false, ?_, rfl⟩
    rw [UInt32.add_zero]
    exact .take_of_eq hx hls hgo hwall hall (by rw [hall, UInt32.sub_self]) (.filled _)
  · have hhead := levels_take_part a s px es ls hlt
    cases h₂ with
    | filled => exact absurd rfl hy
    | exhausted _ hls' =>
      rw [hhead] at hls'
      cases hls'
    | price _ hls' hstop =>
      rw [hhead] at hls'
      cases hls'
      rw [hgo] at hstop
      cases hstop
    | wall _ hls' _ hwall' =>
      rw [hhead] at hls'
      cases hls'
      exact absurd hwall' hwall
    | @take _ _ _ _ _ _ _ _ takes _ _ hls' _ _ hrest =>
      rw [hhead] at hls'
      cases hls'
      rw [take_take hlt] at hrest
      refine ⟨⟨a, px, e, x + min y (e.qty - x), y - min y (e.qty - x)⟩ :: takes, rem₂, walled₂, ?_, ?_⟩
      · exact .take_of_eq (add_ne_zero hx hadd) hls hgo hwall hmin hleft hrest
      -- Two fills against `e` in a row, and one of both quantities.
      · show push _ (push _ (coalesce _)) = push ⟨_, _, _, (x + min y (e.qty - x)).toNat⟩ (coalesce _)
        rw [hsum]
        exact push_push ⟨e.slot, e.id, px, 0⟩ _ _ _

/-- Two slices, one after the other, are matched as their sum would be. -/
theorem Matching.join (h₁ : Matching o s a x takes₁ a₁ rem₁ walled₁) :
    ∀ {y takes₂}, Matching o s a₁ y takes₂ a₂ rem₂ walled₂ → x.toNat + y.toNat < 2 ^ 32 →
      ∃ takes rem walled, Matching o s a (x + y) takes a₂ rem walled ∧
        coalesce (takes₁.map Take.execution ++ takes₂.map Take.execution) =
          coalesce (takes.map Take.execution) := by
  -- Induction on the first slice; where it stops, the second takes nothing.
  induction h₁ with
  | filled a =>
    intro y takes₂ h₂ _
    refine ⟨takes₂, rem₂, walled₂, ?_, rfl⟩
    rw [UInt32.zero_add]
    exact h₂
  | exhausted hx hls =>
    intro y takes₂ h₂ hadd
    obtain ⟨rfl, rfl⟩ := Matching.takes_nothing hx (.exhausted hx hls) h₂
    exact ⟨[], _, _, .exhausted (add_ne_zero hx hadd) hls, rfl⟩
  | price hx hls hstop =>
    intro y takes₂ h₂ hadd
    obtain ⟨rfl, rfl⟩ := Matching.takes_nothing hx (.price hx hls hstop) h₂
    exact ⟨[], _, _, .price (add_ne_zero hx hadd) hls hstop, rfl⟩
  | wall hx hls hgo hwall =>
    intro y takes₂ h₂ hadd
    obtain ⟨rfl, rfl⟩ := Matching.takes_nothing hx (.wall hx hls hgo hwall) h₂
    exact ⟨[], _, _, .wall (add_ne_zero hx hadd) hls hgo hwall, rfl⟩
  | @take a a₁ x rem₁ px e es ls takes₁ walled₁ hx hls hgo hwall hrest ih =>
    intro y takes₂ h₂ hadd
    by_cases hlt : x < e.qty
    · have hall : min x e.qty = x := min_eq_of_lt hlt
      rw [hall, UInt32.sub_self] at hrest
      obtain ⟨rfl, rfl⟩ := hrest.of_zero
      rw [hall]
      exact Matching.join_part hx hls hgo hwall hlt h₂ hadd
    · -- the first slice uses this order up
      obtain ⟨hx', hxy, hleft⟩ := whole_min hadd (UInt32.not_lt.mp hlt)
      rw [hx'] at hrest ih ⊢
      have hadd' : (x - e.qty).toNat + y.toNat < 2 ^ 32 := by
        rw [UInt32.toNat_sub_of_le _ _ (UInt32.not_lt.mp hlt)]
        omega
      obtain ⟨takes, rem, walled, hm, hfills⟩ := ih h₂ hadd'
      refine ⟨⟨a, px, e, e.qty, x - e.qty + y⟩ :: takes, rem, walled, ?_, ?_⟩
      · exact .take_of_eq (add_ne_zero hx hadd) hls hgo hwall hxy (by rw [hxy, hleft]) hm
      · exact congrArg (push _) hfills

end OptionsEngine
