import OptionsEngine.LevelBook.Determined
import Mathlib.Logic.Equiv.Basic

/-! # Relabelling a book

    Matching compares prices, and asks whether two accounts are the same; ids
    are looked up, and the two sides are treated alike.  So orders can be
    relabelled: their ids exchanged, their prices moved by a map that keeps
    their order, their accounts renamed, and the two sides exchanged if the
    order of prices is turned around.

    * `Relabel`: such a relabelling, and what it makes of a book.
    * `Relabel.step`: a call on a relabelled book does the relabelled thing. -/

namespace OptionsEngine

open Function OrderBook

/-! ## Section 1: Definitions -/

structure Relabel where
  side : Side → Side
  side_opposite : ∀ s, side s.opposite = (side s).opposite
  price : Price → Price
  /-- The order of prices, as a side sees it, is kept. -/
  better_iff : ∀ s p q, better (side s) (price p) (price q) ↔ better s p q
  id : OrderId ≃ OrderId
  account : UInt32 → UInt32
  account_injective : Injective account
  /-- Orders without an account stay so. -/
  account_zero : account 0 = 0

namespace Relabel

variable (φ : Relabel)

def order (o : Order) : Order :=
  { o with
    id := φ.id o.id
    price := φ.price o.price
    side := φ.side o.side
    account_id := φ.account o.account_id }

def op : Op → Op
  | .add o => .add (φ.order o)
  | .cancel id => .cancel (φ.id id)
  | .modify id new_qty => .modify (φ.id id) new_qty

def entry (e : Entry) : Entry := { e with id := φ.id e.id, account := φ.account e.account }

def level (l : Level) : Level := ⟨φ.price l.price, l.queue.map φ.entry⟩

def book (a : LevelBook) : LevelBook where
  levels := fun s => (a.levels (φ.side s)).map φ.level
  free := a.free
  index := fun id => (a.index (φ.id.symm id)).map fun p => (p.1, φ.side p.2)

def take (t : Take) : Take := ⟨φ.book t.book, φ.price t.price, φ.entry t.entry, t.qty, t.leaves⟩

def report (rpt : ExecutionReport) : ExecutionReport :=
  { rpt with
    order_id := φ.id rpt.order_id
    contra_order_id := φ.id rpt.contra_order_id
    exec_price := φ.price rpt.exec_price
    side := φ.side rpt.side }

/-! ## Section 2: Comparisons -/

@[simp] theorem side_side (s : Side) : φ.side (φ.side s) = s := by
  have hbuy := φ.side_opposite .Buy
  have hsell := φ.side_opposite .Sell
  change φ.side .Sell = _ at hbuy
  change φ.side .Buy = _ at hsell
  cases h : φ.side .Buy with
  | Buy =>
    rw [h] at hbuy
    cases s with
    | Buy => rw [h, h]
    | Sell => rw [hbuy, Side.opposite, hbuy, Side.opposite]
  | Sell =>
    rw [h] at hbuy
    cases s with
    | Buy => rw [h, hbuy, Side.opposite]
    | Sell => rw [hbuy, Side.opposite, h]

theorem price_inj {p q : Price} : φ.price p = φ.price q ↔ p = q := by
  constructor
  · intro h
    have hpq := φ.better_iff .Buy p q
    have hqp := φ.better_iff .Buy q p
    have hirr : ∀ s r, ¬ better s r r := by
      intro s r
      cases s with
      | Buy => exact Int.lt_irrefl r
      | Sell => exact Int.lt_irrefl r
    rw [h] at hpq hqp
    have h₁ : ¬ q < p := fun hlt => hirr _ _ (hpq.mpr hlt)
    have h₂ : ¬ p < q := fun hlt => hirr _ _ (hqp.mpr hlt)
    exact Int.le_antisymm (Int.not_lt.mp h₁) (Int.not_lt.mp h₂)
  · intro h
    rw [h]

/-- A price stops an order that is worse for it than its limit. -/
theorem price_stops_iff (o : Order) (p : Price) :
    price_stops o p = true ↔ o.type ≠ .Market ∧ better o.side p o.price := by
  unfold price_stops
  by_cases hmarket : o.type = .Market
  · simp [hmarket]
  · rw [if_neg hmarket]
    cases o.side with
    | Buy => simp [hmarket, better]
    | Sell => simp [hmarket, better]

theorem price_stops_order (o : Order) (p : Price) :
    price_stops (φ.order o) (φ.price p) = price_stops o p := by
  rw [Bool.eq_iff_iff, price_stops_iff, price_stops_iff]
  exact and_congr_right fun _ => φ.better_iff o.side p o.price

theorem walls_entry (o : Order) (e : Entry) : walls (φ.order o) (φ.entry e) ↔ walls o e := by
  have hzero : φ.account o.account_id = 0 ↔ o.account_id = 0 := by
    have h := φ.account_injective.eq_iff (a := o.account_id) (b := 0)
    rwa [φ.account_zero] at h
  exact and_congr (not_congr hzero) φ.account_injective.eq_iff

/-! ## Section 3: Books -/

variable (a : LevelBook) (s : Side)

@[simp] theorem levels_book : (φ.book a).levels (φ.side s) = (a.levels s).map φ.level := by
  show (a.levels (φ.side (φ.side s))).map φ.level = _
  rw [side_side]

theorem index_book (id : OrderId) :
    (φ.book a).index (φ.id id) = (a.index id).map fun p => (p.1, φ.side p.2) := by
  show (a.index (φ.id.symm (φ.id id))).map _ = _
  rw [Equiv.symm_apply_apply]

/-- Replacing the levels of a side. -/
theorem levels_update (f : Side → List Level) (ls : List Level) :
    (fun t => (update f s ls (φ.side t)).map φ.level) =
      update (fun t => (f (φ.side t)).map φ.level) (φ.side s) (ls.map φ.level) := by
  funext t
  by_cases ht : t = φ.side s
  · subst ht
    rw [side_side, update_self, update_self]
  · have hne : φ.side t ≠ s := by
      intro h
      apply ht
      rw [← h, side_side]
    rw [update_of_ne hne, update_of_ne ht]

/-- Replacing an entry of the index. -/
theorem index_update (f : OrderId → Option (Nat × Side)) (id : OrderId)
    (v : Option (Nat × Side)) :
    (fun id' => (update f id v (φ.id.symm id')).map fun p => (p.1, φ.side p.2)) =
      update (fun id' => (f (φ.id.symm id')).map fun p => (p.1, φ.side p.2)) (φ.id id)
        (v.map fun p => (p.1, φ.side p.2)) := by
  funext id'
  by_cases hid : id' = φ.id id
  · subst hid
    rw [Equiv.symm_apply_apply, update_self, update_self]
  · have hne : φ.id.symm id' ≠ id := by
      intro h
      apply hid
      rw [← h, Equiv.apply_symm_apply]
    rw [update_of_ne hne, update_of_ne hid]

theorem map_keep (px : Price) (q : List Entry) :
    (keep px q).map φ.level = keep (φ.price px) (q.map φ.entry) := by
  unfold keep
  by_cases hq : q = []
  · simp [hq]
  · simp [hq, level]

theorem book_take (px : Price) (e : Entry) (es : List Entry) (ls : List Level) (f : Qty) :
    φ.book (a.take s px e es ls f) =
      (φ.book a).take (φ.side s) (φ.price px) (φ.entry e) (es.map φ.entry) (ls.map φ.level) f := by
  unfold LevelBook.take
  by_cases hf : f = e.qty
  · rw [if_pos hf, if_pos (show f = (φ.entry e).qty from hf)]
    simp only [book, levels_update, index_update, List.map_append, map_keep, entry, Option.map_none]
  · rw [if_neg hf, if_neg (show ¬ f = (φ.entry e).qty from hf)]
    simp only [book, levels_update, List.map_cons, level, entry]

theorem map_insertEntry (p : Price) (e : Entry) (ls : List Level) :
    (insertEntry s p e ls).map φ.level =
      insertEntry (φ.side s) (φ.price p) (φ.entry e) (ls.map φ.level) := by
  induction ls with
  | nil => rfl
  | cons l ls ih =>
    have hprice : (φ.level l).price = φ.price p ↔ l.price = p := φ.price_inj
    have hbetter : better (φ.side s) (φ.level l).price (φ.price p) ↔ better s l.price p :=
      φ.better_iff s l.price p
    rw [List.map_cons]
    unfold insertEntry
    by_cases heq : l.price = p
    · rw [if_pos heq, if_pos (hprice.mpr heq)]
      simp [level]
    · rw [if_neg heq, if_neg (mt hprice.mp heq)]
      by_cases hb : better s l.price p
      · rw [if_pos hb, if_pos (hbetter.mpr hb), List.map_cons, ih]
      · rw [if_neg hb, if_neg (mt hbetter.mp hb)]
        rfl

theorem book_rest (o : Order) (slot : Nat) (free : List Nat) (rem : Qty) :
    φ.book (a.rest o slot free rem) = (φ.book a).rest (φ.order o) slot free rem := by
  unfold LevelBook.rest
  simp only [book, levels_update, index_update, map_insertEntry, Option.map_some]
  congr 2
  · show _ = insertEntry (φ.side o.side) (φ.price o.price) _ ((a.levels (φ.side (φ.side o.side))).map _)
    rw [side_side]
    rfl

theorem book_drop (ls : List Level) (id : OrderId) (slot : Nat) :
    φ.book (a.drop s ls id slot) = (φ.book a).drop (φ.side s) (ls.map φ.level) (φ.id id) slot := by
  unfold LevelBook.drop
  simp only [book, levels_update, index_update, Option.map_none]

theorem book_setLevels (ls : List Level) :
    φ.book (a.setLevels s ls) = (φ.book a).setLevels (φ.side s) (ls.map φ.level) := by
  unfold LevelBook.setLevels
  simp only [book, levels_update]

theorem book_empty : φ.book .empty = .empty := by
  simp only [book, LevelBook.empty, List.map_nil, Option.map_none]

/-! ## Section 4: Calls -/

variable {φ} {a a' : LevelBook} {s : Side} {o : Order}

theorem matching {rem rem' : Qty} {takes : List Take} {walled : Bool}
    (h : Matching o s a rem takes a' rem' walled) :
    Matching (φ.order o) (φ.side s) (φ.book a) rem (takes.map φ.take) (φ.book a') rem' walled := by
  have hlevels : ∀ (a : LevelBook) (px : Price) (e : Entry) (es : List Entry) (ls : List Level),
      a.levels s = ⟨px, e :: es⟩ :: ls → (φ.book a).levels (φ.side s) =
        ⟨φ.price px, φ.entry e :: es.map φ.entry⟩ :: ls.map φ.level := by
    intro a px e es ls hls
    rw [levels_book, hls]
    rfl
  induction h with
  | filled a => exact .filled _
  | exhausted hrem hls =>
    refine .exhausted hrem ?_
    rw [levels_book, hls]
    rfl
  | @price a rem l ls hrem hls hstop =>
    have hls' : (φ.book a).levels (φ.side s) = φ.level l :: ls.map φ.level := by
      rw [levels_book, hls]
      rfl
    exact .price hrem hls' ((φ.price_stops_order o l.price).trans hstop)
  | wall hrem hls hgo hwall =>
    exact .wall hrem (hlevels _ _ _ _ _ hls) ((φ.price_stops_order _ _).trans hgo)
      ((φ.walls_entry _ _).mpr hwall)
  | take hrem hls hgo hwall hrest ih =>
    rw [book_take] at ih
    exact .take hrem (hlevels _ _ _ _ _ hls) ((φ.price_stops_order _ _).trans hgo)
      (mt (φ.walls_entry _ _).mp hwall) ih

theorem availableQueue_order (o : Order) (q : List Entry) :
    ∀ total, availableQueue (φ.order o) total (q.map φ.entry) = availableQueue o total q := by
  induction q with
  | nil => exact fun _ => rfl
  | cons e q ih =>
    intro total
    rw [List.map_cons]
    unfold availableQueue
    by_cases hwall : walls o e
    · rw [if_pos hwall, if_pos ((φ.walls_entry o e).mpr hwall)]
    · rw [if_neg hwall, if_neg (mt (φ.walls_entry o e).mp hwall), ih]
      rfl

theorem availableLevels_order (o : Order) (ls : List Level) :
    ∀ total, availableLevels (φ.order o) total (ls.map φ.level) = availableLevels o total ls := by
  induction ls with
  | nil => exact fun _ => rfl
  | cons l ls ih =>
    intro total
    rw [List.map_cons]
    unfold availableLevels
    rw [show price_stops (φ.order o) (φ.level l).price = _ from φ.price_stops_order o l.price,
      show (φ.level l).queue = l.queue.map φ.entry from rfl, availableQueue_order]
    simp only [ih]

theorem short_iff : Short (φ.book a) (φ.order o) ↔ Short a o := by
  unfold Short
  have hside : (φ.order o).side.opposite = φ.side o.side.opposite := (φ.side_opposite o.side).symm
  rw [hside, levels_book, availableLevels_order]
  rfl

theorem price_mem_iff (ls : List Level) (p : Price) :
    (∃ l ∈ ls.map φ.level, l.price = φ.price p) ↔ ∃ l ∈ ls, l.price = p := by
  constructor
  · rintro ⟨_, hmem, hprice⟩
    obtain ⟨l, hl, rfl⟩ := List.mem_map.mp hmem
    exact ⟨l, hl, φ.price_inj.mp hprice⟩
  · rintro ⟨l, hl, rfl⟩
    exact ⟨φ.level l, List.mem_map_of_mem hl, rfl⟩

/-- A level of the relabelled book, around an entry. -/
theorem levels_split {L R : List Level} {px : Price} {q₁ q₂ : List Entry} {e : Entry}
    (hls : a.levels s = L ++ ⟨px, q₁ ++ e :: q₂⟩ :: R) :
    (φ.book a).levels (φ.side s) = L.map φ.level ++
      ⟨φ.price px, q₁.map φ.entry ++ φ.entry e :: q₂.map φ.entry⟩ :: R.map φ.level := by
  rw [levels_book, hls, List.map_append, List.map_cons]
  simp [level]

theorem matching_order {rem rem' : Qty} {takes : List Take} {walled : Bool}
    (h : Matching o o.side.opposite a rem takes a' rem' walled) :
    Matching (φ.order o) (φ.order o).side.opposite (φ.book a) rem (takes.map φ.take) (φ.book a')
      rem' walled := by
  rw [show (φ.order o).side.opposite = φ.side o.side.opposite from (φ.side_opposite o.side).symm]
  exact matching h

theorem room_order (h : (∃ l ∈ a.levels o.side, l.price = o.price) ∨
      (a.levels o.side).length < kMaxLevels) :
    (∃ l ∈ (φ.book a).levels (φ.order o).side, l.price = (φ.order o).price) ∨
      ((φ.book a).levels (φ.order o).side).length < kMaxLevels := by
  show (∃ l ∈ (φ.book a).levels (φ.side o.side), l.price = φ.price o.price) ∨
    ((φ.book a).levels (φ.side o.side)).length < kMaxLevels
  rw [levels_book, price_mem_iff, List.length_map]
  exact h

theorem full_order (hnew : ∀ l ∈ a.levels o.side, l.price ≠ o.price)
    (hfull : kMaxLevels ≤ (a.levels o.side).length) :
    (∀ l ∈ (φ.book a).levels (φ.order o).side, l.price ≠ (φ.order o).price) ∧
      kMaxLevels ≤ ((φ.book a).levels (φ.order o).side).length := by
  show (∀ l ∈ (φ.book a).levels (φ.side o.side), l.price ≠ φ.price o.price) ∧
    kMaxLevels ≤ ((φ.book a).levels (φ.side o.side)).length
  rw [levels_book, List.length_map]
  refine ⟨fun l hl hprice => ?_, hfull⟩
  obtain ⟨l', hl', hprice'⟩ := (price_mem_iff _ _).mp ⟨l, hl, hprice⟩
  exact hnew l' hl' hprice'

/-- A call on a relabelled book does the relabelled thing. -/
theorem step {op : Op} {out : Outcome} {takes : List Take} (h : Step a op out takes a') :
    Step (φ.book a) (φ.op op) out (takes.map φ.take) (φ.book a') := by
  have hindex : ∀ {id : OrderId} {slot : Nat} {s : Side},
      a.index id = some (slot, s) → (φ.book a).index (φ.id id) = some (slot, φ.side s) := by
    intro id slot s hid
    rw [index_book, hid]
    rfl
  cases h with
  | fok_rejected htype hshort => exact .fok_rejected htype (short_iff.mpr hshort)
  | immediate himm hfok hm =>
    exact .immediate himm (fun htype => mt short_iff.mp (hfok htype)) (matching_order hm)
  | filled himm hm => exact .filled himm (matching_order hm)
  | stp_walled himm hm hrem => exact .stp_walled himm (matching_order hm) hrem
  | level_rejected himm hm hrem hnew hfull =>
    obtain ⟨hnew', hfull'⟩ := full_order (φ := φ) hnew hfull
    exact .level_rejected himm (matching_order hm) hrem hnew' hfull'
  | slot_rejected himm hm hrem hroom hfree =>
    exact .slot_rejected himm (matching_order hm) hrem (room_order hroom) hfree
  | rested himm hm hrem hroom hfree =>
    rw [book_rest]
    exact .rested himm (matching_order hm) hrem (room_order hroom) hfree
  | cancel_unknown hid =>
    refine .cancel_unknown ?_
    rw [index_book, hid]
    rfl
  | cancelled hid heid hls =>
    rw [book_drop, List.map_append, List.map_append, map_keep, List.map_append]
    exact .cancelled (e := φ.entry _) (hindex hid) (congrArg φ.id heid) (levels_split hls)
  | modify_unknown hid =>
    refine .modify_unknown ?_
    rw [index_book, hid]
    rfl
  | increased hid heid hls hqty =>
    have hstep := Step.increased (e := φ.entry _) (hindex hid) (congrArg φ.id heid) (levels_split hls)
      hqty
    simpa [book_setLevels, Relabel.op, level, entry] using hstep
  | decreased hid heid hls hqty hnew =>
    have hstep := Step.decreased (e := φ.entry _) (hindex hid) (congrArg φ.id heid) (levels_split hls)
      hqty hnew
    simpa [book_setLevels, Relabel.op, level, entry] using hstep
  | emptied hid heid hls =>
    rw [book_drop, List.map_append, List.map_append, map_keep, List.map_append]
    exact .emptied (e := φ.entry _) (hindex hid) (congrArg φ.id heid) (levels_split hls)

end Relabel

end OptionsEngine
