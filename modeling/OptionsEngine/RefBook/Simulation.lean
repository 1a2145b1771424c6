import OptionsEngine.LevelBook.Exact
import OptionsEngine.LevelBook.Liquidity
import OptionsEngine.RefBook

/-! # The book of levels simulates the reference model

    `RefSim a r`: forgetting slots, the levels of `a` are the maps of `r`, and
    the slots in use are its resting count.  Every `Step` of an exact book is
    matched by the reference model's operation (`RefSim.step`): `sweep` is the
    abstract matching, `available` decides as the pre-check does, and where
    ids are unique the search for an id ends at the indexed order. -/

namespace OptionsEngine

open Function OrderBook

/-! ## Section 1: The relation -/

def Entry.toRef (e : Entry) : RefOrder := ⟨e.id, e.qty, e.account⟩

def Level.toRef (l : Level) : RefLevel := (l.price, l.queue.map Entry.toRef)

/-- A fill, as the reference model records it. -/
def Take.toFill (aggr : OrderId) (t : Take) : Fill := ⟨aggr, t.entry.id, t.price, t.qty⟩

/-- `r` is `a` without slots and index. -/
structure RefSim (a : LevelBook) (r : RefBook) : Prop where
  sides : ∀ s, r.side s = (a.levels s).map Level.toRef
  count : r.resting_count + a.free.length = kMaxOrders

variable {a a' : LevelBook} {s : Side} {L R ls : List Level} {px : Price}
  {q q₁ q₂ es : List Entry} {e : Entry} {o : Order} {id : OrderId} {r : RefBook}
  {rem rem' : Qty} {takes : List Take} {walled : Bool}

@[simp] theorem toRef_mk (px : Price) (q : List Entry) :
    (⟨px, q⟩ : Level).toRef = (px, q.map Entry.toRef) := rfl

/-- The relation, side by side. -/
theorem RefSim.of_side (s : Side) (hown : r.side s = (a.levels s).map Level.toRef)
    (hopp : r.side s.opposite = (a.levels s.opposite).map Level.toRef)
    (hcount : r.resting_count + a.free.length = kMaxOrders) : RefSim a r := by
  refine ⟨?_, hcount⟩
  intro t
  rcases s.eq_or_opposite t with rfl | rfl
  · exact hown
  · exact hopp

/-- One side and the count are replaced in both books. -/
theorem RefSim.set (h : RefSim a r) {side : List RefLevel} {n : Nat}
    (hside : side = (a'.levels s).map Level.toRef)
    (hopp : a'.levels s.opposite = a.levels s.opposite)
    (hcount : n + a'.free.length = kMaxOrders) :
    RefSim a' { r.setSide s side with resting_count := n } := by
  have hother : RefBook.side { r.setSide s side with resting_count := n } s.opposite =
      r.side s.opposite := by
    cases s <;> rfl
  refine RefSim.of_side s ?_ ?_ hcount
  · rw [← hside]
    cases s <;> rfl
  · rw [hother, hopp]
    exact h.sides s.opposite

theorem map_keep (px : Price) (q : List Entry) :
    (keep px q).map Level.toRef =
      if q.map Entry.toRef = [] then [] else [(px, q.map Entry.toRef)] := by
  by_cases hq : q = []
  · simp [keep, hq]
  · simp [keep, hq]

/-! ## Section 2: Sweeping -/

/-- The price test of `sweep` is that of `try_match`. -/
theorem limited_beyond (o : Order) (px : Price) :
    (decide (o.type ≠ .Market) && RefBook.beyond (decide (o.side = .Buy)) o.price px) =
      price_stops o px := by
  unfold price_stops RefBook.beyond
  by_cases htype : o.type = .Market
  · simp [htype]
  · cases hs : o.side <;> simp [htype]

/-- `sweep` with the arguments `add` passes for `o`. -/
def sweepOf (o : Order) : Qty → List RefLevel → RefBook.Sweep × List RefLevel :=
  RefBook.sweep o.id o.price (o.side = .Buy) (o.type ≠ .Market) o.account_id

theorem sweepOf_zero (side : List RefLevel) : sweepOf o 0 side = (⟨[], 0, false, 0⟩, side) := by
  cases side with
  | nil => rfl
  | cons l side =>
    simp only [sweepOf, RefBook.sweep]
    rw [if_pos trivial]

theorem sweepOf_stop (hrem : rem ≠ 0) {side : List RefLevel} {q : List RefOrder}
    (hstop : price_stops o px = true) :
    sweepOf o rem ((px, q) :: side) = (⟨[], rem, false, 0⟩, (px, q) :: side) := by
  unfold sweepOf RefBook.sweep
  rw [if_neg hrem, limited_beyond, if_pos hstop]

theorem sweepOf_level (hrem : rem ≠ 0) {side : List RefLevel} {q : List RefOrder}
    (hgo : price_stops o px = false) :
    sweepOf o rem ((px, q) :: side) =
      (let (s, q') := RefBook.sweep_queue o.id o.account_id px rem q
       if s.walled then (s, (px, q') :: side)
       else if q' = [] then
         let (s', side') := sweepOf o s.qty side
         (⟨s.fills ++ s'.fills, s'.qty, s'.walled, s.popped + s'.popped⟩, side')
       else (s, (px, q') :: side)) := by
  have hne : ¬ price_stops o px = true := by simp [hgo]
  simp only [sweepOf, RefBook.sweep]
  rw [if_neg hrem, limited_beyond, if_neg hne]

theorem sweepOf_wall (hrem : rem ≠ 0) {side : List RefLevel} {front : RefOrder}
    {q : List RefOrder} (hgo : price_stops o px = false)
    (hwall : o.account_id ≠ 0 ∧ o.account_id = front.account) :
    sweepOf o rem ((px, front :: q) :: side) = (⟨[], rem, true, 0⟩, (px, front :: q) :: side) := by
  rw [sweepOf_level hrem hgo]
  unfold RefBook.sweep_queue
  rw [if_neg hrem, if_pos hwall]
  simp

/-- A front that covers the aggressor ends the sweep. -/
theorem sweepOf_partial (side : List RefLevel) (front : RefOrder) (q : List RefOrder)
    (hrem : rem ≠ 0) (hgo : price_stops o px = false)
    (hwall : ¬ (o.account_id ≠ 0 ∧ o.account_id = front.account))
    (hleft : front.rem - min rem front.rem ≠ 0) :
    sweepOf o rem ((px, front :: q) :: side) =
      (⟨[⟨o.id, front.id, px, min rem front.rem⟩], rem - min rem front.rem, false, 0⟩,
        (px, { front with rem := front.rem - min rem front.rem } :: q) :: side) := by
  rw [sweepOf_level hrem hgo]
  unfold RefBook.sweep_queue
  rw [if_neg hrem, if_neg hwall, if_neg hleft]
  simp

/-- A front that is used up leaves its queue, and the sweep goes on. -/
theorem sweepOf_pop (side : List RefLevel) (front : RefOrder) (q : List RefOrder)
    (hrem : rem ≠ 0) (hgo : price_stops o px = false)
    (hwall : ¬ (o.account_id ≠ 0 ∧ o.account_id = front.account))
    (hleft : front.rem - min rem front.rem = 0) :
    sweepOf o rem ((px, front :: q) :: side) =
      (let (s, side') := sweepOf o (rem - min rem front.rem)
          ((if q = [] then [] else [(px, q)]) ++ side)
       (⟨⟨o.id, front.id, px, min rem front.rem⟩ :: s.fills, s.qty, s.walled, s.popped + 1⟩,
        side')) := by
  rw [sweepOf_level hrem hgo]
  unfold RefBook.sweep_queue
  rw [if_neg hrem, if_neg hwall, if_pos hleft]
  by_cases hq : q = []
  · subst hq
    simp [RefBook.sweep_queue, Nat.add_comm]
  rw [if_neg hq, List.singleton_append]
  by_cases hzero : rem - min rem front.rem = 0
  · -- nothing left: neither the queue nor the side is entered again
    rw [hzero, sweepOf_zero]
    cases q with
    | nil => exact absurd rfl hq
    | cons x q => simp [RefBook.sweep_queue]
  · rw [sweepOf_level hzero hgo]
    cases hsweep : RefBook.sweep_queue o.id o.account_id px (rem - min rem front.rem) q with
    | mk s q' =>
      by_cases hwalled : s.walled = true
      · simp [hwalled]
      · by_cases hq' : q' = []
        · simp [hwalled, hq', Nat.add_right_comm]
        · simp [hwalled, hq']

/-- What `sweep` returns for a run of the abstract matching. -/
theorem Matching.sweep (h : Matching o s a rem takes a' rem' walled) :
    ∃ popped, sweepOf o rem ((a.levels s).map Level.toRef) =
        (⟨takes.map (Take.toFill o.id), rem', walled, popped⟩, (a'.levels s).map Level.toRef) ∧
      a'.free.length = a.free.length + popped := by
  induction h with
  | filled a => exact ⟨0, sweepOf_zero _, rfl⟩
  | exhausted hrem hls => exact ⟨0, by rw [hls]; rfl, rfl⟩
  | price hrem hls hstop => exact ⟨0, by rw [hls]; exact sweepOf_stop hrem hstop, rfl⟩
  | wall hrem hls hgo hwall => exact ⟨0, by rw [hls]; exact sweepOf_wall hrem hgo hwall, rfl⟩
  | @take a a' rem rem' px e es ls takes walled hrem hls hgo hwall hrest ih =>
    obtain ⟨popped, hsweep, hfree⟩ := ih
    rw [hls]
    by_cases hall : min rem e.qty = e.qty
    · -- the head leaves the book
      have htake : a.take s px e es ls (min rem e.qty) =
          { levels := update a.levels s (keep px es ++ ls)
            free := e.slot :: a.free
            index := update a.index e.id none } := by
        rw [LevelBook.take, if_pos hall]
      have hleft : e.qty - min rem e.qty = 0 := by rw [hall, UInt32.sub_self]
      rw [htake] at hsweep hfree
      have hlevels : ((update a.levels s (keep px es ++ ls)) s).map Level.toRef =
          (if es.map Entry.toRef = [] then [] else [(px, es.map Entry.toRef)]) ++
            ls.map Level.toRef := by
        rw [update_self, List.map_append, map_keep]
      refine ⟨popped + 1, ?_, ?_⟩
      · have hpop := sweepOf_pop (ls.map Level.toRef) e.toRef (es.map Entry.toRef) hrem hgo
          hwall hleft
        rw [← hlevels, show e.toRef.rem = e.qty from rfl, hsweep] at hpop
        exact hpop
      · rw [hfree, List.length_cons]
        omega
    · -- the aggressor is used up
      have htake : a.take s px e es ls (min rem e.qty) =
          a.setLevels s (⟨px, { e with qty := e.qty - min rem e.qty } :: es⟩ :: ls) := by
        rw [LevelBook.take, if_neg hall]
        rfl
      have hmin : min rem e.qty = rem := by
        apply UInt32.toNat_inj.mp
        have hne : (min rem e.qty).toNat ≠ e.qty.toNat := fun hc => hall (UInt32.toNat_inj.mp hc)
        rw [UInt32.toNat_min] at hne ⊢
        omega
      have hzero : rem - min rem e.qty = 0 := by rw [hmin, UInt32.sub_self]
      rw [hzero] at hrest hsweep
      rw [sweepOf_zero, htake, levels_setLevels] at hsweep
      have hpartial := sweepOf_partial (ls.map Level.toRef) e.toRef (es.map Entry.toRef) hrem hgo
        hwall (sub_min_ne_zero hall)
      simp only [Prod.mk.injEq, RefBook.Sweep.mk.injEq] at hsweep
      obtain ⟨⟨hfills, hrem', hwalled', hpop⟩, hside⟩ := hsweep
      have htakes : takes = [] := by simpa using hfills.symm
      subst htakes
      refine ⟨0, ?_, ?_⟩
      · rw [← hside, ← hwalled', ← hrem']
        rw [show e.toRef.rem = e.qty from rfl, hzero] at hpartial
        exact hpartial
      · rw [hfree, htake, ← hpop]
        rfl

/-! ## Section 3: Availability -/

theorem saturate_toNat (x y : Qty) :
    (RefBook.saturate x y).toNat = min (x.toNat + y.toNat) 4294967295 := by
  rw [RefBook.saturate, UInt32.toNat_ofNat']
  omega

theorem le_saturate (x y : Qty) : x.toNat ≤ (RefBook.saturate x y).toNat := by
  have hx := x.toNat_lt
  rw [saturate_toNat]
  omega

theorem available_queue_ge (account : UInt32) (q : List RefOrder) (total : Qty) :
    total.toNat ≤ (RefBook.available_queue account total q).2.toNat := by
  induction q generalizing total with
  | nil => exact Nat.le_refl _
  | cons x q ih =>
    unfold RefBook.available_queue
    split
    · exact Nat.le_refl _
    · exact Nat.le_trans (le_saturate total x.rem) (ih _)

theorem available_ge (limit : Price) (is_buy : Bool) (account : UInt32) (side : List RefLevel)
    (total : Qty) : total.toNat ≤ (RefBook.available limit is_buy account total side).toNat := by
  induction side generalizing total with
  | nil => exact Nat.le_refl _
  | cons l side ih =>
    obtain ⟨px, q⟩ := l
    have hq := available_queue_ge account q total
    unfold RefBook.available
    split
    · exact Nat.le_refl _
    · split
      · next heq => rw [heq] at hq; exact hq
      · next heq =>
        rw [heq] at hq
        exact Nat.le_trans hq (ih _)

/-- Below the quantity asked for, the saturating walk over a queue is the walk
    of the pre-check; where the pre-check has found enough, so has it. -/
theorem available_queue_eq (q : List Entry) {total : Qty}
    (hlt : total.toNat < o.qty_remaining.toNat) :
    (∃ total', RefBook.available_queue o.account_id total (q.map Entry.toRef) =
        ((availableQueue o total.toNat q).1, total') ∧
      total'.toNat = (availableQueue o total.toNat q).2 ∧
      total'.toNat < o.qty_remaining.toNat) ∨
    ((availableQueue o total.toNat q).1 = true ∧
      o.qty_remaining.toNat ≤ (availableQueue o total.toNat q).2 ∧
      o.qty_remaining.toNat ≤
        (RefBook.available_queue o.account_id total (q.map Entry.toRef)).2.toNat) := by
  induction q generalizing total with
  | nil => exact Or.inl ⟨total, rfl, rfl, hlt⟩
  | cons e es ih =>
    have hq := o.qty_remaining.toNat_lt
    have hsat : (RefBook.saturate total e.toRef.rem).toNat =
        min (total.toNat + e.qty.toNat) 4294967295 := saturate_toNat total e.qty
    simp only [List.map_cons, RefBook.available_queue, availableQueue]
    by_cases hwall : walls o e
    · have hwall' : o.account_id ≠ 0 ∧ o.account_id = e.toRef.account := hwall
      rw [if_pos hwall', if_pos hwall]
      exact Or.inl ⟨total, rfl, rfl, hlt⟩
    have hwall' : ¬ (o.account_id ≠ 0 ∧ o.account_id = e.toRef.account) := hwall
    rw [if_neg hwall', if_neg hwall]
    by_cases henough : total.toNat + e.qty.toNat ≥ o.qty_remaining.toNat
    · rw [if_pos henough]
      -- the pre-check stops here; the reference model goes on, and its total only grows
      refine Or.inr ⟨rfl, henough, ?_⟩
      have hge := available_queue_ge o.account_id (es.map Entry.toRef)
        (RefBook.saturate total e.toRef.rem)
      omega
    · rw [if_neg henough]
      -- below a 32-bit quantity the sum does not saturate
      have hstep : (RefBook.saturate total e.toRef.rem).toNat = total.toNat + e.qty.toNat := by
        omega
      rw [← hstep]
      exact ih (by omega)

theorem available_short (hfok : o.type ≠ .Market) (ls : List Level) {total : Qty}
    (hlt : total.toNat < o.qty_remaining.toNat) :
    (RefBook.available o.price (o.side = .Buy) o.account_id total
        (ls.map Level.toRef)).toNat < o.qty_remaining.toNat ↔
      availableLevels o total.toNat ls < o.qty_remaining.toNat := by
  induction ls generalizing total with
  | nil => exact Iff.rfl
  | cons l ls ih =>
    obtain ⟨px, q⟩ := l
    have hstop : RefBook.beyond (decide (o.side = .Buy)) o.price px = price_stops o px := by
      rw [← limited_beyond]
      simp [hfok]
    simp only [List.map_cons, toRef_mk, RefBook.available, availableLevels, hstop]
    by_cases hs : price_stops o px = true
    · rw [if_pos hs, if_pos hs]
    rw [if_neg hs, if_neg hs]
    rcases available_queue_eq q hlt with ⟨total', heq, htotal, hlt'⟩ | ⟨hdone, habs, href⟩
    · rw [heq]
      cases hav : availableQueue o total.toNat q with
      | mk done t =>
        rw [hav] at htotal
        simp only at htotal
        cases done with
        | true => simp only [htotal]
        | false =>
          simp only
          rw [← htotal]
          exact ih hlt'
    · -- enough was found; the reference model may go on adding
      have hge := fun t => available_ge o.price (decide (o.side = .Buy)) o.account_id
        (ls.map Level.toRef) t
      cases hav : availableQueue o total.toNat q with
      | mk done t =>
        rw [hav] at hdone habs
        simp only at hdone habs
        subst hdone
        cases hrav : RefBook.available_queue o.account_id total (q.map Entry.toRef) with
        | mk done' t' =>
          rw [hrav] at href
          simp only at href
          constructor
          · intro hc
            cases done' with
            | true =>
              have hc' : t'.toNat < o.qty_remaining.toNat := hc
              omega
            | false =>
              have := hge t'
              have hc' : (RefBook.available o.price (decide (o.side = .Buy)) o.account_id t'
                (ls.map Level.toRef)).toNat < o.qty_remaining.toNat := hc
              omega
          · intro hc
            have hc' : t < o.qty_remaining.toNat := hc
            omega

/-- The pre-checks agree. -/
theorem RefSim.short_iff (h : RefSim a r) (hfok : o.type = .FOK) (hqty : o.qty = o.qty_remaining) :
    RefBook.available o.price (o.side = .Buy) o.account_id 0 (r.side o.side.opposite) < o.qty ↔
      Short a o := by
  have hmarket : o.type ≠ .Market := by rw [hfok]; decide
  rw [h.sides, hqty, UInt32.lt_iff_toNat_lt]
  by_cases hpos : (0 : Qty).toNat < o.qty_remaining.toNat
  · exact available_short hmarket _ hpos
  · have hzero : o.qty_remaining.toNat = 0 := Nat.le_zero.mp (Nat.le_of_not_lt hpos)
    unfold Short
    rw [hzero]
    constructor
    · exact fun hc => absurd hc (Nat.not_lt_zero _)
    · exact fun hc => absurd hc (Nat.not_lt_zero _)

/-! ## Section 4: Booking and searching -/

theorem before_iff (s : Side) (p q : Price) : RefBook.before s p q = true ↔ better s p q := by
  cases s <;> simp [RefBook.before, better]

theorem push_back_eq (s : Side) (p : Price) (e : Entry) (ls : List Level) :
    RefBook.push_back (RefBook.before s) p e.toRef (ls.map Level.toRef) =
      (insertEntry s p e ls).map Level.toRef := by
  induction ls with
  | nil => rfl
  | cons l ls ih =>
    obtain ⟨px, q⟩ := l
    simp only [List.map_cons, toRef_mk, RefBook.push_back, insertEntry]
    by_cases heq : px = p
    · subst heq
      have hirr : ¬ RefBook.before s px px = true := by
        rw [before_iff]
        exact better_irrefl s px
      rw [if_neg hirr, if_neg hirr, if_pos rfl]
      simp
    rw [if_neg heq]
    by_cases hb : better s px p
    · rw [if_pos ((before_iff s px p).mpr hb), if_pos hb, ih]
      simp
    · have hp : better s p px := (better_total heq).resolve_left hb
      rw [if_neg fun hc => hb ((before_iff s px p).mp hc), if_neg hb,
        if_pos ((before_iff s p px).mpr hp)]
      simp [Entry.toRef]

theorem find_in_queue_some (hid : e.id = id) (hq : ∀ x ∈ q₁, x.id ≠ id) :
    RefBook.find_in_queue id ((q₁ ++ e :: q₂).map Entry.toRef) =
      some (q₁.map Entry.toRef, e.toRef, q₂.map Entry.toRef) := by
  induction q₁ with
  | nil =>
    simp only [List.nil_append, List.map_cons, RefBook.find_in_queue]
    exact if_pos hid
  | cons x q₁ ih =>
    have hx : ¬ x.toRef.id = id := hq x (by simp)
    simp only [List.cons_append, List.map_cons, RefBook.find_in_queue]
    rw [if_neg hx, ih fun y hy => hq y (by simp [hy])]
    rfl

theorem find_in_queue_none (hq : ∀ x ∈ q, x.id ≠ id) :
    RefBook.find_in_queue id (q.map Entry.toRef) = none := by
  induction q with
  | nil => rfl
  | cons x q ih =>
    have hx : ¬ x.toRef.id = id := hq x (by simp)
    simp only [List.map_cons, RefBook.find_in_queue]
    rw [if_neg hx, ih fun y hy => hq y (by simp [hy])]
    rfl

theorem find_order_none (hls : ∀ x ∈ entriesOf ls, x.id ≠ id) :
    RefBook.find_order id (ls.map Level.toRef) = none := by
  induction ls with
  | nil => rfl
  | cons l ls ih =>
    have hq := find_in_queue_none (q := l.queue) fun x hx => hls x (by simp [hx])
    have hrest := ih fun x hx => hls x (by simp [hx])
    obtain ⟨p, q⟩ := l
    rw [List.map_cons, toRef_mk, RefBook.find_order, hq, hrest]
    rfl

theorem find_order_some (hid : e.id = id) (hL : ∀ x ∈ entriesOf L, x.id ≠ id)
    (hq : ∀ x ∈ q₁, x.id ≠ id) :
    RefBook.find_order id ((L ++ ⟨px, q₁ ++ e :: q₂⟩ :: R).map Level.toRef) =
      some ⟨L.map Level.toRef, px, q₁.map Entry.toRef, e.toRef, q₂.map Entry.toRef,
        R.map Level.toRef⟩ := by
  induction L with
  | nil =>
    have hfind : RefBook.find_in_queue id ((q₁ ++ e :: q₂).map Entry.toRef) = _ :=
      find_in_queue_some hid hq
    rw [List.nil_append, List.map_cons, toRef_mk, RefBook.find_order, hfind]
    rfl
  | cons l L ih =>
    have hl := find_in_queue_none (q := l.queue) fun x hx => hL x (by simp [hx])
    have hrest := ih fun x hx => hL x (by simp [hx])
    rw [List.cons_append, List.map_cons]
    obtain ⟨p, q⟩ := l
    rw [toRef_mk, RefBook.find_order, hl, hrest]
    rfl

/-- Where the index is exact, the search ends at the indexed entry, and the
    other side does not have its id. -/
theorem Exact.find_order (he : Exact a) (hw : WF a)
    (hls : a.levels s = L ++ ⟨px, q₁ ++ e :: q₂⟩ :: R) :
    RefBook.find_order e.id ((a.levels s).map Level.toRef) =
        some ⟨L.map Level.toRef, px, q₁.map Entry.toRef, e.toRef, q₂.map Entry.toRef,
          R.map Level.toRef⟩ ∧
      RefBook.find_order e.id ((a.levels s.opposite).map Level.toRef) = none := by
  have habs := he.absent_of_drop hw hls
  have hside := habs s
  have hother := habs s.opposite
  rw [levels_drop] at hside
  rw [levels_drop_opposite] at hother
  refine ⟨?_, find_order_none hother⟩
  rw [hls]
  exact find_order_some rfl (fun x hx => hside x (by simp [hx])) fun x hx => hside x (by simp [hx])

theorem Absent.find_order (h : Absent a id) (s : Side) :
    RefBook.find_order id ((a.levels s).map Level.toRef) = none := find_order_none (h s)

/-- An id that is not indexed does not rest. -/
theorem Exact.absent_of_index (he : Exact a) (hid : a.index id = none) : Absent a id := by
  intro s e hmem heq
  have := he s e hmem
  rw [heq, hid] at this
  simp at this

/-! ## Section 5: One call -/

theorem WF.free_length_le (hw : WF a) : a.free.length ≤ kMaxOrders := by
  have hlen := hw.slots.length_eq
  simp only [List.length_append, List.length_range] at hlen
  omega

/-- Both books after the fills of an order. -/
theorem RefSim.after_matching (h : RefSim a r) (hw : WF a)
    (hm : Matching o s a rem takes a' rem' walled) :
    ∃ popped r', sweepOf o rem (r.side s) =
        (⟨takes.map (Take.toFill o.id), rem', walled, popped⟩, (a'.levels s).map Level.toRef) ∧
      r' = { r.setSide s ((a'.levels s).map Level.toRef) with
        resting_count := r.resting_count - popped } ∧ RefSim a' r' := by
  obtain ⟨popped, hsweep, hfree⟩ := hm.sweep
  have hcount := h.count
  have hle := (hm.wf hw).free_length_le
  refine ⟨popped, _, by rw [h.sides]; exact hsweep, rfl, h.set rfl hm.own_side ?_⟩
  -- every order the sweep popped freed a slot
  omega

/-- `add`, past the pre-check. -/
theorem RefBook.add_swept {sw : RefBook.Sweep} {passive : List RefLevel} {r' : RefBook}
    {max_orders max_levels : Nat}
    (hpre : ¬ (o.type = .FOK ∧ RefBook.available o.price (o.side = .Buy) o.account_id 0
      (r.side o.side.opposite) < o.qty))
    (hsweep : sweepOf o o.qty (r.side o.side.opposite) = (sw, passive))
    (hr' : r' = { r.setSide o.side.opposite passive with
      resting_count := r.resting_count - sw.popped }) :
    r.add o max_orders max_levels =
      if sw.qty > 0 ∧ o.type = .Limit ∧ sw.walled = false then
        if (∀ l ∈ r'.side o.side, l.1 ≠ o.price) ∧ (r'.side o.side).length ≥ max_levels then
          (⟨0, o.qty - sw.qty, false, true⟩, sw.fills, r')
        else if r'.resting_count ≥ max_orders then
          (⟨0, o.qty - sw.qty, false, true⟩, sw.fills, r')
        else
          (⟨sw.qty, o.qty - sw.qty, false, false⟩, sw.fills,
            { r'.setSide o.side
                (RefBook.push_back (RefBook.before o.side) o.price ⟨o.id, sw.qty, o.account_id⟩
                  (r'.side o.side)) with
              resting_count := r'.resting_count + 1 })
      else (⟨0, o.qty - sw.qty, false, false⟩, sw.fills, r') := by
  subst hr'
  unfold sweepOf at hsweep
  unfold RefBook.add
  rw [if_neg hpre, hsweep]

/-- What the operations of both books ask of a call. -/
def RefOk : Op → Prop
  | .add o => o.qty = o.qty_remaining ∧ o.type.Listed
  | _ => True

/-- The fills of a call, as the reference model records them. -/
def fillsOf : Op → List Take → List Fill
  | .add o, takes => takes.map (Take.toFill o.id)
  | _, _ => []

/-- An order that is not filled at once is a limit order. -/
theorem limit_of_listed (hl : o.type.Listed) (himm : ¬ Immediate o) : o.type = .Limit := by
  rcases hl with hc | hc | hc | hc
  · exact hc
  · exact absurd (Or.inl hc) himm
  · exact absurd (Or.inr (Or.inl hc)) himm
  · exact absurd (Or.inr (Or.inr hc)) himm

/-- The condition under which `add` tries to rest a remainder. -/
theorem rests_cond (hl : o.type.Listed) (himm : ¬ Immediate o) (hrem : rem ≠ 0) :
    rem > 0 ∧ o.type = .Limit ∧ false = false :=
  ⟨UInt32.pos_iff_ne_zero.mpr hrem, limit_of_listed hl himm, rfl⟩

theorem not_fok (himm : ¬ Immediate o) (P : Prop) : ¬ (o.type = .FOK ∧ P) :=
  fun hc => himm (Or.inr (Or.inr hc.1))

/-- A new level is needed in one book exactly if it is in the other. -/
theorem RefSim.no_level_iff (h : RefSim a r) (s : Side) (p : Price) :
    (∀ l ∈ r.side s, l.1 ≠ p) ↔ ∀ l ∈ a.levels s, l.price ≠ p := by
  rw [h.sides]
  simp [Level.toRef]

theorem RefSim.length_eq (h : RefSim a r) (s : Side) :
    (r.side s).length = (a.levels s).length := by
  rw [h.sides, List.length_map]

theorem RefSim.rest (h : RefSim a r) {slot : Nat} {free : List Nat}
    (hfree : a.free = slot :: free) :
    RefSim (a.rest o slot free rem)
      { r.setSide o.side
          (RefBook.push_back (RefBook.before o.side) o.price ⟨o.id, rem, o.account_id⟩
            (r.side o.side)) with
        resting_count := r.resting_count + 1 } := by
  have hcount := h.count
  rw [hfree, List.length_cons] at hcount
  refine h.set ?_ (levels_rest_opposite _ _ _ _ _) ?_
  · rw [levels_rest, h.sides]
    exact push_back_eq o.side o.price (restingEntry o slot rem) (a.levels o.side)
  · show r.resting_count + 1 + free.length = kMaxOrders
    omega

/-- An `add` of both books. -/
theorem RefSim.add_step {out : OptionsEngine.Outcome} (h : RefSim a r) (hw : WF a)
    (hqty : o.qty = o.qty_remaining) (hlisted : o.type.Listed)
    (hstep : Step a (.add o) out takes a') :
    ∃ res r', r.add o kMaxOrders kMaxLevels = (res, takes.map (Take.toFill o.id), r') ∧
      res.ok = out.ret ∧ RefSim a' r' := by
  cases hstep with
  | fok_rejected htype hshort =>
    refine ⟨⟨0, 0, true, false⟩, r, ?_, rfl, h⟩
    unfold RefBook.add
    rw [if_pos ⟨htype, (h.short_iff htype hqty).mpr hshort⟩]
    rfl
  | @immediate _ _ takes rem walled himm hfok hm =>
    obtain ⟨popped, r', hsweep, hr', hsim⟩ := h.after_matching hw hm
    rw [← hqty] at hsweep
    have hpre : ¬ (o.type = .FOK ∧ RefBook.available o.price (o.side = .Buy) o.account_id 0
        (r.side o.side.opposite) < o.qty) :=
      fun hc => hfok hc.1 ((h.short_iff hc.1 hqty).mp hc.2)
    have hlimit : ¬ (rem > 0 ∧ o.type = .Limit ∧ walled = false) := by
      rintro ⟨_, hc, _⟩
      rcases himm with ht | ht | ht <;> rw [ht] at hc <;> exact absurd hc (by decide)
    rw [RefBook.add_swept hpre hsweep hr', if_neg hlimit]
    exact ⟨_, r', rfl, rfl, hsim⟩
  | filled himm hm =>
    obtain ⟨popped, r', hsweep, hr', hsim⟩ := h.after_matching hw hm
    rw [← hqty] at hsweep
    rw [RefBook.add_swept (not_fok himm _) hsweep hr', if_neg (fun hc => absurd hc.1 (by simp))]
    exact ⟨_, r', rfl, rfl, hsim⟩
  | stp_walled himm hm hrem =>
    obtain ⟨popped, r', hsweep, hr', hsim⟩ := h.after_matching hw hm
    rw [← hqty] at hsweep
    rw [RefBook.add_swept (not_fok himm _) hsweep hr', if_neg (fun hc => absurd hc.2.2 (by simp))]
    exact ⟨_, r', rfl, rfl, hsim⟩
  | level_rejected himm hm hrem hnew hfull =>
    obtain ⟨popped, r', hsweep, hr', hsim⟩ := h.after_matching hw hm
    rw [← hqty] at hsweep
    have hcond := rests_cond hlisted himm hrem
    have hcap : (∀ l ∈ r'.side o.side, l.1 ≠ o.price) ∧ (r'.side o.side).length ≥ kMaxLevels :=
      ⟨(hsim.no_level_iff o.side o.price).mpr hnew, by rw [hsim.length_eq]; exact hfull⟩
    rw [RefBook.add_swept (not_fok himm _) hsweep hr', if_pos hcond, if_pos hcap]
    exact ⟨_, r', rfl, rfl, hsim⟩
  | slot_rejected himm hm hrem hroom hfree =>
    obtain ⟨popped, r', hsweep, hr', hsim⟩ := h.after_matching hw hm
    rw [← hqty] at hsweep
    have hcond := rests_cond hlisted himm hrem
    have hcount := hsim.count
    rw [hfree, List.length_nil, Nat.add_zero] at hcount
    rw [RefBook.add_swept (not_fok himm _) hsweep hr', if_pos hcond]
    split
    · exact ⟨_, r', rfl, rfl, hsim⟩
    -- no free slot means that the reference model is at its limit, too
    · rw [if_pos (Nat.le_of_eq hcount.symm)]
      exact ⟨_, r', rfl, rfl, hsim⟩
  | @rested a₁ _ takes rem slot free himm hm hrem hroom hfree =>
    obtain ⟨popped, r', hsweep, hr', hsim⟩ := h.after_matching hw hm
    rw [← hqty] at hsweep
    have hcond := rests_cond hlisted himm hrem
    have hnocap : ¬ ((∀ l ∈ r'.side o.side, l.1 ≠ o.price) ∧
        (r'.side o.side).length ≥ kMaxLevels) := by
      rintro ⟨hnew, hlen⟩
      rw [hsim.length_eq] at hlen
      rcases hroom with ⟨l, hl, hlp⟩ | hlt
      · exact (hsim.no_level_iff o.side o.price).mp hnew l hl hlp
      · omega
    have hslots : ¬ r'.resting_count ≥ kMaxOrders := by
      have hcount := hsim.count
      rw [hfree, List.length_cons] at hcount
      omega
    rw [RefBook.add_swept (not_fok himm _) hsweep hr', if_pos hcond, if_neg hnocap,
      if_neg hslots]
    exact ⟨_, _, rfl, rfl, hsim.rest hfree⟩

theorem cancel_found {p : RefBook.Position} (hs : RefBook.find_order id (r.side s) = some p)
    (ho : RefBook.find_order id (r.side s.opposite) = none) :
    r.cancel id = (true, { r.setSide s (p.replace (p.front ++ p.back)) with
      resting_count := r.resting_count - 1 }) := by
  cases s with
  | Buy =>
    have hs' : RefBook.find_order id r.bids = some p := hs
    simp [RefBook.cancel, RefBook.erase_from, hs', RefBook.setSide]
  | Sell =>
    have hs' : RefBook.find_order id r.asks = some p := hs
    have ho' : RefBook.find_order id r.bids = none := ho
    simp [RefBook.cancel, RefBook.erase_from, hs', ho', RefBook.setSide]

theorem cancel_missing (h : ∀ s, RefBook.find_order id (r.side s) = none) :
    r.cancel id = (false, r) := by
  have hb : RefBook.find_order id r.bids = none := h .Buy
  have ha : RefBook.find_order id r.asks = none := h .Sell
  simp [RefBook.cancel, RefBook.erase_from, hb, ha]

theorem modify_found {p : RefBook.Position} {nq : Qty} {side : List RefLevel} {gone : Bool}
    (hs : RefBook.find_order id (r.side s) = some p)
    (ho : RefBook.find_order id (r.side s.opposite) = none)
    (hmod : RefBook.modify_in id nq (r.side s) = some (side, gone)) :
    r.modify id nq = (true, { r.setSide s side with
      resting_count := r.resting_count - if gone then 1 else 0 }) := by
  cases s with
  | Buy =>
    have hmod' : RefBook.modify_in id nq r.bids = some (side, gone) := hmod
    simp [RefBook.modify, hmod', RefBook.setSide]
  | Sell =>
    have hmod' : RefBook.modify_in id nq r.asks = some (side, gone) := hmod
    have ho' : RefBook.find_order id r.bids = none := ho
    have hnone : RefBook.modify_in id nq r.bids = none := by simp [RefBook.modify_in, ho']
    simp [RefBook.modify, hmod', hnone, RefBook.setSide]

theorem modify_missing {nq : Qty} (h : ∀ s, RefBook.find_order id (r.side s) = none) :
    r.modify id nq = (false, r) := by
  have hb : RefBook.find_order id r.bids = none := h .Buy
  have ha : RefBook.find_order id r.asks = none := h .Sell
  simp [RefBook.modify, RefBook.modify_in, hb, ha]

/-- Replacing the queue at a position, in both books. -/
theorem replace_eq (L R : List Level) (px : Price) (f : List RefOrder) (x : RefOrder)
    (k : List RefOrder) (q : List Entry) :
    RefBook.Position.replace ⟨L.map Level.toRef, px, f, x, k, R.map Level.toRef⟩
      (q.map Entry.toRef) = (L ++ keep px q ++ R).map Level.toRef := by
  simp only [RefBook.Position.replace, List.map_append, map_keep]

/-- A cancel, or a modification to zero, in both books. -/
theorem RefSim.drop (h : RefSim a r) (hw : WF a)
    (hls : a.levels s = L ++ ⟨px, q₁ ++ e :: q₂⟩ :: R) :
    RefSim (a.drop s (L ++ keep px (q₁ ++ q₂) ++ R) e.id e.slot)
      { r.setSide s ((L ++ keep px (q₁ ++ q₂) ++ R).map Level.toRef) with
        resting_count := r.resting_count - 1 } := by
  have hcount := h.count
  have hslot : Slotted a := hw.slots
  have hlt := hslot.free_length_lt (s := s) (x := e.slot) (by rw [hls]; simp)
  refine h.set (by rw [levels_drop]) (levels_drop_opposite _ _ _ _ _) ?_
  show r.resting_count - 1 + (a.free.length + 1) = kMaxOrders
  omega

theorem keep_nonempty (hq : q ≠ []) : L ++ keep px q ++ R = L ++ ⟨px, q⟩ :: R := by
  simp [keep, hq]

theorem RefSim.cancel_step {out : OptionsEngine.Outcome} (h : RefSim a r) (hw : WF a)
    (he : Exact a) (hstep : Step a (.cancel id) out takes a') :
    ∃ r', r.cancel id = (out.ret, r') ∧ RefSim a' r' := by
  cases hstep with
  | cancel_unknown hid =>
    refine ⟨r, cancel_missing ?_, h⟩
    intro s
    rw [h.sides]
    exact (he.absent_of_index hid).find_order s
  | cancelled hid heid hls =>
    subst heid
    obtain ⟨hfind, hother⟩ := he.find_order hw hls
    rw [← h.sides] at hfind hother
    refine ⟨_, cancel_found hfind hother, ?_⟩
    rw [← List.map_append, replace_eq]
    exact h.drop hw hls

theorem RefSim.modify_step {out : OptionsEngine.Outcome} {nq : Qty} (h : RefSim a r) (hw : WF a)
    (he : Exact a) (hstep : Step a (.modify id nq) out takes a') :
    ∃ r', r.modify id nq = (out.ret, r') ∧ RefSim a' r' := by
  have hcount := h.count
  cases hstep with
  | modify_unknown hid =>
    refine ⟨r, modify_missing ?_, h⟩
    intro s
    rw [h.sides]
    exact (he.absent_of_index hid).find_order s
  | @increased _ _ s L R px q₁ q₂ e hid heid hls hqty =>
    subst heid
    obtain ⟨hfind, hother⟩ := he.find_order hw hls
    rw [← h.sides] at hfind hother
    have hgt : nq > e.toRef.rem := hqty
    have hmod : RefBook.modify_in e.id nq (r.side s) =
        some ((L ++ ⟨px, q₁ ++ q₂ ++ [{ e with qty := nq }]⟩ :: R).map Level.toRef, false) := by
      rw [RefBook.modify_in, hfind, Option.map_some]
      simp only
      rw [if_pos hgt, ← keep_nonempty (by simp),
        ← replace_eq L R px (q₁.map Entry.toRef) e.toRef (q₂.map Entry.toRef)]
      simp [Entry.toRef]
    exact ⟨_, modify_found hfind hother hmod,
      h.set (by rw [levels_setLevels]) (levels_setLevels_opposite _ _ _) hcount⟩
  | @decreased _ _ s L R px q₁ q₂ e hid heid hls hqty hnew =>
    subst heid
    obtain ⟨hfind, hother⟩ := he.find_order hw hls
    rw [← h.sides] at hfind hother
    have hngt : ¬ nq > e.toRef.rem := UInt32.not_lt.mpr hqty
    have hmod : RefBook.modify_in e.id nq (r.side s) =
        some ((L ++ ⟨px, q₁ ++ { e with qty := nq } :: q₂⟩ :: R).map Level.toRef, false) := by
      rw [RefBook.modify_in, hfind, Option.map_some]
      simp only
      rw [if_neg hngt, if_neg hnew, ← keep_nonempty (by simp),
        ← replace_eq L R px (q₁.map Entry.toRef) e.toRef (q₂.map Entry.toRef)]
      simp [Entry.toRef]
    exact ⟨_, modify_found hfind hother hmod,
      h.set (by rw [levels_setLevels]) (levels_setLevels_opposite _ _ _) hcount⟩
  | @emptied _ s L R px q₁ q₂ e hid heid hls =>
    subst heid
    obtain ⟨hfind, hother⟩ := he.find_order hw hls
    rw [← h.sides] at hfind hother
    have hmod : RefBook.modify_in e.id 0 (r.side s) =
        some ((L ++ keep px (q₁ ++ q₂) ++ R).map Level.toRef, true) := by
      rw [RefBook.modify_in, hfind, Option.map_some]
      simp only
      rw [if_neg (by simp), if_pos trivial, ← List.map_append, replace_eq]
    exact ⟨_, modify_found hfind hother hmod, h.drop hw hls⟩

/-- Every step of an exact book is the reference model's operation. -/
theorem RefSim.step {out : OptionsEngine.Outcome} {op : Op} (h : RefSim a r) (hw : WF a)
    (he : Exact a) (hok : RefOk op) (hstep : Step a op out takes a') :
    ∃ r', r.apply op = (out.ret, fillsOf op takes, r') ∧ RefSim a' r' := by
  cases op with
  | add o =>
    obtain ⟨res, r', hadd, hret, hsim⟩ := h.add_step hw hok.1 hok.2 hstep
    refine ⟨r', ?_, hsim⟩
    simp only [RefBook.apply, hadd, hret]
    rfl
  | cancel id =>
    obtain ⟨r', hcancel, hsim⟩ := h.cancel_step hw he hstep
    refine ⟨r', ?_, hsim⟩
    simp only [RefBook.apply, hcancel]
    rfl
  | modify id nq =>
    obtain ⟨r', hmodify, hsim⟩ := h.modify_step hw he hstep
    refine ⟨r', ?_, hsim⟩
    simp only [RefBook.apply, hmodify]
    rfl

theorem refSim_empty : RefSim LevelBook.empty RefBook.empty := by
  refine ⟨fun s => by cases s <;> rfl, ?_⟩
  rw [free_empty, List.length_range]
  exact Nat.zero_add _

end OptionsEngine
