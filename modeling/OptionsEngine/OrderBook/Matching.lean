import OptionsEngine.LevelBook.Invariant
import OptionsEngine.OrderBook.Operations

/-! # `try_match` runs the matching of the levels

    The two nested loops of `try_match` against the abstract `Matching`: every
    pass of the inner loop is one fill, a pass of the outer loop is the fills
    against one level.  Between the last fill of a level and the removal of
    its row, the arrays hold a level with an empty queue that the abstract
    book no longer has (`Drained`).

    The fuel suffices: a queue is no longer than the pool, a side no longer
    than its level arrays. -/

namespace OptionsEngine

open Function Loop LiveArray LinkedQueue OrderBook

variable {b : OrderBook} {a a' : LevelBook} {s : Side} {px : Price} {e : Entry}
  {es q : List Entry} {ls : List Level} {o : Order} {rem : Qty} {m : MatchState}

/-! ## Section 1: Events -/

/-- The report of a fill. -/
def Take.report (symbol : SymbolId) (o : Order) (t : Take) : ExecutionReport where
  order_id := o.id
  contra_order_id := t.entry.id
  exec_price := t.price
  exec_qty := t.qty
  leaves_qty := t.leaves
  symbol := symbol
  side := o.side
  exec_type := if t.leaves = 0 then .Fill else .PartialFill

/-- The event `ev` records the fill `t` of the aggressor `o`. -/
structure EventOf (symbol : SymbolId) (o : Order) (ev : MatchEvent) (t : Take) : Prop where
  book : Rep ev.book t.book
  wf : WF t.book
  slot : ev.slot = t.entry.slot
  report : ev.report = t.report symbol o

/-! ## Section 2: One fill -/

/-- The best level, as the arrays hold it. -/
theorem Rep.best (h : Rep b a) (hls : a.levels s = ⟨px, q⟩ :: ls) :
    (b.side s).count = ls.length + 1 ∧ (b.side s).prices 0 = px ∧
      (b.side s).order_counts 0 = UInt32.ofNat q.length ∧
      (b.side s).head_idxs 0 = (q.map Entry.slot).headD NULL_IDX := by
  have hside : SideRep (b.side s) ([] ++ ⟨px, q⟩ :: ls) := h.row hls
  obtain ⟨h1, _, h3, h4, _⟩ := hside.cells
  exact ⟨by rw [hside.count_eq]; rfl, h1, h3, h4⟩

theorem sub_min_eq_zero (rem qty : Qty) : qty - min rem qty = 0 ↔ min rem qty = qty := by
  constructor
  · intro h
    by_contra hne
    exact sub_min_ne_zero hne h
  · intro h
    rw [h, UInt32.sub_self]

theorem min_qty_cases (x y : Qty) : min x y = x ∨ min x y = y := by
  rcases Nat.le_total x.toNat y.toNat with hle | hle
  · left
    apply UInt32.toNat_inj.mp
    rw [UInt32.toNat_min, Nat.min_eq_left hle]
  · right
    apply UInt32.toNat_inj.mp
    rw [UInt32.toNat_min, Nat.min_eq_right hle]

/-- After the last fill of a level: the arrays still hold its empty row. -/
def Drained (b : OrderBook) (a : LevelBook) (s : Side) (px : Price) : Prop :=
  Rep b (a.setLevels s (⟨px, []⟩ :: a.levels s))

/-- Once the empty row goes, the arrays represent the levels again. -/
theorem Drained.remove_level (h : Drained b a s px) :
    Rep (b.setSide s ((b.side s).remove_level 0)) a := by
  have hgone := Rep.remove_level (L := []) h (levels_setLevels _ _ _)
  have hback : (a.setLevels s (⟨px, []⟩ :: a.levels s)).setLevels s ([] ++ a.levels s) = a := by
    simp [LevelBook.setLevels]
  rwa [hback] at hgone

/-- The pass of the inner loop at a queued order: it stops at a wall and fills
    otherwise, and a head that is used up is dequeued. -/
theorem match_head_at (h : Rep m.book a) (hw : WF a)
    (hin : m.incoming = { o with qty_remaining := rem }) (hrem : rem ≠ 0)
    (hls : a.levels s = ⟨px, e :: es⟩ :: ls) :
    match_head s px m =
      if walls o e then some (.exit (true, m))
      else if min rem e.qty = e.qty then
        (OrderBook.dequeue_head s (OrderBook.fill_head s px m e.slot).book e.slot).map fun b =>
          .next { OrderBook.fill_head s px m e.slot with book := b }
      else some (.next (OrderBook.fill_head s px m e.slot)) := by
  have hslot : Slotted a := hw.slots
  have hst := (h.queue (L := []) hls).stored e (by simp)
  have hhead : (m.book.side s).head_idxs 0 = e.slot := (h.best hls).2.2.2
  have hgo : e.slot ≠ NULL_IDX ∧ m.incoming.qty_remaining > 0 := by
    rw [hin]
    exact ⟨ne_null (hslot.lt s (by rw [hls]; simp)), UInt32.pos_iff_ne_zero.mpr hrem⟩
  have hleft : (OrderBook.fill_head s px m e.slot).book.slots.qtys e.slot =
      e.qty - min rem e.qty := by
    simp only [OrderBook.fill_head, hst.qty, hin, update_self]
  have hwalls : (m.incoming.account_id ≠ 0 ∧
      m.incoming.account_id = m.book.slots.accounts e.slot) ↔ walls o e := by
    rw [hin, hst.account]
    rfl
  unfold match_head
  simp only [hhead]
  rw [if_pos hgo, hleft]
  simp only [hwalls, sub_min_eq_zero]

/-- What a fill does besides the book: the aggressor shrinks and the fill is
    reported. -/
theorem fill_head_reports (h : Rep m.book a) (hw : WF a)
    (hin : m.incoming = { o with qty_remaining := rem })
    (hls : a.levels s = ⟨px, e :: es⟩ :: ls) :
    (OrderBook.fill_head s px m e.slot).incoming =
        { o with qty_remaining := rem - min rem e.qty } ∧
      ∃ ev, (OrderBook.fill_head s px m e.slot).events = m.events ++ [ev] ∧
        EventOf m.book.symbol o ev ⟨a, px, e, min rem e.qty, rem - min rem e.qty⟩ := by
  have hst := (h.queue (L := []) hls).stored e (by simp)
  refine ⟨by simp only [OrderBook.fill_head, hin, hst.qty], _, rfl, h, hw, rfl, ?_⟩
  simp only [OrderBook.report, Take.report, hin, hst.id, hst.qty]

/-- The head is used up: it is dequeued, and its level drained if it was the
    last order there. -/
theorem Rep.take_all {f : Qty} (h : Rep b (a.setLevels s (⟨px, { e with qty := 0 } :: es⟩ :: ls)))
    (hw : WF a) (hne : ProbeTable.HasEmpty OrderIndex.layout b.index.table)
    (hls : a.levels s = ⟨px, e :: es⟩ :: ls) (hall : f = e.qty) :
    ∃ b', OrderBook.dequeue_head s b e.slot = some b' ∧ b'.symbol = b.symbol ∧
      (a.take s px e es ls f).levels s = keep px es ++ ls ∧
      if es = [] then Drained b' (a.take s px e es ls f) s px
      else Rep b' (a.take s px e es ls f) := by
  have hslot : Slotted (a.setLevels s (⟨px, { e with qty := 0 } :: es⟩ :: ls)) :=
    Slotted.setLevels hw.slots (by rw [hls]; simp)
  obtain ⟨b', hdeq, hrep⟩ := h.dequeue_head hslot hne (levels_setLevels _ _ _) rfl
  have hsym : b'.symbol = b.symbol := by
    rw [OrderBook.dequeue_head, Option.map_eq_some_iff] at hdeq
    obtain ⟨_, _, rfl⟩ := hdeq
    simp
  refine ⟨b', hdeq, hsym, ?_, ?_⟩
  · rw [LevelBook.take, if_pos hall]
    exact update_self _ _ _
  · rw [LevelBook.take, if_pos hall]
    split
    · next hes =>
      subst hes
      simpa [Drained, LevelBook.drop, LevelBook.setLevels, keep] using hrep
    · next hes =>
      simpa [LevelBook.drop, LevelBook.setLevels, keep, hes] using hrep

/-- The pass of the inner loop that fills against the head of the queue. -/
theorem match_head_fill (h : Rep m.book a) (hw : WF a)
    (hin : m.incoming = { o with qty_remaining := rem }) (hrem : rem ≠ 0)
    (hls : a.levels s = ⟨px, e :: es⟩ :: ls) (hwall : ¬ walls o e) :
    ∃ m' ev, match_head s px m = some (.next m') ∧
      m'.incoming = { o with qty_remaining := rem - min rem e.qty } ∧
      m'.events = m.events ++ [ev] ∧ m'.book.symbol = m.book.symbol ∧
      EventOf m.book.symbol o ev ⟨a, px, e, min rem e.qty, rem - min rem e.qty⟩ ∧
      (es = [] ∧ min rem e.qty = e.qty ∧
          Drained m'.book (a.take s px e es ls (min rem e.qty)) s px ∧
          (a.take s px e es ls (min rem e.qty)).levels s = ls ∨
        Rep m'.book (a.take s px e es ls (min rem e.qty)) ∧
          ∃ e' es', (a.take s px e es ls (min rem e.qty)).levels s = ⟨px, e' :: es'⟩ :: ls ∧
            (min rem e.qty = e.qty ∧ e' :: es' = es ∨ rem - min rem e.qty = 0)) := by
  have hpass := match_head_at h hw hin hrem hls
  rw [if_neg hwall] at hpass
  obtain ⟨hinc, ev, hevs, hev⟩ := fill_head_reports h hw hin hls
  have hfill := h.fill_head (m := m) hw.slots hls
  have hsym : (OrderBook.fill_head s px m e.slot).book.symbol = m.book.symbol := by
    simp [OrderBook.fill_head]
  have hindex : (OrderBook.fill_head s px m e.slot).book.index = m.book.index := by
    simp [OrderBook.fill_head]
  have hremaining : m.incoming.qty_remaining = rem := by rw [hin]
  rw [hremaining] at hfill
  by_cases hall : min rem e.qty = e.qty
  · -- the head is used up and leaves the queue
    rw [if_pos hall] at hpass
    rw [(sub_min_eq_zero _ _).mpr hall] at hfill
    obtain ⟨b', hdeq, hsym', hlevels, hrep⟩ :=
      hfill.take_all hw (by rw [hindex]; exact h.hasEmpty hw) hls hall
    rw [hdeq, Option.map_some] at hpass
    refine ⟨_, ev, hpass, hinc, hevs, hsym'.trans hsym, hev, ?_⟩
    cases es with
    | nil => exact Or.inl ⟨rfl, hall, hrep, hlevels⟩
    | cons e' es' => exact Or.inr ⟨hrep, e', es', hlevels, Or.inl ⟨hall, rfl⟩⟩
  · -- the aggressor is used up
    rw [if_neg hall] at hpass
    have htake : a.take s px e es ls (min rem e.qty) =
        a.setLevels s (⟨px, { e with qty := e.qty - min rem e.qty } :: es⟩ :: ls) := by
      rw [LevelBook.take, if_neg hall]
      rfl
    have hmin : min rem e.qty = rem := (min_qty_cases rem e.qty).resolve_right hall
    rw [htake]
    refine ⟨_, ev, hpass, hinc, hevs, hsym, hev, Or.inr ⟨hfill, _, es, levels_setLevels _ _ _, ?_⟩⟩
    exact Or.inr (by rw [hmin, UInt32.sub_self])

/-! ## Section 3: One level -/

/-- What is known after the fills of one pass of the outer loop: the fills
    `takes` lead from `a` to `a'`, whatever matching does from there. -/
structure Filled (o : Order) (s : Side) (a : LevelBook) (rem : Qty) (m : MatchState)
    (takes : List Take) (a' : LevelBook) (rem' : Qty) (m' : MatchState) : Prop where
  incoming : m'.incoming = { o with qty_remaining := rem' }
  symbol : m'.book.symbol = m.book.symbol
  events : ∃ evs, m'.events = m.events ++ evs ∧
    List.Forall₂ (EventOf m.book.symbol o) evs takes
  wf : WF a'
  extend : ∀ {takes' a'' rem'' walled}, Matching o s a' rem' takes' a'' rem'' walled →
    Matching o s a rem (takes ++ takes') a'' rem'' walled

theorem Filled.refl (hw : WF a) (hin : m.incoming = { o with qty_remaining := rem }) :
    Filled o s a rem m [] a rem m :=
  ⟨hin, rfl, ⟨[], by simp, .nil⟩, hw, fun h => h⟩

theorem Filled.trans {m₁ m₂ : MatchState} {a₁ a₂ : LevelBook} {rem₁ rem₂ : Qty}
    {t₁ t₂ : List Take} (h : Filled o s a rem m t₁ a₁ rem₁ m₁)
    (h' : Filled o s a₁ rem₁ m₁ t₂ a₂ rem₂ m₂) : Filled o s a rem m (t₁ ++ t₂) a₂ rem₂ m₂ := by
  obtain ⟨evs, hevs, hall⟩ := h.events
  obtain ⟨evs', hevs', hall'⟩ := h'.events
  refine ⟨h'.incoming, h'.symbol.trans h.symbol, ⟨evs ++ evs', ?_, ?_⟩, h'.wf, ?_⟩
  · rw [hevs', hevs, List.append_assoc]
  · rw [h.symbol] at hall'
    exact List.rel_append hall hall'
  · intro takes' a'' rem'' walled hm
    rw [List.append_assoc]
    exact h.extend (h'.extend hm)

/-- How the inner loop leaves a level. -/
inductive LevelDone (o : Order) (s : Side) (px : Price) (ls : List Level) (a : LevelBook)
    (rem : Qty) (m : MatchState) : Bool → Prop where
  /-- At a self-trade wall. -/
  | wall {e : Entry} {es : List Entry} (hrep : Rep m.book a) (hrem : rem ≠ 0)
      (hls : a.levels s = ⟨px, e :: es⟩ :: ls) (hwall : walls o e) :
      LevelDone o s px ls a rem m true
  /-- The aggressor is filled, orders remain. -/
  | filled {e : Entry} {es : List Entry} (hrep : Rep m.book a) (hrem : rem = 0)
      (hls : a.levels s = ⟨px, e :: es⟩ :: ls) : LevelDone o s px ls a rem m false
  /-- The queue is used up; its row is still there. -/
  | drained (hdrained : Drained m.book a s px) (hls : a.levels s = ls) :
      LevelDone o s px ls a rem m false

theorem match_head_exit_filled (hin : m.incoming = { o with qty_remaining := 0 }) :
    match_head s px m = some (.exit (false, m)) := by
  have hstop : ¬ ((m.book.side s).head_idxs 0 ≠ NULL_IDX ∧ m.incoming.qty_remaining > 0) := by
    rw [hin]
    exact fun hc => absurd hc.2 (by simp)
  unfold match_head
  exact if_neg hstop

theorem match_head_exit_drained (hd : Drained m.book a s px) :
    match_head s px m = some (.exit (false, m)) := by
  have hnull : (m.book.side s).head_idxs 0 = NULL_IDX :=
    (hd.best (levels_setLevels _ _ _)).2.2.2
  have hstop : ¬ ((m.book.side s).head_idxs 0 ≠ NULL_IDX ∧ m.incoming.qty_remaining > 0) :=
    fun hc => hc.1 hnull
  unfold match_head
  exact if_neg hstop

/-- The inner loop ends, after the fills against the best level. -/
theorem match_queue (q : List Entry) :
    ∀ {fuel : Nat} {a : LevelBook} {rem : Qty} {m : MatchState}, q.length < fuel → q ≠ [] →
      Rep m.book a → WF a → m.incoming = { o with qty_remaining := rem } →
      a.levels s = ⟨px, q⟩ :: ls → price_stops o px = false →
      ∃ walled m' takes a' rem', loop (match_head s px) fuel m = some (walled, m') ∧
        Filled o s a rem m takes a' rem' m' ∧ LevelDone o s px ls a' rem' m' walled := by
  -- by induction on the queue; a partial fill of its head ends the loop
  induction q with
  | nil => intro fuel a rem m hfuel hne; exact absurd rfl hne
  | cons e es ih =>
    intro fuel a rem m hfuel hne h hw hin hls hgo
    obtain ⟨fuel, rfl⟩ : ∃ k, fuel = k + 1 := ⟨fuel - 1, by simp at hfuel; omega⟩
    by_cases hrem : rem = 0
    · subst hrem
      exact ⟨false, m, [], a, 0, loop_exit (match_head_exit_filled hin) _, .refl hw hin,
        .filled h rfl hls⟩
    by_cases hwall : walls o e
    · have hpass := match_head_at h hw hin hrem hls
      rw [if_pos hwall] at hpass
      exact ⟨true, m, [], a, rem, loop_exit hpass _, .refl hw hin, .wall h hrem hls hwall⟩
    obtain ⟨m₁, ev, hpass, hin₁, hevs, hsym, hev, hcase⟩ :=
      match_head_fill h hw hin hrem hls hwall
    have hw₁ := hw.take hls rem
    have hone : Filled o s a rem m [⟨a, px, e, min rem e.qty, rem - min rem e.qty⟩]
        (a.take s px e es ls (min rem e.qty)) (rem - min rem e.qty) m₁ :=
      ⟨hin₁, hsym, ⟨[ev], hevs, .cons hev .nil⟩, hw₁, fun hm => .take hrem hls hgo hwall hm⟩
    have hnext := loop_next hpass fuel
    have hfuel' : es.length < fuel := by simpa using hfuel
    rcases hcase with ⟨_, _, hdr, hls₁⟩ | ⟨hrep, e', es', hls₁, hkept | hdone⟩
    · -- the queue is used up: the next pass leaves
      obtain ⟨fuel, rfl⟩ : ∃ k, fuel = k + 1 := ⟨fuel - 1, by omega⟩
      refine ⟨false, m₁, _, _, _, ?_, hone, .drained hdr hls₁⟩
      rw [hnext]
      exact loop_exit (match_head_exit_drained hdr) _
    · -- the head left: go on with the rest of the queue
      obtain ⟨_, hes⟩ := hkept
      rw [hes] at hls₁
      have hne' : es ≠ [] := by rw [← hes]; simp
      obtain ⟨walled, m', takes, a', rem', hrun, hfilled, hdone⟩ :=
        ih hfuel' hne' hrep hw₁ hin₁ hls₁ hgo
      refine ⟨walled, m', _, a', rem', ?_, hone.trans hfilled, hdone⟩
      rw [hnext]
      exact hrun
    · -- the aggressor is filled: the next pass leaves
      obtain ⟨fuel, rfl⟩ : ∃ k, fuel = k + 1 := ⟨fuel - 1, by omega⟩
      rw [hdone] at hin₁
      refine ⟨false, m₁, _, _, _, ?_, hone, .filled hrep hdone hls₁⟩
      rw [hnext]
      exact loop_exit (match_head_exit_filled hin₁) _

/-! ## Section 4: All levels -/

/-- The price test reads only the type, the side and the limit. -/
theorem price_stops_remaining (o : Order) (rem : Qty) (p : Price) :
    price_stops { o with qty_remaining := rem } p = price_stops o p := rfl

/-- The outer loop leaves without a fill. -/
theorem match_level_exit (h : Rep m.book a) (hin : m.incoming = { o with qty_remaining := rem })
    (hstop : rem = 0 ∨ a.levels s = [] ∨
      ∃ l ls, a.levels s = l :: ls ∧ price_stops o l.price = true) :
    match_level s m = some (.exit (false, m)) := by
  unfold match_level
  by_cases hgo : m.incoming.qty_remaining > 0 ∧ (m.book.side s).count > 0
  · rw [if_pos hgo]
    -- filled, or no level, both contradict the loop condition; the price test is left
    rcases hstop with hrem | hnil | ⟨l, ls, hls, hprice⟩
    · have hz : m.incoming.qty_remaining = 0 := by rw [hin]; exact hrem
      rw [hz] at hgo
      exact absurd hgo.1 (by simp)
    · have hside := h.sides s
      rw [hnil] at hside
      have hzero : (m.book.side s).count = 0 := hside.count_eq
      omega
    · have hpx : (m.book.side s).prices 0 = l.price := (h.best hls).2.1
      simp only [hpx]
      rw [hin, price_stops_remaining, if_pos hprice]
  · rw [if_neg hgo]

/-- A pass of the outer loop that reaches the queue of the best level. -/
theorem match_level_queue (h : Rep m.book a) (hin : m.incoming = { o with qty_remaining := rem })
    (hrem : rem ≠ 0) (hls : a.levels s = ⟨px, q⟩ :: ls) (hgo : price_stops o px = false) :
    match_level s m = (loop (match_head s px) (kMaxOrders + 1) m).map fun (walled, m) =>
      if walled then .exit (true, m)
      else
        if (m.book.side s).order_counts 0 = 0 then
          .next { m with book := m.book.setSide s ((m.book.side s).remove_level 0) }
        else .next m := by
  have hpos : m.incoming.qty_remaining > 0 := by
    rw [hin]
    exact UInt32.pos_iff_ne_zero.mpr hrem
  have hcount : (m.book.side s).count > 0 := by rw [(h.best hls).1]; omega
  have hpx : (m.book.side s).prices 0 = px := (h.best hls).2.1
  have hgo' : ¬ price_stops m.incoming px = true := by
    rw [hin, price_stops_remaining, hgo]
    simp
  rw [match_level, if_pos ⟨hpos, hcount⟩]
  simp only [hpx]
  rw [if_neg hgo']

/-- The queue of the best level is no longer than the pool. -/
theorem WF.length_queue_le (hw : WF a) (hls : a.levels s = ⟨px, q⟩ :: ls) :
    q.length ≤ kMaxOrders := by
  have hap : Apart a s [] ⟨px, q⟩ ls := Slotted.apart hw.slots hls
  exact hap.length_le

/-- The outer loop ends with a run of the abstract matching. -/
theorem match_levels (n : Nat) :
    ∀ {fuel : Nat} {a : LevelBook} {rem : Qty} {m : MatchState}, (a.levels s).length = n →
      n < fuel → Rep m.book a → WF a → m.incoming = { o with qty_remaining := rem } →
      ∃ walled m' takes a' rem', loop (match_level s) fuel m = some (walled, m') ∧
        Filled o s a rem m takes a' rem' m' ∧ Rep m'.book a' ∧
        Matching o s a' rem' [] a' rem' walled := by
  -- by induction on the number of levels; each pass drains one or ends the loop
  induction n with
  | zero =>
    intro fuel a rem m hlen hfuel h hw hin
    have hnil : a.levels s = [] := List.length_eq_zero_iff.mp hlen
    obtain ⟨fuel, rfl⟩ : ∃ k, fuel = k + 1 := ⟨fuel - 1, by omega⟩
    refine ⟨false, m, [], a, rem, loop_exit (match_level_exit h hin (Or.inr (Or.inl hnil))) _,
      .refl hw hin, h, ?_⟩
    by_cases hrem : rem = 0
    · subst hrem
      exact .filled a
    · exact .exhausted hrem hnil
  | succ n ih =>
    intro fuel a rem m hlen hfuel h hw hin
    obtain ⟨fuel, rfl⟩ : ∃ k, fuel = k + 1 := ⟨fuel - 1, by omega⟩
    obtain ⟨l, ls, hls⟩ : ∃ l ls, a.levels s = l :: ls := by
      cases hc : a.levels s with
      | nil => rw [hc] at hlen; simp at hlen
      | cons l ls => exact ⟨l, ls, rfl⟩
    by_cases hrem : rem = 0
    · subst hrem
      exact ⟨false, m, [], a, 0, loop_exit (match_level_exit h hin (Or.inl rfl)) _,
        .refl hw hin, h, .filled a⟩
    by_cases hstop : price_stops o l.price = true
    · exact ⟨false, m, [], a, rem,
        loop_exit (match_level_exit h hin (Or.inr (Or.inr ⟨l, ls, hls, hstop⟩))) _,
        .refl hw hin, h, .price hrem hls hstop⟩
    have hgo : price_stops o l.price = false := by simpa using hstop
    obtain ⟨px, q⟩ := l
    have hne : q ≠ [] := hw.nonempty s ⟨px, q⟩ (by rw [hls]; simp)
    have hq : q.length < kMaxOrders + 1 := Nat.lt_succ_of_le (hw.length_queue_le hls)
    obtain ⟨walled, m₁, takes, a₁, rem₁, hrun, hfilled, hdone⟩ :=
      match_queue q hq hne h hw hin hls hgo
    have hpass := match_level_queue h hin hrem hls hgo
    rw [hrun, Option.map_some] at hpass
    cases hdone with
    | wall hrep hrem₁ hls₁ hwall =>
      refine ⟨true, m₁, takes, a₁, rem₁, loop_exit hpass _, hfilled, hrep, ?_⟩
      exact .wall hrem₁ hls₁ hgo hwall
    | @filled e es hrep hrem₁ hls₁ =>
      subst hrem₁
      have hcount : ¬ (m₁.book.side s).order_counts 0 = 0 := by
        rw [(hrep.best hls₁).2.2.1, ofNat_eq_zero (hfilled.wf.length_queue_le hls₁)]
        simp
      simp only [Bool.false_eq_true, if_false] at hpass
      rw [if_neg hcount] at hpass
      obtain ⟨fuel, rfl⟩ : ∃ k, fuel = k + 1 := ⟨fuel - 1, by omega⟩
      refine ⟨false, m₁, takes, a₁, 0, ?_, hfilled, hrep, .filled a₁⟩
      rw [loop_next hpass]
      exact loop_exit (match_level_exit hrep hfilled.incoming (Or.inl rfl)) _
    | drained hdr hls₁ =>
      have hcount : (m₁.book.side s).order_counts 0 = 0 :=
        (hdr.best (levels_setLevels _ _ _)).2.2.1
      simp only [Bool.false_eq_true, if_false] at hpass
      rw [if_pos hcount] at hpass
      have hlen₁ : (a₁.levels s).length = n := by
        rw [hls₁]
        rw [hls] at hlen
        simpa using hlen
      have hstep : Filled o s a rem m takes a₁ rem₁
          { m₁ with book := m₁.book.setSide s ((m₁.book.side s).remove_level 0) } :=
        ⟨hfilled.incoming, by simpa using hfilled.symbol, hfilled.events, hfilled.wf,
          hfilled.extend⟩
      have hfuel' : n < fuel := by omega
      obtain ⟨walled, m', takes', a', rem', hrun', hfilled', hrep', hend⟩ :=
        ih hlen₁ hfuel' hdr.remove_level hfilled.wf hstep.incoming
      refine ⟨walled, m', takes ++ takes', a', rem', ?_, hstep.trans hfilled', hrep', hend⟩
      rw [loop_next hpass]
      exact hrun'

/-- `try_match` ends, with a run of the abstract matching. -/
theorem Rep.try_match (h : Rep b a) (hw : WF a) (o : Order) :
    ∃ walled m takes a' rem, b.try_match o = some (walled, m) ∧
      Matching o o.side.opposite a o.qty_remaining takes a' rem walled ∧
      Rep m.book a' ∧ WF a' ∧ m.incoming = { o with qty_remaining := rem } ∧
      List.Forall₂ (EventOf b.symbol o) m.events takes ∧ m.book.symbol = b.symbol := by
  have hcap := hw.capacity o.side.opposite
  have h' : Rep (MatchState.mk b o []).book a := h
  have hin : (MatchState.mk b o []).incoming = { o with qty_remaining := o.qty_remaining } := rfl
  obtain ⟨walled, m, takes, a', rem, hrun, hfilled, hrep, hend⟩ :=
    match_levels _ rfl (Nat.lt_succ_of_le hcap) h' hw hin
  obtain ⟨evs, hevs, hall⟩ := hfilled.events
  refine ⟨walled, m, takes, a', rem, hrun, ?_, hrep, hfilled.wf, hfilled.incoming, ?_,
    hfilled.symbol⟩
  · have hm := hfilled.extend hend
    rwa [List.append_nil] at hm
  · rw [hevs]
    exact hall

end OptionsEngine
