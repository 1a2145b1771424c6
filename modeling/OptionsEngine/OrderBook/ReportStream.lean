import OptionsEngine.LevelBook.Liquidity
import OptionsEngine.OrderBook.Priority

/-! # The reports of one order

    What the reports of one `add_order` call say about each other, by induction
    over the fills: each of them but the last uses up an order, so the next one
    is against another order, at a price that is no better, and with the
    quantity left that this one reports. -/

namespace OptionsEngine

open Function OrderBook

/-! ## Section 1: The stream -/

/-- For an aggressor of side `s`, the price `p` is followed by no better one. -/
def NoBetter : Side → Price → Price → Prop
  | .Buy, p, p' => p ≤ p'
  | .Sell, p, p' => p' ≤ p

/-- The quantity executed by some reports. -/
def execTotal (rpts : List ExecutionReport) : Nat := (rpts.map fun x => x.exec_qty.toNat).sum

/-- What the reports of the call that added `o` to `b` have to be. -/
structure ReportStream (b b' : OrderBook) (o : Order) (r : Response) : Prop where
  header : ∀ x ∈ r.reports, x.order_id = o.id ∧ x.side = o.side ∧ x.symbol = b.symbol
  positive : ∀ x ∈ r.reports, 0 < x.exec_qty
  /-- The passive orders rested on the other side, each in its own slot. -/
  passive : ∀ ev ∈ r.events, ev.slot ∈ b.resting o.side.opposite ∧
    ev.report.contra_order_id = b.slots.ids ev.slot
  distinct : (r.events.map MatchEvent.slot).Nodup
  /-- What is left, without a wrap-around. -/
  leaves : ∀ pre x post, r.reports = pre ++ x :: post →
    o.qty_remaining.toNat = x.leaves_qty.toNat + execTotal (pre ++ [x])
  prices : r.reports.Pairwise fun x y => NoBetter o.side x.exec_price y.exec_price
  fill_iff : ∀ x ∈ r.reports, x.exec_type = .Fill ↔ x.leaves_qty = 0
  fill_last : ∀ pre x post, r.reports = pre ++ x :: post → x.leaves_qty = 0 → post = []
  /-- All passive orders but the last one are gone. -/
  gone : ∀ pre x post, r.events.map MatchEvent.slot = pre ++ x :: post → post ≠ [] →
    x ∉ b'.resting o.side.opposite

variable {b b' : OrderBook} {a a' : LevelBook} {s : Side} {o : Order} {rem rem' : Qty}
  {takes : List Take} {walled : Bool} {px : Price} {e : Entry} {es : List Entry}
  {ls : List Level}

/-! ## Section 2: Fill by fill -/

/-- The run of matching, cut open at the fill `t`: with `left` to go the
    aggressor met the best order, and the fills `post` follow. -/
structure CutAt (o : Order) (s : Side) (left : Qty) (t : Take) (es : List Entry)
    (ls : List Level) (post : List Take) (a' : LevelBook) (rem' : Qty) (walled : Bool) :
    Prop where
  wf : WF t.book
  head : t.book.levels s = ⟨t.price, t.entry :: es⟩ :: ls
  more : left ≠ 0
  qty : t.qty = min left t.entry.qty
  leaves : t.leaves = left - min left t.entry.qty
  rest : Matching o s (t.book.take s t.price t.entry es ls (min left t.entry.qty))
    (left - min left t.entry.qty) post a' rem' walled

theorem Matching.cut (h : Matching o s a rem takes a' rem' walled) (hw : WF a) :
    ∀ pre t post, takes = pre ++ t :: post → ∃ left es ls,
      CutAt o s left t es ls post a' rem' walled ∧
      rem.toNat = left.toNat + (pre.map fun t => t.qty.toNat).sum := by
  induction h with
  | filled a => simp
  | exhausted hrem hls => simp
  | price hrem hls hstop => simp
  | wall hrem hls hgo hwall => simp
  | @take a a' rem rem' px e es ls takes walled hrem hls hgo hwall hrest ih =>
    intro pre t post hsplit
    cases pre with
    | nil =>
      obtain ⟨rfl, rfl⟩ := List.cons.inj hsplit
      exact ⟨rem, es, ls, ⟨hw, hls, hrem, rfl, rfl, hrest⟩, rfl⟩
    | cons t₀ pre =>
      obtain ⟨rfl, htakes⟩ := List.cons.inj hsplit
      obtain ⟨left, es', ls', hcut, hsum⟩ := ih (hw.take hls _) pre t post htakes
      have hleft := toNat_sub_min (x := rem) (y := e.qty)
      have hmin := UInt32.toNat_min (x := rem) (y := e.qty)
      refine ⟨left, es', ls', hcut, ?_⟩
      simp only [List.map_cons, List.sum_cons]
      omega

/-- With nothing left there are no more fills. -/
theorem Matching.done (h : Matching o s a rem takes a' rem' walled) (hrem : rem = 0) :
    takes = [] := by
  cases h with
  | filled => rfl
  | exhausted hne => exact absurd hrem hne
  | price hne => exact absurd hrem hne
  | wall hne => exact absurd hrem hne
  | take hne => exact absurd hrem hne

/-- An order that is used up has left its side. -/
theorem WF.take_gone (hw : WF a) (hls : a.levels s = ⟨px, e :: es⟩ :: ls)
    (hall : min rem e.qty = e.qty) :
    e.slot ∉ slotsOf ((a.take s px e es ls (min rem e.qty)).levels s) := by
  have hap : Apart a s [] ⟨px, [] ++ e :: es⟩ ls := Slotted.apart hw.slots hls
  have hright := hap.right e.slot (by simp)
  have hnot := hap.notMem
  rcases take_cases a s px e es ls (min rem e.qty) with ⟨_, htake⟩ | ⟨hne, _⟩
  · rw [htake, levels_drop, List.nil_append, List.nil_append, slotsOf_append, slotsOf_keep,
      List.mem_append]
    rintro (hmem | hmem)
    · exact hnot hmem
    · exact hright hmem
  · exact absurd hall hne

/-- Thinning brings no slot back. -/
theorem Thinned.slots_subset (h : Thinned a a') {x : Nat} (hx : x ∈ slotsOf (a'.levels s)) :
    x ∈ slotsOf (a.levels s) := by
  rw [slotsOf_eq] at hx ⊢
  obtain ⟨e, he, rfl⟩ := List.mem_map.mp hx
  obtain ⟨e', he', hkey⟩ := h.mem_key he
  exact List.mem_map.mpr ⟨e', he', Entry.slot_of_key hkey⟩

/-- The slot of a fill was on its side when the run began. -/
theorem TakeOf.slot_mem {t : Take} (h : TakeOf o s a t) : t.entry.slot ∈ slotsOf (a.levels s) := by
  obtain ⟨es, ls, hls⟩ := h.head
  apply h.thinned.slots_subset
  rw [hls]
  simp

namespace CutAt

variable {left : Qty} {t t' : Take} {post : List Take}

theorem positive (h : CutAt o s left t es ls post a' rem' walled) : 0 < t.qty := by
  have hqty : t.entry.qty ≠ 0 := h.wf.positive s t.entry (by rw [h.head]; simp)
  rw [h.qty]
  apply UInt32.pos_iff_ne_zero.mpr
  rcases min_qty_cases left t.entry.qty with hmin | hmin
  · rw [hmin]
    exact h.more
  · rw [hmin]
    exact hqty

theorem leaves_eq (h : CutAt o s left t es ls post a' rem' walled) :
    left.toNat = t.leaves.toNat + t.qty.toNat := by
  have hleft := toNat_sub_min (x := left) (y := t.entry.qty)
  have hmin := UInt32.toNat_min (x := left) (y := t.entry.qty)
  rw [h.leaves, h.qty]
  omega

theorem last (h : CutAt o s left t es ls post a' rem' walled) (hzero : t.leaves = 0) :
    post = [] := by
  rw [h.leaves] at hzero
  exact h.rest.done hzero

/-- A fill that is followed by another one has used up its order: its slot is
    on that side neither at the later fills nor at the end. -/
theorem used_up (h : CutAt o s left t es ls post a' rem' walled) (hmore : post ≠ []) :
    t.entry.slot ∉ slotsOf ((t.book.take s t.price t.entry es ls
      (min left t.entry.qty)).levels s) := by
  apply h.wf.take_gone h.head
  rcases min_qty_cases left t.entry.qty with hmin | hmin
  · exact absurd (h.rest.done (by rw [hmin, UInt32.sub_self])) hmore
  · exact hmin

theorem gone (h : CutAt o s left t es ls post a' rem' walled) (hmore : post ≠ []) :
    t.entry.slot ∉ slotsOf (a'.levels s) :=
  fun hmem => h.used_up hmore (h.rest.thinned.slots_subset hmem)

/-- A later fill, seen from this one. -/
theorem later (h : CutAt o s left t es ls post a' rem' walled) (ht' : t' ∈ post) :
    TakeOf o s (t.book.take s t.price t.entry es ls (min left t.entry.qty)) t' :=
  h.rest.takeOf (h.wf.take h.head left) t' ht'

theorem slot_ne (h : CutAt o s left t es ls post a' rem' walled) (ht' : t' ∈ post) :
    t.entry.slot ≠ t'.entry.slot := by
  intro heq
  refine h.used_up (List.ne_nil_of_mem ht') ?_
  rw [heq]
  exact (h.later ht').slot_mem

/-- Nothing on the side has a better price than its best level. -/
theorem price_le (h : CutAt o s left t es ls post a' rem' walled) (ht' : t' ∈ post) :
    ¬ better s t'.price t.price := by
  have hthin := (Thinned.take h.head (min left t.entry.qty)).trans (h.later ht').thinned
  have hsorted := h.wf.sorted s
  obtain ⟨es', ls', hls'⟩ := (h.later ht').head
  obtain ⟨l, hl, hprice, _⟩ := hthin s ⟨t'.price, t'.entry :: es'⟩ (by rw [hls']; simp)
  change l.price = t'.price at hprice
  rw [h.head] at hl hsorted
  rw [← hprice]
  rcases List.mem_cons.mp hl with rfl | hl
  · exact better_irrefl s _
  · have hbehind := (List.pairwise_cons.mp hsorted).1 l hl
    exact fun hc => better_irrefl s _ (better_trans hbehind hc)

end CutAt

/-- What holds between a fill and every later one. -/
theorem Matching.pairwise (h : Matching o s a rem takes a' rem' walled) (hw : WF a)
    {P : Take → Take → Prop} (hP : ∀ left t es ls post,
      CutAt o s left t es ls post a' rem' walled → ∀ t' ∈ post, P t t') : takes.Pairwise P := by
  rw [List.pairwise_iff_forall_sublist]
  intro t t' hsub
  obtain ⟨xs, ys, hsplit, hx, hy⟩ := List.cons_sublist_iff.mp hsub
  obtain ⟨pre, mid, rfl⟩ := List.append_of_mem hx
  rw [List.append_assoc, List.cons_append] at hsplit
  obtain ⟨left, es, ls, hcut, _⟩ := h.cut hw pre t (mid ++ ys) hsplit
  exact hP left t es ls _ hcut t' (List.mem_append_right _ (List.singleton_sublist.mp hy))

/-! ## Section 3: The reports of a call -/

/-- A list of images, cut open. -/
theorem map_cut {α β : Type} {f : α → β} {xs : List α} {pre post : List β} {y : β}
    (h : xs.map f = pre ++ y :: post) :
    ∃ pre' x post', xs = pre' ++ x :: post' ∧ pre'.map f = pre ∧ f x = y ∧ post'.map f = post := by
  obtain ⟨pre', rest, rfl, hpre, hrest⟩ := List.map_eq_append_iff.mp h
  obtain ⟨x, post', rfl, hx, hpost⟩ := List.map_eq_cons_iff.mp hrest
  exact ⟨pre', x, post', rfl, hpre, hx, hpost⟩

theorem map_slot_eq {symbol : SymbolId} {evs : List MatchEvent} {takes : List Take}
    (h : List.Forall₂ (EventOf symbol o) evs takes) :
    evs.map MatchEvent.slot = takes.map fun t => t.entry.slot := by
  induction h with
  | nil => rfl
  | cons hof _ ih => rw [List.map_cons, List.map_cons, hof.slot, ih]

theorem noBetter_of_not_better {p p' : Price} (h : ¬ better s.opposite p' p) : NoBetter s p p' := by
  cases s with
  | Buy => exact Int.not_lt.mp h
  | Sell => exact Int.not_lt.mp h

theorem execTotal_map (symbol : SymbolId) (o : Order) (takes : List Take) :
    execTotal (takes.map (Take.report symbol o)) = (takes.map fun t => t.qty.toNat).sum := by
  unfold execTotal
  rw [List.map_map]
  rfl

/-- A fill is against an order that rested before the call, under its id. -/
theorem TakeOf.rested {t : Take} (ht : TakeOf o s a t) (hrep : Rep b a) (hw : WF a) :
    t.entry.slot ∈ b.resting s ∧ t.entry.id = b.slots.ids t.entry.slot := by
  obtain ⟨es, ls, hls⟩ := ht.head
  have hmem : t.entry ∈ entriesOf (t.book.levels s) := by rw [hls]; simp
  obtain ⟨e, he, hkey⟩ := ht.thinned.mem_key hmem
  obtain ⟨l, _, _, hst⟩ := hrep.stored he
  have hslot := Entry.slot_of_key hkey
  refine ⟨(hrep.mem_resting hw).mpr ⟨e, he, hslot⟩, ?_⟩
  rw [← hslot, hst.id, Entry.id_of_key hkey]

/-- The fills of one run of matching make up a report stream. -/
theorem Matching.reportStream {r : Response}
    (h : Matching o o.side.opposite a o.qty_remaining takes a' rem' walled) (hrep : Rep b a)
    (hw : WF a) (hevs : List.Forall₂ (EventOf b.symbol o) r.events takes)
    (hrest : b'.resting o.side.opposite = slotsOf (a'.levels o.side.opposite)) :
    ReportStream b b' o r := by
  have hreports : r.reports = takes.map (Take.report b.symbol o) := map_report_eq hevs
  have hslots := map_slot_eq hevs
  have hmem : ∀ x ∈ r.reports, ∃ t ∈ takes, Take.report b.symbol o t = x := by
    intro x hx
    rw [hreports] at hx
    exact List.mem_map.mp hx
  refine ⟨?_, ?_, ?_, ?_, ?_, ?_, ?_, ?_, ?_⟩
  · intro x hx
    obtain ⟨t, _, rfl⟩ := hmem x hx
    exact ⟨rfl, rfl, rfl⟩
  · intro x hx
    obtain ⟨t, ht, rfl⟩ := hmem x hx
    obtain ⟨pre, post, hsplit⟩ := List.append_of_mem ht
    obtain ⟨left, es, ls, hcut, _⟩ := h.cut hw pre t post hsplit
    exact hcut.positive
  · intro ev hev
    obtain ⟨t, ht, hevt⟩ := forall₂_mem_left hevs ev hev
    rw [hevt.slot, hevt.report]
    exact (h.takeOf hw t ht).rested hrep hw
  · rw [hslots]
    unfold List.Nodup
    rw [List.pairwise_map]
    exact h.pairwise hw fun left t es ls post hcut t' ht' => hcut.slot_ne ht'
  · intro pre x post hsplit
    rw [hreports] at hsplit
    obtain ⟨pre', t, post', htakes, rfl, rfl, _⟩ := map_cut hsplit
    obtain ⟨left, es, ls, hcut, hsum⟩ := h.cut hw pre' t post' htakes
    have hleaves := hcut.leaves_eq
    have htotal := execTotal_map b.symbol o (pre' ++ [t])
    simp only [List.map_append, List.map_cons, List.map_nil, List.sum_append, List.sum_cons,
      List.sum_nil] at htotal
    rw [htotal]
    show _ = t.leaves.toNat + _
    omega
  · rw [hreports, List.pairwise_map]
    exact h.pairwise hw fun left t es ls post hcut t' ht' =>
      noBetter_of_not_better (hcut.price_le ht')
  · intro x hx
    obtain ⟨t, _, rfl⟩ := hmem x hx
    show (if t.leaves = 0 then ExecType.Fill else .PartialFill) = .Fill ↔ t.leaves = 0
    split
    · next hzero => simp [hzero]
    · next hsome => simp [hsome]
  · intro pre x post hsplit hzero
    rw [hreports] at hsplit
    obtain ⟨pre', t, post', htakes, rfl, rfl, rfl⟩ := map_cut hsplit
    obtain ⟨left, es, ls, hcut, _⟩ := h.cut hw pre' t post' htakes
    rw [hcut.last hzero, List.map_nil]
  · intro pre x post hsplit hmore
    rw [hslots] at hsplit
    obtain ⟨pre', t, post', htakes, rfl, rfl, rfl⟩ := map_cut hsplit
    obtain ⟨left, es, ls, hcut, _⟩ := h.cut hw pre' t post' htakes
    rw [hrest]
    exact hcut.gone fun hnil => hmore (by rw [hnil, List.map_nil])

/-- Nothing is wrong with no reports. -/
theorem reportStream_nil {r : Response} (hnone : r.events = []) : ReportStream b b' o r := by
  have hreports : r.reports = [] := by rw [Response.reports, hnone, List.map_nil]
  constructor <;> simp [hnone, hreports]

/-- After every run, the reports of the next order are a report stream. -/
theorem report_stream (mem : OrderBook) (symbol : SymbolId) (ops : List Op) (o : Order) :
    ∃ rs b r b', (fresh mem symbol).run ops = some (rs, b) ∧ b.add_order o = some (r, b') ∧
      ReportStream b b' o r := by
  obtain ⟨rs, b, calls, a, hrun, _, _, _, hrep, hw⟩ := run_refines mem symbol ops
  obtain ⟨r, b', a', takes, happly, hstep, hrep', hw', hevs, _⟩ := hrep.apply hw (.add o)
  refine ⟨rs, b, r, b', hrun, happly, ?_⟩
  rcases hstep.matching with rfl | ⟨a'', rem, walled, hm, hopp⟩
  · exact reportStream_nil (List.forall₂_nil_right_iff.mp hevs)
  · refine hm.reportStream hrep hw hevs ?_
    rw [hrep'.resting_eq hw', hopp]

end OptionsEngine
