import OptionsEngine.MatchingEngine.Session
import OptionsEngine.OrderBook.Resting

/-! # A dropped report leaves no trace

    `on_execution` drops a report when the outbound queue is full, "and let the
    execution layer detect missing fills via sequence gaps".  The reports carry
    no sequence number, though, and every report of a session is one that two
    orders in an empty book can give: the first rests, the second meets it.

    So whatever a consumer receives, it can have received it from an engine
    that dropped nothing (`drops_not_detectable`). -/

namespace OptionsEngine

open Function Ring OrderBook MatchingEngine

namespace Session

/-! ## Section 1: Statement -/

/-- The reports received in `s`, once the queue is drained, are not those of any
    session from `first` in which every report was passed on and none was
    dropped. -/
def Detectable (first s : Session) : Prop :=
  ∀ events s', first.run events = some s' → s'.pending = [] → s'.dropped = 0 →
    s'.drain.received ≠ s.drain.received

/-! ## Section 2: One new order -/

variable {known : SymbolId → Prop} {levels : SymbolId → Side → List Level} {s s' s'' : Session}
  {msg : MarketDataMsg} {o : Order} {rpt : ExecutionReport}

/-- No message is in progress and the books have these levels. -/
structure Showing (known : SymbolId → Prop) (levels : SymbolId → Side → List Level) (s : Session) :
    Prop where
  pending : s.pending = []
  labelled : s.engine.Labelled
  knows : ∀ id, s.engine.Knows id ↔ known id
  books : ∀ id book, s.engine.books id = some book → ∃ a, Rep book a ∧ WF a ∧ a.levels = levels id

theorem Showing.inOrder (h : Showing known levels s) : s.engine.InOrder := by
  refine ⟨fun id book hbook => ?_, h.labelled⟩
  obtain ⟨a, hrep, hw, _⟩ := h.books id book hbook
  exact ⟨a, hrep, hw⟩

/-- Nothing has happened that the consumer could see. -/
structure Unseen (s s' : Session) : Prop where
  outbound : s'.engine.outbound = s.engine.outbound
  received : s'.received = s.received
  dropped : s'.dropped = s.dropped

theorem Unseen.refl (s : Session) : Unseen s s := ⟨rfl, rfl, rfl⟩

theorem Unseen.trans (h : Unseen s s') (h' : Unseen s' s'') : Unseen s s'' where
  outbound := h'.outbound.trans h.outbound
  received := h'.received.trans h.received
  dropped := h'.dropped.trans h.dropped

/-- A new order is one step of the book of its symbol. -/
theorem Showing.message (h : Showing known levels s) (hknown : known msg.symbol)
    (hop : op_of s.engine.next_order_id msg = some (.add o)) :
    ∃ a out takes a' s', Step a (.add o) out takes a' ∧ WF a ∧ a.levels = levels msg.symbol ∧
      s.step (.message msg) = some s' ∧ s'.pending = takes.map (Take.report msg.symbol o) ∧
      Showing known (update levels msg.symbol a'.levels) { s' with pending := [] } ∧
      Unseen s s' ∧ s'.engine.next_order_id = next_of s.engine.next_order_id msg := by
  obtain ⟨hlt, hsome⟩ := (h.knows _).mpr hknown
  obtain ⟨book, hbook⟩ := Option.isSome_iff_exists.mp hsome
  obtain ⟨a, hrep, hw, hlevels⟩ := h.books _ _ hbook
  obtain ⟨out, evs, book', a', takes, hadd, hstep, hrep', hevs, hsymbol⟩ := hrep.add_order hw o
  obtain ⟨p, hp, hbooks, hnext, hreports⟩ : ∃ p, s.engine.process_message msg = some p ∧
      p.engine.books = update s.engine.books msg.symbol (some book') ∧
      p.engine.next_order_id = next_of s.engine.next_order_id msg ∧
      p.reports = evs.map MatchEvent.report :=
    ⟨_, process_message_eq hlt hbook hop hadd, finish_books .., finish_next .., rfl⟩
  obtain ⟨hinOrder, _⟩ := h.inOrder.process_message hp
  obtain ⟨_, _, hknows⟩ := h.inOrder.sound.processed hp
  refine ⟨a, out, takes, a', s.take_up p, hstep, hw, hlevels, ?_, ?_, ?_, ⟨rfl, rfl, rfl⟩, hnext⟩
  · rw [step, if_pos h.pending, hp, Option.map_some]
  · rw [← h.labelled _ _ hbook, ← map_report_eq hevs]
    exact hreports
  · refine ⟨rfl, hinOrder.labelled, fun id => (hknows id).trans (h.knows id), ?_⟩
    intro id b hb
    -- only the book of the symbol has changed
    simp only [take_up, hbooks] at hb
    by_cases hid : id = msg.symbol
    · subst hid
      obtain rfl : book' = b := by simpa using hb
      exact ⟨a', hrep', hstep.wf hw, by rw [update_self]⟩
    · rw [update_of_ne hid] at hb ⊢
      exact h.books id b hb

/-! ## Section 3: The counter of synthetic ids -/

theorem op_of_new {next : UInt64} (hnew : msg.msg_type = .NewOrder)
    (hid : msg.order_id = 0 → next = 0) :
    op_of next msg = some (.add (order_of msg msg.order_id)) := by
  rw [op_of, if_pos hnew]
  split
  · rfl
  · next hzero =>
    rw [not_not] at hzero
    rw [hid hzero, hzero]

/-- A market order for nothing, without an id, moves the counter and does
    nothing else. -/
theorem Showing.tick {symbol : SymbolId} (h : Showing known levels s) (hknown : known symbol) :
    ∃ s', s.step (.message (new_order .Market 0 symbol .Buy 0 0)) = some s' ∧
      Showing known levels s' ∧ Unseen s s' ∧
      s'.engine.next_order_id = s.engine.next_order_id + 1 := by
  have hsymbol : known (new_order .Market 0 symbol .Buy 0 0).symbol := hknown
  obtain ⟨a, out, takes, a', s', hstep, _, hlevels, hs', hpending, hshowing, hunseen, hnext⟩ :=
    h.message hsymbol rfl
  obtain ⟨rfl, rfl⟩ := hstep.idle rfl rfl
  refine ⟨s', hs', ?_, hunseen, hnext⟩
  have hsame : update levels symbol a'.levels = levels := by
    rw [hlevels]
    exact update_eq_self symbol levels
  rw [show (new_order .Market 0 symbol .Buy 0 0).symbol = symbol from rfl, hsame] at hshowing
  have hdone : { s' with pending := [] } = s' := by
    rw [show ([] : List ExecutionReport) = s'.pending from hpending.symm]
  rwa [hdone] at hshowing

theorem Showing.ticks {symbol : SymbolId} (h : Showing known levels s) (hknown : known symbol)
    (k : Nat) :
    ∃ events s', s.run events = some s' ∧ Showing known levels s' ∧ Unseen s s' ∧
      s'.engine.next_order_id = s.engine.next_order_id + UInt64.ofNat k := by
  induction k with
  | zero => exact ⟨[], s, rfl, h, .refl s, (UInt64.add_zero _).symm⟩
  | succ k ih =>
    obtain ⟨events, s₁, hrun, h₁, hunseen, hnext⟩ := ih
    obtain ⟨s', hstep, h', hunseen', hnext'⟩ := h₁.tick hknown
    refine ⟨events ++ [_], s', run_append hrun (run_cons hstep rfl), h', hunseen.trans hunseen', ?_⟩
    rw [hnext', hnext, UInt64.add_assoc, UInt64.ofNat_add]
    rfl

/-- Any id can be given to the next new order, also the id 0. -/
theorem Showing.ready {symbol : SymbolId} (h : Showing known levels s) (hknown : known symbol)
    (id : OrderId) :
    ∃ events s', s.run events = some s' ∧ Showing known levels s' ∧ Unseen s s' ∧
      (id = 0 → s'.engine.next_order_id = 0) := by
  by_cases hid : id = 0
  · -- the counter wraps around to 0 in the end
    obtain ⟨events, s', hrun, h', hunseen, hnext⟩ :=
      h.ticks hknown (0 - s.engine.next_order_id).toNat
    refine ⟨events, s', hrun, h', hunseen, fun _ => ?_⟩
    rw [hnext, UInt64.ofNat_toNat, UInt64.add_comm, UInt64.sub_add_cancel]
  · exact ⟨[], s, rfl, h, .refl s, fun hzero => absurd hzero hid⟩

/-! ## Section 4: A single trade -/

/-- Books without orders. -/
def clear : SymbolId → Side → List Level := fun _ _ => []

/-- The resting order of a report. -/
def passive (rpt : ExecutionReport) : MarketDataMsg :=
  new_order .Limit rpt.contra_order_id rpt.symbol rpt.side.opposite rpt.exec_price rpt.exec_qty

/-- The order of a report that trades at once; what the report leaves expires. -/
def aggressor (rpt : ExecutionReport) : MarketDataMsg :=
  new_order .IOC rpt.order_id rpt.symbol rpt.side rpt.exec_price (rpt.exec_qty + rpt.leaves_qty)

/-- Books with nothing but the resting order of a report. -/
def restingOf (rpt : ExecutionReport) (slot : Nat) : SymbolId → Side → List Level :=
  update clear rpt.symbol
    (alone rpt.side.opposite rpt.exec_price ⟨slot, rpt.contra_order_id, rpt.exec_qty, 0⟩)

theorem Showing.done (h : Showing known levels { s with pending := [] }) (hpending : s.pending = []) :
    Showing known levels s :=
  ⟨hpending, h.labelled, h.knows, h.books⟩

theorem Showing.rest (h : Showing known clear s) (hrpt : Plausible known rpt)
    (hid : rpt.contra_order_id = 0 → s.engine.next_order_id = 0) :
    ∃ s' slot, s.step (.message (passive rpt)) = some s' ∧ Showing known (restingOf rpt slot) s' ∧
      Unseen s s' := by
  have hsymbol : known (passive rpt).symbol := hrpt.symbol
  obtain ⟨a, out, takes, a', s', hstep, hw, hlevels, hs', hpending, hshowing, hunseen, _⟩ :=
    h.message hsymbol (op_of_new rfl hid)
  obtain ⟨rfl, slot, hlevels'⟩ :=
    hstep.rests_alone hw (fun t => by rw [hlevels]; rfl) rfl hrpt.positive
  rw [hlevels'] at hshowing
  exact ⟨s', slot, hs', hshowing.done hpending, hunseen⟩

theorem Plausible.qty_eq (hrpt : Plausible known rpt) :
    (rpt.exec_qty + rpt.leaves_qty).toNat = rpt.exec_qty.toNat + rpt.leaves_qty.toNat := by
  rw [UInt32.toNat_add, Nat.mod_eq_of_lt hrpt.fits]

theorem Showing.meet {slot : Nat} (h : Showing known (restingOf rpt slot) s)
    (hrpt : Plausible known rpt) (hid : rpt.order_id = 0 → s.engine.next_order_id = 0) :
    ∃ s', s.step (.message (aggressor rpt)) = some s' ∧ s'.pending = [rpt] ∧
      Showing known clear { s' with pending := [] } ∧ Unseen s s' := by
  have hsymbol : known (aggressor rpt).symbol := hrpt.symbol
  obtain ⟨a, out, takes, a', s', hstep, hw, hlevels, hs', hpending, hshowing, hunseen, _⟩ :=
    h.message hsymbol (op_of_new rfl hid)
  have hpos := toNat_pos_of_ne hrpt.positive
  -- the sum does not wrap, so the resting order is used up and the rest is left
  have hrem : rpt.exec_qty + rpt.leaves_qty ≠ 0 := by
    intro hzero
    have hsum := hrpt.qty_eq
    rw [hzero] at hsum
    change 0 = _ at hsum
    omega
  have hmin : min (rpt.exec_qty + rpt.leaves_qty) rpt.exec_qty = rpt.exec_qty := by
    rw [← UInt32.toNat_inj, UInt32.toNat_min, hrpt.qty_eq]
    exact Nat.min_eq_right (Nat.le_add_right _ _)
  have halone : a.levels = alone rpt.side.opposite rpt.exec_price
      ⟨slot, rpt.contra_order_id, rpt.exec_qty, 0⟩ := by
    rw [hlevels]
    exact update_self ..
  obtain ⟨rfl, hempty⟩ := hstep.meets_alone rfl halone (price_stops_own _)
    (fun hwall => hwall.1 rfl) hrem hmin
  refine ⟨s', hs', ?_, ?_, hunseen⟩
  · have hleaves : rpt.exec_qty + rpt.leaves_qty - rpt.exec_qty = rpt.leaves_qty := by
      rw [UInt32.add_comm, UInt32.add_sub_cancel]
    rw [hpending]
    simp only [List.map_cons, List.map_nil, Take.report, order_of, aggressor, new_order, hleaves,
      ← hrpt.exec_type]
  · have hclear : update (restingOf rpt slot) rpt.symbol a'.levels = clear := by
      rw [show a'.levels = clear rpt.symbol from funext hempty, restingOf, update_idem,
        update_eq_self]
    exact hclear ▸ hshowing

/-- The report of the trade is passed on, unless the queue is full. -/
theorem Showing.pass_on {n : Nat} {items : List ExecutionReport}
    (h : Showing known clear { s with pending := [] }) (hpending : s.pending = [rpt])
    (hholds : s.engine.outbound.Holds kQueueDepth n items) :
    ∃ s', s.step .report = some s' ∧ Showing known clear s' ∧ s'.received = s.received ∧
      if items.length = kQueueDepth.size - 1 then
        s'.dropped = s.dropped + 1 ∧ s'.engine.outbound.Holds kQueueDepth n items
      else s'.dropped = s.dropped ∧ s'.engine.outbound.Holds kQueueDepth n (items ++ [rpt]) := by
  refine ⟨s.pass_on rpt [], by rw [step, hpending], ?_, rfl, ?_⟩
  · exact ⟨rfl, h.labelled, h.knows, h.books⟩
  · have hpush := hholds.try_push rpt
    unfold Session.pass_on on_execution
    split at hpush
    · next hfull =>
      rw [if_pos hfull, hpush]
      exact ⟨rfl, hholds⟩
    · next hroom =>
      obtain ⟨q, hq, hholds'⟩ := hpush
      rw [if_neg hroom, hq]
      exact ⟨rfl, hholds'⟩

/-! ## Section 5: Any received reports -/

/-- In clear books, the trade of any plausible report can be made. -/
theorem Showing.trade (h : Showing known clear s) (hrpt : Plausible known rpt) :
    ∃ events s', s.run events = some s' ∧ s'.pending = [rpt] ∧
      Showing known clear { s' with pending := [] } ∧ Unseen s s' := by
  obtain ⟨before, s₁, hrun₁, h₁, hunseen₁, hid₁⟩ := h.ready hrpt.symbol rpt.contra_order_id
  obtain ⟨s₂, slot, hstep₂, h₂, hunseen₂⟩ := h₁.rest hrpt hid₁
  obtain ⟨between, s₃, hrun₃, h₃, hunseen₃, hid₃⟩ := h₂.ready hrpt.symbol rpt.order_id
  obtain ⟨s', hstep', hpending, h', hunseen'⟩ := h₃.meet hrpt hid₃
  refine ⟨before ++ .message (passive rpt) :: (between ++ [.message (aggressor rpt)]), s', ?_,
    hpending, h', hunseen₁.trans (hunseen₂.trans (hunseen₃.trans hunseen'))⟩
  exact run_append hrun₁ (run_cons hstep₂ (run_append hrun₃ (run_cons hstep' rfl)))

/-- ... and its report received. -/
theorem Showing.deliver {n : Nat} (h : Showing known clear s) (hrpt : Plausible known rpt)
    (hholds : s.engine.outbound.Holds kQueueDepth n []) :
    ∃ events s', s.run events = some s' ∧ Showing known clear s' ∧
      s'.engine.outbound.Holds kQueueDepth (n + 1) [] ∧ s'.received = s.received ++ [rpt] ∧
      s'.dropped = s.dropped := by
  obtain ⟨events, s₁, hrun, hpending, h₁, hunseen⟩ := h.trade hrpt
  rw [← hunseen.outbound] at hholds
  obtain ⟨s₂, hstep, h₂, hreceived, hpushed⟩ := h₁.pass_on hpending hholds
  rw [if_neg (by decide)] at hpushed
  obtain ⟨q, hpoll, hq⟩ := poll_cons hpushed.2
  refine ⟨events ++ [.report, .poll], s₂.poll, ?_, ?_, ?_, ?_, ?_⟩
  · exact run_append hrun (run_cons hstep rfl)
  · rw [hpoll]
    exact ⟨h₂.pending, h₂.labelled, h₂.knows, h₂.books⟩
  · rw [hpoll]
    exact hq
  · rw [hpoll, ← hunseen.received, ← hreceived]
  · rw [hpoll, ← hunseen.dropped, ← hpushed.1]

/-- Plausible reports, one by one, are received from an engine that drops none. -/
theorem Showing.replay (reports : List ExecutionReport) :
    ∀ {s : Session} {n : Nat}, Showing known clear s →
      s.engine.outbound.Holds kQueueDepth n [] → (∀ rpt ∈ reports, Plausible known rpt) →
      ∃ events s', s.run events = some s' ∧ s'.pending = [] ∧
        s'.drain.received = s.received ++ reports ∧ s'.dropped = s.dropped := by
  induction reports with
  | nil =>
    intro s n h hholds _
    exact ⟨[], s, rfl, h.pending, drain_received hholds, rfl⟩
  | cons rpt reports ih =>
    intro s n h hholds hall
    obtain ⟨events, s₁, hrun, h₁, hholds₁, hreceived, hdropped⟩ :=
      h.deliver (hall rpt (by simp)) hholds
    obtain ⟨events', s', hrun', hpending, hreceived', hdropped'⟩ :=
      ih h₁ hholds₁ fun r hr => hall r (by simp [hr])
    refine ⟨events ++ events', s', run_append hrun hrun', hpending, ?_, hdropped'.trans hdropped⟩
    rw [hreceived', hreceived, List.append_assoc]
    rfl

theorem showing_start (mem : MatchingEngine) (books : SymbolId → OrderBook) (ids : List SymbolId) :
    Showing (register_symbols mem books ids).Knows clear (start (register_symbols mem books ids)) := by
  have hfresh : ∀ id book, (register_symbols mem books ids).books id = some book →
      ∃ b, book = OrderBook.fresh b id := by
    refine List.foldlRecOn (motive := fun e : MatchingEngine =>
      ∀ id book, e.books id = some book → ∃ b, book = OrderBook.fresh b id) ids _ ?_ ?_
    · intro id book hbook
      cases hbook
    · intro e he symbol _ id book hbook
      unfold MatchingEngine.register_symbol at hbook
      split at hbook
      · exact he id book hbook
      · split at hbook
        · exact he id book hbook
        · by_cases hid : id = symbol
          · subst hid
            obtain rfl : OrderBook.fresh (books id) id = book := by simpa using hbook
            exact ⟨books id, rfl⟩
          · simp only [update_of_ne hid] at hbook
            exact he id book hbook
  refine ⟨rfl, (inOrder_register_symbols mem books ids).labelled, fun _ => .rfl, ?_⟩
  intro id book hbook
  obtain ⟨b, rfl⟩ := hfresh id book hbook
  exact ⟨_, rep_fresh b id, wf_empty, rfl⟩

/-- No session, whatever it drops, is detectable by the reports received. -/
theorem drops_not_detectable (mem : MatchingEngine) (books : SymbolId → OrderBook)
    (ids : List SymbolId) (events : List Event) :
    let first := start (register_symbols mem books ids)
    ∃ s, first.run events = some s ∧ ¬ Detectable first s := by
  intro first
  obtain ⟨s, hrun, hs⟩ := (honest_start mem books ids).run events
  obtain ⟨events', s', hrun', hpending, hreceived, hdropped⟩ :=
    (showing_start mem books ids).replay s.drain.received (holds_start mem books ids) hs.drain
  have hnone : (start (register_symbols mem books ids)).received = [] := rfl
  rw [hnone, List.nil_append] at hreceived
  exact ⟨s, hrun, fun hdetect => hdetect events' s' hrun' hpending hdropped hreceived⟩

/-- A trade of a single lot. -/
def lot : ExecutionReport := ⟨2, 1, 100, 1, 0, 0, .Buy, .Fill⟩

/-- The same trade `n` times over, without a poll. -/
def flood : Nat → List Event
  | 0 => []
  | n + 1 => flood n ++ [.message (passive lot), .message (aggressor lot), .report]

theorem plausible_lot (hknown : known 0) : Plausible known lot := ⟨hknown, by decide, by decide, rfl⟩

/-- One trade more. -/
theorem Showing.one_more {n : Nat} {items : List ExecutionReport} (h : Showing known clear s)
    (hknown : known 0) (hholds : s.engine.outbound.Holds kQueueDepth n items) :
    ∃ s', s.run [.message (passive lot), .message (aggressor lot), .report] = some s' ∧
      Showing known clear s' ∧ s'.received = s.received ∧
      if items.length = kQueueDepth.size - 1 then
        s'.dropped = s.dropped + 1 ∧ s'.engine.outbound.Holds kQueueDepth n items
      else s'.dropped = s.dropped ∧ s'.engine.outbound.Holds kQueueDepth n (items ++ [lot]) := by
  have hlot : Plausible known lot := plausible_lot hknown
  have hcontra : lot.contra_order_id ≠ 0 := by decide
  have hid : lot.order_id ≠ 0 := by decide
  obtain ⟨s₁, slot, hstep₁, h₁, hunseen₁⟩ := h.rest hlot fun hzero => absurd hzero hcontra
  obtain ⟨s₂, hstep₂, hpending, h₂, hunseen₂⟩ := h₁.meet hlot fun hzero => absurd hzero hid
  have hunseen := hunseen₁.trans hunseen₂
  rw [← hunseen.outbound] at hholds
  obtain ⟨s', hstep', h', hreceived, hpushed⟩ := h₂.pass_on hpending hholds
  rw [hunseen.received] at hreceived
  rw [hunseen.dropped] at hpushed
  exact ⟨s', run_cons hstep₁ (run_cons hstep₂ (run_cons hstep' rfl)), h', hreceived, hpushed⟩

theorem run_flood (n : Nat) (hn : n ≤ kQueueDepth.size - 1) (h : Showing known clear s)
    (hknown : known 0) (hholds : s.engine.outbound.Holds kQueueDepth 0 []) :
    ∃ s', s.run (flood n) = some s' ∧ Showing known clear s' ∧ s'.received = s.received ∧
      s'.dropped = s.dropped ∧
      s'.engine.outbound.Holds kQueueDepth 0 (List.replicate n lot) := by
  induction n with
  | zero => exact ⟨s, rfl, h, rfl, rfl, hholds⟩
  | succ n ih =>
    obtain ⟨s₁, hrun, h₁, hreceived, hdropped, hholds₁⟩ := ih (by omega)
    obtain ⟨s', hrun', h', hreceived', hpushed⟩ := h₁.one_more hknown hholds₁
    rw [List.length_replicate, if_neg (by omega), ← List.replicate_succ'] at hpushed
    exact ⟨s', run_append hrun hrun', h', hreceived'.trans hreceived, hpushed.1.trans hdropped,
      hpushed.2⟩

/-- A flood of one trade more than the queue has room for. -/
theorem run_flood_full {n : Nat} (hn : n = kQueueDepth.size - 1) (h : Showing known clear s)
    (hknown : known 0) (hholds : s.engine.outbound.Holds kQueueDepth 0 []) :
    ∃ s' s'', s.run (flood n) = some s' ∧ s.run (flood (n + 1)) = some s'' ∧ s'.pending = [] ∧
      s'.dropped = s.dropped ∧ s''.dropped = s.dropped + 1 ∧
      s'.drain.received = s''.drain.received := by
  obtain ⟨s', hrun, h', hreceived, hdropped, hholds'⟩ :=
    run_flood n (Nat.le_of_eq hn) h hknown hholds
  obtain ⟨s'', hrun', _, hreceived', hpushed⟩ := h'.one_more hknown hholds'
  rw [List.length_replicate, if_pos hn, hdropped] at hpushed
  refine ⟨s', s'', hrun, run_append hrun hrun', h'.pending, hdropped, hpushed.1, ?_⟩
  rw [drain_received hholds', drain_received hpushed.2, hreceived']

/-- The queue has room for 65535 reports.  The next one is dropped, and the
    consumer receives what it receives from a session of 65535 trades. -/
theorem dropped_lot_not_missed :
    let first := start (register_symbols zeroed (fun _ => OrderBook.zeroed) [0])
    ∃ s s', first.run (flood 65536) = some s ∧ s.dropped = 1 ∧
      first.run (flood 65535) = some s' ∧ s'.pending = [] ∧ s'.dropped = 0 ∧
      s'.drain.received = s.drain.received := by
  have hknown : (register_symbols zeroed (fun _ => OrderBook.zeroed) [0]).Knows 0 :=
    ⟨by decide, rfl⟩
  have hroom : 65535 = kQueueDepth.size - 1 := rfl
  obtain ⟨s', s, hrun', hrun, hpending, hdropped', hdropped, hreceived⟩ :=
    run_flood_full hroom (showing_start ..) hknown (holds_start ..)
  exact ⟨s, s', hrun, hdropped, hrun', hpending, hdropped', hreceived⟩

end Session

end OptionsEngine
