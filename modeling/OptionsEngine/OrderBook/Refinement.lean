import OptionsEngine.OrderBook.Matching

/-! # The order book refines the book of levels

    * `Rep.apply`: a call on a book that represents `a` ends, and what it
      returns, emits and leaves is one `Step` of `a`.
    * `Rep.run`: the same for every sequence of calls; `Steps` is a run of the
      book of levels.
    * `rep_fresh`: the constructor's book represents the empty book.

    Hence every run of the order book from its constructor ends and follows a
    run of the book of levels from the empty book (`run_refines`). -/

namespace OptionsEngine

open Function Loop LiveArray LinkedQueue OrderBook

variable {b : OrderBook} {a a' : LevelBook} {s : Side} {q : List Entry} {ls : List Level}
  {o : Order}

/-! ## Section 1: The fill-or-kill pre-check -/

theorem liquidity_queue {slots : SlotPool} (px : Price) (q : List Entry) :
    ∀ {fuel total : Nat}, q.length < fuel → Chain slots.nexts (q.map Entry.slot) NULL_IDX →
      NULL_IDX ∉ q.map Entry.slot → (∀ e ∈ q, Stored slots px e) →
      loop (liquidity_slot slots o) fuel ((q.map Entry.slot).headD NULL_IDX, total) =
        some (availableQueue o total q) := by
  induction q with
  | nil =>
    intro fuel total hfuel _ _ _
    obtain ⟨fuel, rfl⟩ : ∃ k, fuel = k + 1 := ⟨fuel - 1, by simp at hfuel; omega⟩
    apply loop_exit
    simp [liquidity_slot, availableQueue]
  | cons e es ih =>
    intro fuel total hfuel hchain hnull hstored
    obtain ⟨fuel, rfl⟩ : ∃ k, fuel = k + 1 := ⟨fuel - 1, by simp at hfuel; omega⟩
    have hst := hstored e (by simp)
    have hne : e.slot ≠ NULL_IDX := fun heq => hnull (by simp [heq])
    rw [List.map_cons, chain_cons] at hchain
    rw [List.map_cons, List.headD_cons]
    -- one pass reads off the slot what the abstract walk reads off the entry
    have hpass : liquidity_slot slots o (e.slot, total) =
        if walls o e then some (.exit (true, total))
        else if total + e.qty.toNat ≥ o.qty_remaining.toNat then
          some (.exit (true, total + e.qty.toNat))
        else some (.next ((es.map Entry.slot).headD NULL_IDX, total + e.qty.toNat)) := by
      simp only [liquidity_slot, hst.account, hst.qty, hchain.1]
      rw [if_pos hne]
      rfl
    by_cases hwall : walls o e
    · rw [if_pos hwall] at hpass
      rw [loop_exit hpass, availableQueue, if_pos hwall]
    rw [if_neg hwall] at hpass
    by_cases henough : total + e.qty.toNat ≥ o.qty_remaining.toNat
    · rw [if_pos henough] at hpass
      rw [loop_exit hpass, availableQueue, if_neg hwall, if_pos henough]
    rw [if_neg henough] at hpass
    rw [loop_next hpass, availableQueue, if_neg hwall, if_neg henough]
    refine ih (by simpa using hfuel) hchain.2 ?_ ?_
    · exact fun hm => hnull (List.mem_cons_of_mem _ hm)
    · exact fun x hx => hstored x (by simp [hx])

/-- The walk over the levels from position `L.length` on. -/
theorem Rep.liquidity_levels (h : Rep b a) (hw : WF a) (R : List Level) :
    ∀ {L : List Level} {fuel total : Nat}, a.levels s = L ++ R → R.length < fuel →
      loop (liquidity_level (b.side s) b.slots o) fuel (L.length, total) =
        some (availableLevels o total R) := by
  induction R with
  | nil =>
    intro L fuel total hls hfuel
    obtain ⟨fuel, rfl⟩ : ∃ k, fuel = k + 1 := ⟨fuel - 1, by simp at hfuel; omega⟩
    have hcount : ¬ L.length < (b.side s).count := by
      rw [(h.sides s).count_eq, hls]
      simp
    apply loop_exit
    simp only [liquidity_level]
    rw [if_neg hcount]
    rfl
  | cons l R ih =>
    intro L fuel total hls hfuel
    obtain ⟨fuel, rfl⟩ : ∃ k, fuel = k + 1 := ⟨fuel - 1, by simp at hfuel; omega⟩
    have hap : Apart a s L l R := Slotted.apart hw.slots hls
    have hq := h.queue hls
    obtain ⟨hprice, _, _, hhead, _⟩ := (h.row hls).cells
    have hcount : L.length < (b.side s).count := by
      rw [(h.row hls).count_eq]
      simp
    have hqueue : loop (liquidity_slot b.slots o) (kMaxOrders + 1)
        ((b.side s).head_idxs L.length, total) = some (availableQueue o total l.queue) := by
      rw [hhead]
      exact liquidity_queue l.price l.queue (Nat.lt_succ_of_le hap.length_le) hq.linked.chain
        hap.null_notMem hq.stored
    have hpass : liquidity_level (b.side s) b.slots o (L.length, total) =
        if price_stops o l.price then some (.exit total)
        else some (if (availableQueue o total l.queue).1
          then .exit (availableQueue o total l.queue).2
          else .next (L.length + 1, (availableQueue o total l.queue).2)) := by
      simp only [liquidity_level, hprice, hqueue, Option.map_some]
      rw [if_pos hcount]
    by_cases hstop : price_stops o l.price = true
    · rw [if_pos hstop] at hpass
      rw [loop_exit hpass, availableLevels, if_pos hstop]
    rw [if_neg hstop] at hpass
    rw [availableLevels, if_neg hstop]
    -- decided inside this level, or on to the next
    cases hav : availableQueue o total l.queue with
    | mk done total' =>
      rw [hav] at hpass
      cases done with
      | true => exact loop_exit hpass _
      | false =>
        have hlen : L.length + 1 = (L ++ [l]).length := by simp
        rw [loop_next hpass, hlen]
        exact ih (by rw [hls]; simp) (by simpa using hfuel)

/-- The pre-check decides whether the levels are short of the quantity. -/
theorem Rep.available_liquidity (h : Rep b a) (hw : WF a) (o : Order) :
    ∃ available, b.available_liquidity o = some available ∧
      (available < o.qty_remaining ↔ Short a o) := by
  have hcap := hw.capacity o.side.opposite
  have hls : a.levels o.side.opposite = [] ++ a.levels o.side.opposite := rfl
  have hrun : loop (liquidity_level (b.side o.side.opposite) b.slots o) (kMaxLevels + 1) (0, 0) =
      some (availableLevels o 0 (a.levels o.side.opposite)) :=
    h.liquidity_levels hw _ hls (Nat.lt_succ_of_le hcap)
  refine ⟨_, by rw [OrderBook.available_liquidity, hrun, Option.map_some], ?_⟩
  -- saturating at 2^32 - 1 does not change a comparison with a 32-bit quantity
  have hq := o.qty_remaining.toNat_lt
  rw [UInt32.lt_iff_toNat_lt, UInt32.toNat_ofNat', Short]
  omega

/-! ## Section 2: One call -/

theorem Rep.add_resting (h : Rep b a) (hw : WF a) (himm : ¬ Immediate o) :
    ∃ out evs b' a' takes, b.add_resting o = some ({ outcome := out, events := evs }, b') ∧
      Step a (.add o) out takes a' ∧ Rep b' a' ∧
      List.Forall₂ (EventOf b.symbol o) evs takes ∧ b'.symbol = b.symbol := by
  obtain ⟨walled, m, takes, a', rem, hrun, hm, hrep, hw', hin, hevs, hsym⟩ := h.try_match hw o
  have hrem : m.incoming.qty_remaining = rem := by rw [hin]
  rw [OrderBook.add_resting, hrun, Option.bind_some]
  simp only [hrem]
  by_cases hzero : rem = 0
  · subst hzero
    exact ⟨.filled, m.events, m.book, a', takes, if_pos rfl, .filled himm hm, hrep, hevs, hsym⟩
  rw [if_neg hzero]
  cases walled with
  | true =>
    refine ⟨.stp_walled, m.events, _, a', takes, if_pos rfl, .stp_walled himm hm hzero, ?_, hevs,
      hsym⟩
    exact hrep.congr (fun t => by cases t <;> rfl) rfl rfl
  | false =>
    obtain ⟨out, b', a'', hrest, hrep', hrests, hsym'⟩ :=
      hrep.rest_order (o := m.incoming) hw' m.events
    refine ⟨out, m.events, b', a'', takes, hrest, ?_, hrep', hevs, hsym'.trans hsym⟩
    -- `rest_order` sees the remainder, which differs from `o` in its quantity only
    rw [hin] at hrests
    cases hrests with
    | level_rejected hnew hfull => exact .level_rejected himm hm hzero hnew hfull
    | slot_rejected hroom hfree => exact .slot_rejected himm hm hzero hroom hfree
    | rested hroom hfree => exact .rested himm hm hzero hroom hfree

theorem Rep.add_immediate (h : Rep b a) (hw : WF a) (himm : Immediate o)
    (hfok : o.type = .FOK → ¬ Short a o) :
    ∃ out evs b' a' takes, b.add_immediate o = some ({ outcome := out, events := evs }, b') ∧
      Step a (.add o) out takes a' ∧ Rep b' a' ∧
      List.Forall₂ (EventOf b.symbol o) evs takes ∧ b'.symbol = b.symbol := by
  obtain ⟨walled, m, takes, a', rem, hrun, hm, hrep, _, _, hevs, hsym⟩ := h.try_match hw o
  refine ⟨.immediate, m.events, m.book, a', takes, ?_, .immediate himm hfok hm, hrep, hevs, hsym⟩
  rw [OrderBook.add_immediate, hrun, Option.map_some]

theorem Rep.add_order (h : Rep b a) (hw : WF a) (o : Order) :
    ∃ out evs b' a' takes, b.add_order o = some ({ outcome := out, events := evs }, b') ∧
      Step a (.add o) out takes a' ∧ Rep b' a' ∧
      List.Forall₂ (EventOf b.symbol o) evs takes ∧ b'.symbol = b.symbol := by
  have h₁ : Rep { b with stat_orders := b.stat_orders + 1 } a :=
    h.congr (fun t => by cases t <;> rfl) rfl rfl
  unfold OrderBook.add_order
  by_cases himm : Immediate o
  · have hcond : o.type = .Market ∨ o.type = .IOC ∨ o.type = .FOK := himm
    simp only
    rw [if_pos hcond]
    by_cases hfok : o.type = .FOK
    · rw [if_pos hfok]
      obtain ⟨available, hav, hshort⟩ := h₁.available_liquidity hw o
      rw [hav, Option.bind_some]
      by_cases hs : Short a o
      · rw [if_pos (hshort.mpr hs)]
        refine ⟨.fok_rejected, [], _, a, [], rfl, .fok_rejected hfok hs, ?_, .nil, rfl⟩
        exact h₁.congr (fun t => by cases t <;> rfl) rfl rfl
      · rw [if_neg fun hc => hs (hshort.mp hc)]
        exact h₁.add_immediate hw himm fun _ => hs
    · rw [if_neg hfok]
      exact h₁.add_immediate hw himm fun hc => absurd hc hfok
  · have hcond : ¬ (o.type = .Market ∨ o.type = .IOC ∨ o.type = .FOK) := himm
    simp only
    rw [if_neg hcond]
    exact h₁.add_resting hw himm

theorem forall₂_mem_left {α β : Type} {P : α → β → Prop} {xs : List α} {ys : List β}
    (h : List.Forall₂ P xs ys) : ∀ x ∈ xs, ∃ y ∈ ys, P x y := by
  induction h with
  | nil => simp
  | @cons x y xs ys hxy _ ih =>
    intro z hz
    rcases List.mem_cons.mp hz with rfl | hz
    · exact ⟨y, by simp, hxy⟩
    · obtain ⟨w, hw, hzw⟩ := ih z hz
      exact ⟨w, by simp [hw], hzw⟩

/-- The order whose events a call emits, if it is an `add`. -/
def EventsOf (symbol : SymbolId) : Op → List MatchEvent → List Take → Prop
  | .add o, evs, takes => List.Forall₂ (EventOf symbol o) evs takes
  | _, evs, takes => evs = [] ∧ takes = []

theorem map_report_eq {symbol : SymbolId} {evs : List MatchEvent} {takes : List Take}
    (h : List.Forall₂ (EventOf symbol o) evs takes) :
    evs.map MatchEvent.report = takes.map (Take.report symbol o) := by
  induction h with
  | nil => rfl
  | cons hof _ ih => rw [List.map_cons, List.map_cons, hof.report, ih]

/-- Every report of a call is that of a fill of an added order. -/
theorem EventsOf.report {symbol : SymbolId} {op : Op} {evs : List MatchEvent} {takes : List Take}
    (h : EventsOf symbol op evs takes) {rpt : ExecutionReport}
    (hrpt : rpt ∈ evs.map MatchEvent.report) :
    ∃ o t, op = .add o ∧ t ∈ takes ∧ rpt = t.report symbol o := by
  cases op with
  | add o =>
    rw [map_report_eq h] at hrpt
    obtain ⟨t, ht, rfl⟩ := List.mem_map.mp hrpt
    exact ⟨o, t, rfl, ht, rfl⟩
  | cancel id => simp [h.1] at hrpt
  | modify id new_qty => simp [h.1] at hrpt

/-- A call ends and is one step of the book of levels. -/
theorem Rep.apply (h : Rep b a) (hw : WF a) (op : Op) :
    ∃ r b' a' takes, b.apply op = some (r, b') ∧ Step a op r.outcome takes a' ∧ Rep b' a' ∧
      WF a' ∧ EventsOf b.symbol op r.events takes ∧ b'.symbol = b.symbol := by
  cases op with
  | add o =>
    obtain ⟨out, evs, b', a', takes, hrun, hstep, hrep, hevs, hsym⟩ := h.add_order hw o
    exact ⟨⟨out, evs⟩, b', a', takes, hrun, hstep, hrep, hstep.wf hw, hevs, hsym⟩
  | cancel id =>
    obtain ⟨out, b', a', hrun, hstep, hrep, hsym⟩ := h.cancel_order hw id
    exact ⟨⟨out, []⟩, b', a', [], hrun, hstep, hrep, hstep.wf hw, ⟨rfl, rfl⟩, hsym⟩
  | modify id new_qty =>
    obtain ⟨out, b', a', hrun, hstep, hrep, hsym⟩ := h.modify_order hw id new_qty
    exact ⟨⟨out, []⟩, b', a', [], hrun, hstep, hrep, hstep.wf hw, ⟨rfl, rfl⟩, hsym⟩

/-! ## Section 3: Runs -/

/-- What one call of a run does to the book of levels. -/
structure Call where
  before : LevelBook
  op : Op
  outcome : Outcome
  takes : List Take
  after : LevelBook

/-- A run of the book of levels, call by call. -/
inductive Steps : LevelBook → List Call → LevelBook → Prop where
  | nil (a : LevelBook) : Steps a [] a
  | cons {a a' a'' : LevelBook} {op : Op} {out : Outcome} {takes : List Take}
      {calls : List Call} (hstep : Step a op out takes a') (hrest : Steps a' calls a'') :
      Steps a (⟨a, op, out, takes, a'⟩ :: calls) a''

/-- The response to a call of a run. -/
structure ResponseOf (symbol : SymbolId) (r : Response) (c : Call) : Prop where
  outcome : r.outcome = c.outcome
  events : EventsOf symbol c.op r.events c.takes

theorem Steps.wf {calls : List Call} (h : Steps a calls a') (hw : WF a) : WF a' := by
  induction h with
  | nil a => exact hw
  | cons hstep _ ih => exact ih (hstep.wf hw)

theorem run_cons {b₁ b' : OrderBook} {op : Op} {ops : List Op} {r : Response} {rs : List Response}
    (happly : b.apply op = some (r, b₁)) (hrun : b₁.run ops = some (rs, b')) :
    b.run (op :: ops) = some (r :: rs, b') := by
  simp only [OrderBook.run, happly, Option.bind_some, hrun, Option.map_some]

theorem run_snoc {b' b'' : OrderBook} {op : Op} {r : Response} :
    ∀ {b : OrderBook} {ops : List Op} {rs : List Response}, b.run ops = some (rs, b') →
      b'.apply op = some (r, b'') → b.run (ops ++ [op]) = some (rs ++ [r], b'') := by
  intro b ops
  induction ops generalizing b with
  | nil =>
    intro rs hrun happly
    obtain ⟨rfl, rfl⟩ : [] = rs ∧ b = b' := by simpa [OrderBook.run] using hrun
    exact run_cons happly rfl
  | cons op' ops ih =>
    intro rs hrun happly
    unfold OrderBook.run at hrun
    obtain ⟨⟨r', b₁⟩, hop, hrest⟩ := Option.bind_eq_some_iff.mp hrun
    obtain ⟨⟨rs', b₂⟩, hrun', heq⟩ := Option.map_eq_some_iff.mp hrest
    obtain ⟨rfl, rfl⟩ : r' :: rs' = rs ∧ b₂ = b' := by simpa using heq
    exact run_cons hop (ih hrun' happly)

/-- A sequence of calls ends and is a run of the book of levels. -/
theorem Rep.run (ops : List Op) :
    ∀ {b : OrderBook} {a : LevelBook}, Rep b a → WF a →
      ∃ rs b' calls a', b.run ops = some (rs, b') ∧ Steps a calls a' ∧
        calls.map Call.op = ops ∧ List.Forall₂ (ResponseOf b.symbol) rs calls ∧
        Rep b' a' ∧ WF a' ∧ b'.symbol = b.symbol := by
  induction ops with
  | nil =>
    intro b a h hw
    exact ⟨[], b, [], a, rfl, .nil a, rfl, .nil, h, hw, rfl⟩
  | cons op ops ih =>
    intro b a h hw
    obtain ⟨r, b₁, a₁, takes, happly, hstep, hrep₁, hw₁, hevs, hsym₁⟩ := h.apply hw op
    obtain ⟨rs, b', calls, a', hrun, hsteps, hops, hall, hrep, hw', hsym⟩ := ih hrep₁ hw₁
    refine ⟨r :: rs, b', ⟨a, op, r.outcome, takes, a₁⟩ :: calls, a', run_cons happly hrun,
      .cons hstep hsteps, ?_, ?_, hrep, hw', hsym.trans hsym₁⟩
    · rw [List.map_cons, hops]
    · rw [hsym₁] at hall
      exact .cons ⟨rfl, hevs⟩ hall

/-! ## Section 4: The constructor -/

theorem chain_range' {nexts : Nat → Nat} {null : Nat} (n k : Nat)
    (hlinks : ∀ i, k ≤ i → i + 1 < k + n → nexts i = i + 1)
    (hlast : 0 < n → nexts (k + n - 1) = null) : Chain nexts (List.range' k n) null := by
  induction n generalizing k with
  | zero => exact chain_nil _
  | succ n ih =>
    rw [List.range'_succ, chain_cons]
    refine ⟨?_, ih (k + 1) ?_ ?_⟩
    · cases n with
      | zero =>
        have := hlast (by omega)
        simpa using this
      | succ n =>
        rw [List.range'_succ, List.headD_cons]
        exact hlinks k (Nat.le_refl k) (by omega)
    · exact fun i hi hlt => hlinks i (by omega) (by omega)
    · intro hn
      have := hlast (by omega)
      rwa [show k + (n + 1) - 1 = k + 1 + n - 1 by omega] at this

/-- The constructor's book is empty. -/
theorem rep_fresh (mem : OrderBook) (symbol : SymbolId) :
    Rep (fresh mem symbol) LevelBook.empty where
  sides := fun t => by cases t <;> rfl
  queues := fun _ l hl => absurd hl List.not_mem_nil
  free_head := by
    have hk : kMaxOrders = 65535 + 1 := rfl
    rw [free_empty, hk, List.range_eq_range', List.range'_succ]
    rfl
  free_chain := by
    have hk : kMaxOrders = 65536 := rfl
    rw [free_empty, List.range_eq_range']
    apply chain_range'
    · intro i _ hi
      have hlt : i < kMaxOrders - 1 := by omega
      simp [fresh, SlotPool.init, hlt]
    · intro _
      simp [fresh, SlotPool.init]
  used := by
    rw [free_empty, List.length_range]
    show 0 + kMaxOrders = kMaxOrders
    omega
  index := OrderIndex.represents_init

/-- Every run from the constructor ends and follows a run of the book of
    levels. -/
theorem run_refines (mem : OrderBook) (symbol : SymbolId) (ops : List Op) :
    ∃ rs b calls a, (fresh mem symbol).run ops = some (rs, b) ∧
      Steps LevelBook.empty calls a ∧ calls.map Call.op = ops ∧
      List.Forall₂ (ResponseOf symbol) rs calls ∧ Rep b a ∧ WF a := by
  obtain ⟨rs, b, calls, a, hrun, hsteps, hops, hall, hrep, hw, _⟩ :=
    Rep.run ops (rep_fresh mem symbol) wf_empty
  exact ⟨rs, b, calls, a, hrun, hsteps, hops, hall, hrep, hw⟩

end OptionsEngine
