import OptionsEngine.LevelBook.Liquidity
import OptionsEngine.MatchingEngine.Isolation

/-! # The engine and the consumer of its reports

    The engine thread works on one message after the other and passes the
    reports of a message to `on_execution` one by one; meanwhile the execution
    layer polls.  A session is any interleaving of the two.

    * `run_message`: without a poll in between, the engine thread does what
      `process_message` says.
    * `Honest.run`: every report of a session could be that of a single trade
      (`Plausible`). -/

namespace OptionsEngine

open Ring OrderBook MatchingEngine

/-! ## Section 1: Model -/

structure Session where
  engine : MatchingEngine
  /-- The reports of the current message that are still to be passed on. -/
  pending : List ExecutionReport
  /-- What the consumer has polled. -/
  received : List ExecutionReport
  /-- How often `try_push` failed in `on_execution`. -/
  dropped : Nat

namespace Session

inductive Event where
  /-- The engine thread takes up a message. -/
  | message (msg : MarketDataMsg)
  /-- The engine thread calls `on_execution` with the next report. -/
  | report
  /-- The consumer calls `poll_report`. -/
  | poll

/-- Before the first message. -/
def start (e : MatchingEngine) : Session := ⟨e, [], [], 0⟩

/-- The callbacks of a message come with the `report` events, so its end finds
    the outbound queue and the statistics as they were. -/
def take_up (s : Session) (p : Processed) : Session :=
  { s with
    engine := { p.engine with
      outbound := s.engine.outbound
      stat_matches := s.engine.stat_matches }
    pending := p.reports }

/-- The next report goes to `on_execution`. -/
def pass_on (s : Session) (rpt : ExecutionReport) (rest : List ExecutionReport) : Session :=
  { s with
    engine := s.engine.on_execution rpt
    pending := rest
    dropped := if (s.engine.outbound.try_push kQueueDepth rpt).2 then s.dropped else s.dropped + 1 }

def poll (s : Session) : Session :=
  match s.engine.poll_report with
  | (e, none) => { s with engine := e }
  | (e, some rpt) => { s with engine := e, received := s.received ++ [rpt] }

/-- A message is taken up only when the one before is done with. -/
def step (s : Session) : Event → Option Session
  | .message msg =>
    if s.pending = [] then (s.engine.process_message msg).map s.take_up else some s
  | .report =>
    match s.pending with
    | [] => some s
    | rpt :: rest => some (s.pass_on rpt rest)
  | .poll => some s.poll

def run (s : Session) : List Event → Option Session
  | [] => some s
  | event :: events => (s.step event).bind fun s' => run s' events

/-- The consumer polls until the queue is empty: it has one place less than its
    capacity. -/
def drain (s : Session) : Session := poll^[kQueueDepth.size] s

variable {s s' s'' : Session}

theorem run_cons {event : Event} {events : List Event} (hstep : s.step event = some s')
    (hrun : s'.run events = some s'') : s.run (event :: events) = some s'' := by
  rw [run, hstep, Option.bind_some, hrun]

theorem run_append {before after : List Event} (hrun : s.run before = some s')
    (hrun' : s'.run after = some s'') : s.run (before ++ after) = some s'' := by
  induction before generalizing s with
  | nil =>
    obtain rfl := Option.some.inj hrun
    exact hrun'
  | cons event before ih =>
    rw [run, Option.bind_eq_some_iff] at hrun
    obtain ⟨s₁, hstep, hrest⟩ := hrun
    exact run_cons hstep (ih hrest)

/-! ## Section 2: The engine thread alone -/

theorem run_reports (reports : List ExecutionReport) :
    ∀ s : Session, s.pending = reports →
      ∃ dropped, s.run (List.replicate reports.length .report) =
        some ⟨reports.foldl on_execution s.engine, [], s.received, dropped⟩ := by
  induction reports with
  | nil =>
    rintro ⟨e, pending, received, dropped⟩ rfl
    exact ⟨dropped, rfl⟩
  | cons rpt rest ih =>
    rintro s hpending
    have hstep : s.step .report = some (s.pass_on rpt rest) := by rw [step, hpending]
    obtain ⟨dropped, hrun⟩ := ih (s.pass_on rpt rest) rfl
    exact ⟨dropped, run_cons hstep hrun⟩

/-- The reports of a message, passed on without a poll in between, leave the
    engine as `process_message` does. -/
theorem run_message {msg : MarketDataMsg} {p : Processed} (hpending : s.pending = [])
    (hp : s.engine.process_message msg = some p) :
    ∃ dropped, s.run (.message msg :: List.replicate p.reports.length .report) =
      some ⟨p.engine, [], s.received, dropped⟩ := by
  have hstep : s.step (.message msg) = some (s.take_up p) := by
    rw [step, if_pos hpending, hp, Option.map_some]
  obtain ⟨dropped, hrun⟩ := run_reports p.reports (s.take_up p) rfl
  refine ⟨dropped, run_cons hstep ?_⟩
  rw [hrun]
  -- taking up undoes the callbacks of `p`, which are then made again
  have hengine : p.reports.foldl on_execution (s.take_up p).engine = p.engine := by
    rcases process_message_cases hp with ⟨hreports, heq⟩ | ⟨book, op, r, _, _, _, rfl⟩
    · simp only [hreports, List.foldl_nil, take_up, heq]
    · unfold take_up finish
      congr 1
      obtain ⟨outbound, stat_matches, heq⟩ := foldl_on_execution_eq r.1.reports
        { s.engine with
          next_order_id := next_of s.engine.next_order_id msg
          books := Function.update s.engine.books msg.symbol (some r.2) }
      rw [heq]
  rw [hengine]
  rfl

/-! ## Section 3: Polling -/

theorem poll_nil {n : Nat} (h : s.engine.outbound.Holds kQueueDepth n []) : s.poll = s := by
  simp only [poll, poll_report, h.try_pop_nil]

theorem poll_cons {n : Nat} {rpt : ExecutionReport} {items : List ExecutionReport}
    (h : s.engine.outbound.Holds kQueueDepth n (rpt :: items)) :
    ∃ q, s.poll = { s with
        engine := { s.engine with outbound := q }
        received := s.received ++ [rpt] } ∧ q.Holds kQueueDepth (n + 1) items := by
  obtain ⟨q, hpop, hq⟩ := h.try_pop_cons
  refine ⟨q, ?_, hq⟩
  simp only [poll, poll_report, hpop]

theorem iterate_poll (k : Nat) :
    ∀ {s : Session} {n : Nat} {items : List ExecutionReport}, items.length ≤ k →
      s.engine.outbound.Holds kQueueDepth n items →
      (poll^[k] s).received = s.received ++ items := by
  induction k with
  | zero =>
    intro s n items hle h
    obtain rfl : items = [] := List.eq_nil_of_length_eq_zero (by omega)
    exact (List.append_nil _).symm
  | succ k ih =>
    intro s n items hle h
    rw [Function.iterate_succ_apply]
    cases items with
    | nil =>
      rw [poll_nil h]
      exact ih (Nat.zero_le k) h
    | cons rpt items =>
      obtain ⟨q, hpoll, hq⟩ := poll_cons h
      rw [hpoll, ih (Nat.le_of_succ_le_succ hle) hq, List.append_assoc]
      rfl

/-- Draining receives what is in the queue. -/
theorem drain_received {n : Nat} {items : List ExecutionReport}
    (h : s.engine.outbound.Holds kQueueDepth n items) :
    s.drain.received = s.received ++ items :=
  iterate_poll _ (Nat.le_of_lt h.length_lt) h

/-! ## Section 4: What a report can be -/

/-- A report that the trade of two orders could give, in a known symbol. -/
structure Plausible (known : SymbolId → Prop) (rpt : ExecutionReport) : Prop where
  symbol : known rpt.symbol
  positive : rpt.exec_qty ≠ 0
  fits : rpt.exec_qty.toNat + rpt.leaves_qty.toNat < 2 ^ 32
  exec_type : rpt.exec_type = if rpt.leaves_qty = 0 then .Fill else .PartialFill

variable {known : SymbolId → Prop}

theorem plausible_of_take {o : Order} {a a' : LevelBook} {out : Outcome} {takes : List Take}
    {symbol : SymbolId} (hsymbol : known symbol) (hstep : Step a (.add o) out takes a') (hw : WF a)
    {t : Take} (ht : t ∈ takes) : Plausible known (t.report symbol o) := by
  rcases hstep.matching with rfl | ⟨_, _, _, hm, _⟩
  · cases ht
  · obtain ⟨hne, hsum⟩ := hm.take_fits hw t ht
    exact ⟨hsymbol, hne, Nat.lt_of_le_of_lt hsum o.qty_remaining.toNat_lt, rfl⟩

theorem plausible_of_message {e : MatchingEngine} {msg : MarketDataMsg} {p : Processed}
    (h : e.InOrder) (hknows : ∀ id, e.Knows id → known id)
    (hp : e.process_message msg = some p) : ∀ rpt ∈ p.reports, Plausible known rpt := by
  obtain ⟨hknown, _⟩ := h.sound.processed hp
  rcases process_message_cases hp with ⟨hreports, _⟩ | ⟨book, op, r, hbook, _, happly, rfl⟩
  · simp [hreports]
  · intro rpt hrpt
    obtain ⟨_, _, takes, hw, hstep, hevs, _⟩ := h.call hbook happly
    obtain ⟨o, t, rfl, ht, rfl⟩ := hevs.report hrpt
    exact plausible_of_take (hknows _ (hknown.mp rfl)) hstep hw ht

/-- Every report on its way is plausible, and the engine is in order. -/
structure Honest (known : SymbolId → Prop) (s : Session) : Prop where
  engine : s.engine.InOrder
  knows : ∀ id, s.engine.Knows id ↔ known id
  queue : ∃ n items, s.engine.outbound.Holds kQueueDepth n items ∧
    ∀ rpt ∈ items, Plausible known rpt
  pending : ∀ rpt ∈ s.pending, Plausible known rpt
  received : ∀ rpt ∈ s.received, Plausible known rpt

theorem outbound_register_symbols (mem : MatchingEngine) (books : SymbolId → OrderBook)
    (ids : List SymbolId) :
    (register_symbols mem books ids).outbound = .fresh mem.outbound.buffer := by
  refine List.foldlRecOn
    (motive := fun e : MatchingEngine => e.outbound = .fresh mem.outbound.buffer) ids _ rfl ?_
  intro e he id _
  rw [← he]
  unfold MatchingEngine.register_symbol
  split
  · rfl
  · split <;> rfl

theorem holds_start (mem : MatchingEngine) (books : SymbolId → OrderBook) (ids : List SymbolId) :
    (start (register_symbols mem books ids)).engine.outbound.Holds kQueueDepth 0 [] := by
  rw [start, outbound_register_symbols]
  exact SPSCQueue.holds_fresh _

theorem honest_start (mem : MatchingEngine) (books : SymbolId → OrderBook) (ids : List SymbolId) :
    Honest (register_symbols mem books ids).Knows (start (register_symbols mem books ids)) where
  engine := inOrder_register_symbols mem books ids
  knows := fun _ => .rfl
  queue := ⟨0, [], holds_start mem books ids, by simp⟩
  pending := by simp [start]
  received := by simp [start]

theorem Honest.take_up {msg : MarketDataMsg} {p : Processed} (h : Honest known s)
    (hp : s.engine.process_message msg = some p) : Honest known (s.take_up p) where
  engine := by
    have hinOrder := (h.engine.process_message hp).1
    exact ⟨hinOrder.sound, hinOrder.labelled⟩
  knows := by
    obtain ⟨_, _, hknows⟩ := h.engine.sound.processed hp
    exact fun id => (hknows id).trans (h.knows id)
  queue := h.queue
  pending := plausible_of_message h.engine (fun id => (h.knows id).mp) hp
  received := h.received

theorem Honest.pass_on {rpt : ExecutionReport} {rest : List ExecutionReport} (h : Honest known s)
    (hpending : s.pending = rpt :: rest) : Honest known (s.pass_on rpt rest) := by
  have hplausible := h.pending
  rw [hpending] at hplausible
  refine ⟨⟨h.engine.sound, h.engine.labelled⟩, h.knows, ?_, ?_, h.received⟩
  · obtain ⟨n, items, hholds, hitems⟩ := h.queue
    have hpush := hholds.try_push rpt
    unfold Session.pass_on on_execution
    split at hpush
    · rw [hpush]
      exact ⟨n, items, hholds, hitems⟩
    · obtain ⟨q, hq, hholds'⟩ := hpush
      rw [hq]
      refine ⟨n, items ++ [rpt], hholds', ?_⟩
      intro r hr
      rcases List.mem_append.mp hr with hr | hr
      · exact hitems r hr
      · rw [List.mem_singleton.mp hr]
        exact hplausible rpt (by simp)
  · exact fun r hr => hplausible r (by simp [show r ∈ rest from hr])

theorem Honest.poll (h : Honest known s) : Honest known s.poll := by
  obtain ⟨n, items, hholds, hitems⟩ := h.queue
  cases items with
  | nil =>
    rw [poll_nil hholds]
    exact h
  | cons rpt items =>
    obtain ⟨q, hpoll, hq⟩ := poll_cons hholds
    rw [hpoll]
    refine ⟨⟨h.engine.sound, h.engine.labelled⟩, h.knows, ?_, h.pending, ?_⟩
    · exact ⟨n + 1, items, hq, fun r hr => hitems r (by simp [hr])⟩
    · intro r hr
      rcases List.mem_append.mp hr with hr | hr
      · exact h.received r hr
      · rw [List.mem_singleton.mp hr]
        exact hitems rpt (by simp)

theorem Honest.step (h : Honest known s) (event : Event) :
    ∃ s', s.step event = some s' ∧ Honest known s' := by
  cases event with
  | message msg =>
    rw [Session.step]
    split
    · obtain ⟨p, hp, _⟩ := h.engine.sound.process_message msg
      rw [hp, Option.map_some]
      exact ⟨_, rfl, h.take_up hp⟩
    · exact ⟨s, rfl, h⟩
  | report =>
    rw [Session.step]
    split
    · exact ⟨s, rfl, h⟩
    · next rpt rest hpending => exact ⟨_, rfl, h.pass_on hpending⟩
  | poll => exact ⟨s.poll, rfl, h.poll⟩

theorem Honest.run (events : List Event) :
    ∀ {s : Session}, Honest known s → ∃ s', s.run events = some s' ∧ Honest known s' := by
  induction events with
  | nil => exact fun h => ⟨_, rfl, h⟩
  | cons event events ih =>
    intro s h
    obtain ⟨s₁, hstep, h₁⟩ := h.step event
    obtain ⟨s', hrun, h'⟩ := ih h₁
    exact ⟨s', run_cons hstep hrun, h'⟩

/-- What a drained consumer has received is plausible. -/
theorem Honest.drain (h : Honest known s) : ∀ rpt ∈ s.drain.received, Plausible known rpt := by
  obtain ⟨n, items, hholds, hitems⟩ := h.queue
  rw [drain_received hholds]
  intro rpt hrpt
  rcases List.mem_append.mp hrpt with hrpt | hrpt
  · exact h.received rpt hrpt
  · exact hitems rpt hrpt

end Session

end OptionsEngine
