import OptionsEngine.OrderBook.Refinement
import OptionsEngine.SpscQueue

/-! # The matching engine (`core/matching_engine.hpp`, `core/matching_engine.cpp`)

    One book per registered symbol, an inbound queue of messages and an
    outbound queue of execution reports.  `process_message` and what it calls
    are the engine thread's work on one message; its starting, pinning and
    joining have no part in the model.

    `none` is a call that does not end, as in the model of the book;
    `Sound.process_message` shows that there is none. -/

namespace OptionsEngine

open Ring OrderBook

structure MatchingEngine where
  inbound : SPSCQueue MarketDataMsg
  outbound : SPSCQueue ExecutionReport
  books : SymbolId → Option OrderBook
  stat_messages : UInt64
  stat_matches : UInt64
  /-- The next synthetic order id. -/
  next_order_id : UInt64

/-- What becomes of one message. -/
structure Processed where
  /-- False for a message that is dropped because no book has its symbol. -/
  known : Bool
  /-- The fills, each reported to `on_execution` in the middle of `try_match`. -/
  events : List MatchEvent
  engine : MatchingEngine

/-- The reports passed to `on_execution`. -/
def Processed.reports (p : Processed) : List ExecutionReport := p.events.map MatchEvent.report

@[simp] theorem Processed.reports_mk (known : Bool) (events : List MatchEvent)
    (engine : MatchingEngine) :
    (Processed.mk known events engine).reports = events.map MatchEvent.report := rfl

namespace MatchingEngine

def kQueueDepth : Capacity := ⟨65536, one_lt_depth, pow_two_depth, depth_fits⟩

def kMaxSymbols : Nat := 256

/-- The constructor, over the memory it finds. -/
def fresh (mem : MatchingEngine) : MatchingEngine where
  inbound := .fresh mem.inbound.buffer
  outbound := .fresh mem.outbound.buffer
  books := fun _ => none
  stat_messages := 0
  stat_matches := 0
  next_order_id := 1

/-- The new book is made over the memory `mem`. -/
def register_symbol (e : MatchingEngine) (mem : OrderBook) (id : SymbolId) :
    MatchingEngine × Bool :=
  if id.toNat ≥ kMaxSymbols then (e, false)
  else if (e.books id).isSome then (e, false)
  else ({ e with books := Function.update e.books id (some (OrderBook.fresh mem id)) }, true)

/-- A full outbound queue drops the report. -/
def on_execution (e : MatchingEngine) (rpt : ExecutionReport) : MatchingEngine :=
  { e with
    stat_matches := e.stat_matches + 1
    outbound := (e.outbound.try_push kQueueDepth rpt).1 }

/-- A call on the book of `symbol` has ended: the book is changed in place and
    its reports have gone through the callback, which touches no book. -/
def finish (e : MatchingEngine) (symbol : SymbolId) (r : Response × OrderBook) : Processed where
  known := true
  events := r.1.events
  engine := r.1.reports.foldl on_execution
    { e with books := Function.update e.books symbol (some r.2) }

/-- The order a `NewOrder` message stands for; its account is not tracked. -/
def order_of (msg : MarketDataMsg) (id : OrderId) : Order where
  id := id
  price := msg.price
  qty := msg.qty
  qty_remaining := msg.qty
  symbol := msg.symbol
  side := msg.side
  type := msg.order_type
  account_id := 0

/-- The switch over the message type, with the book of the message's symbol. -/
def dispatch (e : MatchingEngine) (book : OrderBook) (msg : MarketDataMsg) : Option Processed :=
  if msg.msg_type = .NewOrder then
    -- the id 0 stands for an order without one
    if msg.order_id ≠ 0 then
      (book.add_order (order_of msg msg.order_id)).map (e.finish msg.symbol)
    else
      (book.add_order (order_of msg e.next_order_id)).map
        ({ e with next_order_id := e.next_order_id + 1 }.finish msg.symbol)
  else if msg.msg_type = .CancelOrder then
    (book.cancel_order msg.order_id).map (e.finish msg.symbol)
  else if msg.msg_type = .ModifyOrder then
    (book.modify_order msg.order_id msg.qty).map (e.finish msg.symbol)
  -- heartbeats and other types do nothing
  else some ⟨true, [], e⟩

def process_message (e : MatchingEngine) (msg : MarketDataMsg) : Option Processed :=
  if msg.symbol.toNat ≥ kMaxSymbols then some ⟨false, [], e⟩
  else
    match e.books msg.symbol with
    | none => some ⟨false, [], e⟩
    | some book => e.dispatch book msg

def submit (e : MatchingEngine) (msg : MarketDataMsg) : MatchingEngine × Bool :=
  let (inbound, ok) := e.inbound.try_push kQueueDepth msg
  ({ e with inbound := inbound }, ok)

def poll_report (e : MatchingEngine) : MatchingEngine × Option ExecutionReport :=
  let (outbound, rpt) := e.outbound.try_pop kQueueDepth
  ({ e with outbound := outbound }, rpt)

/-! ## What processing a message keeps -/

/-- A message with this symbol finds a book. -/
def Knows (e : MatchingEngine) (id : SymbolId) : Prop :=
  id.toNat < kMaxSymbols ∧ (e.books id).isSome = true

/-- Every book stands for a well-formed book of levels. -/
def Sound (e : MatchingEngine) : Prop :=
  ∀ id book, e.books id = some book → ∃ a, Rep book a ∧ WF a

variable {e : MatchingEngine}

theorem sound_fresh (mem : MatchingEngine) : (fresh mem).Sound := by
  intro id book h
  cases h

theorem Sound.update {symbol : SymbolId} {book : OrderBook} {a : LevelBook} (h : e.Sound)
    (hrep : Rep book a) (hw : WF a) :
    { e with books := Function.update e.books symbol (some book) }.Sound := by
  intro id b hb
  by_cases hid : id = symbol
  · subst hid
    obtain rfl : book = b := by simpa using hb
    exact ⟨a, hrep, hw⟩
  · simp only [Function.update_of_ne hid] at hb
    exact h id b hb

theorem Sound.register_symbol (h : e.Sound) (mem : OrderBook) (id : SymbolId) :
    (e.register_symbol mem id).1.Sound := by
  unfold MatchingEngine.register_symbol
  split
  · exact h
  · split
    · exact h
    · exact h.update (rep_fresh mem id) wf_empty

/-- A registration that succeeds adds its symbol and no other. -/
theorem register_symbol_knows {mem : OrderBook} {id : SymbolId}
    (h : (e.register_symbol mem id).2 = true) (id' : SymbolId) :
    (e.register_symbol mem id).1.Knows id' ↔ e.Knows id' ∨ id' = id := by
  unfold MatchingEngine.register_symbol at h ⊢
  split at h
  · cases h
  · next hlt =>
    split at h
    · cases h
    · next hnew =>
      rw [if_neg hlt, if_neg hnew]
      by_cases hid : id' = id
      · subst hid
        simp [Knows, Nat.not_le.mp hlt]
      · simp [Knows, hid]

/-- The callback changes the outbound queue and a statistic. -/
theorem foldl_on_execution_eq (reports : List ExecutionReport) :
    ∀ e : MatchingEngine, ∃ outbound stat_matches, reports.foldl on_execution e =
      { e with outbound := outbound, stat_matches := stat_matches } := by
  induction reports with
  | nil => exact fun e => ⟨e.outbound, e.stat_matches, rfl⟩
  | cons rpt reports ih =>
    intro e
    obtain ⟨outbound, stat_matches, heq⟩ := ih (e.on_execution rpt)
    exact ⟨outbound, stat_matches, heq⟩

theorem finish_books (e : MatchingEngine) (symbol : SymbolId) (r : Response × OrderBook) :
    (e.finish symbol r).engine.books = Function.update e.books symbol (some r.2) := by
  obtain ⟨outbound, stat_matches, heq⟩ := foldl_on_execution_eq r.1.reports
    { e with books := Function.update e.books symbol (some r.2) }
  rw [finish, heq]

theorem finish_next (e : MatchingEngine) (symbol : SymbolId) (r : Response × OrderBook) :
    (e.finish symbol r).engine.next_order_id = e.next_order_id := by
  obtain ⟨outbound, stat_matches, heq⟩ := foldl_on_execution_eq r.1.reports
    { e with books := Function.update e.books symbol (some r.2) }
  rw [finish, heq]

/-- The call a message makes on the book of its symbol, if `next` is the next
    synthetic id. -/
def op_of (next : UInt64) (msg : MarketDataMsg) : Option Op :=
  if msg.msg_type = .NewOrder then
    some (.add (order_of msg (if msg.order_id ≠ 0 then msg.order_id else next)))
  else if msg.msg_type = .CancelOrder then some (.cancel msg.order_id)
  else if msg.msg_type = .ModifyOrder then some (.modify msg.order_id msg.qty)
  else none

/-- The next synthetic id after a message. -/
def next_of (next : UInt64) (msg : MarketDataMsg) : UInt64 :=
  if msg.msg_type = .NewOrder ∧ msg.order_id = 0 then next + 1 else next

/-- The switch makes one call on the book, or none. -/
theorem dispatch_eq (e : MatchingEngine) (book : OrderBook) (msg : MarketDataMsg) :
    e.dispatch book msg =
      match op_of e.next_order_id msg with
      | none => some ⟨true, [], e⟩
      | some op => (book.apply op).map
          ({ e with next_order_id := next_of e.next_order_id msg }.finish msg.symbol) := by
  unfold MatchingEngine.dispatch op_of
  by_cases hnew : msg.msg_type = .NewOrder
  · by_cases hid : msg.order_id = 0
    · have hnext : next_of e.next_order_id msg = e.next_order_id + 1 := if_pos ⟨hnew, hid⟩
      simp only [if_pos hnew, if_neg (not_not.mpr hid), hnext]
      rfl
    · have hnext : next_of e.next_order_id msg = e.next_order_id := if_neg fun h => hid h.2
      simp only [if_pos hnew, ne_eq, if_pos hid, hnext]
      rfl
  · have hnext : next_of e.next_order_id msg = e.next_order_id := if_neg fun h => hnew h.1
    simp only [if_neg hnew, hnext]
    by_cases hcancel : msg.msg_type = .CancelOrder
    · simp only [if_pos hcancel]
      rfl
    · simp only [if_neg hcancel]
      by_cases hmodify : msg.msg_type = .ModifyOrder
      · simp only [if_pos hmodify]
        rfl
      · simp only [if_neg hmodify]

/-- A call on a book ends, and leaves a book in the same place. -/
theorem Sound.call {book : OrderBook} {symbol : SymbolId} (h : e.Sound)
    (hbook : e.books symbol = some book) (op : Op) (next : UInt64) :
    ∃ p, (book.apply op).map ({ e with next_order_id := next }.finish symbol) = some p ∧
      p.known = true ∧ p.engine.Sound ∧ ∀ id, (p.engine.books id).isSome = (e.books id).isSome := by
  obtain ⟨a, hrep, hw⟩ := h symbol book hbook
  obtain ⟨r, book', a', _, happly, _, hrep', hw', _, _⟩ := hrep.apply hw op
  refine ⟨_, by rw [happly, Option.map_some], rfl, ?_, ?_⟩
  · intro id b hb
    rw [finish_books] at hb
    exact h.update hrep' hw' id b hb
  · intro id
    rw [finish_books]
    by_cases hid : id = symbol
    · subst hid
      simp [hbook]
    · simp [Function.update_of_ne hid]

theorem Sound.dispatch {book : OrderBook} {msg : MarketDataMsg} (h : e.Sound)
    (hbook : e.books msg.symbol = some book) :
    ∃ p, e.dispatch book msg = some p ∧ p.known = true ∧ p.engine.Sound ∧
      ∀ id, (p.engine.books id).isSome = (e.books id).isSome := by
  rw [dispatch_eq]
  split
  · exact ⟨_, rfl, rfl, h, fun _ => rfl⟩
  · next op _ => exact h.call hbook op _

theorem process_message_eq {msg : MarketDataMsg} {book : OrderBook} {op : Op}
    {r : Response × OrderBook} (hlt : msg.symbol.toNat < kMaxSymbols)
    (hbook : e.books msg.symbol = some book) (hop : op_of e.next_order_id msg = some op)
    (happly : book.apply op = some r) :
    e.process_message msg =
      some ({ e with next_order_id := next_of e.next_order_id msg }.finish msg.symbol r) := by
  rw [MatchingEngine.process_message, if_neg (Nat.not_le.mpr hlt), hbook]
  simp only [dispatch_eq, hop, happly, Option.map_some]

/-- A message changes nothing, or makes one call on the book of its symbol. -/
theorem process_message_cases {msg : MarketDataMsg} {p : Processed}
    (h : e.process_message msg = some p) :
    p.reports = [] ∧ p.engine = e ∨
      ∃ book op r, e.books msg.symbol = some book ∧ op_of e.next_order_id msg = some op ∧
        book.apply op = some r ∧
        p = { e with next_order_id := next_of e.next_order_id msg }.finish msg.symbol r := by
  unfold MatchingEngine.process_message at h
  split at h
  · cases h
    exact .inl ⟨rfl, rfl⟩
  · split at h
    · cases h
      exact .inl ⟨rfl, rfl⟩
    · next book hbook =>
      rw [dispatch_eq] at h
      split at h
      · cases h
        exact .inl ⟨rfl, rfl⟩
      · next op hop =>
        obtain ⟨r, happly, rfl⟩ := Option.map_eq_some_iff.mp h
        exact .inr ⟨book, op, r, hbook, hop, happly, rfl⟩

/-- Processing a message ends, drops it exactly if its symbol is unknown, and
    registers or forgets no symbol. -/
theorem Sound.process_message (h : e.Sound) (msg : MarketDataMsg) :
    ∃ p, e.process_message msg = some p ∧ (p.known = true ↔ e.Knows msg.symbol) ∧
      p.engine.Sound ∧ ∀ id, p.engine.Knows id ↔ e.Knows id := by
  unfold MatchingEngine.process_message
  split
  · next hge =>
    refine ⟨_, rfl, ?_, h, fun _ => .rfl⟩
    simp [Knows, Nat.not_lt.mpr hge]
  · next hlt =>
    split
    · next hbook =>
      refine ⟨_, rfl, ?_, h, fun _ => .rfl⟩
      simp [Knows, hbook]
    · next book hbook =>
      obtain ⟨p, hp, hknown, hsound, hsame⟩ := h.dispatch hbook
      have hknows : e.Knows msg.symbol := ⟨Nat.not_le.mp hlt, by rw [hbook]; rfl⟩
      refine ⟨p, hp, by simp [hknown, hknows], hsound, fun id => ?_⟩
      rw [Knows, Knows, hsame id]

/-- The same, of a message whose processing is given. -/
theorem Sound.processed {msg : MarketDataMsg} {p : Processed} (h : e.Sound)
    (hp : e.process_message msg = some p) :
    (p.known = true ↔ e.Knows msg.symbol) ∧ p.engine.Sound ∧
      ∀ id, p.engine.Knows id ↔ e.Knows id := by
  obtain ⟨p', hp', hspec⟩ := h.process_message msg
  obtain rfl : p = p' := Option.some.inj (hp.symm.trans hp')
  exact hspec

end MatchingEngine

end OptionsEngine
