import OptionsEngine.Framework.Keyed
import OptionsEngine.Framework.Loop
import OptionsEngine.MatchingEngine
import OptionsEngine.OrderBook.Observe

/-! # Symbols do not disturb each other

    The books of a matching engine share its queues, its statistics and the
    counter of synthetic ids.  Only the counter could carry something from one
    book to another, and messages whose new orders all have an id of their own
    leave it alone.

    `symbols_isolated`: what a run of such messages shows of a symbol, its
    reports and its book, is the run of that symbol's messages alone. -/

namespace OptionsEngine

open OrderBook

namespace MatchingEngine

variable {e e' : MatchingEngine} {msg : MarketDataMsg}

/-! ## Section 1: Statement -/

/-- The symbols are registered one after the other, in a new engine; the books
    are made over the memory `books`. -/
def register_symbols (mem : MatchingEngine) (books : SymbolId → OrderBook) (ids : List SymbolId) :
    MatchingEngine :=
  ids.foldl (fun e id => (e.register_symbol (books id) id).1) (fresh mem)

/-- The reports of one message, as `on_execution` receives them. -/
def process (e : MatchingEngine) (msg : MarketDataMsg) :
    Option (List ExecutionReport × MatchingEngine) :=
  (e.process_message msg).map fun p => (p.reports, p.engine)

/-- Messages one after the other. -/
def process_all (e : MatchingEngine) (msgs : List MarketDataMsg) :
    Option (List ExecutionReport × MatchingEngine) :=
  Keyed.run process e msgs

/-- A new order comes with an id. -/
def WithId (msg : MarketDataMsg) : Prop := msg.msg_type = .NewOrder → msg.order_id ≠ 0

instance (msg : MarketDataMsg) : Decidable (WithId msg) := inferInstanceAs (Decidable (_ → _))

/-! ## Section 2: One message -/

/-- Every book is that of its symbol. -/
def Labelled (e : MatchingEngine) : Prop := ∀ id book, e.books id = some book → book.symbol = id

theorem Labelled.update {symbol : SymbolId} {book : OrderBook} (h : e.Labelled)
    (hbook : book.symbol = symbol)
    (hbooks : e'.books = Function.update e.books symbol (some book)) : e'.Labelled := by
  intro id b hb
  rw [hbooks] at hb
  by_cases hid : id = symbol
  · subst hid
    obtain rfl : book = b := by simpa using hb
    exact hbook
  · rw [Function.update_of_ne hid] at hb
    exact h id b hb

/-- The engines that processing keeps: the books sound, and in their places. -/
structure InOrder (e : MatchingEngine) : Prop where
  sound : e.Sound
  labelled : e.Labelled

theorem InOrder.register_symbol (h : e.InOrder) (mem : OrderBook) (id : SymbolId) :
    (e.register_symbol mem id).1.InOrder := by
  refine ⟨h.sound.register_symbol mem id, ?_⟩
  unfold MatchingEngine.register_symbol
  split
  · exact h.labelled
  · split
    · exact h.labelled
    · have hsymbol : (OrderBook.fresh mem id).symbol = id := rfl
      exact h.labelled.update hsymbol rfl

theorem inOrder_register_symbols (mem : MatchingEngine) (books : SymbolId → OrderBook)
    (ids : List SymbolId) : (register_symbols mem books ids).InOrder := by
  have hfresh : (fresh mem).InOrder := ⟨sound_fresh mem, fun _ _ h => by cases h⟩
  exact Loop.foldl_keeps (fun e id h => h.register_symbol (books id) id) hfresh ids

/-- With an id of its own, an order does not need the counter. -/
theorem op_of_withId (h : WithId msg) (next next' : UInt64) : op_of next msg = op_of next' msg := by
  unfold op_of
  split
  · next hnew => rw [if_pos (h hnew), if_pos (h hnew)]
  · rfl

/-- The reports and the new book depend on the book of the symbol only. -/
theorem process_message_local (hid : WithId msg)
    (hbooks : e.books msg.symbol = e'.books msg.symbol) :
    (e.process_message msg).map (fun p => (p.reports, p.engine.books msg.symbol)) =
      (e'.process_message msg).map (fun p => (p.reports, p.engine.books msg.symbol)) := by
  unfold MatchingEngine.process_message
  split
  · simp [hbooks]
  · rw [hbooks]
    split
    · simp [hbooks]
    · next book hbook =>
      -- the counters may differ; the call is the same
      rw [dispatch_eq, dispatch_eq, op_of_withId hid e.next_order_id e'.next_order_id]
      cases op_of e'.next_order_id msg with
      | none => simp [hbooks]
      | some op =>
        simp only [Option.map_map]
        congr 1
        funext r
        simp only [Function.comp_apply, finish_books, Function.update_self]
        rfl

theorem process_message_frame {p : Processed} {id : SymbolId}
    (h : e.process_message msg = some p) (hid : id ≠ msg.symbol) :
    p.engine.books id = e.books id := by
  rcases process_message_cases h with ⟨_, heq⟩ | ⟨book, op, r, _, _, _, rfl⟩
  · rw [heq]
  · rw [finish_books, Function.update_of_ne hid]

/-- A call on a book is a step of its levels, reported under its symbol. -/
theorem InOrder.call {symbol : SymbolId} {book : OrderBook} {op : Op} {r : Response × OrderBook}
    (h : e.InOrder) (hbook : e.books symbol = some book) (happly : book.apply op = some r) :
    ∃ a a' takes, WF a ∧ Step a op r.1.outcome takes a' ∧ EventsOf symbol op r.1.events takes ∧
      r.2.symbol = symbol := by
  obtain ⟨a, hrep, hw⟩ := h.sound _ _ hbook
  obtain ⟨r', book', a', takes, happly', hstep, _, _, hevs, hsym⟩ := hrep.apply hw op
  obtain rfl : r = (r', book') := Option.some.inj (happly.symm.trans happly')
  rw [h.labelled _ _ hbook] at hevs hsym
  exact ⟨a, a', takes, hw, hstep, hevs, hsym⟩

theorem InOrder.process_message {p : Processed} (h : e.InOrder)
    (hp : e.process_message msg = some p) :
    p.engine.InOrder ∧ ∀ rpt ∈ p.reports, rpt.symbol = msg.symbol := by
  obtain ⟨_, hsound, _⟩ := h.sound.processed hp
  rcases process_message_cases hp with ⟨hreports, heq⟩ | ⟨book, op, r, hbook, _, happly, rfl⟩
  · refine ⟨⟨hsound, ?_⟩, by simp [hreports]⟩
    rw [heq]
    exact h.labelled
  · obtain ⟨_, _, takes, _, _, hevs, hsymbol⟩ := h.call hbook happly
    refine ⟨⟨hsound, h.labelled.update hsymbol (finish_books _ _ _)⟩, ?_⟩
    intro rpt hrpt
    obtain ⟨o, t, _, _, rfl⟩ := hevs.report hrpt
    rfl

/-! ## Section 3: Runs -/

/-- The engine as a machine with one book per symbol. -/
def machine : Keyed.Machine MatchingEngine MarketDataMsg ExecutionReport SymbolId
    (Option OrderBook) where
  step := process
  inKey := MarketDataMsg.symbol
  outKey := ExecutionReport.symbol
  view := books

theorem process_eq_some {reports : List ExecutionReport} (h : e.process msg = some (reports, e')) :
    ∃ p, e.process_message msg = some p ∧ p.reports = reports ∧ p.engine = e' := by
  obtain ⟨p, hp, heq⟩ := Option.map_eq_some_iff.mp h
  exact ⟨p, hp, (Prod.mk.inj heq).1, (Prod.mk.inj heq).2⟩

theorem isolated : Keyed.Isolated machine InOrder WithId where
  ends := by
    intro e msg h _
    obtain ⟨p, hp, _⟩ := h.sound.process_message msg
    refine ⟨p.reports, p.engine, ?_, (h.process_message hp).1⟩
    simp only [machine, process, hp, Option.map_some]
  labels := by
    intro e msg reports e' h hstep
    obtain ⟨p, hp, rfl, rfl⟩ := process_eq_some hstep
    exact (h.process_message hp).2
  frame := by
    intro e msg reports e' id hstep hid
    obtain ⟨p, hp, rfl, rfl⟩ := process_eq_some hstep
    exact process_message_frame hp hid
  agree := by
    intro e f msg reports reports' e' f' hid hbooks hstep hstep'
    obtain ⟨p, hp, rfl, rfl⟩ := process_eq_some hstep
    obtain ⟨q, hq, rfl, rfl⟩ := process_eq_some hstep'
    have hlocal := process_message_local hid hbooks
    rw [hp, hq] at hlocal
    exact Prod.mk.inj (Option.some.inj hlocal)

/-- Swapping neighbours of different symbols changes no symbol's messages. -/
theorem inputs_swap {x y : MarketDataMsg} (hne : x.symbol ≠ y.symbol)
    (before after : List MarketDataMsg) (s : SymbolId) :
    machine.inputs s (before ++ y :: x :: after) = machine.inputs s (before ++ x :: y :: after) := by
  simp only [Keyed.Machine.inputs, machine, List.filter_append]
  congr 1
  by_cases hx : x.symbol = s
  · have hy : y.symbol ≠ s := fun h => hne (hx.trans h.symm)
    simp [hx, hy]
  · simp [hx, List.filter_cons]

/-- Whatever symbols are registered and whatever messages with ids follow, each
    symbol's reports and book are those of its own messages alone; so neighbours
    of different symbols may change places. -/
theorem symbols_isolated (mem : MatchingEngine) (books : SymbolId → OrderBook)
    (ids : List SymbolId) (msgs : List MarketDataMsg) (hids : ∀ msg ∈ msgs, WithId msg) :
    let e := register_symbols mem books ids
    ∃ reports e', e.process_all msgs = some (reports, e') ∧
      (∀ s, ∃ own eₛ, e.process_all (msgs.filter fun msg => msg.symbol = s) = some (own, eₛ) ∧
        reports.filter (fun rpt => rpt.symbol = s) = own ∧ e'.books s = eₛ.books s) ∧
      ∀ before x y after, msgs = before ++ x :: y :: after → x.symbol ≠ y.symbol →
        ∃ reports' e'', e.process_all (before ++ y :: x :: after) = some (reports', e'') ∧
          ∀ s, reports'.filter (fun rpt => rpt.symbol = s) =
            reports.filter (fun rpt => rpt.symbol = s) ∧ e''.books s = e'.books s := by
  intro e
  have he : e.InOrder := inOrder_register_symbols mem books ids
  obtain ⟨reports, e', hrun, _⟩ := isolated.run_ends msgs he hids
  refine ⟨reports, e', hrun, ?_, ?_⟩
  · intro s
    obtain ⟨reports₁, e₁, own, eₛ, hrun₁, hown, hreports, hview⟩ :=
      isolated.run_filter (k := s) msgs he he hids rfl
    obtain ⟨rfl, rfl⟩ := Prod.mk.inj (Option.some.inj (hrun.symm.trans hrun₁))
    exact ⟨own, eₛ, hown, hreports, hview⟩
  · rintro before x y after rfl hne
    have hids' : ∀ msg ∈ before ++ y :: x :: after, WithId msg := by
      intro msg hmsg
      refine hids msg ?_
      simp only [List.mem_append, List.mem_cons] at hmsg ⊢
      tauto
    obtain ⟨reports', e'', reports₁, e₁, hrun', hrun₁, hsame⟩ :=
      isolated.run_reorder he hids' hids (inputs_swap hne before after)
    obtain ⟨rfl, rfl⟩ := Prod.mk.inj (Option.some.inj (hrun.symm.trans hrun₁))
    exact ⟨reports', e'', hrun', hsame⟩

/-- An engine in memory that was zeroed. -/
def zeroed : MatchingEngine :=
  ⟨.fresh fun _ => ⟨0, 0, 0, 0, 0, .Buy, .Heartbeat, .Limit⟩,
    .fresh fun _ => ⟨0, 0, 0, 0, 0, 0, .Buy, .New⟩, fun _ => none, 0, 0, 0⟩

/-- The message for a new order. -/
def new_order (type : OrderType) (id : OrderId) (symbol : SymbolId) (side : Side) (price : Price)
    (qty : Qty) : MarketDataMsg :=
  ⟨0, id, price, qty, symbol, side, .NewOrder, type⟩

/-- A sell on symbol 0 and a buy at its price on symbol 1: the book of symbol 0
    never sees the buy. -/
theorem symbols_isolated_two_books :
    let e := register_symbols zeroed (fun _ => OrderBook.zeroed) [0, 1]
    let sell := new_order .Limit 20 0 .Sell 100 100
    let buy := new_order .Limit 21 1 .Buy 100 100
    ∃ reports e', e.process_all [sell, buy] = some (reports, e') ∧
      ∃ own e₀, e.process_all [sell] = some (own, e₀) ∧
        reports.filter (fun rpt => rpt.symbol = 0) = own ∧ e'.books 0 = e₀.books 0 := by
  intro e sell buy
  obtain ⟨reports, e', hrun, hown, _⟩ :=
    symbols_isolated zeroed (fun _ => OrderBook.zeroed) [0, 1] [sell, buy] (by decide)
  exact ⟨reports, e', hrun, hown 0⟩

end MatchingEngine

end OptionsEngine
