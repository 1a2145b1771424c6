import Mathlib.Data.Prod.Lex
import OptionsEngine.MatchingEngine.Isolation
import OptionsEngine.OrderBook.Callback
import OptionsEngine.SpscQueue.Worker

/-! # The engine between its two queues

    Three threads: a producer that calls `submit`, the engine thread in
    `run_loop`, a consumer that calls `poll_report`; and some thread that calls
    `stop`.  All are cut into their atomic steps and taken in any order.  The
    reports of a message go to `on_execution` one by one, out of the middle of
    `try_match`, each with a `try_push` that the consumer can interleave with.
    What `try_match` does between two of them touches nothing that is shared
    and belongs to the step of the engine thread before.

    * `Loops`: what a step of the engine thread can do.
    * `every_moment`: the books are those of the messages processed so far, one
      after the other, or those in the middle of a fill of the last message;
      what the consumer has is what these report, less what was dropped while
      the outbound queue was full.
    * `books_every_moment`: the books are sound but for the one in the middle
      of a fill, and none is crossed, whatever was submitted.
    * `delivered_after_stop`: at the end, everything submitted has been
      processed and reported. -/

namespace OptionsEngine

open Function Ring Loop MatchingEngine

namespace Pipeline

open Worker (Layout Phase StopPc oneWord)

/-! ## Section 1: Model -/

/-- Where the engine thread stands in `run_loop`. -/
inductive LoopPc where
  /-- About to load `running_`. -/
  | test
  /-- In the `try_pop` of a loop. -/
  | popping (phase : Phase)
  /-- About to process what was popped. -/
  | processing (phase : Phase)
  /-- Where `try_match` calls back with its next report, or, without a further
      one, about to return from `process_message`. -/
  | reporting (phase : Phase)
  /-- In the `try_push` of `on_execution`. -/
  | pushing (phase : Phase)
  /-- About to count the message. -/
  | counting
  | done
  deriving DecidableEq

/-- The polling loop looks at the flag again, the draining loop ends. -/
def emptied : Phase → LoopPc
  | .polling => .test
  | .draining => .done

/-- Only the polling loop counts. -/
def processed_pc : Phase → LoopPc
  | .polling => .counting
  | .draining => .popping .draining

structure Config (α β : Type) (W V : Nat) where
  /-- The inbound queue, with the producer's `submit` and the `try_pop` of the
      engine thread. -/
  inbound : Spsc.Config α W
  /-- The outbound queue, with the `try_push` of `on_execution` and the
      consumer's `poll_report`. -/
  outbound : Spsc.Config β V
  /-- The rest of the engine. -/
  engine : MatchingEngine
  running : Bool
  loop : LoopPc
  /-- The local variable of `run_loop`. -/
  msg : Item α W
  /-- The fills of the message that `on_execution` has not returned from. -/
  pending : List MatchEvent
  /-- The books as they will be when `process_message` returns. -/
  after : SymbolId → Option OrderBook
  stop : StopPc
  /-- What was passed to `process_message`. -/
  processed : List MarketDataMsg
  /-- What `on_execution` has returned from. -/
  emitted : List ExecutionReport

/-- Whose turn it is. -/
inductive Turn (β : Type) (V : Nat) where
  | submit (msg : MarketDataMsg)
  | loop
  | poll (out : Item β V)
  | stop

variable {α β : Type} {W V : Nat}

/-- The books in memory while the fills `pending` of a call on the book of
    `symbol` are still to be reported. -/
def books_within (after : SymbolId → Option OrderBook) (symbol : SymbolId) :
    List MatchEvent → SymbolId → Option OrderBook
  | [] => after
  -- the book is as `match_cb_` finds it, in the middle of the first of them
  | ev :: _ => update after symbol (some ev.reported)

namespace Config

variable (Lin : Layout MarketDataMsg α W) (Lout : Layout ExecutionReport β V)

/-- `start` has been called and the engine thread is at the head of its loop. -/
def start (inmem : Nat → Item α W) (outmem : Nat → Item β V) (msg : Item α W)
    (engine : MatchingEngine) : Config α β W V :=
  ⟨.start inmem, .start outmem, engine, true, .test, msg, [], engine.books, .idle, [], []⟩

/-- One step of `inbound_.try_pop(msg)`, and where to go on if it returns. -/
def pop_step (c : Config α β W V) (phase : Phase) : Config α β W V :=
  let inbound := c.inbound.consumer_step kQueueDepth c.msg
  match Spsc.returned c.inbound inbound with
  | some (.pop none) => { c with inbound := inbound, loop := emptied phase }
  | some (.pop (some msg)) => { c with inbound := inbound, msg := msg, loop := .processing phase }
  | _ => { c with inbound := inbound }

/-- The call on the book is under way, up to where it reports its first fill,
    or to its end if it has none. -/
def take_up (c : Config α β W V) (phase : Phase) (p : Processed) : Config α β W V :=
  { c with
    engine := { p.engine with
      outbound := c.engine.outbound
      stat_matches := c.engine.stat_matches
      books := books_within p.engine.books (Lin.item c.msg).symbol p.events }
    pending := p.events
    after := p.engine.books
    loop := .reporting phase
    processed := c.processed ++ [Lin.item c.msg] }

/-- `process_message(msg)`, up to its first call of `on_execution`. -/
def process_step (c : Config α β W V) (phase : Phase) : Config α β W V :=
  match c.engine.process_message (Lin.item c.msg) with
  | none => c
  | some p => c.take_up Lin phase p

/-- `on_execution` counts the next report, if there is one. -/
def report_step (c : Config α β W V) (phase : Phase) : Config α β W V :=
  match c.pending with
  | [] => { c with loop := processed_pc phase }
  | _ :: _ =>
    { c with
      engine := { c.engine with stat_matches := c.engine.stat_matches + 1 }
      loop := .pushing phase }

/-- `on_execution` has returned to `try_match`, which finishes the fill and goes
    on to the next one, or the call to its end. -/
def resume (c : Config α β W V) (phase : Phase) (outbound : Spsc.Config β V) (ev : MatchEvent)
    (rest : List MatchEvent) : Config α β W V :=
  { c with
    outbound := outbound
    engine := { c.engine with books := books_within c.after (Lin.item c.msg).symbol rest }
    pending := rest
    loop := .reporting phase
    emitted := c.emitted ++ [ev.report] }

/-- One step of `outbound_.try_push(rpt)`; its result is not looked at. -/
def push_step (c : Config α β W V) (phase : Phase) : Config α β W V :=
  match c.pending with
  | [] => { c with loop := .reporting phase }
  | ev :: rest =>
    let outbound := c.outbound.producer_step kQueueDepth (Lout.words ev.report)
    match Spsc.returned c.outbound outbound with
    | none => { c with outbound := outbound }
    | some _ => c.resume Lin phase outbound ev rest

/-- One step of `run_loop`. -/
def loop_step (c : Config α β W V) : Config α β W V :=
  match c.loop with
  | .test => { c with loop := .popping (if c.running then .polling else .draining) }
  | .popping phase => c.pop_step phase
  | .processing phase => c.process_step Lin phase
  | .reporting phase => c.report_step phase
  | .pushing phase => c.push_step Lin Lout phase
  | .counting =>
    { c with
      engine := { c.engine with stat_messages := c.engine.stat_messages + 1 }
      loop := .test }
  | .done => c

/-- One step of `stop`; the join waits for the engine thread. -/
def stop_step (c : Config α β W V) : Config α β W V :=
  match c.stop with
  | .idle => { c with running := false, stop := .joining }
  | .joining => if c.loop = .done then { c with stop := .returned } else c
  | .returned => c

def step (c : Config α β W V) : Turn β V → Config α β W V
  | .submit msg => { c with inbound := c.inbound.producer_step kQueueDepth (Lin.words msg) }
  | .loop => c.loop_step Lin Lout
  | .poll out => { c with outbound := c.outbound.consumer_step kQueueDepth out }
  | .stop => c.stop_step

def run (c : Config α β W V) (schedule : List (Turn β V)) : Config α β W V :=
  schedule.foldl (step Lin Lout) c

/-- The messages whose `submit` has returned true, in that order. -/
def submitted (c : Config α β W V) : List MarketDataMsg := c.inbound.pushed.map Lin.item

/-- The reports that found room in the outbound queue. -/
def queued (c : Config α β W V) : List ExecutionReport := c.outbound.pushed.map Lout.item

/-- The reports that `poll_report` has returned. -/
def received (c : Config α β W V) : List ExecutionReport := c.outbound.popped.map Lout.item

/-- Every place of the outbound queue is taken. -/
def Full (c : Config α β W V) : Prop :=
  (c.queued Lout).length = (c.received Lout).length + (kQueueDepth.size - 1)

/-- The engine as it will be when `process_message` returns. -/
def settled (c : Config α β W V) : MatchingEngine := { c.engine with books := c.after }

/-- What was popped and is not yet processed. -/
def hand (c : Config α β W V) : List MarketDataMsg :=
  match c.loop with
  | .processing _ => [Lin.item c.msg]
  | _ => []

end Config

/-- The engine thread is in `process_message`. -/
def LoopPc.Reports : LoopPc → Prop
  | .reporting _ | .pushing _ => True
  | _ => False

/-- The thread has seen the flag cleared. -/
def LoopPc.Drains : LoopPc → Prop
  | .popping .draining | .processing .draining | .reporting .draining | .pushing .draining
  | .done => True
  | _ => False

def LoopPc.Pushes : LoopPc → Prop
  | .pushing _ => True
  | _ => False

instance (pc : LoopPc) : Decidable pc.Pushes := by
  cases pc <;> unfold LoopPc.Pushes <;> infer_instance

open Config

/-! ## Section 2: The engine alone -/

/-- Two engines that process messages alike. -/
structure Alike (e e' : MatchingEngine) : Prop where
  books : e.books = e'.books
  next : e.next_order_id = e'.next_order_id

theorem Alike.refl (e : MatchingEngine) : Alike e e := ⟨rfl, rfl⟩

theorem Alike.process_message {e e' : MatchingEngine} {msg : MarketDataMsg} {p : Processed}
    (h : Alike e e') (hp : e.process_message msg = some p) :
    ∃ p', e'.process_message msg = some p' ∧ p'.events = p.events ∧ Alike p.engine p'.engine := by
  unfold MatchingEngine.process_message at hp ⊢
  rw [← h.books]
  split at hp
  · next hge =>
    cases hp
    rw [if_pos hge]
    exact ⟨_, rfl, rfl, h⟩
  · next hlt =>
    rw [if_neg hlt]
    cases hbook : e.books msg.symbol with
    | none =>
      rw [hbook] at hp
      cases hp
      exact ⟨_, rfl, rfl, h⟩
    | some book =>
      simp only [hbook, dispatch_eq] at hp ⊢
      rw [← h.next]
      cases hop : op_of e.next_order_id msg with
      | none =>
        rw [hop] at hp
        cases hp
        exact ⟨_, rfl, rfl, h⟩
      | some op =>
        rw [hop] at hp
        obtain ⟨r, happly, rfl⟩ := Option.map_eq_some_iff.mp hp
        refine ⟨{ e' with next_order_id := next_of e.next_order_id msg }.finish msg.symbol r,
          by simp only [happly, Option.map_some], rfl, ?_, ?_⟩
        · rw [finish_books, finish_books, h.books]
        · rw [finish_next, finish_next]

theorem process_all_snoc {e e' : MatchingEngine} {msg : MarketDataMsg} {p : Processed}
    {msgs : List MarketDataMsg} {reports : List ExecutionReport}
    (hrun : e.process_all msgs = some (reports, e')) (hp : e'.process_message msg = some p) :
    e.process_all (msgs ++ [msg]) = some (reports ++ p.reports, p.engine) := by
  rw [process_all, Keyed.run_append _ _ hrun]
  simp [Keyed.run, process, hp]

/-- Every book is the one of its symbol and stands for a well-formed book of
    levels that is not crossed. -/
def Tidy (e : MatchingEngine) : Prop :=
  ∀ id book, e.books id = some book → book.symbol = id ∧ ∃ a, Rep book a ∧ WF a ∧ Uncrossed a

theorem Tidy.sound {e : MatchingEngine} (h : Tidy e) : e.Sound := by
  intro id book hbook
  obtain ⟨_, a, hrep, hw, _⟩ := h id book hbook
  exact ⟨a, hrep, hw⟩

theorem Tidy.process_message {e : MatchingEngine} {msg : MarketDataMsg} {p : Processed}
    (h : Tidy e) (hp : e.process_message msg = some p) : Tidy p.engine := by
  rcases process_message_cases hp with ⟨_, heq⟩ | ⟨book, op, r, hbook, _, happly, rfl⟩
  · rw [heq]
    exact h
  · obtain ⟨hsymbol, a, hrep, hw, hu⟩ := h _ _ hbook
    obtain ⟨r', book', a', takes, happly', hstep, hrep', hw', _, hsame⟩ := hrep.apply hw op
    obtain rfl : r = (r', book') := Option.some.inj (happly.symm.trans happly')
    intro id b hb
    rw [finish_books] at hb
    by_cases hid : id = msg.symbol
    · subst hid
      obtain rfl : book' = b := by simpa using hb
      exact ⟨hsame.trans hsymbol, a', hrep', hw', hstep.uncrossed hw hu⟩
    · rw [Function.update_of_ne hid] at hb
      exact h id b hb

/-- The reports of a message come out of the middle of fills in the book of its
    symbol, and no other book changes. -/
theorem Tidy.events {e : MatchingEngine} {msg : MarketDataMsg} {p : Processed}
    (h : Tidy e) (hp : e.process_message msg = some p) :
    (∀ ev ∈ p.events, Midfill ev ∧ ev.report.symbol = msg.symbol) ∧
      ∀ book, update p.engine.books msg.symbol book = update e.books msg.symbol book := by
  rcases process_message_cases hp with ⟨hreports, heq⟩ | ⟨book, op, r, hbook, _, happly, rfl⟩
  · have hnone : p.events = [] := List.map_eq_nil_iff.mp hreports
    exact ⟨by simp [hnone], fun _ => by rw [heq]⟩
  · obtain ⟨hsymbol, a, hrep, hw, hu⟩ := h _ _ hbook
    obtain ⟨r', book', a', takes, happly', hstep, _, _, hevs, _⟩ := hrep.apply hw op
    obtain rfl : r = (r', book') := Option.some.inj (happly.symm.trans happly')
    rw [hsymbol] at hevs
    exact ⟨hstep.midfill hw hu hevs, fun _ => by rw [finish_books, update_idem]⟩

theorem tidy_register_symbols (mem : MatchingEngine) (books : SymbolId → OrderBook)
    (ids : List SymbolId) : Tidy (register_symbols mem books ids) := by
  have hfresh : Tidy (fresh mem) := fun _ _ h => by cases h
  refine foldl_keeps ?_ hfresh ids
  intro e id h
  unfold MatchingEngine.register_symbol
  split
  · exact h
  · split
    · exact h
    · intro id' b hb
      by_cases hid : id' = id
      · subst hid
        obtain rfl : OrderBook.fresh (books id') id' = b := by simpa using hb
        exact ⟨rfl, _, rep_fresh _ _, wf_empty, uncrossed_empty⟩
      · simp only [Function.update_of_ne hid] at hb
        exact h id' b hb

/-- `msg` is the last of `msgs`, is being processed on what the others have
    left, and will leave the books `after`; the fills `pending` are still to be
    reported. -/
def Underway (first : MatchingEngine) (msgs : List MarketDataMsg) (msg : MarketDataMsg)
    (pending : List MatchEvent) (after : SymbolId → Option OrderBook) : Prop :=
  ∃ earlier reports e p, msgs = earlier ++ [msg] ∧ first.process_all earlier = some (reports, e) ∧
    Tidy e ∧ e.process_message msg = some p ∧ pending <:+ p.events ∧ after = p.engine.books

/-- `msgs` are processed up to a fill of the last of them that is being
    reported: its book is in the middle of that fill, the others are as the
    messages before have left them. -/
def Midway (first : MatchingEngine) (msgs : List MarketDataMsg) (pending : List MatchEvent)
    (books : SymbolId → Option OrderBook) : Prop :=
  ∃ earlier msg reports e p ev rest, msgs = earlier ++ [msg] ∧
    first.process_all earlier = some (reports, e) ∧ e.process_message msg = some p ∧
    pending = ev :: rest ∧ pending <:+ p.events ∧
    books = update e.books msg.symbol (some ev.reported)

theorem Underway.midway {first : MatchingEngine} {msgs : List MarketDataMsg} {msg : MarketDataMsg}
    {ev : MatchEvent} {rest : List MatchEvent} {after : SymbolId → Option OrderBook}
    (h : Underway first msgs msg (ev :: rest) after) :
    Midway first msgs (ev :: rest) (books_within after msg.symbol (ev :: rest)) := by
  obtain ⟨earlier, reports, e, p, hmsgs, hrun, htidy, hp, hsuffix, rfl⟩ := h
  obtain ⟨_, hsame⟩ := htidy.events hp
  exact ⟨earlier, msg, reports, e, p, ev, rest, hmsgs, hrun, hp, rfl, hsuffix, hsame _⟩

theorem Underway.midfill {first : MatchingEngine} {msgs : List MarketDataMsg} {msg : MarketDataMsg}
    {pending : List MatchEvent} {after : SymbolId → Option OrderBook}
    (h : Underway first msgs msg pending after) :
    ∀ ev ∈ pending, Midfill ev ∧ ev.report.symbol = msg.symbol := by
  obtain ⟨earlier, reports, e, p, _, _, htidy, hp, hsuffix, _⟩ := h
  intro ev hev
  exact (htidy.events hp).1 ev (hsuffix.subset hev)

/-! ## Section 3: What a step of the engine thread can do -/

variable (Lin : Layout MarketDataMsg α W) (Lout : Layout ExecutionReport β V)

/-- `items` are in the inbound queue and `held` in the outbound queue. -/
inductive Loops (c : Config α β W V) (items : List (Item α W)) (held : List (Item β V)) :
    Config α β W V → List (Item α W) → List (Item β V) → Prop where
  | look (hloop : c.loop = .test) :
      Loops c items held { c with loop := .popping (if c.running then .polling else .draining) }
        items held
  /-- A `try_pop` that is not over. -/
  | quiet {phase : Phase} {q : Spsc.Config α W} (hloop : c.loop = .popping phase)
      (hq : Spsc.Inv kQueueDepth q items) (hpopped : q.popped = c.inbound.popped)
      (hpushed : q.pushed = c.inbound.pushed)
      (hleft : Worker.left q.consumer < Worker.left c.inbound.consumer) :
      Loops c items held { c with inbound := q } items held
  | empty {phase : Phase} {q : Spsc.Config α W} (hloop : c.loop = .popping phase)
      (hnil : items = []) (hq : Spsc.Inv kQueueDepth q []) (hpopped : q.popped = c.inbound.popped)
      (hpushed : q.pushed = c.inbound.pushed) :
      Loops c items held { c with inbound := q, loop := emptied phase } [] held
  | taken {phase : Phase} {q : Spsc.Config α W} {x : Item α W} {rest : List (Item α W)}
      (hloop : c.loop = .popping phase) (hcons : items = x :: rest)
      (hq : Spsc.Inv kQueueDepth q rest) (hpopped : q.popped = c.inbound.popped ++ [x])
      (hpushed : q.pushed = c.inbound.pushed) :
      Loops c items held { c with inbound := q, msg := x, loop := .processing phase } rest held
  | stuck {phase : Phase} (hloop : c.loop = .processing phase)
      (hnone : c.engine.process_message (Lin.item c.msg) = none) : Loops c items held c items held
  | processed {phase : Phase} {p : Processed} (hloop : c.loop = .processing phase)
      (hp : c.engine.process_message (Lin.item c.msg) = some p) :
      Loops c items held (c.take_up Lin phase p) items held
  | reported {phase : Phase} (hloop : c.loop = .reporting phase) (hnil : c.pending = []) :
      Loops c items held { c with loop := processed_pc phase } items held
  | report {phase : Phase} {ev : MatchEvent} {rest : List MatchEvent}
      (hloop : c.loop = .reporting phase) (hcons : c.pending = ev :: rest) :
      Loops c items held
        { c with
          engine := { c.engine with stat_matches := c.engine.stat_matches + 1 }
          loop := .pushing phase } items held
  /-- A `try_push` that is not over. -/
  | write {phase : Phase} {ev : MatchEvent} {rest : List MatchEvent}
      {q : Spsc.Config β V} (hloop : c.loop = .pushing phase) (hcons : c.pending = ev :: rest)
      (hq : Spsc.Inv kQueueDepth q held) (hreturns : q.returns = c.outbound.returns)
      (hcarries : q.producer.Carries (Lout.words ev.report))
      (hleft : Spsc.push_left q.producer < Spsc.push_left c.outbound.producer) :
      Loops c items held { c with outbound := q } items held
  /-- The outbound queue is full: the report is dropped. -/
  | dropped {phase : Phase} {ev : MatchEvent} {rest : List MatchEvent}
      {q : Spsc.Config β V} (hloop : c.loop = .pushing phase) (hcons : c.pending = ev :: rest)
      (hfull : held.length = kQueueDepth.size - 1) (hq : Spsc.Inv kQueueDepth q held)
      (hreturns : q.returns = c.outbound.returns ++ [.push (Lout.words ev.report) false])
      (hidle : q.producer = .idle) :
      Loops c items held (c.resume Lin phase q ev rest) items held
  | queued {phase : Phase} {ev : MatchEvent} {rest : List MatchEvent}
      {q : Spsc.Config β V} (hloop : c.loop = .pushing phase) (hcons : c.pending = ev :: rest)
      (hq : Spsc.Inv kQueueDepth q (held ++ [Lout.words ev.report]))
      (hreturns : q.returns = c.outbound.returns ++ [.push (Lout.words ev.report) true])
      (hidle : q.producer = .idle) :
      Loops c items held (c.resume Lin phase q ev rest) items (held ++ [Lout.words ev.report])
  | count (hloop : c.loop = .counting) :
      Loops c items held
        { c with
          engine := { c.engine with stat_messages := c.engine.stat_messages + 1 }
          loop := .test } items held
  | done (hloop : c.loop = .done) : Loops c items held c items held

variable {Lin Lout} {c c' : Config α β W V} {items items' : List (Item α W)}
  {held held' : List (Item β V)}

theorem loops_pop {phase : Phase} (h : Spsc.Inv kQueueDepth c.inbound items)
    (hloop : c.loop = .popping phase) :
    ∃ items', Loops Lin Lout c items held (c.pop_step phase) items' held := by
  unfold Config.pop_step
  rcases h.consumer_cases c.msg with ⟨heq, hq⟩ | ⟨heq, hnil, hq⟩ | ⟨x, rest, heq, hcons, hq⟩
  · simp only [Spsc.returned_none heq]
    refine ⟨items, .quiet hloop hq ?_ ?_ (Worker.left_consumer_step heq)⟩
    · simp [Spsc.Config.popped, heq]
    · simp [Spsc.Config.pushed, heq]
  · simp only [Spsc.returned_some heq]
    refine ⟨[], .empty hloop hnil hq ?_ ?_⟩
    · simp [Spsc.Config.popped, heq]
    · simp [Spsc.Config.pushed, heq]
  · simp only [Spsc.returned_some heq]
    refine ⟨rest, .taken hloop hcons hq ?_ ?_⟩
    · simp [Spsc.Config.popped, heq]
    · simp [Spsc.Config.pushed, heq]

theorem loops_push {phase : Phase} {ev : MatchEvent} {rest : List MatchEvent}
    (h : Spsc.Inv kQueueDepth c.outbound held) (hloop : c.loop = .pushing phase)
    (hcons : c.pending = ev :: rest)
    (hcarries : c.outbound.producer.Carries (Lout.words ev.report)) :
    ∃ held', Loops Lin Lout c items held (c.push_step Lin Lout phase) items held' := by
  -- The head of `pending` is the report being pushed, so the match is decided.
  have hpush : c.push_step Lin Lout phase =
      match Spsc.returned c.outbound (c.outbound.producer_step kQueueDepth (Lout.words ev.report)) with
      | none => { c with outbound := c.outbound.producer_step kQueueDepth (Lout.words ev.report) }
      | some _ =>
        c.resume Lin phase (c.outbound.producer_step kQueueDepth (Lout.words ev.report)) ev rest := by
    unfold Config.push_step
    split
    · next hnil =>
      rw [hnil] at hcons
      cases hcons
    · next ev' rest' hcons' =>
      obtain ⟨rfl, rfl⟩ := List.cons.inj (hcons'.symm.trans hcons)
      rfl
  rw [hpush]
  rcases Spsc.producer_step_carries (C := kQueueDepth) hcarries with
    ⟨heq, hcarries', hleft⟩ | ⟨ok, heq, hidle⟩
  · simp only [Spsc.returned_none heq]
    -- Nothing was returned, so the queue holds what it held.
    obtain ⟨held', hq⟩ := h.producer_step (Lout.words ev.report)
    have hsame := h.items_eq hq [] (by simp [Spsc.Config.popped, heq])
      (by simp [Spsc.Config.pushed, heq])
    rw [hsame, List.append_nil] at hq
    exact ⟨held, .write hloop hcons hq heq hcarries' hleft⟩
  · simp only [Spsc.returned_some heq]
    rcases h.producer_cases (Lout.words ev.report) with ⟨heq', _⟩ | ⟨x, heq', hfull, hq⟩ | ⟨x, heq', _, hq⟩
    · rw [heq'] at heq
      simp at heq
    -- Both equations name the one return there was.
    · have hret := List.append_cancel_left (heq'.symm.trans heq)
      simp only [List.cons.injEq, Spsc.Return.push.injEq, and_true] at hret
      obtain ⟨rfl, rfl⟩ := hret
      exact ⟨held, .dropped hloop hcons hfull hq heq hidle⟩
    · have hret := List.append_cancel_left (heq'.symm.trans heq)
      simp only [List.cons.injEq, Spsc.Return.push.injEq, and_true] at hret
      obtain ⟨rfl, rfl⟩ := hret
      exact ⟨held ++ [Lout.words ev.report], .queued hloop hcons hq heq hidle⟩

/-! ## Section 4: The invariant -/

variable (Lin Lout) in
structure Inv (first : MatchingEngine) (c : Config α β W V) (items : List (Item α W))
    (held : List (Item β V)) : Prop where
  inbound : Spsc.Inv kQueueDepth c.inbound items
  outbound : Spsc.Inv kQueueDepth c.outbound held
  taken : c.processed ++ c.hand Lin = c.inbound.popped.map Lin.item
  books : ∃ e, first.process_all c.processed =
    some (c.emitted ++ c.pending.map MatchEvent.report, e) ∧ Alike c.settled e
  shown : c.engine.books = books_within c.after (Lin.item c.msg).symbol c.pending
  underway : c.loop.Reports →
    Underway first c.processed (Lin.item c.msg) c.pending c.after
  tidy : Tidy c.settled
  counts : c.engine.stat_matches = .ofNat (c.emitted.length + if c.loop.Pushes then 1 else 0)
  offered : c.outbound.offered.map Lout.item = c.emitted
  idle : ¬ c.loop.Pushes → c.outbound.producer = .idle
  carries : c.loop.Pushes →
    ∃ ev rest, c.pending = ev :: rest ∧ c.outbound.producer.Carries (Lout.words ev.report)
  pending : ¬ c.loop.Reports → c.pending = []
  running : c.running = true ↔ c.stop = .idle
  leaving : c.loop.Drains → c.running = false
  joined : c.stop = .returned → c.loop = .done

variable {first : MatchingEngine}

theorem inv_start (inmem : Nat → Item α W) (outmem : Nat → Item β V) (msg : Item α W)
    (hfirst : Tidy first) (hzero : first.stat_matches = 0) :
    Inv Lin Lout first (start inmem outmem msg first) [] [] where
  inbound := Spsc.inv_start inmem
  outbound := Spsc.inv_start outmem
  taken := rfl
  books := ⟨first, rfl, .refl first⟩
  shown := rfl
  underway := fun h => absurd h (by simp [start, LoopPc.Reports])
  tidy := hfirst
  counts := hzero
  offered := rfl
  idle := fun _ => rfl
  carries := fun h => absurd h (by simp [start, LoopPc.Pushes])
  pending := fun _ => rfl
  running := by simp [start]
  leaving := fun h => absurd h (by simp [start, LoopPc.Drains])
  joined := fun h => by cases h

theorem loops_cases (h : Inv Lin Lout first c items held) :
    ∃ items' held', Loops Lin Lout c items held (c.loop_step Lin Lout) items' held' := by
  unfold Config.loop_step
  cases hloop : c.loop with
  | test => exact ⟨items, held, .look hloop⟩
  | popping phase =>
    obtain ⟨items', hstep⟩ : ∃ items', Loops Lin Lout c items held (c.pop_step phase) items' held :=
      loops_pop h.inbound hloop
    exact ⟨items', held, hstep⟩
  | processing phase =>
    simp only [Config.process_step]
    split
    · next hnone => exact ⟨items, held, .stuck hloop hnone⟩
    · next p hp => exact ⟨items, held, .processed hloop hp⟩
  | reporting phase =>
    simp only [Config.report_step]
    split
    · next hnil => exact ⟨items, held, .reported hloop hnil⟩
    · next ev rest hcons => exact ⟨items, held, .report hloop hcons⟩
  | pushing phase =>
    obtain ⟨ev, rest, hcons, hcarries⟩ := h.carries (by rw [hloop]; trivial)
    obtain ⟨held', hstep⟩ : ∃ held', Loops Lin Lout c items held
        (c.push_step Lin Lout phase) items held' :=
      loops_push h.outbound hloop hcons hcarries
    exact ⟨items, held', hstep⟩
  | counting => exact ⟨items, held, .count hloop⟩
  | done => exact ⟨items, held, .done hloop⟩

theorem LoopPc.Pushes.reports {pc : LoopPc} (h : pc.Pushes) : pc.Reports := by
  cases pc <;> first | exact h | trivial

theorem hand_nil (h : ∀ phase, c.loop ≠ .processing phase) : c.hand Lin = [] := by
  unfold Config.hand
  split
  · next phase hloop => exact absurd hloop (h phase)
  · rfl

/-- Between messages the books in memory are those the last call has left. -/
theorem Inv.settled_eq (h : Inv Lin Lout first c items held) (hreports : ¬ c.loop.Reports) :
    c.settled = c.engine := by
  have hshown := h.shown
  rw [h.pending hreports] at hshown
  unfold Config.settled
  rw [show c.after = c.engine.books from hshown.symm]

/-- The thread moves on between messages. -/
theorem Inv.between {q : Spsc.Config α W} {msg : Item α W} {pc : LoopPc}
    (h : Inv Lin Lout first c items held) (hq : Spsc.Inv kQueueDepth q items')
    (htaken : c.processed ++ { c with inbound := q, msg := msg, loop := pc }.hand Lin =
      q.popped.map Lin.item)
    (hreports : ¬ c.loop.Reports) (hreports' : ¬ pc.Reports)
    (hdrains : pc.Drains → c.running = false) (hlive : c.loop ≠ .done) :
    Inv Lin Lout first { c with inbound := q, msg := msg, loop := pc } items' held := by
  have hpushes : ¬ c.loop.Pushes := fun hp => hreports hp.reports
  have hpushes' : ¬ pc.Pushes := fun hp => hreports' hp.reports
  have hcounts := h.counts
  rw [if_neg hpushes] at hcounts
  exact {
    inbound := hq
    outbound := h.outbound
    taken := htaken
    books := h.books
    shown := by
      have hshown := h.shown
      rw [h.pending hreports] at hshown
      show c.engine.books = books_within c.after _ c.pending
      rw [h.pending hreports]
      exact hshown
    underway := fun hr => absurd hr hreports'
    tidy := h.tidy
    counts := by rw [if_neg hpushes']; exact hcounts
    offered := h.offered
    idle := fun _ => h.idle hpushes
    carries := fun hp => absurd hp hpushes'
    pending := fun _ => h.pending hreports
    running := h.running
    leaving := hdrains
    joined := fun hret => absurd (h.joined hret) hlive }

theorem drains_popping (phase : Phase) : (LoopPc.popping phase).Drains ↔ phase = .draining := by
  cases phase <;> simp [LoopPc.Drains]

theorem drains_emptied (phase : Phase) : (emptied phase).Drains ↔ phase = .draining := by
  cases phase <;> simp [emptied, LoopPc.Drains]

/-- The flag has been seen cleared by a loop that drains. -/
theorem Inv.cleared {phase : Phase} (h : Inv Lin Lout first c items held)
    (hloop : c.loop = .popping phase ∨ c.loop = .processing phase ∨ c.loop = .reporting phase ∨
      c.loop = .pushing phase) (hphase : phase = .draining) : c.running = false := by
  subst hphase
  apply h.leaving
  rcases hloop with heq | heq | heq | heq <;> rw [heq] <;> trivial

/-- A message is taken up: its book changes as far as its first report. -/
theorem Inv.take_up {phase : Phase} {p : Processed} (h : Inv Lin Lout first c items held)
    (hloop : c.loop = .processing phase)
    (hp : c.engine.process_message (Lin.item c.msg) = some p) :
    Inv Lin Lout first (c.take_up Lin phase p) items held := by
  have hpushes : ¬ c.loop.Pushes := by simp [hloop, LoopPc.Pushes]
  have hreports : ¬ c.loop.Reports := by simp [hloop, LoopPc.Reports]
  -- The reports of the message before have all been passed on.
  have hnone : c.pending = [] := h.pending hreports
  have htidy := h.tidy
  have htaken := h.taken
  rw [show c.hand Lin = [Lin.item c.msg] by simp [Config.hand, hloop]] at htaken
  have hcounts := h.counts
  rw [if_neg hpushes] at hcounts
  obtain ⟨e, hrun, halike⟩ := h.books
  rw [hnone, List.map_nil, List.append_nil] at hrun
  rw [h.settled_eq hreports] at halike htidy
  -- The statistics differ from those of the sequential run, the fills do not.
  obtain ⟨p', hp', hevents, halike'⟩ := halike.process_message hp
  have hsnoc := process_all_snoc hrun hp'
  rw [Processed.reports, hevents] at hsnoc
  have htidy' : Tidy e := fun id book hbook => htidy id book (by rw [halike.books]; exact hbook)
  exact {
    inbound := h.inbound
    outbound := h.outbound
    taken := (List.append_nil _).trans htaken
    books := ⟨p'.engine, hsnoc, halike'.books, halike'.next⟩
    shown := rfl
    underway := fun _ => ⟨c.processed, c.emitted, e, p', rfl, hrun, htidy', hp',
      by rw [hevents]; exact List.suffix_rfl, halike'.books⟩
    tidy := htidy.process_message hp
    counts := hcounts
    offered := h.offered
    idle := fun _ => h.idle hpushes
    carries := fun hpush => absurd hpush (by simp [Config.take_up, LoopPc.Pushes])
    pending := fun hno => absurd trivial hno
    running := h.running
    leaving := fun hd => by
      cases phase with
      | polling => exact absurd hd (by simp [Config.take_up, LoopPc.Drains])
      | draining => exact h.cleared (.inr (.inl hloop)) rfl
    joined := fun hret => absurd (h.joined hret) (by simp [hloop]) }

/-- `on_execution` has returned, whether or not its report found room. -/
theorem Inv.resume {phase : Phase} {ev : MatchEvent} {rest : List MatchEvent}
    {q : Spsc.Config β V} {ok : Bool} (h : Inv Lin Lout first c items held)
    (hloop : c.loop = .pushing phase) (hcons : c.pending = ev :: rest)
    (hq : Spsc.Inv kQueueDepth q held')
    (hreturns : q.returns = c.outbound.returns ++ [.push (Lout.words ev.report) ok])
    (hidle : q.producer = .idle) :
    Inv Lin Lout first (c.resume Lin phase q ev rest) items held' := by
  have htaken := h.taken
  rw [hand_nil (by simp [hloop])] at htaken
  have hcounts := h.counts
  rw [if_pos (by rw [hloop]; trivial)] at hcounts
  obtain ⟨e, hrun, halike⟩ := h.books
  exact {
    inbound := h.inbound
    outbound := hq
    taken := htaken
    -- The report moves from `pending` to `emitted`: their concatenation stays.
    books := by
      refine ⟨e, ?_, halike⟩
      show first.process_all c.processed =
        some (c.emitted ++ [ev.report] ++ rest.map MatchEvent.report, e)
      rw [hrun, hcons, List.append_assoc]
      rfl
    shown := rfl
    underway := fun _ => by
      obtain ⟨earlier, reports, e', p, hmsgs, hrun', htidy, hp, hsuffix, hafter⟩ :=
        h.underway (by rw [hloop]; trivial)
      rw [hcons] at hsuffix
      exact ⟨earlier, reports, e', p, hmsgs, hrun', htidy, hp,
        (List.suffix_cons _ _).trans hsuffix, hafter⟩
    tidy := h.tidy
    counts := by
      show c.engine.stat_matches = .ofNat ((c.emitted ++ [ev.report]).length + 0)
      rw [hcounts, List.length_append]
      rfl
    offered := by
      have hsnoc : q.offered = c.outbound.offered ++ [Lout.words ev.report] := by
        simp [Spsc.Config.offered, hreturns]
      show q.offered.map Lout.item = c.emitted ++ [ev.report]
      rw [hsnoc, List.map_append, h.offered, List.map_singleton, Lout.item_words]
    idle := fun _ => hidle
    carries := fun hpush => absurd hpush (by simp [Config.resume, LoopPc.Pushes])
    pending := fun hno => absurd trivial hno
    running := h.running
    leaving := fun hd => by
      cases phase with
      | polling => exact absurd hd (by simp [Config.resume, LoopPc.Drains])
      | draining => exact h.cleared (.inr (.inr (.inr hloop))) rfl
    joined := fun hret => absurd (h.joined hret) (by simp [hloop]) }

theorem Inv.loops (h : Inv Lin Lout first c items held)
    (hstep : Loops Lin Lout c items held c' items' held') :
    Inv Lin Lout first c' items' held' := by
  have htaken := h.taken
  cases hstep with
  | look hloop =>
    rw [hand_nil (by simp [hloop])] at htaken
    refine h.between h.inbound htaken (by simp [hloop, LoopPc.Reports]) (by simp [LoopPc.Reports])
      ?_ (by simp [hloop])
    -- Only a cleared flag sends the thread to the drain loop.
    intro hdrains
    cases hrun : c.running with
    | false => rfl
    | true => simp [hrun, LoopPc.Drains] at hdrains
  | quiet hloop hq hpopped hpushed hleft =>
    rw [← hpopped] at htaken
    exact { h with inbound := hq, taken := htaken }
  | @empty phase q hloop hnil hq hpopped hpushed =>
    rw [hand_nil (by simp [hloop]), ← hpopped] at htaken
    refine h.between hq ?_ (by simp [hloop, LoopPc.Reports]) ?_ ?_ (by simp [hloop])
    · rw [← htaken]
      cases phase <;> rfl
    · cases phase <;> simp [emptied, LoopPc.Reports]
    · intro hdrains
      exact h.cleared (.inl hloop) ((drains_emptied phase).mp hdrains)
  | @taken phase q x rest hloop hcons hq hpopped hpushed =>
    rw [hand_nil (by simp [hloop]), List.append_nil] at htaken
    refine h.between hq ?_ (by simp [hloop, LoopPc.Reports]) (by simp [LoopPc.Reports]) ?_
      (by simp [hloop])
    · rw [hpopped, List.map_append, ← htaken]
      rfl
    · intro hdrains
      cases phase with
      | polling => simp [LoopPc.Drains] at hdrains
      | draining => exact h.cleared (.inl hloop) rfl
  | stuck hloop hnone => exact h
  | processed hloop hp => exact h.take_up hloop hp
  | @reported phase hloop hnil =>
    have hpushes : ¬ c.loop.Pushes := by simp [hloop, LoopPc.Pushes]
    have hpushes' : ¬ (processed_pc phase).Pushes := by
      cases phase <;> simp [processed_pc, LoopPc.Pushes]
    have hcounts := h.counts
    rw [hand_nil (by simp [hloop])] at htaken
    rw [if_neg hpushes] at hcounts
    exact { h with
      taken := by
        rw [← htaken]
        cases phase <;> rfl
      underway := fun hr => absurd hr (by cases phase <;> simp [processed_pc, LoopPc.Reports])
      counts := by rw [if_neg hpushes']; exact hcounts
      idle := fun _ => h.idle hpushes
      carries := fun hp => absurd hp hpushes'
      pending := fun _ => hnil
      leaving := fun hd => by
        cases phase with
        | polling => exact absurd hd (by simp [processed_pc, LoopPc.Drains])
        | draining => exact h.cleared (.inr (.inr (.inl hloop))) rfl
      joined := fun hret => absurd (h.joined hret) (by simp [hloop]) }
  | @report phase ev rest hloop hcons =>
    have hpushes : ¬ c.loop.Pushes := by simp [hloop, LoopPc.Pushes]
    have hcounts := h.counts
    rw [hand_nil (by simp [hloop])] at htaken
    rw [if_neg hpushes] at hcounts
    obtain ⟨e, hrun, halike⟩ := h.books
    exact { h with
      taken := htaken
      books := ⟨e, hrun, halike.books, halike.next⟩
      underway := fun _ => h.underway (by rw [hloop]; trivial)
      -- Counted before the push: `Pushes` accounts for the one not emitted yet.
      counts := by
        show c.engine.stat_matches + 1 = .ofNat (c.emitted.length + 1)
        rw [hcounts, Nat.add_zero, UInt64.ofNat_add]
        rfl
      idle := fun hno => absurd trivial hno
      carries := fun _ => ⟨ev, rest, hcons, by rw [h.idle hpushes]; trivial⟩
      pending := fun hno => absurd trivial hno
      leaving := fun hd => by
        cases phase with
        | polling => exact absurd hd (by simp [LoopPc.Drains])
        | draining => exact h.cleared (.inr (.inr (.inl hloop))) rfl
      joined := fun hret => absurd (h.joined hret) (by simp [hloop]) }
  | @write phase ev rest q hloop hcons hq hreturns hcarries hleft =>
    exact { h with
      outbound := hq
      offered := by
        rw [← h.offered]
        simp [Spsc.Config.offered, hreturns]
      idle := fun hno => absurd (by rw [hloop]; trivial) hno
      carries := fun _ => ⟨ev, rest, hcons, hcarries⟩ }
  | dropped hloop hcons hfull hq hreturns hidle => exact h.resume hloop hcons hq hreturns hidle
  | queued hloop hcons hq hreturns hidle => exact h.resume hloop hcons hq hreturns hidle
  | count hloop =>
    have hpushes : ¬ c.loop.Pushes := by simp [hloop, LoopPc.Pushes]
    have hcounts := h.counts
    rw [hand_nil (by simp [hloop])] at htaken
    rw [if_neg hpushes] at hcounts
    obtain ⟨e, hrun, halike⟩ := h.books
    exact { h with
      taken := htaken
      books := ⟨e, hrun, halike.books, halike.next⟩
      underway := fun hr => absurd hr (by simp [LoopPc.Reports])
      counts := hcounts
      idle := fun _ => h.idle hpushes
      carries := fun hp => absurd hp (by simp [LoopPc.Pushes])
      pending := fun _ => h.pending (by simp [hloop, LoopPc.Reports])
      leaving := fun hd => absurd hd (by simp [LoopPc.Drains])
      joined := fun hret => absurd (h.joined hret) (by simp [hloop]) }
  | done hloop => exact h

theorem Inv.submit (h : Inv Lin Lout first c items held) (msg : MarketDataMsg) :
    ∃ items', Inv Lin Lout first (c.step Lin Lout (.submit msg)) items' held := by
  obtain ⟨more, hq, hpopped, _⟩ := h.inbound.push_more (Lin.words msg)
  refine ⟨items ++ more, { h with inbound := hq, taken := ?_ }⟩
  show c.processed ++ c.hand Lin = (c.inbound.producer_step kQueueDepth _).popped.map Lin.item
  rw [hpopped]
  exact h.taken

theorem Inv.poll (h : Inv Lin Lout first c items held) (out : Item β V) :
    ∃ held', Inv Lin Lout first (c.step Lin Lout (.poll out)) items held' := by
  obtain ⟨held', hq⟩ := h.outbound.consumer_step out
  have hsame := Spsc.consumer_step_producer (C := kQueueDepth) c.outbound out
  have hoffered : (c.outbound.consumer_step kQueueDepth out).offered = c.outbound.offered := by
    rcases Spsc.consumer_step_returns (C := kQueueDepth) c.outbound out with heq | ⟨x, heq⟩
    · simp [Spsc.Config.offered, heq]
    · simp [Spsc.Config.offered, heq]
  refine ⟨held', { h with outbound := hq, offered := ?_, idle := ?_, carries := ?_ }⟩
  · show (c.outbound.consumer_step kQueueDepth out).offered.map Lout.item = c.emitted
    rw [hoffered]
    exact h.offered
  · intro hpushes
    exact hsame.trans (h.idle hpushes)
  · intro hpushes
    obtain ⟨rpt, rest, hcons, hcarries⟩ := h.carries hpushes
    refine ⟨rpt, rest, hcons, ?_⟩
    show (c.outbound.consumer_step kQueueDepth out).producer.Carries _
    rw [hsame]
    exact hcarries

theorem Inv.stop_step (h : Inv Lin Lout first c items held) :
    Inv Lin Lout first c.stop_step items held := by
  unfold Config.stop_step
  cases hstop : c.stop with
  -- The flag is cleared here and never set again.
  | idle => exact { h with running := by simp, leaving := fun _ => rfl, joined := by simp }
  | joining =>
    have hfalse : c.running = false := by
      have hiff := h.running
      rw [hstop] at hiff
      simpa using hiff
    by_cases hdone : c.loop = .done
    · simp only [if_pos hdone]
      exact { h with running := by simp [hfalse], joined := fun _ => hdone }
    · simp only [if_neg hdone]
      exact h
  | returned => exact h

variable (Lin Lout) in
/-- The invariant holds of what is in the two queues. -/
def Consistent (first : MatchingEngine) (c : Config α β W V) : Prop :=
  ∃ items held, Inv Lin Lout first c items held

theorem Consistent.step (c : Config α β W V) (turn : Turn β V) (h : Consistent Lin Lout first c) :
    Consistent Lin Lout first (c.step Lin Lout turn) := by
  obtain ⟨items, held, h⟩ := h
  cases turn with
  | submit msg =>
    obtain ⟨items', h'⟩ := h.submit msg
    exact ⟨items', held, h'⟩
  | loop =>
    obtain ⟨items', held', hstep⟩ := loops_cases h
    exact ⟨items', held', h.loops hstep⟩
  | poll out =>
    obtain ⟨held', h'⟩ := h.poll out
    exact ⟨items, held', h'⟩
  | stop => exact ⟨items, held, h.stop_step⟩

theorem Inv.reports {ev : MatchEvent} {rest : List MatchEvent}
    (h : Inv Lin Lout first c items held) (hcons : c.pending = ev :: rest) : c.loop.Reports := by
  by_contra hno
  rw [h.pending hno] at hcons
  cases hcons

/-- No report is pending and the books are those the last call has left, or the
    last message is in the middle of a fill. -/
theorem Inv.books_cases (h : Inv Lin Lout first c items held) :
    c.pending = [] ∧ c.engine.books = c.after ∨
      ∃ ev rest, c.pending = ev :: rest ∧ Midway first c.processed c.pending c.engine.books := by
  have hshown := h.shown
  cases hcons : c.pending with
  | nil =>
    rw [hcons] at hshown
    exact .inl ⟨rfl, hshown⟩
  | cons ev rest =>
    have hunder := h.underway (h.reports hcons)
    rw [hcons] at hshown hunder
    rw [hshown]
    exact .inr ⟨ev, rest, rfl, hunder.midway⟩

/-- While the report of `ev` is passed on, its book is in the middle of the
    fill, and the others are as the call leaves them. -/
theorem Inv.midfill {ev : MatchEvent} {rest : List MatchEvent}
    (h : Inv Lin Lout first c items held) (hcons : c.pending = ev :: rest) :
    Midfill ev ∧ c.engine.books ev.report.symbol = some ev.reported ∧
      ∀ id, id ≠ ev.report.symbol → c.engine.books id = c.after id := by
  have hshown := h.shown
  have hunder := h.underway (h.reports hcons)
  obtain ⟨hfill, hsymbol⟩ := hunder.midfill ev (by rw [hcons]; simp)
  rw [hcons, ← hsymbol] at hshown
  refine ⟨hfill, ?_, ?_⟩
  · rw [hshown]
    exact update_self ..
  · intro id hid
    rw [hshown]
    exact update_of_ne hid ..

/-- A book of which no report is pending is as the last call has left it. -/
theorem Inv.books_eq {id : SymbolId} (h : Inv Lin Lout first c items held)
    (hid : ∀ ev ∈ c.pending, ev.report.symbol ≠ id) : c.engine.books id = c.after id := by
  rcases h.books_cases with ⟨_, hbooks⟩ | ⟨ev, rest, hcons, _⟩
  · rw [hbooks]
  · obtain ⟨_, _, hothers⟩ := h.midfill hcons
    exact hothers id (hid ev (by rw [hcons]; simp)).symm

/-! ## Section 5: What is dropped -/

theorem Inv.queued_eq (h : Inv Lin Lout first c items held) :
    c.queued Lout = c.received Lout ++ held.map Lout.item := by
  unfold Config.queued Config.received
  rw [← h.outbound.history, List.map_append]

theorem Inv.queued_sublist (h : Inv Lin Lout first c items held) :
    (c.queued Lout).Sublist c.emitted := by
  unfold Config.queued
  rw [← h.offered]
  exact (Spsc.pushed_sublist_offered c.outbound).map Lout.item

/-- A step of the engine thread puts every report it passes on into the queue,
    unless the queue is full. -/
theorem Loops.kept (hstep : Loops Lin Lout c items held c' items' held')
    (hroom : held.length ≠ kQueueDepth.size - 1)
    (h : (c.queued Lout).length = c.emitted.length) :
    (c'.queued Lout).length = c'.emitted.length := by
  cases hstep with
  | look | quiet | empty | taken | stuck | processed | reported | report | count | done => exact h
  | write _ _ _ hreturns _ _ =>
    rw [← h]
    simp [Config.queued, Spsc.Config.pushed, hreturns]
  | dropped _ _ hfull => exact absurd hfull hroom
  | queued _ _ _ hreturns _ =>
    simp only [Config.queued, Config.resume, Spsc.Config.pushed, hreturns, List.filterMap_append,
      List.length_map, List.length_append] at h ⊢
    rw [h]
    rfl

/-- Nobody else adds to the queue or to what was passed on. -/
theorem kept_other {turn : Turn β V} (hturn : turn ≠ .loop) :
    (c.step Lin Lout turn).queued Lout = c.queued Lout ∧
      (c.step Lin Lout turn).emitted = c.emitted := by
  cases turn with
  | submit msg => exact ⟨rfl, rfl⟩
  | loop => exact absurd rfl hturn
  | poll out =>
    refine ⟨?_, rfl⟩
    show (c.outbound.consumer_step kQueueDepth out).pushed.map Lout.item = _
    rw [Spsc.consumer_step_pushed]
    rfl
  | stop =>
    show c.stop_step.queued Lout = _ ∧ c.stop_step.emitted = _
    unfold Config.stop_step
    split
    · exact ⟨rfl, rfl⟩
    · split
      · exact ⟨rfl, rfl⟩
      · exact ⟨rfl, rfl⟩
    · exact ⟨rfl, rfl⟩

/-- While the outbound queue has room, nothing is dropped. -/
theorem Consistent.kept {turn : Turn β V} (h : Consistent Lin Lout first c) (hroom : ¬ c.Full Lout)
    (hkept : (c.queued Lout).length = c.emitted.length) :
    ((c.step Lin Lout turn).queued Lout).length = (c.step Lin Lout turn).emitted.length := by
  obtain ⟨items, held, h⟩ := h
  by_cases hturn : turn = .loop
  · subst hturn
    obtain ⟨items', held', hstep⟩ := loops_cases h
    refine hstep.kept ?_ hkept
    intro hfull
    apply hroom
    show (c.queued Lout).length = _
    rw [h.queued_eq, List.length_append, List.length_map, hfull]
  · obtain ⟨hqueued, hemitted⟩ : (c.step Lin Lout turn).queued Lout = c.queued Lout ∧
        (c.step Lin Lout turn).emitted = c.emitted := kept_other hturn
    rw [hqueued, hemitted]
    exact hkept

/-! ## Section 6: The engine thread comes to its end -/

/-- What a cleared flag leaves to do: messages first, then reports and program
    points, then the steps of a call on a queue. -/
def remaining (c : Config α β W V) (items : List (Item α W)) : Nat ×ₗ Nat ×ₗ Nat :=
  match c.loop with
  | .done => toLex (0, toLex (0, 0))
  | .popping .draining => toLex (2 * items.length, toLex (1, Worker.left c.inbound.consumer))
  | .test => toLex (2 * items.length, toLex (2, 0))
  | .popping .polling => toLex (2 * items.length, toLex (3, Worker.left c.inbound.consumer))
  | .counting => toLex (2 * items.length, toLex (3, 0))
  | .processing _ => toLex (2 * items.length + 1, toLex (0, 0))
  | .reporting _ => toLex (2 * items.length, toLex (2 * c.pending.length + 5, 0))
  | .pushing _ =>
    toLex (2 * items.length,
      toLex (2 * c.pending.length + 4, Spsc.push_left c.outbound.producer))

theorem Loops.running (hstep : Loops Lin Lout c items held c' items' held') :
    c'.running = c.running := by
  cases hstep <;> rfl

theorem Loops.stop (hstep : Loops Lin Lout c items held c' items' held') : c'.stop = c.stop := by
  cases hstep <;> rfl

theorem Loops.remaining_lt (hstep : Loops Lin Lout c items held c' items' held')
    (h : Inv Lin Lout first c items held) (hrun : c.running = false) (hlive : c.loop ≠ .done) :
    remaining c' items' < remaining c items := by
  cases hstep with
  | look hloop => simp [remaining, hloop, hrun, Prod.Lex.toLex_lt_toLex]
  | @quiet phase q hloop hq hpopped hpushed hleft =>
    cases phase <;> simp [remaining, hloop, Prod.Lex.toLex_lt_toLex, hleft]
  | @empty phase q hloop hnil hq hpopped hpushed =>
    subst hnil
    cases phase <;> simp [remaining, hloop, emptied, Prod.Lex.toLex_lt_toLex]
  -- A message costs two: one when it is popped, one when it is processed.
  | @taken phase q x rest hloop hcons hq hpopped hpushed =>
    subst hcons
    cases phase <;> simp [remaining, hloop, Prod.Lex.toLex_lt_toLex] <;> omega
  -- A sound engine processes every message, so the thread is never stuck.
  | stuck hloop hnone =>
    have hsound := h.tidy.sound
    rw [h.settled_eq (by simp [hloop, LoopPc.Reports])] at hsound
    obtain ⟨p, hp, _⟩ := hsound.process_message (Lin.item c.msg)
    rw [hnone] at hp
    cases hp
  | processed hloop hp => simp [remaining, hloop, Config.take_up, Prod.Lex.toLex_lt_toLex]
  | @reported phase hloop hnil =>
    cases phase <;> simp [remaining, hloop, hnil, processed_pc, Prod.Lex.toLex_lt_toLex]
  | report hloop hcons => simp [remaining, hloop, hcons, Prod.Lex.toLex_lt_toLex]
  | write hloop hcons hq hreturns hcarries hleft =>
    simp [remaining, hloop, Prod.Lex.toLex_lt_toLex, hleft]
  | dropped hloop hcons =>
    simp [remaining, Config.resume, hloop, hcons, Prod.Lex.toLex_lt_toLex]
    omega
  | queued hloop hcons =>
    simp [remaining, Config.resume, hloop, hcons, Prod.Lex.toLex_lt_toLex]
    omega
  | count hloop => simp [remaining, hloop, Prod.Lex.toLex_lt_toLex]
  | done hloop => exact absurd hloop hlive

theorem run_append (c : Config α β W V) (before after : List (Turn β V)) :
    c.run Lin Lout (before ++ after) = (c.run Lin Lout before).run Lin Lout after :=
  List.foldl_append

/-- Left to itself after the flag was cleared, the engine thread ends. -/
theorem finishes (h : Inv Lin Lout first c items held) (hrun : c.running = false) :
    ∃ n, (c.run Lin Lout (List.replicate n .loop)).loop = .done ∧
      (c.run Lin Lout (List.replicate n .loop)).stop = c.stop := by
  let Ranked (m : Nat ×ₗ Nat ×ₗ Nat) (c' : Config α β W V) := ∃ items' held',
    remaining c' items' = m ∧ Inv Lin Lout first c' items' held' ∧ c'.running = false ∧
      c'.stop = c.stop
  -- the flag stays cleared, so every turn leaves less to do
  have hstep : ∀ m c', Ranked m c' → ¬ c'.loop = .done →
      ∃ m' < m, Ranked m' (c'.step Lin Lout .loop) := by
    rintro m c' ⟨items', held', rfl, h', hrun', hstop⟩ hlive
    obtain ⟨items'', held'', hloops⟩ := loops_cases h'
    refine ⟨_, hloops.remaining_lt h' hrun' hlive, items'', held'', rfl,
      h'.loops hloops, ?_, ?_⟩
    · exact hloops.running.trans hrun'
    · exact hloops.stop.trans hstop
  obtain ⟨n, ⟨_, _, _, _, _, _, hstop⟩, hdone⟩ :=
    foldl_reaches_alone hstep ⟨items, held, rfl, h, hrun, rfl⟩
  exact ⟨n, hdone, hstop⟩

theorem stop_step_ne_idle (c : Config α β W V) : c.stop_step.stop ≠ .idle := by
  unfold Config.stop_step
  cases hstop : c.stop with
  | idle => simp
  | joining =>
    by_cases hdone : c.loop = .done
    · simp [hdone]
    · simp [hdone, hstop]
  | returned => simp [hstop]

/-- Only a call of `stop` changes where `stop` stands. -/
theorem Consistent.stop_step {turn : Turn β V} (h : Consistent Lin Lout first c)
    (hstop : c.stop ≠ .idle) : (c.step Lin Lout turn).stop ≠ .idle := by
  obtain ⟨items, held, h⟩ := h
  cases turn with
  | submit msg => exact hstop
  | loop =>
    obtain ⟨items', held', hstep⟩ := loops_cases h
    show (c.loop_step Lin Lout).stop ≠ .idle
    rw [hstep.stop]
    exact hstop
  | poll out => exact hstop
  | stop => exact stop_step_ne_idle c

/-- A call of `stop` returns once the engine thread has had enough turns. -/
theorem Consistent.stop_returns (h : Consistent Lin Lout first c) (hstop : c.stop ≠ .idle) :
    ∃ n, (c.run Lin Lout (List.replicate n .loop ++ [.stop])).stop = .returned := by
  obtain ⟨items, held, h⟩ := h
  have hrun : c.running = false := by
    cases hr : c.running with
    | false => rfl
    | true => exact absurd (h.running.mp hr) hstop
  obtain ⟨n, hdone, hsame⟩ := finishes h hrun
  refine ⟨n, ?_⟩
  rw [run_append]
  show (c.run Lin Lout (List.replicate n .loop)).stop_step.stop = .returned
  unfold Config.stop_step
  rw [hsame]
  cases hc : c.stop with
  | idle => exact absurd hc hstop
  | joining => simp only [if_pos hdone]
  | returned => rw [hsame, hc]

/-- `earlier` had been submitted when the flag was cleared.  The thread does
    not end before it has popped as many. -/
structure Stopping (earlier : List (Item α W)) (c : Config α β W V) : Prop where
  submitted : earlier <+: c.inbound.pushed
  done : c.loop = .done → earlier.length ≤ c.inbound.popped.length

variable {earlier : List (Item α W)}

theorem Stopping.loops (hs : Stopping earlier c) (h : Inv Lin Lout first c items held)
    (hstep : Loops Lin Lout c items held c' items' held') : Stopping earlier c' := by
  have hlength : c.inbound.pushed.length = c.inbound.popped.length + items.length := by
    rw [← h.inbound.history, List.length_append]
  have hsubmitted := hs.submitted.length_le
  cases hstep with
  | look | processed | report | count => exact ⟨hs.submitted, by simp [Config.take_up]⟩
  | quiet _ _ hpopped hpushed _ =>
    exact ⟨by rw [hpushed]; exact hs.submitted, by rw [hpopped]; exact hs.done⟩
  | empty _ hnil _ hpopped hpushed =>
    -- The thread ends only on an empty queue, with all that was pushed popped.
    rw [hnil, List.length_nil] at hlength
    refine ⟨by rw [hpushed]; exact hs.submitted, fun _ => ?_⟩
    show earlier.length ≤ List.length _
    rw [hpopped]
    omega
  | taken _ _ _ _ hpushed => exact ⟨by rw [hpushed]; exact hs.submitted, by simp⟩
  | @reported phase => exact ⟨hs.submitted, by cases phase <;> simp [processed_pc]⟩
  | dropped | queued => exact ⟨hs.submitted, by simp [Config.resume]⟩
  | write | stuck | done => exact ⟨hs.submitted, hs.done⟩

theorem Stopping.step {turn : Turn β V} (hs : Stopping earlier c)
    (h : Consistent Lin Lout first c) : Stopping earlier (c.step Lin Lout turn) := by
  obtain ⟨items, held, h⟩ := h
  cases turn with
  | submit msg =>
    obtain ⟨more, _, hpopped, hpushed⟩ := h.inbound.push_more (Lin.words msg)
    refine ⟨?_, ?_⟩
    · show earlier <+: (c.inbound.producer_step kQueueDepth (Lin.words msg)).pushed
      rw [hpushed]
      exact hs.submitted.trans (List.prefix_append _ _)
    · show c.loop = .done → _ ≤ (c.inbound.producer_step kQueueDepth (Lin.words msg)).popped.length
      rw [hpopped]
      exact hs.done
  | loop =>
    obtain ⟨items', held', hstep⟩ := loops_cases h
    exact hs.loops h hstep
  | poll out => exact ⟨hs.submitted, hs.done⟩
  | stop =>
    show Stopping earlier c.stop_step
    unfold Config.stop_step
    split
    · exact ⟨hs.submitted, hs.done⟩
    · split
      · exact ⟨hs.submitted, hs.done⟩
      · exact hs
    · exact hs

/-! ## Section 7: Every interleaving -/

section results

variable (Lin : Layout MarketDataMsg α W) (Lout : Layout ExecutionReport β V)
  (inmem : Nat → Item α W) (outmem : Nat → Item β V) (msg : Item α W)
  (mem : MatchingEngine) (books : SymbolId → OrderBook) (ids : List SymbolId)

/-- An engine with the symbols `ids` is started, and its threads take turns. -/
def pipeline (schedule : List (Turn β V)) : Config α β W V :=
  (start inmem outmem msg (register_symbols mem books ids)).run Lin Lout schedule

theorem stat_matches_register_symbols : (register_symbols mem books ids).stat_matches = 0 := by
  let Zero (e : MatchingEngine) := e.stat_matches = 0
  have hstep : ∀ e id, Zero e → Zero (e.register_symbol (books id) id).1 := by
    intro e id h
    unfold MatchingEngine.register_symbol
    split
    · exact h
    · split
      · exact h
      · exact h
  exact foldl_keeps hstep (s := fresh mem) rfl ids

theorem consistent_pipeline (schedule : List (Turn β V)) :
    Consistent Lin Lout (register_symbols mem books ids)
      (pipeline Lin Lout inmem outmem msg mem books ids schedule) :=
  foldl_keeps Consistent.step
    ⟨[], [], inv_start inmem outmem msg (tidy_register_symbols mem books ids)
      (stat_matches_register_symbols mem books ids)⟩ schedule

theorem pipeline_append (before after : List (Turn β V)) :
    pipeline Lin Lout inmem outmem msg mem books ids (before ++ after) =
      (pipeline Lin Lout inmem outmem msg mem books ids before).run Lin Lout after :=
  run_append _ before after

/-- Everything passed on is in the queue, or the queue was full at some moment. -/
theorem kept_or_full (schedule : List (Turn β V)) :
    ((pipeline Lin Lout inmem outmem msg mem books ids schedule).queued Lout).length =
        (pipeline Lin Lout inmem outmem msg mem books ids schedule).emitted.length ∨
      ∃ before, before <+: schedule ∧
        (pipeline Lin Lout inmem outmem msg mem books ids before).Full Lout := by
  induction schedule using List.reverseRecOn with
  | nil => exact .inl rfl
  | append_singleton schedule turn ih =>
    rcases ih with hkept | ⟨before, hbefore, hfull⟩
    -- Full before this turn, or there was room and nothing was dropped by it.
    · by_cases hfull : (pipeline Lin Lout inmem outmem msg mem books ids schedule).Full Lout
      · exact .inr ⟨schedule, List.prefix_append _ _, hfull⟩
      · left
        rw [pipeline_append]
        exact (consistent_pipeline ..).kept hfull hkept
    · exact .inr ⟨before, hbefore.trans (List.prefix_append _ _), hfull⟩

/-- At every moment of every interleaving, with `processed` the messages that
    the engine thread has taken up: they are the first that were submitted; if
    no report is pending the books are those of processing them one after the
    other, and else those of doing so up to the fill that is being reported; the
    reports of processing them are those passed on and those still pending; the
    consumer has received the first of those that found room; and if one did
    not, the queue was full at some earlier moment. -/
theorem every_moment (schedule : List (Turn β V)) :
    let first := register_symbols mem books ids
    let c := pipeline Lin Lout inmem outmem msg mem books ids schedule
    ∃ reports e, first.process_all c.processed = some (reports, e) ∧
      c.processed <+: c.submitted Lin ∧
      (c.pending = [] ∧ c.engine.books = e.books ∨
        Midway first c.processed c.pending c.engine.books) ∧
      c.engine.next_order_id = e.next_order_id ∧
      reports = c.emitted ++ c.pending.map MatchEvent.report ∧
      c.engine.stat_matches = .ofNat (c.emitted.length + if c.loop.Pushes then 1 else 0) ∧
      c.received Lout <+: c.queued Lout ∧ (c.queued Lout).Sublist c.emitted ∧
      (c.queued Lout = c.emitted ∨ ∃ before, before <+: schedule ∧
        (pipeline Lin Lout inmem outmem msg mem books ids before).Full Lout) := by
  intro first c
  obtain ⟨items, held, h⟩ := consistent_pipeline Lin Lout inmem outmem msg mem books ids schedule
  obtain ⟨e, hrun, halike⟩ := h.books
  refine ⟨_, e, hrun, ?_, ?_, halike.next, rfl, h.counts, ?_, h.queued_sublist, ?_⟩
  · -- what was popped is processed, but for the message in hand
    show c.processed <+: c.inbound.pushed.map Lin.item
    rw [← h.inbound.history, List.map_append, ← h.taken, List.append_assoc]
    exact List.prefix_append _ _
  · rcases h.books_cases with ⟨hnone, hbooks⟩ | ⟨_, _, _, hmidway⟩
    · exact .inl ⟨hnone, hbooks.trans halike.books⟩
    · exact .inr hmidway
  · rw [h.queued_eq]
    exact List.prefix_append _ _
  · rcases kept_or_full Lin Lout inmem outmem msg mem books ids schedule with hkept | hfull
    · exact .inl (h.queued_sublist.eq_of_length hkept)
    · exact .inr hfull

/-- Every book keeps its invariant, except perhaps that of `symbol`. -/
def BooksHold (e : MatchingEngine) (but : Option SymbolId) : Prop :=
  ∀ id book, e.books id = some book → some id ≠ but → BookInvariant book

/-- At every moment, whatever messages are submitted, no book is crossed or
    locked, and every book keeps its invariant.  While a report is passed on
    its book is in the middle of the fill; it kept the invariant before. -/
theorem books_every_moment (schedule : List (Turn β V)) :
    let c := pipeline Lin Lout inmem outmem msg mem books ids schedule
    (∀ id book, c.engine.books id = some book → NotCrossed book) ∧
    (c.pending = [] → BooksHold c.engine none) ∧
    ∀ ev rest, c.pending = ev :: rest →
      BooksHold c.engine (some ev.report.symbol) ∧ Midfill ev ∧
        c.engine.books ev.report.symbol = some ev.reported := by
  intro c
  obtain ⟨items, held, h⟩ := consistent_pipeline Lin Lout inmem outmem msg mem books ids schedule
  -- The books that a call leaves.
  have hafter : ∀ id book, c.after id = some book → BookInvariant book ∧ NotCrossed book := by
    intro id book hbook
    obtain ⟨_, a, hrep, hw, hu⟩ := h.tidy id book hbook
    exact ⟨hrep.invariant hw, hrep.not_crossed hu⟩
  refine ⟨?_, ?_, ?_⟩
  · intro id book hbook
    rcases h.books_cases with ⟨_, hbooks⟩ | ⟨ev, rest, hcons, _⟩
    · rw [hbooks] at hbook
      exact (hafter id book hbook).2
    · obtain ⟨hfill, hshown, hothers⟩ := h.midfill hcons
      by_cases hid : id = ev.report.symbol
      · rw [hid, hshown] at hbook
        cases hbook
        exact hfill.not_crossed
      · rw [hothers id hid] at hbook
        exact (hafter id book hbook).2
  · intro hnone id book hbook _
    have hout : ∀ ev ∈ c.pending, ev.report.symbol ≠ id := by
      rw [hnone]
      simp
    have hsame : c.engine.books id = c.after id := h.books_eq hout
    exact (hafter id book (hsame.symm.trans hbook)).1
  · intro ev rest hcons
    obtain ⟨hfill, hshown, hothers⟩ := h.midfill hcons
    refine ⟨?_, hfill, hshown⟩
    intro id book hbook hid
    rw [hothers id fun heq => hid (by rw [heq])] at hbook
    exact (hafter id book hbook).1

/-- Let `stop` be called after `before`.  When it has returned, everything that
    was submitted before the call is processed and no report is pending; a
    consumer that has emptied the queue, which was never full, has all reports
    of processing the messages one after the other.  And `stop` returns if the
    engine thread gets enough turns. -/
theorem delivered_after_stop (before after : List (Turn β V))
    (hidle : (pipeline Lin Lout inmem outmem msg mem books ids before).stop = .idle) :
    let c := pipeline Lin Lout inmem outmem msg mem books ids (before ++ .stop :: after)
    (c.stop = .returned →
      ∃ e, (register_symbols mem books ids).process_all c.processed = some (c.emitted, e) ∧
        (pipeline Lin Lout inmem outmem msg mem books ids before).submitted Lin <+: c.processed ∧
        c.processed <+: c.submitted Lin ∧ c.engine.books = e.books ∧
        (c.received Lout = c.queued Lout →
          (∀ moment, moment <+: before ++ .stop :: after →
            ¬ (pipeline Lin Lout inmem outmem msg mem books ids moment).Full Lout) →
          c.received Lout = c.emitted)) ∧
    ∃ n, (pipeline Lin Lout inmem outmem msg mem books ids
      (before ++ .stop :: after ++ (List.replicate n .loop ++ [.stop]))).stop = .returned := by
  intro c
  let called := pipeline Lin Lout inmem outmem msg mem books ids before
  have hbefore : Consistent Lin Lout (register_symbols mem books ids) called :=
    consistent_pipeline ..
  -- the flag is still set, so the thread has not ended
  have hlive : called.loop ≠ .done := by
    obtain ⟨items, held, h⟩ := hbefore
    intro hdone
    have hcleared := h.leaving (by rw [hdone]; trivial)
    rw [h.running.mpr hidle] at hcleared
    cases hcleared
  let Keeps (c : Config α β W V) :=
    Consistent Lin Lout (register_symbols mem books ids) c ∧
      Stopping called.inbound.pushed c ∧ c.stop ≠ .idle
  have hstep : ∀ c turn, Keeps c → Keeps (c.step Lin Lout turn) := by
    intro c turn ⟨hc, hs, hstop⟩
    exact ⟨hc.step c turn, hs.step hc, hc.stop_step hstop⟩
  have hcalled : Keeps (called.step Lin Lout .stop) := by
    have hs : Stopping called.inbound.pushed called :=
      ⟨List.prefix_refl _, fun hdone => absurd hdone hlive⟩
    exact ⟨hbefore.step called .stop, hs.step hbefore, stop_step_ne_idle called⟩
  have hkeeps : Keeps c := by
    show Keeps (pipeline Lin Lout inmem outmem msg mem books ids (before ++ .stop :: after))
    rw [pipeline_append]
    exact foldl_keeps hstep hcalled after
  obtain ⟨⟨items, held, h⟩, hs, hstop⟩ := hkeeps
  constructor
  · intro hreturned
    have hdone := h.joined hreturned
    -- The thread was joined, so it has nothing in hand and nothing pending.
    have hnone : c.pending = [] := h.pending (by simp [hdone, LoopPc.Reports])
    have htaken := h.taken
    rw [hand_nil (by simp [hdone]), List.append_nil] at htaken
    obtain ⟨e, hrun, halike⟩ := h.books
    rw [hnone, List.map_nil, List.append_nil] at hrun
    rw [h.settled_eq (by simp [hdone, LoopPc.Reports])] at halike
    have hpopped : c.inbound.popped <+: c.inbound.pushed := ⟨items, h.inbound.history⟩
    refine ⟨e, hrun, ?_, ?_, halike.books, ?_⟩
    -- Two prefixes of what was pushed, and the thread has popped at least as many.
    · rw [htaken]
      exact (List.prefix_of_prefix_length_le hs.submitted hpopped (hs.done hdone)).map Lin.item
    · rw [htaken]
      exact hpopped.map Lin.item
    · intro hempty hroom
      rcases kept_or_full Lin Lout inmem outmem msg mem books ids (before ++ .stop :: after) with
        hkept | ⟨moment, hmoment, hfull⟩
      · rw [hempty]
        exact h.queued_sublist.eq_of_length hkept
      · exact absurd hfull (hroom moment hmoment)
  · obtain ⟨n, hreturned⟩ := Consistent.stop_returns ⟨items, held, h⟩ hstop
    refine ⟨n, ?_⟩
    rw [pipeline_append]
    exact hreturned

end results

/-- A sell and a buy are submitted and `stop` is called before the engine
    thread has had a turn.  When `stop` has returned, both are processed. -/
theorem delivered_sell_and_buy :
    let sell := new_order .Limit 20 0 .Sell 100 100
    let buy := new_order .Limit 21 0 .Buy 100 100
    let before : List (Turn ExecutionReport 1) :=
      List.replicate 4 (.submit sell) ++ List.replicate 4 (.submit buy)
    ∃ after, ∃ c, c = pipeline (oneWord _) (oneWord _) (fun _ => .replicate 1 sell)
        (fun _ => .replicate 1 ⟨0, 0, 0, 0, 0, 0, .Buy, .New⟩) (.replicate 1 sell) zeroed
        (fun _ => OrderBook.zeroed) [0] (before ++ .stop :: after) ∧
      c.stop = .returned ∧ [sell, buy] <+: c.processed ∧
      ∃ e, (register_symbols zeroed (fun _ => OrderBook.zeroed) [0]).process_all c.processed =
        some (c.emitted, e) := by
  intro sell buy before
  let run := pipeline (oneWord _) (oneWord _) (fun _ => .replicate 1 sell)
    (fun _ => .replicate 1 ⟨0, 0, 0, 0, 0, 0, .Buy, .New⟩) (.replicate 1 sell) zeroed
    (fun _ => OrderBook.zeroed) [0]
  have hidle : (run before).stop = .idle := rfl
  have hsubmitted : (run before).submitted (oneWord _) = [sell, buy] := by decide +kernel
  obtain ⟨_, n, hreturned⟩ := delivered_after_stop (oneWord _) (oneWord _) _ _ _ _ _ _ before [] hidle
  rw [List.append_assoc, List.cons_append, List.nil_append] at hreturned
  obtain ⟨hall, _⟩ := delivered_after_stop (oneWord _) (oneWord _) _ _ _ _ _ _ before
    (List.replicate n .loop ++ [.stop]) hidle
  obtain ⟨e, hrun, hprocessed, _⟩ := hall hreturned
  rw [show (pipeline (oneWord _) (oneWord _) _ _ _ _ _ _ before).submitted (oneWord _) = [sell, buy] from
    hsubmitted] at hprocessed
  exact ⟨_, _, rfl, hreturned, hprocessed, e, hrun⟩

end Pipeline

end OptionsEngine
