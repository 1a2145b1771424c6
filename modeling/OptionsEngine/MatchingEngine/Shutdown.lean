import OptionsEngine.MatchingEngine.Isolation
import OptionsEngine.SpscQueue.Interleaving

/-! # Shutting the engine down (`MatchingEngine::run_loop` and `stop`)

    The producer's thread calls `submit`, the engine thread runs `run_loop`,
    and some thread calls `stop` once.  All three are cut into their atomic
    steps and taken in any order: the inbound queue is that of
    `SpscQueue.Interleaving`, with messages copied word by word.

    `run_loop` pops in two places.  The polling loop counts what it has
    processed; the loop that drains the queue after `stop` does not.

    * `Inv`: what every reachable configuration keeps.
    * `shutdown_accounting_iff`: every message that was submitted before `stop`
      is processed once and in order; all are counted exactly if the polling
      loop leaves nothing in the queue. -/

namespace OptionsEngine

open Ring Loop MatchingEngine

namespace Shutdown

/-! ## Section 1: Model -/

/-- How a message lies in memory. -/
structure Layout (α : Type) (W : Nat) where
  words : MarketDataMsg → Item α W
  msg : Item α W → MarketDataMsg
  msg_words : ∀ m, msg (words m) = m

/-- Where the engine thread stands in `run_loop`. -/
inductive LoopPc where
  /-- About to load `running_`. -/
  | test
  /-- In the `try_pop` of the polling loop. -/
  | popping
  /-- About to process what the polling loop has popped. -/
  | processing
  /-- About to count it. -/
  | counting
  /-- In the `try_pop` of the draining loop. -/
  | draining
  /-- About to process what the draining loop has popped. -/
  | drain_processing
  | done
  deriving DecidableEq

/-- The polling loop is over. -/
def LoopPc.Drains : LoopPc → Prop
  | .draining | .drain_processing | .done => True
  | .test | .popping | .processing | .counting => False

/-- Where the caller of `stop` stands. -/
inductive StopPc where
  | idle
  /-- Has stored false to `running_` and waits for the engine thread. -/
  | joining
  | returned
  deriving DecidableEq

structure Config (α : Type) (W : Nat) where
  /-- The inbound queue, with the producer's `submit` and the `try_pop` of the
      engine thread. -/
  inbound : Spsc.Config α W
  /-- The rest of the engine. -/
  engine : MatchingEngine
  running : Bool
  loop : LoopPc
  /-- The local variable of `run_loop`. -/
  msg : Item α W
  stop : StopPc
  /-- What was passed to `process_message`. -/
  processed : List MarketDataMsg

/-- Whose turn it is.  A producer that begins a call of `submit` begins it with
    `msg`. -/
inductive Turn where
  | submit (msg : MarketDataMsg)
  | loop
  | stop

variable {α : Type} {W : Nat}

/-- The result of a `try_pop` that has returned between two configurations. -/
def pop_result (c c' : Spsc.Config α W) : Option (Option (Item α W)) :=
  match c'.returns.drop c.returns.length with
  | [.pop out] => some out
  | _ => none

namespace Config

variable (L : Layout α W) (C : Capacity)

/-- `start` has been called and the engine thread is at the head of its loop. -/
def start (mem : Nat → Item α W) (msg : Item α W) (engine : MatchingEngine) : Config α W :=
  ⟨.start mem, engine, true, .test, msg, .idle, []⟩

/-- One step of `try_pop(msg)`, and where to go on if it returns. -/
def pop_step (c : Config α W) (popped empty : LoopPc) : Config α W :=
  let inbound := c.inbound.consumer_step C c.msg
  match pop_result c.inbound inbound with
  | none => { c with inbound := inbound }
  | some none => { c with inbound := inbound, loop := empty }
  | some (some out) => { c with inbound := inbound, msg := out, loop := popped }

/-- `process_message(msg)`; a call that does not end leaves the thread there. -/
def process_step (c : Config α W) (next : LoopPc) : Config α W :=
  match c.engine.process_message (L.msg c.msg) with
  | none => c
  | some p => { c with engine := p.engine, loop := next, processed := c.processed ++ [L.msg c.msg] }

/-- One step of `run_loop`. -/
def loop_step (c : Config α W) : Config α W :=
  match c.loop with
  | .test => { c with loop := if c.running then .popping else .draining }
  | .popping => c.pop_step C .processing .test
  | .processing => c.process_step L .counting
  | .counting =>
    { c with
      engine := { c.engine with stat_messages := c.engine.stat_messages + 1 }
      loop := .test }
  | .draining => c.pop_step C .drain_processing .done
  | .drain_processing => c.process_step L .draining
  | .done => c

/-- One step of `stop`; the join waits for the engine thread. -/
def stop_step (c : Config α W) : Config α W :=
  match c.stop with
  | .idle => { c with running := false, stop := .joining }
  | .joining => if c.loop = .done then { c with stop := .returned } else c
  | .returned => c

def step (c : Config α W) : Turn → Config α W
  | .submit msg => { c with inbound := c.inbound.producer_step C (L.words msg) }
  | .loop => c.loop_step L C
  | .stop => c.stop_step

def run (c : Config α W) (schedule : List Turn) : Config α W := schedule.foldl (step L C) c

/-- The messages whose `submit` has returned true, in that order. -/
def submitted (c : Config α W) : List MarketDataMsg := c.inbound.pushed.map L.msg

/-- The polling loop is about to end. -/
def Leaves (c : Config α W) : Prop := c.loop = .test ∧ c.running = false

/-- What was popped and is not yet processed. -/
def hand (c : Config α W) : List MarketDataMsg :=
  if c.loop = .processing ∨ c.loop = .drain_processing then [L.msg c.msg] else []

end Config

open Config

/-! ## Section 2: Steps of the queue -/

section queue

variable {C : Capacity} {q : Spsc.Config α W}

theorem push_cases (h : Spsc.Consistent C q) (item : Item α W) :
    Spsc.Consistent C (q.producer_step C item) ∧ (q.producer_step C item).popped = q.popped ∧
      q.pushed <+: (q.producer_step C item).pushed := by
  refine ⟨Spsc.Consistent.step q (.producer item) h, ?_⟩
  rcases Spsc.producer_step_returns (C := C) q item with heq | ⟨x, ok, heq⟩
  · simp [Spsc.Config.popped, Spsc.Config.pushed, heq]
  · simp [Spsc.Config.popped, Spsc.Config.pushed, heq]

/-- A step of `try_pop` returns nothing yet, finds the queue empty, or hands
    out the next message. -/
theorem pop_cases (h : Spsc.Consistent C q) (out : Item α W) :
    Spsc.Consistent C (q.consumer_step C out) ∧ (q.consumer_step C out).pushed = q.pushed ∧
      (pop_result q (q.consumer_step C out) = none ∧ (q.consumer_step C out).popped = q.popped ∨
        pop_result q (q.consumer_step C out) = some none ∧
          (q.consumer_step C out).popped = q.popped ∧ q.popped = q.pushed ∨
        ∃ x, pop_result q (q.consumer_step C out) = some (some x) ∧
          (q.consumer_step C out).popped = q.popped ++ [x]) := by
  refine ⟨Spsc.Consistent.step q (.consumer out) h, ?_⟩
  rcases Spsc.consumer_step_returns (C := C) q out with heq | ⟨x, heq⟩
  · simp [Spsc.Config.popped, Spsc.Config.pushed, pop_result, heq]
  · cases x with
    | none =>
      obtain ⟨items, hinv⟩ := h
      have hfails : (q.step C (.consumer out)).returns = q.returns ++ [.pop none] := heq
      obtain ⟨_, rfl⟩ := hinv.empty_of_pop_fails hfails
      have hall : q.popped = q.pushed := by simpa using hinv.history
      refine ⟨by simp [Spsc.Config.pushed, heq], .inr (.inl ⟨?_, ?_, hall⟩)⟩
      · simp [pop_result, heq]
      · simp [Spsc.Config.popped, heq]
    | some x =>
      refine ⟨by simp [Spsc.Config.pushed, heq], .inr (.inr ⟨x, ?_, ?_⟩)⟩
      · simp [pop_result, heq]
      · simp [Spsc.Config.popped, heq]

end queue

section steps

variable {L : Layout α W} {C : Capacity}

theorem pop_step_eq (c : Config α W) (popped empty : LoopPc) :
    ∃ msg loop, (loop = c.loop ∨ loop = popped ∨ loop = empty) ∧
      c.pop_step C popped empty =
        { c with inbound := c.inbound.consumer_step C c.msg, msg := msg, loop := loop } := by
  unfold Config.pop_step
  simp only
  split
  · exact ⟨c.msg, c.loop, .inl rfl, rfl⟩
  · exact ⟨c.msg, empty, .inr (.inr rfl), rfl⟩
  · next out _ => exact ⟨out, popped, .inr (.inl rfl), rfl⟩

theorem process_step_cases (c : Config α W) (next : LoopPc) :
    c.process_step L next = c ∨
      ∃ p, c.engine.process_message (L.msg c.msg) = some p ∧
        c.process_step L next = { c with
          engine := p.engine, loop := next, processed := c.processed ++ [L.msg c.msg] } := by
  unfold Config.process_step
  split
  · exact .inl rfl
  · next p hp => exact .inr ⟨p, hp, rfl⟩

/-- `stop` touches its own state and the flag, and nothing else. -/
theorem stop_step_eq (c : Config α W) :
    ∃ running stop, c.stop_step = { c with running := running, stop := stop } := by
  unfold Config.stop_step
  split
  · exact ⟨false, .joining, rfl⟩
  · split
    · exact ⟨c.running, .returned, rfl⟩
    · exact ⟨c.running, c.stop, rfl⟩
  · exact ⟨c.running, c.stop, rfl⟩

end steps

/-! ## Section 3: The invariant -/

variable (L : Layout α W) (C : Capacity)

/-- The polling loop has counted what it has processed. -/
def Counted (c : Config α W) : Prop :=
  ¬ c.loop.Drains →
    c.engine.stat_messages + (if c.loop = .counting then 1 else 0) = .ofNat c.processed.length

structure Inv (c : Config α W) : Prop where
  queue : Spsc.Consistent C c.inbound
  processed : c.processed ++ c.hand L = c.inbound.popped.map L.msg
  running : c.running = true ↔ c.stop = .idle
  leaving : c.loop.Drains → c.running = false
  joined : c.stop = .returned → c.loop = .done
  counted : Counted c

variable {L C} {c : Config α W}

theorem inv_start (mem : Nat → Item α W) (msg : Item α W) {engine : MatchingEngine}
    (h : engine.stat_messages = 0) : Inv L C (start mem msg engine) where
  queue := ⟨[], Spsc.inv_start mem⟩
  processed := rfl
  running := by simp [start]
  leaving := fun h => absurd h (by simp [start, LoopPc.Drains])
  joined := fun h => by cases h
  counted := fun _ => by simp [start, h]

theorem process_message_counts {e : MatchingEngine} {msg : MarketDataMsg} {p : Processed}
    (h : e.process_message msg = some p) : p.engine.stat_messages = e.stat_messages := by
  rcases process_message_cases h with ⟨_, heq⟩ | ⟨book, op, r, _, _, _, rfl⟩
  · rw [heq]
  · obtain ⟨outbound, stat_matches, heq⟩ := foldl_on_execution_eq r.1.reports
      { e with
        next_order_id := next_of e.next_order_id msg
        books := Function.update e.books msg.symbol (some r.2) }
    rw [finish, heq]

/-- A step of the producer. -/
theorem Inv.submit (h : Inv L C c) (item : Item α W) :
    Inv L C { c with inbound := c.inbound.producer_step C item } := by
  obtain ⟨hqueue, hpopped, _⟩ := push_cases h.queue item
  refine ⟨hqueue, ?_, h.running, h.leaving, h.joined, h.counted⟩
  show c.processed ++ c.hand L = _
  rw [hpopped]
  exact h.processed

/-- The engine thread moves inside one of its loops, with nothing to count. -/
theorem Inv.move (h : Inv L C c) {inbound : Spsc.Config α W} (msg : Item α W) (loop : LoopPc)
    (hqueue : Spsc.Consistent C inbound)
    (hprocessed : c.processed ++ { c with inbound := inbound, msg := msg, loop := loop }.hand L =
      inbound.popped.map L.msg)
    (hdrains : loop.Drains ↔ c.loop.Drains) (hdone : c.loop ≠ .done)
    (hcounting : c.loop ≠ .counting) (hcounting' : loop ≠ .counting) :
    Inv L C { c with inbound := inbound, msg := msg, loop := loop } where
  queue := hqueue
  processed := hprocessed
  running := h.running
  leaving := fun hd => h.leaving (hdrains.mp hd)
  joined := fun hr => absurd (h.joined hr) hdone
  counted := by
    intro hd
    have hcount := h.counted (mt hdrains.mpr hd)
    rw [if_neg hcounting] at hcount
    rw [if_neg hcounting']
    exact hcount

/-- What a step of `try_pop` leaves, in either loop. -/
theorem pop_step_cases (h : Spsc.Consistent C c.inbound) (popped empty : LoopPc) :
    let q := c.inbound.consumer_step C c.msg
    c.pop_step C popped empty = { c with inbound := q } ∧ q.popped = c.inbound.popped ∨
      c.pop_step C popped empty = { c with inbound := q, loop := empty } ∧
        q.popped = c.inbound.popped ∧ c.inbound.popped = c.inbound.pushed ∨
      ∃ x, c.pop_step C popped empty = { c with inbound := q, msg := x, loop := popped } ∧
        q.popped = c.inbound.popped ++ [x] := by
  intro q
  obtain ⟨_, _, hcases⟩ := pop_cases h c.msg
  unfold Config.pop_step
  rcases hcases with ⟨hres, hpopped⟩ | ⟨hres, hpopped, hall⟩ | ⟨x, hres, hpopped⟩
  · exact .inl ⟨by simp only [hres, q], hpopped⟩
  · exact .inr (.inl ⟨by simp only [hres, q], hpopped, hall⟩)
  · exact .inr (.inr ⟨x, by simp only [hres, q], hpopped⟩)

/-- A step of `try_pop`, in either loop. -/
theorem Inv.pop (h : Inv L C c) {popped empty : LoopPc}
    (hloop : c.loop = .popping ∧ popped = .processing ∧ empty = .test ∨
      c.loop = .draining ∧ popped = .drain_processing ∧ empty = .done) :
    Inv L C (c.pop_step C popped empty) := by
  obtain ⟨hqueue, _, _⟩ := pop_cases h.queue c.msg
  have hnone : c.hand L = [] := by
    unfold Config.hand
    rcases hloop with ⟨hl, _⟩ | ⟨hl, _⟩ <;> simp [hl]
  have hprocessed := h.processed
  rw [hnone, List.append_nil] at hprocessed
  rcases pop_step_cases h.queue popped empty with
    ⟨heq, hpopped⟩ | ⟨heq, hpopped, _⟩ | ⟨x, heq, hpopped⟩
  · rw [heq]
    refine h.move c.msg c.loop hqueue ?_ .rfl ?_ ?_ ?_
    · rw [hpopped]
      exact h.processed
    all_goals rcases hloop with ⟨hl, _⟩ | ⟨hl, _⟩ <;> simp [hl]
  · rw [heq]
    refine h.move c.msg empty hqueue ?_ ?_ ?_ ?_ ?_
    · rw [hpopped, ← hprocessed]
      rcases hloop with ⟨_, _, rfl⟩ | ⟨_, _, rfl⟩ <;> simp [Config.hand]
    all_goals rcases hloop with ⟨hl, rfl, rfl⟩ | ⟨hl, rfl, rfl⟩ <;> simp [hl, LoopPc.Drains]
  · rw [heq]
    refine h.move x popped hqueue ?_ ?_ ?_ ?_ ?_
    · rw [hpopped, List.map_append, ← hprocessed]
      rcases hloop with ⟨_, rfl, _⟩ | ⟨_, rfl, _⟩ <;> simp [Config.hand]
    all_goals rcases hloop with ⟨hl, rfl, rfl⟩ | ⟨hl, rfl, rfl⟩ <;> simp [hl, LoopPc.Drains]

/-- A message is processed, in either loop. -/
theorem Inv.process (h : Inv L C c) {next : LoopPc}
    (hloop : c.loop = .processing ∧ next = .counting ∨
      c.loop = .drain_processing ∧ next = .draining) :
    Inv L C (c.process_step L next) := by
  have hhand : c.hand L = [L.msg c.msg] := by
    unfold Config.hand
    rcases hloop with ⟨hl, _⟩ | ⟨hl, _⟩ <;> simp [hl]
  have hprocessed := h.processed
  rw [hhand] at hprocessed
  rcases process_step_cases (L := L) c next with heq | ⟨p, hp, heq⟩
  · rw [heq]
    exact h
  · rw [heq]
    refine ⟨h.queue, ?_, h.running, ?_, ?_, ?_⟩
    · rw [← hprocessed]
      rcases hloop with ⟨_, rfl⟩ | ⟨_, rfl⟩ <;> simp [Config.hand]
    · intro hd
      rcases hloop with ⟨_, rfl⟩ | ⟨hl, _⟩
      · exact absurd hd (by simp [LoopPc.Drains])
      · exact h.leaving (by simp [hl, LoopPc.Drains])
    · intro hr
      have hdone := h.joined hr
      rcases hloop with ⟨hl, _⟩ | ⟨hl, _⟩ <;> simp [hl] at hdone
    · intro hd
      rcases hloop with ⟨hl, rfl⟩ | ⟨_, rfl⟩
      · have hcount := h.counted (by simp [hl, LoopPc.Drains])
        simp only [hl, reduceCtorEq, if_false, UInt64.add_zero] at hcount
        simp [process_message_counts hp, hcount]
      · exact absurd trivial hd

theorem Inv.loop_step (h : Inv L C c) : Inv L C (c.loop_step L C) := by
  unfold Config.loop_step
  split
  · next hl =>
    -- the only place where the polling loop may end
    have hcount := h.counted (by simp [hl, LoopPc.Drains])
    refine ⟨h.queue, ?_, h.running, ?_, ?_, ?_⟩
    · have hprocessed := h.processed
      cases hrun : c.running <;> simpa [Config.hand, hl] using hprocessed
    · intro hd
      cases hrun : c.running with
      | false => rfl
      | true => simp [hrun, LoopPc.Drains] at hd
    · intro hr
      simp [h.joined hr] at hl
    · intro _
      cases hrun : c.running <;> simpa [hl] using hcount
  · next hl => exact h.pop (.inl ⟨hl, rfl, rfl⟩)
  · next hl => exact h.process (.inl ⟨hl, rfl⟩)
  · next hl =>
    have hcount := h.counted (by simp [hl, LoopPc.Drains])
    refine ⟨h.queue, ?_, h.running, ?_, ?_, ?_⟩
    · have hprocessed := h.processed
      simpa [Config.hand, hl] using hprocessed
    · exact fun hd => absurd hd (by simp [LoopPc.Drains])
    · intro hr
      simp [h.joined hr] at hl
    · intro _
      simpa [hl] using hcount
  · next hl => exact h.pop (.inr ⟨hl, rfl, rfl⟩)
  · next hl => exact h.process (.inr ⟨hl, rfl⟩)
  · exact h

theorem Inv.stop_step (h : Inv L C c) : Inv L C c.stop_step := by
  unfold Config.stop_step
  split
  · next hs => exact ⟨h.queue, h.processed, by simp, fun _ => rfl, by simp, h.counted⟩
  · next hs =>
    split
    · next hdone =>
      refine ⟨h.queue, h.processed, ?_, h.leaving, fun _ => hdone, h.counted⟩
      simp [h.leaving (by simp [hdone, LoopPc.Drains])]
    · exact h
  · exact h

theorem Inv.step (h : Inv L C c) (turn : Turn) : Inv L C (c.step L C turn) := by
  cases turn with
  | submit msg => exact h.submit (L.words msg)
  | loop => exact h.loop_step
  | stop => exact h.stop_step

theorem inv_run (h : Inv L C c) (schedule : List Turn) : Inv L C (c.run L C schedule) :=
  foldl_keeps (fun _ turn hc => hc.step turn) h schedule

/-! ## Section 4: After the polling loop -/

/-- A step leaves the queue alone, or is one of the producer's or of a pop. -/
theorem step_inbound (c : Config α W) (turn : Turn) :
    (c.step L C turn).inbound = c.inbound ∨
      (∃ msg, (c.step L C turn).inbound = c.inbound.producer_step C (L.words msg)) ∨
      (c.step L C turn).inbound = c.inbound.consumer_step C c.msg := by
  have hpop : ∀ popped empty,
      (c.pop_step C popped empty).inbound = c.inbound.consumer_step C c.msg := by
    intro popped empty
    obtain ⟨_, _, _, heq⟩ := pop_step_eq (C := C) c popped empty
    rw [heq]
  have hprocess : ∀ next, (c.process_step L next).inbound = c.inbound := by
    intro next
    rcases process_step_cases (L := L) c next with heq | ⟨p, _, heq⟩
    · rw [heq]
    · rw [heq]
  cases turn with
  | submit msg => exact .inr (.inl ⟨msg, rfl⟩)
  | loop =>
    show (c.loop_step L C).inbound = _ ∨ _ ∨ (c.loop_step L C).inbound = _
    unfold Config.loop_step
    split
    · exact .inl rfl
    · exact .inr (.inr (hpop _ _))
    · exact .inl (hprocess _)
    · exact .inl rfl
    · exact .inr (.inr (hpop _ _))
    · exact .inl (hprocess _)
    · exact .inl rfl
  | stop =>
    obtain ⟨running, stop, heq⟩ := stop_step_eq c
    left
    rw [Config.step, heq]

/-- No `submit` is taken back. -/
theorem Inv.pushed_step (h : Inv L C c) (turn : Turn) :
    c.inbound.pushed <+: (c.step L C turn).inbound.pushed := by
  rcases step_inbound (L := L) (C := C) c turn with heq | ⟨msg, heq⟩ | heq
  · rw [heq]
  · rw [heq]
    exact (push_cases h.queue (L.words msg)).2.2
  · rw [heq, (pop_cases h.queue c.msg).2.1]

theorem Inv.pushed_run (schedule : List Turn) :
    ∀ {c : Config α W}, Inv L C c → c.inbound.pushed <+: (c.run L C schedule).inbound.pushed := by
  induction schedule with
  | nil => exact fun _ => List.prefix_rfl
  | cons turn schedule ih => exact fun h => (h.pushed_step turn).trans (ih (h.step turn))

/-- The polling loop ended with `n` messages counted and `k` submitted. -/
structure Draining (L : Layout α W) (C : Capacity) (n : UInt64) (k : Nat) (c : Config α W) :
    Prop where
  inv : Inv L C c
  drains : c.loop.Drains
  counted : c.engine.stat_messages = n
  submitted : k ≤ c.inbound.pushed.length
  /-- With nothing submitted since, the thread ends with an empty queue. -/
  emptied : c.inbound.pushed.length ≤ k → c.loop = .done → c.inbound.popped = c.inbound.pushed

/-- The engine thread on its way through the drain loop. -/
theorem Draining.loop_step {n : UInt64} {k : Nat} (h : Draining L C n k c) :
    Draining L C n k (c.loop_step L C) := by
  have hinv := h.inv.loop_step
  have hk := Nat.le_trans h.submitted (h.inv.pushed_step .loop).length_le
  change k ≤ (c.loop_step L C).inbound.pushed.length at hk
  have hdrains := h.drains
  unfold Config.loop_step at hinv hk ⊢
  cases hl : c.loop with
  | test | popping | processing | counting =>
    rw [hl] at hdrains
    exact absurd hdrains id
  | draining =>
    simp only [hl] at hinv hk ⊢
    rcases pop_step_cases h.inv.queue .drain_processing .done with
      ⟨heq, _⟩ | ⟨heq, hpopped, hall⟩ | ⟨x, heq, _⟩
    · rw [heq] at hinv hk ⊢
      exact ⟨hinv, h.drains, h.counted, hk, fun _ hdone => by simp [hl] at hdone⟩
    · rw [heq] at hinv hk ⊢
      refine ⟨hinv, trivial, h.counted, hk, fun _ _ => ?_⟩
      show (c.inbound.consumer_step C c.msg).popped = (c.inbound.consumer_step C c.msg).pushed
      rw [hpopped, hall, (pop_cases h.inv.queue c.msg).2.1]
    · rw [heq] at hinv hk ⊢
      exact ⟨hinv, trivial, h.counted, hk, fun _ hdone => by cases hdone⟩
  | drain_processing =>
    simp only [hl] at hinv hk ⊢
    rcases process_step_cases (L := L) c .draining with heq | ⟨p, hp, heq⟩
    · rw [heq]
      exact h
    · rw [heq] at hinv hk ⊢
      refine ⟨hinv, trivial, ?_, hk, fun _ hdone => by cases hdone⟩
      exact (process_message_counts hp).trans h.counted
  | done =>
    simp only
    exact h

theorem Draining.step {n : UInt64} {k : Nat} (h : Draining L C n k c) (turn : Turn) :
    Draining L C n k (c.step L C turn) := by
  have hprefix := h.inv.pushed_step turn
  have hinv := h.inv.step turn
  cases turn with
  | submit msg =>
    refine ⟨hinv, h.drains, h.counted, Nat.le_trans h.submitted hprefix.length_le, ?_⟩
    intro hle hdone
    -- nothing was pushed, so the two ends are where they were
    have hsame := hprefix.eq_of_length_le (Nat.le_trans hle h.submitted)
    have hpopped : (c.step L C (.submit msg)).inbound.popped = c.inbound.popped :=
      (push_cases h.inv.queue (L.words msg)).2.1
    rw [hpopped, ← hsame]
    exact h.emptied (Nat.le_trans hprefix.length_le hle) hdone
  | loop => exact h.loop_step
  | stop =>
    obtain ⟨running, stop, heq⟩ := stop_step_eq c
    rw [Config.step, heq] at hinv ⊢
    exact ⟨hinv, h.drains, h.counted, h.submitted, h.emptied⟩

theorem ofNat_eq_add_iff {a b : Nat} (hb : b < 2 ^ 64) :
    UInt64.ofNat a = .ofNat (a + b) ↔ b = 0 := by
  rw [← UInt64.toNat_inj, UInt64.toNat_ofNat', UInt64.toNat_ofNat']
  omega

/-- The rest of a run, from the step on that leaves the polling loop.  What is
    in the queue then is processed and not counted. -/
theorem Inv.leave (h : Inv L C c) (hleaves : c.Leaves) (post : List Turn) :
    let c' := c.run L C (.loop :: post)
    c'.stop = .returned → c'.inbound.pushed.length ≤ c.inbound.pushed.length →
    c'.processed = c'.submitted L ∧
      (c'.engine.stat_messages = .ofNat (c'.submitted L).length ↔
        c.inbound.queue.contents C = []) := by
  intro c' hreturned hlate
  obtain ⟨hl, hrun⟩ := hleaves
  have hstep : c.step L C .loop = { c with loop := .draining } := by
    show c.loop_step L C = _
    unfold Config.loop_step
    rw [hl]
    simp [hrun]
  have hfirst : Draining L C c.engine.stat_messages c.inbound.pushed.length
      (c.step L C .loop) := by
    have hinv := h.step .loop
    rw [hstep] at hinv ⊢
    exact ⟨hinv, trivial, rfl, Nat.le_refl _, fun _ hdone => by cases hdone⟩
  have hend : Draining L C c.engine.stat_messages c.inbound.pushed.length c' :=
    foldl_keeps (fun _ turn hd => hd.step turn) hfirst post
  have hdone := hend.inv.joined hreturned
  have hall := hend.emptied hlate hdone
  have hprocessed : c'.processed = c'.submitted L := by
    have hhand : c'.hand L = [] := by simp [Config.hand, hdone]
    have hp := hend.inv.processed
    rw [hhand, List.append_nil, hall] at hp
    exact hp
  refine ⟨hprocessed, ?_⟩
  -- when the loop ended, exactly what had been popped was counted
  obtain ⟨items, hq⟩ := h.queue
  have hcount := h.counted (by simp [hl, LoopPc.Drains])
  have hpopped : c.processed.length = c.inbound.popped.length := by
    have hhand : c.hand L = [] := by simp [Config.hand, hl]
    have hp := h.processed
    rw [hhand, List.append_nil] at hp
    rw [hp, List.length_map]
  have hlength : (c'.submitted L).length = c.inbound.popped.length + items.length := by
    rw [Config.submitted, List.length_map, Nat.le_antisymm hlate hend.submitted, ← hq.history,
      List.length_append]
  have hfits : items.length < 2 ^ 64 := Nat.lt_trans hq.holds.length_lt C.fits
  simp only [hl, reduceCtorEq, if_false, UInt64.add_zero] at hcount
  rw [hend.counted, hcount, hlength, hpopped, ofNat_eq_add_iff hfits, hq.holds.contents_eq,
    List.length_eq_zero_iff]

/-- The polling loop ends nowhere else. -/
theorem leaves_of_drains {turn : Turn} (h : ¬ c.loop.Drains)
    (h' : (c.step L C turn).loop.Drains) : turn = .loop ∧ c.Leaves := by
  cases turn with
  | submit msg => exact absurd h' h
  | stop =>
    obtain ⟨running, stop, heq⟩ := stop_step_eq c
    rw [Config.step, heq] at h'
    exact absurd h' h
  | loop =>
    refine ⟨rfl, ?_⟩
    change (c.loop_step L C).loop.Drains at h'
    unfold Config.loop_step at h'
    split at h'
    · next hl =>
      refine ⟨hl, ?_⟩
      cases hrun : c.running with
      | false => rfl
      | true => simp [hrun, LoopPc.Drains] at h'
    · exfalso
      obtain ⟨_, loop, hloop, heq⟩ := pop_step_eq (C := C) c .processing .test
      rw [heq] at h'
      rcases hloop with rfl | rfl | rfl
      · exact h h'
      · exact h'
      · exact h'
    · exfalso
      rcases process_step_cases (L := L) c .counting with heq | ⟨p, _, heq⟩
      · rw [heq] at h'
        exact h h'
      · rw [heq] at h'
        exact h'
    · exact absurd h' id
    · next hl => exact absurd (by rw [hl]; trivial) h
    · next hl => exact absurd (by rw [hl]; trivial) h
    · next hl => exact absurd (by rw [hl]; trivial) h

theorem exists_leaves {schedule : List Turn} (h : ¬ c.loop.Drains)
    (hend : (c.run L C schedule).loop.Drains) :
    ∃ pre post, schedule = pre ++ .loop :: post ∧ (c.run L C pre).Leaves := by
  let Keeps (c : Config α W) := c.loop.Drains
  have hcross : ∃ pre turn post, schedule = pre ++ turn :: post ∧ ¬ Keeps (c.run L C pre) ∧
      Keeps ((c.run L C pre).step L C turn) := exists_crossing schedule h hend
  obtain ⟨pre, turn, post, heq, hpre, hpost⟩ := hcross
  obtain ⟨rfl, hleaves⟩ := leaves_of_drains hpre hpost
  exact ⟨pre, post, heq, hleaves⟩

/-! ## Section 5: Whole runs -/

/-- What is in the queue came in through `submit`. -/
structure Written (L : Layout α W) (q : Spsc.Config α W) : Prop where
  pushed : ∀ x ∈ q.pushed, ∃ m, L.words m = x
  loaded : ∀ x wp, q.producer = .loaded x wp → ∃ m, L.words m = x
  writing : ∀ x wp next i, q.producer = .writing x wp next i → ∃ m, L.words m = x

theorem Written.submit {q : Spsc.Config α W} (h : Written L q) (msg : MarketDataMsg) :
    Written L (q.producer_step C (L.words msg)) := by
  unfold Spsc.Config.producer_step
  split
  · refine ⟨h.pushed, ?_, by simp⟩
    rintro x wp heq
    simp only [Spsc.ProducerPc.loaded.injEq] at heq
    exact ⟨msg, heq.1⟩
  · next x wp hpc =>
    simp only
    split
    · refine ⟨?_, by simp, by simp⟩
      intro y hy
      exact h.pushed y (by simpa [Spsc.Config.pushed] using hy)
    · refine ⟨h.pushed, by simp, ?_⟩
      intro y wp' next i heq
      simp only [Spsc.ProducerPc.writing.injEq] at heq
      exact heq.1 ▸ h.loaded x wp hpc
  · next x wp next i hpc =>
    split
    · refine ⟨h.pushed, by simp, ?_⟩
      intro y wp' next' j heq
      simp only [Spsc.ProducerPc.writing.injEq] at heq
      exact heq.1 ▸ h.writing x wp next i hpc
    · refine ⟨?_, by simp, by simp⟩
      intro y hy
      have hcases : y ∈ q.pushed ∨ y = x := by simpa [Spsc.Config.pushed] using hy
      rcases hcases with hy | rfl
      · exact h.pushed y hy
      · exact h.writing y wp next i hpc

theorem Written.pop {q : Spsc.Config α W} (h : Written L q) (out : Item α W) :
    Written L (q.consumer_step C out) := by
  have hproducer : (q.consumer_step C out).producer = q.producer := by
    unfold Spsc.Config.consumer_step
    split
    · rfl
    · split
      · rfl
      · rfl
    · split
      · rfl
      · rfl
  have hpushed : (q.consumer_step C out).pushed = q.pushed := by
    rcases Spsc.consumer_step_returns (C := C) q out with heq | ⟨x, heq⟩
    · simp [Spsc.Config.pushed, heq]
    · simp [Spsc.Config.pushed, heq]
  refine ⟨?_, ?_, ?_⟩
  · rw [hpushed]
    exact h.pushed
  · rw [hproducer]
    exact h.loaded
  · rw [hproducer]
    exact h.writing

theorem Written.step (h : Written L c.inbound) (turn : Turn) :
    Written L (c.step L C turn).inbound := by
  rcases step_inbound (L := L) (C := C) c turn with heq | ⟨msg, heq⟩ | heq
  · rw [heq]
    exact h
  · rw [heq]
    exact h.submit msg
  · rw [heq]
    exact h.pop c.msg

theorem written_run (schedule : List Turn) (h : Written L c.inbound) :
    Written L (c.run L C schedule).inbound := by
  let Keeps (c : Config α W) := Written L c.inbound
  have hstep : ∀ (c : Config α W) (turn : Turn), Keeps c → Keeps (c.step L C turn) :=
    fun _ turn hc => Written.step hc turn
  exact foldl_keeps hstep h schedule

/-- The words in the queue are those of the messages submitted. -/
theorem Written.submitted (h : Written L c.inbound) :
    c.inbound.pushed = (c.submitted L).map L.words := by
  unfold Config.submitted
  have hword : ∀ x ∈ c.inbound.pushed, (L.words ∘ L.msg) x = id x := by
    intro x hx
    obtain ⟨m, rfl⟩ := h.pushed x hx
    rw [Function.comp_apply, L.msg_words, id]
  rw [List.map_map, List.map_congr_left hword, List.map_id]

theorem loop_step_stop (c : Config α W) : (c.loop_step L C).stop = c.stop := by
  have hpop : ∀ popped empty, (c.pop_step C popped empty).stop = c.stop := by
    intro popped empty
    obtain ⟨_, _, _, heq⟩ := pop_step_eq (C := C) c popped empty
    rw [heq]
  have hprocess : ∀ next, (c.process_step L next).stop = c.stop := by
    intro next
    rcases process_step_cases (L := L) c next with heq | ⟨p, _, heq⟩
    · rw [heq]
    · rw [heq]
  unfold Config.loop_step
  split
  · rfl
  · exact hpop _ _
  · exact hprocess _
  · rfl
  · exact hpop _ _
  · exact hprocess _
  · rfl

/-- Without a call of `stop`, nobody stops the engine. -/
theorem run_stop (schedule : List Turn) (hnone : ∀ turn ∈ schedule, turn ≠ .stop) :
    ∀ c : Config α W, (c.run L C schedule).stop = c.stop := by
  induction schedule with
  | nil => exact fun c => rfl
  | cons turn schedule ih =>
    intro c
    obtain ⟨hturn, hrest⟩ := List.forall_mem_cons.mp hnone
    have hstep : (c.step L C turn).stop = c.stop := by
      cases turn with
      | submit msg => rfl
      | loop => exact loop_step_stop c
      | stop => exact absurd rfl hturn
    exact (ih hrest _).trans hstep

theorem run_append (c : Config α W) (before after : List Turn) :
    c.run L C (before ++ after) = (c.run L C before).run L C after := List.foldl_append

theorem register_symbols_counts (mem : MatchingEngine) (books : SymbolId → OrderBook)
    (ids : List SymbolId) : (register_symbols mem books ids).stat_messages = 0 := by
  have hstep : ∀ (e : MatchingEngine) id, e.stat_messages = 0 →
      (e.register_symbol (books id) id).1.stat_messages = 0 := by
    intro e id h
    unfold MatchingEngine.register_symbol
    split
    · exact h
    · split
      · exact h
      · exact h
  exact foldl_keeps hstep (s := fresh mem) rfl ids

/-- Let `stop` be called after `before`, return, and no `submit` succeed since
    the call.  Then every message submitted has been processed, once and in
    order; and their number is the statistic exactly if nothing is in the
    queue when the polling loop ends. -/
theorem shutdown_accounting_iff (L : Layout α W) (C : Capacity) (mem : Nat → Item α W)
    (msg : Item α W) (engine : MatchingEngine) (books : SymbolId → OrderBook)
    (ids : List SymbolId) (before after : List Turn) (hone : ∀ turn ∈ before, turn ≠ .stop) :
    let run := (start mem msg (register_symbols engine books ids)).run L C
    let c := run (before ++ .stop :: after)
    c.stop = .returned → c.inbound.pushed = (run before).inbound.pushed →
    c.inbound.pushed = (c.submitted L).map L.words ∧ c.processed = c.submitted L ∧
      (c.engine.stat_messages = .ofNat (c.submitted L).length ↔
        ∀ pre post, before ++ .stop :: after = pre ++ .loop :: post → (run pre).Leaves →
          (run pre).inbound.queue.contents C = []) := by
  intro run c hreturned hlate
  have hinv : ∀ schedule, Inv L C (run schedule) :=
    inv_run (inv_start mem msg (register_symbols_counts engine books ids))
  have hwritten : Written L c.inbound :=
    written_run _ ⟨fun _ hx => absurd hx List.not_mem_nil, nofun, nofun⟩
  -- the polling loop ends after the call of `stop`, and with it the submissions
  have hsince : ∀ pre post, before ++ .stop :: after = pre ++ .loop :: post → (run pre).Leaves →
      c.processed = c.submitted L ∧
        (c.engine.stat_messages = .ofNat (c.submitted L).length ↔
          (run pre).inbound.queue.contents C = []) := by
    intro pre post heq hleaves
    have hc : c = (run pre).run L C (.loop :: post) := by
      show run _ = _
      rw [heq]
      exact run_append _ pre (.loop :: post)
    have hbefore : ∃ more, pre = before ++ more := by
      rcases List.append_eq_append_iff.mp heq with ⟨more, hpre, _⟩ | ⟨more, hbefore, _⟩
      · exact ⟨more, hpre⟩
      · exfalso
        have hidle : (run pre).stop = .idle :=
          run_stop pre (fun turn ht => hone turn (by rw [hbefore]; simp [ht])) _
        have hrunning := (hinv pre).running.mpr hidle
        rw [hleaves.2] at hrunning
        cases hrunning
    obtain ⟨more, hmore⟩ := hbefore
    have hpushed : (run before).inbound.pushed.length ≤ (run pre).inbound.pushed.length := by
      rw [hmore]
      show _ ≤ ((start mem msg _).run L C (before ++ more)).inbound.pushed.length
      rw [run_append]
      exact ((hinv before).pushed_run more).length_le
    have hspec := (hinv pre).leave hleaves post
    rw [← hc] at hspec
    exact hspec hreturned (by rw [hlate]; exact hpushed)
  have hdrains : c.loop.Drains := by
    have hdone : c.loop = .done := (hinv _).joined hreturned
    rw [hdone]
    trivial
  have hpolling : ¬ (start mem msg (register_symbols engine books ids)).loop.Drains := id
  obtain ⟨pre, post, heq, hleaves⟩ := exists_leaves hpolling hdrains
  obtain ⟨hprocessed, hcount⟩ := hsince pre post heq hleaves
  refine ⟨hwritten.submitted, hprocessed, ?_, ?_⟩
  · intro hstat pre' post' heq' hleaves'
    exact (hsince pre' post' heq' hleaves').2.mp hstat
  · intro hempty
    exact hcount.mpr (hempty pre post heq hleaves)

/-- A message that is copied as one word. -/
def oneWord : Layout MarketDataMsg 1 where
  words := fun m => #v[m]
  msg := fun v => v[0]
  msg_words := fun _ => rfl

def heartbeat : MarketDataMsg := ⟨1, 0, 0, 0, 0, .Buy, .Heartbeat, .Limit⟩

/-- An engine with one symbol, from its start. -/
def engineRun : List Turn → Config MarketDataMsg 1 :=
  (start (fun _ => #v[heartbeat]) #v[heartbeat]
    (register_symbols zeroed (fun _ => OrderBook.zeroed) [0])).run oneWord kQueueDepth

/-- The four steps of a `submit`. -/
def submitHeartbeat : List Turn := List.replicate 4 (.submit heartbeat)

/-- The engine thread runs after the call of `stop` only, then `stop` returns. -/
def drainAndJoin : List Turn := List.replicate 10 .loop ++ [.stop]

/-- A heartbeat is submitted before `stop` is called, and drained: it has been
    processed, but not counted. -/
theorem drained_message_not_counted :
    let c := engineRun (submitHeartbeat ++ .stop :: drainAndJoin)
    c.stop = .returned ∧ c.inbound.pushed = (engineRun submitHeartbeat).inbound.pushed ∧
      c.submitted oneWord = [heartbeat] ∧ c.processed = [heartbeat] ∧
      c.engine.stat_messages = 0 ∧
      c.engine.stat_messages ≠ .ofNat (c.submitted oneWord).length := by
  refine ⟨?_, ?_, ?_, ?_, ?_, ?_⟩ <;> decide +kernel

/-- The engine thread gets to run before the call: the heartbeat is counted,
    and the polling loop leaves nothing behind. -/
theorem polled_message_counted :
    let before := submitHeartbeat ++ List.replicate 10 .loop
    let c := engineRun (before ++ .stop :: drainAndJoin)
    c.processed = c.submitted oneWord ∧ c.engine.stat_messages = 1 ∧
      ∀ pre post, before ++ .stop :: drainAndJoin = pre ++ .loop :: post →
        (engineRun pre).Leaves → (engineRun pre).inbound.queue.contents kQueueDepth = [] := by
  intro before c
  have hcounted : c.engine.stat_messages = 1 := by decide +kernel
  have hall : c.engine.stat_messages = .ofNat (c.submitted oneWord).length := by decide +kernel
  have hone : ∀ turn ∈ before, turn ≠ .stop := by
    simp [before, submitHeartbeat]
  obtain ⟨_, hprocessed, hiff⟩ := shutdown_accounting_iff oneWord kQueueDepth
    (fun _ => #v[heartbeat]) #v[heartbeat] zeroed (fun _ => OrderBook.zeroed) [0] before
    drainAndJoin hone (by decide +kernel) (by decide +kernel)
  exact ⟨hprocessed, hcounted, hiff.mp hall⟩

end Shutdown

end OptionsEngine
