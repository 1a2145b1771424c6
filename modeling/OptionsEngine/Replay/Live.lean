import OptionsEngine.MatchingEngine.Pipeline
import OptionsEngine.Replay.RoundTrip

/-! # A replay against the running engine

    `replay` reads its trace on one thread while the engine thread processes.
    Its calls of `submit` and `poll_report` are cut into their atomic steps and
    interleaved with `run_loop` and `stop`; what they are answered is now the
    engine's doing, and makes the environment that `replay` runs in.

    * `Replays`: what a step of the replaying thread can do.
    * `Inv`: what the thread has counted is what went through the two queues.
    * `replayed_session`: a recorded session, replayed and stopped, leaves the
      books of the messages that were not skipped, one after the other; and none
      is skipped if the inbound queue was never full. -/

namespace OptionsEngine

open Ring Loop MatchingEngine

namespace OrderFlowReplay

namespace Live

open Worker (Layout)

/-! ## Section 1: Model -/

/-- Where the replaying thread stands. -/
inductive Pc where
  /-- In this attempt to submit the next event. -/
  | submitting (spin : Nat)
  /-- In the `poll_report` after the attempt that was accepted. -/
  | polling (spin : Nat)
  /-- In a `poll_report` of the last loop. -/
  | draining
  | returned
  deriving DecidableEq

/-- The readings of the clock for one event, and the spurious failures while its
    latency is recorded. -/
structure Clock where
  now : UInt64
  t0 : UInt64
  done : UInt64
  spurious : Nat

/-- The answers for one event: the attempt that was accepted, if one was, and
    whether there was a report. -/
def Clock.answers (c : Clock) (accepted : Option Nat) (poll_report : Bool) : Answers :=
  ⟨c.now, c.t0, c.done, fun spin => accepted == some spin, poll_report, c.spurious⟩

structure State (α β : Type) (W V : Nat) where
  engine : Pipeline.Config α β W V
  pc : Pc
  /-- The events that are not over. -/
  rest : List TraceEvent
  /-- The events that are over, with the answers for each. -/
  past : List (TraceEvent × Answers)
  /-- The reports of the last loop. -/
  drained : Nat

/-- Whose turn it is. -/
inductive Turn (β : Type) (V : Nat) where
  /-- The replaying thread, with what its report variable holds. -/
  | replay (rpt : Item β V)
  | loop
  | stop

variable {α β : Type} {W V : Nat}

namespace State

variable (Lin : Layout MarketDataMsg α W) (Lout : Layout ExecutionReport β V)
  (cfg : Config) (clock : Nat → Clock)

/-- The event is done with, and the loop goes on with the next one. -/
def finish (s : State α β W V) (ev : TraceEvent) (accepted : Option Nat) (poll_report : Bool) :
    State α β W V :=
  { s with
    pc := .submitting 0
    rest := s.rest.tail
    past := s.past ++ [(ev, (clock s.past.length).answers accepted poll_report)] }

def submit_step (s : State α β W V) (ev : TraceEvent) (spin : Nat) : State α β W V :=
  let engine := s.engine.step Lin Lout (.submit (trace_event_to_msg ev))
  match Spsc.returned s.engine.inbound engine.inbound with
  | some (.push _ true) =>
    if UInt64.ofNat s.past.length ≥ cfg.warmup_events.toUInt64 then
      { s with engine := engine, pc := .polling spin }
    else { s with engine := engine }.finish clock ev (some spin) false
  | some (.push _ false) =>
    if spin + 1 < 1000 then { s with engine := engine, pc := .submitting (spin + 1) }
    else { s with engine := engine }.finish clock ev none false
  | _ => { s with engine := engine }

def poll_step (s : State α β W V) (ev : TraceEvent) (spin : Nat) (rpt : Item β V) :
    State α β W V :=
  let engine := s.engine.step Lin Lout (.poll rpt)
  match Spsc.returned s.engine.outbound engine.outbound with
  | some (.pop out) => { s with engine := engine }.finish clock ev (some spin) out.isSome
  | _ => { s with engine := engine }

def drain_step (s : State α β W V) (rpt : Item β V) : State α β W V :=
  let engine := s.engine.step Lin Lout (.poll rpt)
  match Spsc.returned s.engine.outbound engine.outbound with
  | some (.pop (some _)) => { s with engine := engine, drained := s.drained + 1 }
  | some (.pop none) => { s with engine := engine, pc := .returned }
  | _ => { s with engine := engine }

/-- No event is left. -/
def leave (s : State α β W V) : State α β W V := { s with pc := .draining }

/-- One step of the replaying thread. -/
def replay_step (s : State α β W V) (rpt : Item β V) : State α β W V :=
  match s.pc, s.rest with
  | .submitting spin, ev :: _ => s.submit_step Lin Lout cfg clock ev spin
  | .polling spin, ev :: _ => s.poll_step Lin Lout clock ev spin rpt
  | .submitting _, [] | .polling _, [] => s.leave
  | .draining, _ => s.drain_step Lin Lout rpt
  | .returned, _ => s

def step (s : State α β W V) : Turn β V → State α β W V
  | .replay rpt => s.replay_step Lin Lout cfg clock rpt
  | .loop => { s with engine := s.engine.step Lin Lout .loop }
  | .stop => { s with engine := s.engine.step Lin Lout .stop }

def run (s : State α β W V) (schedule : List (Turn β V)) : State α β W V :=
  schedule.foldl (step Lin Lout cfg clock) s

/-- What the replay was answered so far. -/
def env (s : State α β W V) (wall_start : UInt64) : Env where
  wall_start := wall_start
  answers := fun i => (s.past[i]?.map Prod.snd).getD ((clock i).answers none false)
  drained := s.drained

end State

/-- The event was submitted. -/
def accepted (p : TraceEvent × Answers) : Bool := spin p.2.submit

/-- A report was found for it. -/
def reported (p : TraceEvent × Answers) : Bool := p.2.poll_report

/-- Every place of the inbound queue is taken. -/
def Jammed (c : Pipeline.Config α β W V) : Prop :=
  c.inbound.pushed.length = c.inbound.popped.length + (kQueueDepth.size - 1)

/-! ## Section 2: What a step of the replaying thread can do -/

variable (Lin : Layout MarketDataMsg α W) (Lout : Layout ExecutionReport β V)
  (cfg : Config) (clock : Nat → Clock)

/-- One step of `submit(msg)`, by its result if it returns. -/
inductive Submits (msg : MarketDataMsg) (c : Pipeline.Config α β W V) : Option Bool → Prop where
  | on (hsubmitted : (c.step Lin Lout (.submit msg)).submitted Lin = c.submitted Lin)
      (hcarries : (c.step Lin Lout (.submit msg)).inbound.producer.Carries (Lin.words msg))
      (hleft : Spsc.push_left (c.step Lin Lout (.submit msg)).inbound.producer <
        Spsc.push_left c.inbound.producer) :
      Submits msg c none
  | full (hsubmitted : (c.step Lin Lout (.submit msg)).submitted Lin = c.submitted Lin)
      (hidle : (c.step Lin Lout (.submit msg)).inbound.producer = .idle) (hfull : Jammed c) :
      Submits msg c (some false)
  | sent (hsubmitted : (c.step Lin Lout (.submit msg)).submitted Lin = c.submitted Lin ++ [msg])
      (hidle : (c.step Lin Lout (.submit msg)).inbound.producer = .idle) :
      Submits msg c (some true)

/-- One step of `poll_report(rpt)`, by its result if it returns. -/
inductive Polls (rpt : Item β V) (c : Pipeline.Config α β W V) : Option Bool → Prop where
  | on (hreceived : (c.step Lin Lout (.poll rpt)).received Lout = c.received Lout)
      (hleft : Worker.left (c.step Lin Lout (.poll rpt)).outbound.consumer <
        Worker.left c.outbound.consumer) :
      Polls rpt c none
  | empty (hreceived : (c.step Lin Lout (.poll rpt)).received Lout = c.received Lout) :
      Polls rpt c (some false)
  | got (out : ExecutionReport)
      (hreceived : (c.step Lin Lout (.poll rpt)).received Lout = c.received Lout ++ [out]) :
      Polls rpt c (some true)

inductive Replays (s : State α β W V) (rpt : Item β V) : State α β W V → Prop where
  | submits {ev : TraceEvent} {evs : List TraceEvent} {spin : Nat}
      (hpc : s.pc = .submitting spin) (hrest : s.rest = ev :: evs)
      (hcall : Submits Lin Lout (trace_event_to_msg ev) s.engine none) :
      Replays s rpt { s with engine := s.engine.step Lin Lout (.submit (trace_event_to_msg ev)) }
  | sent {ev : TraceEvent} {evs : List TraceEvent} {spin : Nat}
      (hpc : s.pc = .submitting spin) (hrest : s.rest = ev :: evs)
      (hcall : Submits Lin Lout (trace_event_to_msg ev) s.engine (some true))
      (hwarm : UInt64.ofNat s.past.length ≥ cfg.warmup_events.toUInt64) :
      Replays s rpt
        { s with
          engine := s.engine.step Lin Lout (.submit (trace_event_to_msg ev))
          pc := .polling spin }
  /-- Sent during the warm-up. -/
  | sent_cold {ev : TraceEvent} {evs : List TraceEvent} {spin : Nat}
      (hpc : s.pc = .submitting spin) (hrest : s.rest = ev :: evs)
      (hcall : Submits Lin Lout (trace_event_to_msg ev) s.engine (some true)) :
      Replays s rpt ({ s with
        engine := s.engine.step Lin Lout (.submit (trace_event_to_msg ev)) }.finish
          clock ev (some spin) false)
  | refused {ev : TraceEvent} {evs : List TraceEvent} {spin : Nat}
      (hpc : s.pc = .submitting spin) (hrest : s.rest = ev :: evs)
      (hcall : Submits Lin Lout (trace_event_to_msg ev) s.engine (some false))
      (hspin : spin + 1 < 1000) :
      Replays s rpt
        { s with
          engine := s.engine.step Lin Lout (.submit (trace_event_to_msg ev))
          pc := .submitting (spin + 1) }
  | skipped {ev : TraceEvent} {evs : List TraceEvent} {spin : Nat}
      (hpc : s.pc = .submitting spin) (hrest : s.rest = ev :: evs)
      (hcall : Submits Lin Lout (trace_event_to_msg ev) s.engine (some false)) :
      Replays s rpt ({ s with
        engine := s.engine.step Lin Lout (.submit (trace_event_to_msg ev)) }.finish
          clock ev none false)
  | polls {ev : TraceEvent} {evs : List TraceEvent} {spin : Nat}
      (hpc : s.pc = .polling spin) (hrest : s.rest = ev :: evs)
      (hcall : Polls Lin Lout rpt s.engine none) :
      Replays s rpt { s with engine := s.engine.step Lin Lout (.poll rpt) }
  | polled {ev : TraceEvent} {evs : List TraceEvent} {spin : Nat} {found : Bool}
      (hpc : s.pc = .polling spin) (hrest : s.rest = ev :: evs)
      (hcall : Polls Lin Lout rpt s.engine (some found)) :
      Replays s rpt ({ s with engine := s.engine.step Lin Lout (.poll rpt) }.finish
        clock ev (some spin) found)
  | leaves {spin : Nat} (hpc : s.pc = .submitting spin) (hrest : s.rest = []) :
      Replays s rpt s.leave
  | drains (hpc : s.pc = .draining) (hcall : Polls Lin Lout rpt s.engine none) :
      Replays s rpt { s with engine := s.engine.step Lin Lout (.poll rpt) }
  | drained (hpc : s.pc = .draining) (hcall : Polls Lin Lout rpt s.engine (some true)) :
      Replays s rpt
        { s with engine := s.engine.step Lin Lout (.poll rpt), drained := s.drained + 1 }
  | ends (hpc : s.pc = .draining) (hcall : Polls Lin Lout rpt s.engine (some false)) :
      Replays s rpt { s with engine := s.engine.step Lin Lout (.poll rpt), pc := .returned }
  | returned (hpc : s.pc = .returned) : Replays s rpt s

variable {Lin Lout cfg clock}
variable {first : MatchingEngine} {c : Pipeline.Config α β W V} {s s' : State α β W V}

theorem submits_cases (h : Pipeline.Consistent Lin Lout first c) {msg : MarketDataMsg}
    (hcarries : c.inbound.producer.Carries (Lin.words msg)) :
    ∃ result, Submits Lin Lout msg c result ∧
      (Spsc.returned c.inbound (c.step Lin Lout (.submit msg)).inbound) =
        result.map (.push (Lin.words msg)) := by
  obtain ⟨items, held, h⟩ := h
  rcases Spsc.producer_step_carries (C := kQueueDepth) hcarries with
    ⟨heq, hcarries', hleft⟩ | ⟨ok, heq, hidle⟩
  · refine ⟨none, .on ?_ hcarries' hleft, Spsc.returned_none heq⟩
    show (c.inbound.producer_step kQueueDepth (Lin.words msg)).pushed.map Lin.item = _
    simp [Pipeline.Config.submitted, Spsc.Config.pushed, heq]
  · cases ok with
    | false =>
      refine ⟨some false, .full ?_ hidle ?_, Spsc.returned_some heq⟩
      · show (c.inbound.producer_step kQueueDepth (Lin.words msg)).pushed.map Lin.item = _
        simp [Pipeline.Config.submitted, Spsc.Config.pushed, heq]
      -- Of the cases of a push, only the full queue answers `false`.
      · rcases h.inbound.producer_cases (Lin.words msg) with ⟨heq', _⟩ | ⟨x, _, hfull, _⟩ | ⟨x, heq', _⟩
        · rw [heq'] at heq
          simp at heq
        · show c.inbound.pushed.length = _
          rw [← h.inbound.history, List.length_append, hfull]
        · rw [heq'] at heq
          simp at heq
    | true =>
      refine ⟨some true, .sent ?_ hidle, Spsc.returned_some heq⟩
      show (c.inbound.producer_step kQueueDepth (Lin.words msg)).pushed.map Lin.item = _
      simp [Pipeline.Config.submitted, Spsc.Config.pushed, heq, Lin.item_words]

theorem polls_cases (h : Pipeline.Consistent Lin Lout first c) (rpt : Item β V) :
    (Polls Lin Lout rpt c none ∧
      Spsc.returned c.outbound (c.step Lin Lout (.poll rpt)).outbound = none) ∨
    ∃ out, Polls Lin Lout rpt c (some (Option.isSome out)) ∧
      Spsc.returned c.outbound (c.step Lin Lout (.poll rpt)).outbound = some (.pop out) := by
  obtain ⟨items, held, h⟩ := h
  rcases h.outbound.consumer_cases rpt with ⟨heq, _⟩ | ⟨heq, _⟩ | ⟨x, rest, heq, _⟩
  · refine .inl ⟨.on ?_ (Worker.left_consumer_step heq), Spsc.returned_none heq⟩
    show (c.outbound.consumer_step kQueueDepth rpt).popped.map Lout.item = _
    simp [Pipeline.Config.received, Spsc.Config.popped, heq]
  · refine .inr ⟨none, .empty ?_, Spsc.returned_some heq⟩
    show (c.outbound.consumer_step kQueueDepth rpt).popped.map Lout.item = _
    simp [Pipeline.Config.received, Spsc.Config.popped, heq]
  · refine .inr ⟨some x, .got (Lout.item x) ?_, Spsc.returned_some heq⟩
    show (c.outbound.consumer_step kQueueDepth rpt).popped.map Lout.item = _
    simp [Pipeline.Config.received, Spsc.Config.popped, heq]

variable (Lin) in
/-- The producer's side of the inbound queue, as the replaying thread has it. -/
def InSubmit (producer : Spsc.ProducerPc α W) : Pc → List TraceEvent → Prop
  | .submitting _, ev :: _ => producer.Carries (Lin.words (trace_event_to_msg ev))
  | _, _ => producer = .idle

theorem replays_cases (h : Pipeline.Consistent Lin Lout first s.engine)
    (hsubmit : InSubmit Lin s.engine.inbound.producer s.pc s.rest)
    (hpoll : ∀ spin, s.pc = .polling spin → s.rest ≠ []) (rpt : Item β V) :
    Replays Lin Lout cfg clock s rpt (s.replay_step Lin Lout cfg clock rpt) := by
  unfold State.replay_step
  cases hpc : s.pc with
  | submitting spin =>
    cases hrest : s.rest with
    | nil => exact .leaves hpc hrest
    | cons ev evs =>
      rw [hpc, hrest] at hsubmit
      obtain ⟨result, hcall, hreturned⟩ := submits_cases h hsubmit
      simp only [State.submit_step, hreturned]
      cases result with
      | none => exact .submits hpc hrest hcall
      | some ok =>
        cases ok with
        -- Only from the warm-up on is there a `poll_report` after the `submit`.
        | true =>
          simp only [Option.map_some]
          split
          · next hwarm => exact .sent hpc hrest hcall hwarm
          · exact .sent_cold hpc hrest hcall
        -- The last of the 1000 attempts skips the event.
        | false =>
          simp only [Option.map_some]
          split
          · next hspin => exact .refused hpc hrest hcall hspin
          · exact .skipped hpc hrest hcall
  | polling spin =>
    cases hrest : s.rest with
    | nil => exact absurd hrest (hpoll spin hpc)
    | cons ev evs =>
      simp only [State.poll_step]
      rcases polls_cases h rpt with ⟨hcall, hreturned⟩ | ⟨out, hcall, hreturned⟩
      · simp only [hreturned]
        exact .polls hpc hrest hcall
      · simp only [hreturned]
        exact .polled hpc hrest hcall
  | draining =>
    simp only [State.drain_step]
    rcases polls_cases h rpt with ⟨hcall, hreturned⟩ | ⟨out, hcall, hreturned⟩
    · simp only [hreturned]
      exact .drains hpc hcall
    · cases out with
      | none =>
        simp only [hreturned]
        exact .ends hpc hcall
      | some x =>
        simp only [hreturned]
        exact .drained hpc hcall
  | returned => exact .returned hpc

/-! ## Section 3: What has gone through the queues -/

/-- The events from here on are polled for. -/
def Warm (cfg : Config) (i : Nat) : Prop := UInt64.ofNat i ≥ cfg.warmup_events.toUInt64

/-- The messages of the events that were submitted. -/
def played (past : List (TraceEvent × Answers)) : List MarketDataMsg :=
  (past.filter accepted).map fun p => trace_event_to_msg p.1

/-- An event that is submitted and not over. -/
def State.hand (s : State α β W V) : List MarketDataMsg :=
  match s.pc, s.rest with
  | .polling _, ev :: _ => [trace_event_to_msg ev]
  | _, _ => []

variable (Lin Lout cfg) in
structure Inv (first : MatchingEngine) (evs : List TraceEvent) (s : State α β W V) : Prop where
  engine : Pipeline.Consistent Lin Lout first s.engine
  events : s.past.map Prod.fst ++ s.rest = evs
  producer : InSubmit Lin s.engine.inbound.producer s.pc s.rest
  spins : ∀ spin, s.pc = .submitting spin ∨ s.pc = .polling spin → spin < 1000
  polls : ∀ spin, s.pc = .polling spin → s.rest ≠ [] ∧ Warm cfg s.past.length
  submitted : s.engine.submitted Lin = played s.past ++ s.hand
  received : (s.engine.received Lout).length = s.past.countP reported + s.drained
  reports : ∀ i p, s.past[i]? = some p → reported p = true → accepted p = true ∧ Warm cfg i
  ended : s.pc = .draining ∨ s.pc = .returned → s.rest = []

variable {evs : List TraceEvent}

theorem any_attempt {n : Nat} {attempt : Option Nat} (h : ∀ spin, attempt = some spin → spin < n) :
    ((List.range n).any fun spin => attempt == some spin) = attempt.isSome := by
  cases attempt with
  | none =>
    rw [Option.isSome_none, List.any_eq_false]
    intro spin _
    exact Bool.false_ne_true
  | some spin =>
    rw [Option.isSome_some, List.any_eq_true]
    exact ⟨spin, List.mem_range.mpr (h spin rfl), beq_self_eq_true _⟩

theorem accepted_answers (ev : TraceEvent) (clk : Clock) {attempt : Option Nat} (found : Bool)
    (h : ∀ spin, attempt = some spin → spin < 1000) :
    accepted (ev, clk.answers attempt found) = attempt.isSome := by
  show spin (fun k => attempt == some k) = _
  rw [spin, any_attempt h]

theorem played_append (past : List (TraceEvent × Answers)) (p : TraceEvent × Answers) :
    played (past ++ [p]) =
      played past ++ if accepted p = true then [trace_event_to_msg p.1] else [] := by
  unfold played
  by_cases h : accepted p = true
  · simp [List.filter_append, h]
  · simp [List.filter_append, h]

/-- An event is over. -/
theorem Inv.finish (h : Inv Lin Lout cfg first evs s) {ev : TraceEvent} {rest : List TraceEvent}
    (hrest : s.rest = ev :: rest) (hc : Pipeline.Consistent Lin Lout first c)
    (hidle : c.inbound.producer = .idle) {attempt : Option Nat} {found : Bool}
    (hspin : ∀ spin, attempt = some spin → spin < 1000)
    (hsubmitted : c.submitted Lin =
      played s.past ++ if attempt.isSome then [trace_event_to_msg ev] else [])
    (hreceived : (c.received Lout).length = s.past.countP reported + s.drained + found.toNat)
    (hfound : found = true → attempt.isSome = true ∧ Warm cfg s.past.length) :
    Inv Lin Lout cfg first evs ({ s with engine := c }.finish clock ev attempt found) := by
  have haccepted := accepted_answers ev (clock s.past.length) found hspin
  refine ⟨hc, ?_, ?_, ?_, ?_, ?_, ?_, ?_, ?_⟩
  · show (s.past ++ [_]).map Prod.fst ++ s.rest.tail = evs
    rw [← h.events, hrest]
    simp
  · show InSubmit Lin c.inbound.producer (.submitting 0) s.rest.tail
    rw [hidle, hrest]
    cases rest with
    | nil => rfl
    | cons ev' rest => exact trivial
  · intro spin hpc
    rcases hpc with hpc | hpc
    · cases hpc
      decide
    · cases hpc
  · intro spin hpc
    cases hpc
  · show c.submitted Lin = played (s.past ++ [_]) ++ State.hand _
    rw [played_append, haccepted, hsubmitted]
    exact (List.append_nil _).symm
  · show (c.received Lout).length = (s.past ++ [_]).countP reported + s.drained
    rw [hreceived, List.countP_append]
    cases found with
    | true => simp [reported, Clock.answers]; omega
    | false => simp [reported, Clock.answers]
  · intro i p hp hreported
    change (s.past ++ [(ev, (clock s.past.length).answers attempt found)])[i]? = some p at hp
    -- An event before this one, this one, or none.
    rcases Nat.lt_trichotomy i s.past.length with hlt | rfl | hgt
    · rw [List.getElem?_append_left hlt] at hp
      exact h.reports i p hp hreported
    · rw [List.getElem?_concat_length] at hp
      obtain rfl := Option.some.inj hp
      obtain ⟨hsome, hwarm⟩ := hfound hreported
      exact ⟨haccepted.trans hsome, hwarm⟩
    · rw [List.getElem?_eq_none (by simp; omega)] at hp
      cases hp
  · intro hpc
    rcases hpc with hpc | hpc
    · cases hpc
    · cases hpc

/-- Neither the engine thread nor `stop` touches the ends of the queues that the
    replaying thread has. -/
theorem loop_frame (c : Pipeline.Config α β W V) :
    (c.step Lin Lout .loop).inbound.producer = c.inbound.producer ∧
      (c.step Lin Lout .loop).submitted Lin = c.submitted Lin ∧
      (c.step Lin Lout .loop).received Lout = c.received Lout := by
  show (c.loop_step Lin Lout).inbound.producer = _ ∧ (c.loop_step Lin Lout).submitted Lin = _ ∧
    (c.loop_step Lin Lout).received Lout = _
  unfold Pipeline.Config.loop_step
  cases c.loop with
  | test | counting | done => exact ⟨rfl, rfl, rfl⟩
  | popping phase =>
    have hproducer := Spsc.consumer_step_producer (C := kQueueDepth) c.inbound c.msg
    have hsubmitted := congrArg (List.map Lin.item)
      (Spsc.consumer_step_pushed (C := kQueueDepth) c.inbound c.msg)
    simp only [Pipeline.Config.pop_step]
    split
    · exact ⟨hproducer, hsubmitted, rfl⟩
    · exact ⟨hproducer, hsubmitted, rfl⟩
    · exact ⟨hproducer, hsubmitted, rfl⟩
  | processing phase =>
    simp only [Pipeline.Config.process_step]
    split
    · exact ⟨rfl, rfl, rfl⟩
    · exact ⟨rfl, rfl, rfl⟩
  | reporting phase =>
    simp only [Pipeline.Config.report_step]
    split
    · exact ⟨rfl, rfl, rfl⟩
    · exact ⟨rfl, rfl, rfl⟩
  | pushing phase =>
    simp only [Pipeline.Config.push_step]
    split
    · exact ⟨rfl, rfl, rfl⟩
    · next ev rest hcons =>
      have hreceived := congrArg (List.map Lout.item)
        (Spsc.producer_step_popped (C := kQueueDepth) c.outbound (Lout.words ev.report))
      split
      · exact ⟨rfl, rfl, hreceived⟩
      · exact ⟨rfl, rfl, hreceived⟩

theorem stop_frame (c : Pipeline.Config α β W V) :
    (c.step Lin Lout .stop).inbound.producer = c.inbound.producer ∧
      (c.step Lin Lout .stop).submitted Lin = c.submitted Lin ∧
      (c.step Lin Lout .stop).received Lout = c.received Lout := by
  show c.stop_step.inbound.producer = _ ∧ c.stop_step.submitted Lin = _ ∧
    c.stop_step.received Lout = _
  unfold Pipeline.Config.stop_step
  split
  · exact ⟨rfl, rfl, rfl⟩
  · split
    · exact ⟨rfl, rfl, rfl⟩
    · exact ⟨rfl, rfl, rfl⟩
  · exact ⟨rfl, rfl, rfl⟩

/-- A step of another thread. -/
theorem Inv.frame (h : Inv Lin Lout cfg first evs s) (hc : Pipeline.Consistent Lin Lout first c)
    (hframe : c.inbound.producer = s.engine.inbound.producer ∧
      c.submitted Lin = s.engine.submitted Lin ∧ c.received Lout = s.engine.received Lout) :
    Inv Lin Lout cfg first evs { s with engine := c } := by
  obtain ⟨hproducer, hsubmitted, hreceived⟩ := hframe
  refine { h with engine := hc, producer := ?_, submitted := ?_, received := ?_ }
  · show InSubmit Lin c.inbound.producer s.pc s.rest
    rw [hproducer]
    exact h.producer
  · show c.submitted Lin = _
    rw [hsubmitted]
    exact h.submitted
  · show (c.received Lout).length = _
    rw [hreceived]
    exact h.received

/-- The producer is between calls, but for a `submit` of the next event. -/
theorem Inv.idle (h : Inv Lin Lout cfg first evs s) (hpc : ∀ spin, s.pc ≠ .submitting spin) :
    s.engine.inbound.producer = .idle := by
  have hproducer := h.producer
  cases hat : s.pc with
  | submitting spin => exact absurd hat (hpc spin)
  | polling spin | draining | returned =>
    rw [hat] at hproducer
    exact hproducer

theorem hand_of_not_polling (hpc : ∀ spin, s.pc ≠ .polling spin) : s.hand = [] := by
  unfold State.hand
  split
  · next spin _ _ hat _ => exact absurd hat (hpc spin)
  · rfl

theorem Inv.replays {rpt : Item β V} (h : Inv Lin Lout cfg first evs s)
    (hstep : Replays Lin Lout cfg clock s rpt s') : Inv Lin Lout cfg first evs s' := by
  have hsent := fun ev => h.engine.step s.engine (.submit (trace_event_to_msg ev))
  have hpolled := h.engine.step s.engine (.poll rpt)
  cases hstep with
  | @submits ev rest spin hpc hrest hcall =>
    obtain ⟨hsubmitted, hcarries, _⟩ := hcall
    refine { h with engine := ?_, producer := ?_, submitted := ?_ }
    · exact hsent ev
    · show InSubmit Lin _ s.pc s.rest
      rw [hpc, hrest]
      exact hcarries
    · exact hsubmitted.trans h.submitted
  | @sent ev rest spin hpc hrest hcall hwarm =>
    obtain _ | _ | ⟨hsubmitted, hidle⟩ := hcall
    refine { h with engine := ?_, producer := ?_, spins := ?_, polls := ?_, submitted := ?_, ended := ?_ }
    · exact hsent ev
    · exact hidle
    · intro spin' hat
      obtain rfl : spin = spin' := by simpa using hat
      exact h.spins spin (.inl hpc)
    · intro spin' _
      exact ⟨by rw [hrest]; simp, hwarm⟩
    -- The message is in hand until its report has been asked for.
    · have hhand : s.hand = [] := hand_of_not_polling (by simp [hpc])
      refine hsubmitted.trans ?_
      rw [h.submitted, hhand, List.append_nil]
      simp [State.hand, hrest]
    · intro hat
      simp at hat
  | @sent_cold ev rest spin hpc hrest hcall =>
    obtain _ | _ | ⟨hsubmitted, hidle⟩ := hcall
    have hhand : s.hand = [] := hand_of_not_polling (by simp [hpc])
    refine h.finish hrest (hsent ev) hidle ?_ ?_ h.received (fun hfound => by cases hfound)
    · intro spin' heq
      cases heq
      exact h.spins spin (.inl hpc)
    · rw [hsubmitted, h.submitted, hhand, List.append_nil]
      rfl
  | @refused ev rest spin hpc hrest hcall hspin =>
    obtain _ | ⟨hsubmitted, hidle, _⟩ | _ := hcall
    have hhand : s.hand = [] := hand_of_not_polling (by simp [hpc])
    refine { h with engine := ?_, producer := ?_, spins := ?_, polls := ?_, submitted := ?_, ended := ?_ }
    · exact hsent ev
    · show InSubmit Lin _ (.submitting (spin + 1)) s.rest
      rw [hidle, hrest]
      exact trivial
    · intro spin' hat
      obtain rfl : spin + 1 = spin' := by simpa using hat
      exact hspin
    · intro spin' hat
      cases hat
    · rw [hand_of_not_polling (by simp), ← hhand]
      exact hsubmitted.trans h.submitted
    · intro hat
      simp at hat
  | @skipped ev rest spin hpc hrest hcall =>
    obtain _ | ⟨hsubmitted, hidle, _⟩ | _ := hcall
    have hhand : s.hand = [] := hand_of_not_polling (by simp [hpc])
    refine h.finish hrest (hsent ev) hidle (fun _ heq => by cases heq) ?_ h.received
      (fun hfound => by cases hfound)
    rw [hsubmitted, h.submitted, hhand]
    rfl
  | @polls ev rest spin hpc hrest hcall =>
    obtain ⟨hreceived, _⟩ := hcall
    exact h.frame hpolled ⟨rfl, rfl, hreceived⟩
  | @polled ev rest spin found hpc hrest hcall =>
    have hidle := h.idle (by simp [hpc])
    -- The event in hand goes to the past, as one that was accepted.
    have hhand : s.hand = [trace_event_to_msg ev] := by simp [State.hand, hpc, hrest]
    refine h.finish hrest hpolled hidle ?_ ?_ ?_ ?_
    · intro spin' heq
      cases heq
      exact h.spins spin (.inr hpc)
    · rw [← hhand]
      exact h.submitted
    · cases hcall with
      | empty hreceived =>
        rw [hreceived]
        exact h.received
      | got out hreceived =>
        rw [hreceived, List.length_append, h.received]
        rfl
    · intro _
      exact ⟨rfl, (h.polls spin hpc).2⟩
  | @leaves spin hpc hrest =>
    have hhand : s.hand = [] := hand_of_not_polling (by simp [hpc])
    have hproducer := h.producer
    rw [hpc, hrest] at hproducer
    refine { h with producer := ?_, spins := ?_, polls := ?_, submitted := ?_, ended := ?_ }
    · exact hproducer
    · intro spin' hat
      simp [State.leave] at hat
    · intro spin' hat
      cases hat
    · rw [hand_of_not_polling (by simp [State.leave]), ← hhand]
      exact h.submitted
    · exact fun _ => hrest
  | drains hpc hcall =>
    obtain ⟨hreceived, _⟩ := hcall
    exact h.frame hpolled ⟨rfl, rfl, hreceived⟩
  | drained hpc hcall =>
    obtain _ | _ | ⟨out, hreceived⟩ := hcall
    refine { h with engine := ?_, received := ?_ }
    · exact hpolled
    · show (Pipeline.Config.received Lout _).length = s.past.countP reported + (s.drained + 1)
      rw [hreceived, List.length_append, h.received]
      rfl
  | ends hpc hcall =>
    obtain _ | ⟨hreceived⟩ | _ := hcall
    have hhand : s.hand = [] := hand_of_not_polling (by simp [hpc])
    refine { h with engine := ?_, producer := ?_, spins := ?_, polls := ?_, submitted := ?_,
                    received := ?_, ended := ?_ }
    · exact hpolled
    · exact h.idle (by simp [hpc])
    · intro spin hat
      simp at hat
    · intro spin hat
      cases hat
    · rw [hand_of_not_polling (by simp), ← hhand]
      exact h.submitted
    · show (Pipeline.Config.received Lout _).length = _
      rw [hreceived]
      exact h.received
    · exact fun _ => h.ended (.inl hpc)
  | returned hpc => exact h

theorem Inv.step (h : Inv Lin Lout cfg first evs s) (turn : Turn β V) :
    Inv Lin Lout cfg first evs (s.step Lin Lout cfg clock turn) := by
  cases turn with
  | replay rpt =>
    exact h.replays (replays_cases h.engine h.producer (fun spin hpc => (h.polls spin hpc).1) rpt)
  | loop => exact h.frame (h.engine.step s.engine .loop) (loop_frame s.engine)
  | stop => exact h.frame (h.engine.step s.engine .stop) (stop_frame s.engine)

/-! ## Section 4: What is counted -/

/-- What the body of the loop counts for one event. -/
theorem count_one (ev : TraceEvent) {a : Answers} {i : UInt64} (result : ReplayResult)
    (h : reported (ev, a) = true → accepted (ev, a) = true ∧ i ≥ cfg.warmup_events.toUInt64) :
    (count cfg a i result).events_replayed =
        result.events_replayed + .ofNat (accepted (ev, a)).toNat ∧
      (count cfg a i result).events_skipped =
        result.events_skipped + .ofNat (!accepted (ev, a)).toNat ∧
      (count cfg a i result).matches_generated =
        result.matches_generated + .ofNat (reported (ev, a)).toNat := by
  unfold count
  -- A report is only looked for after an accepted attempt, past the warm-up.
  cases haccepted : accepted (ev, a) with
  | true =>
    have hspin : spin a.submit = true := haccepted
    rw [if_pos hspin]
    cases hreported : reported (ev, a) with
    | true =>
      rw [if_pos ⟨(h hreported).2, hreported⟩]
      exact ⟨rfl, (UInt64.add_zero _).symm, rfl⟩
    | false =>
      have hnot : ¬ (i ≥ cfg.warmup_events.toUInt64 ∧ a.poll_report = true) := by
        intro hpoll
        exact Bool.false_ne_true (hreported.symm.trans hpoll.2)
      rw [if_neg hnot]
      exact ⟨rfl, (UInt64.add_zero _).symm, (UInt64.add_zero _).symm⟩
  | false =>
    have hnot : ¬ spin a.submit = true := by
      intro hspin
      exact Bool.false_ne_true (haccepted.symm.trans hspin)
    have hquiet : reported (ev, a) = false := by
      cases hreported : reported (ev, a) with
      | true => exact absurd (h hreported).1 (by rw [haccepted]; exact Bool.false_ne_true)
      | false => rfl
    rw [if_neg hnot, hquiet]
    exact ⟨(UInt64.add_zero _).symm, rfl, (UInt64.add_zero _).symm⟩

theorem add_countP (p : TraceEvent × Answers) (past : List (TraceEvent × Answers))
    (f : TraceEvent × Answers → Bool) (x : UInt64) :
    x + .ofNat (f p).toNat + .ofNat (past.countP f) = x + .ofNat ((p :: past).countP f) := by
  rw [UInt64.add_assoc, ← UInt64.ofNat_add, List.countP_cons]
  cases f p with
  | true => simp [Nat.add_comm]
  | false => simp

/-- A pass over the events, by what it was answered. -/
theorem replay_events_past (hcfg : ¬ (cfg.mode = .Throttled ∧ cfg.throttle_mps = 0)) (env : Env)
    (past : List (TraceEvent × Answers)) :
    ∀ {i : UInt64} {r : Replaying}, i.toNat + past.length < 2 ^ 64 →
      (∀ k p, past[k]? = some p → env.answers (i.toNat + k) = p.2) →
      (∀ k p, past[k]? = some p → reported p = true →
        accepted p = true ∧ Warm cfg (i.toNat + k)) →
      ∃ r', replay_events cfg env (past.map Prod.fst) i r = some r' ∧
        r'.result.events_replayed = r.result.events_replayed + .ofNat (past.countP accepted) ∧
        r'.result.events_skipped =
          r.result.events_skipped + .ofNat (past.countP fun p => !accepted p) ∧
        r'.result.matches_generated =
          r.result.matches_generated + .ofNat (past.countP reported) := by
  -- Induction on the events, with the answers shifted by one each time.
  induction past with
  | nil =>
    intro i r _ _ _
    exact ⟨r, rfl, (UInt64.add_zero _).symm, (UInt64.add_zero _).symm, (UInt64.add_zero _).symm⟩
  | cons p past ih =>
    intro i r hlength hanswers hreports
    obtain ⟨ev, a⟩ := p
    have ha : env.answers i.toNat = a := hanswers 0 _ rfl
    have hnext : (i + 1).toNat = i.toNat + 1 := by
      rw [List.length_cons] at hlength
      exact toNat_add_one (by omega)
    have hwarm : reported (ev, a) = true →
        accepted (ev, a) = true ∧ i ≥ cfg.warmup_events.toUInt64 := by
      intro hreported
      obtain ⟨haccepted, hwarm⟩ := hreports 0 _ rfl hreported
      rw [Nat.add_zero, Warm, UInt64.ofNat_toNat] at hwarm
      exact ⟨haccepted, hwarm⟩
    obtain ⟨hreplayed, hskipped, hmatches⟩ := count_one ev r.result hwarm
    rcases replay_event_cases cfg env i ev r with ⟨hmode, hzero, _⟩ | ⟨_, _, _, _, hsome⟩
    · exact absurd ⟨hmode, hzero⟩ hcfg
    · rw [ha] at hsome
      have hshift : ∀ k, (i + 1).toNat + k = i.toNat + (k + 1) := by
        intro k
        omega
      obtain ⟨r', hr', hreplayed', hskipped', hmatches'⟩ := ih
        (i := i + 1) (by rw [List.length_cons] at hlength; omega)
        (fun k p hp => by rw [hshift]; exact hanswers (k + 1) p hp)
        (fun k p hp hreported => by rw [hshift]; exact hreports (k + 1) p hp hreported)
      refine ⟨r', ?_, ?_, ?_, ?_⟩
      · rw [List.map_cons, replay_events, hsome, Option.bind_some]
        exact hr'
      · rw [hreplayed', ← add_countP, ← hreplayed]
      · rw [hskipped', ← add_countP (ev, a) past fun p => !accepted p, ← hskipped]
      · rw [hmatches', ← add_countP, ← hmatches]

/-! ## Section 5: What is skipped -/

/-- No attempt was refused so far. -/
structure Smooth (s : State α β W V) : Prop where
  past : ∀ p ∈ s.past, accepted p = true
  spin : ∀ spin, s.pc = .submitting spin → spin = 0

theorem Smooth.finish {ev : TraceEvent} {spin : Nat} {found : Bool} (hs : Smooth s)
    (hspin : spin < 1000) :
    Smooth ({ s with engine := c }.finish clock ev (some spin) found) := by
  refine ⟨?_, ?_⟩
  · intro p hp
    rcases List.mem_append.mp hp with hp | hp
    · exact hs.past p hp
    · obtain rfl := List.mem_singleton.mp hp
      exact accepted_answers ev _ found fun k heq => by cases heq; exact hspin
  · intro spin' hpc
    cases hpc
    rfl

/-- An attempt is refused only if the inbound queue is full. -/
theorem Smooth.replays {rpt : Item β V} (hs : Smooth s) (h : Inv Lin Lout cfg first evs s)
    (hroom : ¬ Jammed s.engine) (hstep : Replays Lin Lout cfg clock s rpt s') : Smooth s' := by
  cases hstep with
  | submits | polls | drains | drained | returned => exact ⟨hs.past, hs.spin⟩
  | sent => exact ⟨hs.past, fun spin hpc => by cases hpc⟩
  | leaves => exact ⟨hs.past, fun spin hpc => by cases hpc⟩
  | ends => exact ⟨hs.past, fun spin hpc => by cases hpc⟩
  | @sent_cold ev rest spin hpc hrest hcall => exact hs.finish (h.spins spin (.inl hpc))
  | @polled ev rest spin found hpc hrest hcall => exact hs.finish (h.spins spin (.inr hpc))
  | refused hpc hrest hcall hspin =>
    obtain _ | ⟨_, _, hfull⟩ | _ := hcall
    exact absurd hfull hroom
  | skipped hpc hrest hcall =>
    obtain _ | ⟨_, _, hfull⟩ | _ := hcall
    exact absurd hfull hroom

theorem Smooth.step {turn : Turn β V} (hs : Smooth s) (h : Inv Lin Lout cfg first evs s)
    (hroom : ¬ Jammed s.engine) : Smooth (s.step Lin Lout cfg clock turn) := by
  cases turn with
  | replay rpt =>
    exact hs.replays h hroom
      (replays_cases h.engine h.producer (fun spin hpc => (h.polls spin hpc).1) rpt)
  | loop | stop => exact ⟨hs.past, hs.spin⟩

/-! ## Section 6: The replay comes to its end -/

variable (Lout) in
/-- What the replaying thread has left to do: events first, then attempts or
    reports, then the steps of a call. -/
def remaining (s : State α β W V) : Nat ×ₗ Nat ×ₗ Nat :=
  match s.pc with
  | .returned => toLex (0, toLex (0, 0))
  | .draining =>
    toLex (1, toLex ((s.engine.queued Lout).length - (s.engine.received Lout).length,
      Worker.left s.engine.outbound.consumer))
  | .polling _ =>
    toLex (2 * s.rest.length + 2, toLex (0, Worker.left s.engine.outbound.consumer))
  | .submitting spin =>
    toLex (2 * s.rest.length + 3,
      toLex (1000 - spin, Spsc.push_left s.engine.inbound.producer))

theorem Replays.remaining_lt {rpt : Item β V} (h : Inv Lin Lout cfg first evs s)
    (hstep : Replays Lin Lout cfg clock s rpt s') (hlive : s.pc ≠ .returned) :
    remaining Lout s' < remaining Lout s := by
  have hqueued : (s.engine.step Lin Lout (.poll rpt)).queued Lout = s.engine.queued Lout :=
    (Pipeline.kept_other (by simp)).1
  cases hstep with
  | submits hpc hrest hcall =>
    obtain ⟨_, _, hleft⟩ := hcall
    simp [remaining, hpc, Prod.Lex.toLex_lt_toLex, hleft]
  | sent hpc => simp [remaining, hpc, Prod.Lex.toLex_lt_toLex]
  | sent_cold hpc hrest => simp [remaining, hpc, hrest, State.finish, Prod.Lex.toLex_lt_toLex]
  | refused hpc hrest hcall hspin =>
    simp [remaining, hpc, Prod.Lex.toLex_lt_toLex]
    omega
  | skipped hpc hrest => simp [remaining, hpc, hrest, State.finish, Prod.Lex.toLex_lt_toLex]
  | polls hpc hrest hcall =>
    obtain ⟨_, hleft⟩ := hcall
    simp [remaining, hpc, Prod.Lex.toLex_lt_toLex, hleft]
  | polled hpc hrest =>
    simp [remaining, hpc, hrest, State.finish, Prod.Lex.toLex_lt_toLex]
    omega
  | leaves hpc hrest => simp [remaining, hpc, hrest, State.leave, Prod.Lex.toLex_lt_toLex]
  | drains hpc hcall =>
    obtain ⟨hreceived, hleft⟩ := hcall
    simp [remaining, hpc, hqueued, hreceived, Prod.Lex.toLex_lt_toLex, hleft]
  | drained hpc hcall =>
    obtain _ | _ | ⟨out, hreceived⟩ := hcall
    -- what was received is in the queue
    have hle : (s.engine.received Lout).length + 1 ≤ (s.engine.queued Lout).length := by
      obtain ⟨items, held, hinv⟩ := h.engine.step s.engine (.poll rpt)
      have heq := congrArg List.length hinv.queued_eq
      rw [hqueued, hreceived] at heq
      simp at heq
      omega
    simp [remaining, hpc, hqueued, hreceived, Prod.Lex.toLex_lt_toLex]
    omega
  | ends hpc => simp [remaining, hpc, Prod.Lex.toLex_lt_toLex]
  | returned hpc => exact absurd hpc hlive

/-- Whatever the queues answer, the replaying thread returns. -/
theorem replay_returns (rpt : Item β V) (h : Inv Lin Lout cfg first evs s) :
    ∃ n, (s.run Lin Lout cfg clock (List.replicate n (.replay rpt))).pc = .returned := by
  let Ranked (m : Nat ×ₗ Nat ×ₗ Nat) (s' : State α β W V) :=
    remaining Lout s' = m ∧ Inv Lin Lout cfg first evs s'
  have hstep : ∀ m s', Ranked m s' → ¬ s'.pc = .returned →
      ∃ m' < m, Ranked m' (s'.step Lin Lout cfg clock (.replay rpt)) := by
    rintro m s' ⟨rfl, h'⟩ hlive
    have hreplays : Replays Lin Lout cfg clock s' rpt (s'.replay_step Lin Lout cfg clock rpt) :=
      replays_cases h'.engine h'.producer (fun spin hpc => (h'.polls spin hpc).1) rpt
    exact ⟨_, hreplays.remaining_lt h' hlive, rfl, h'.replays hreplays⟩
  obtain ⟨n, _, hreturned⟩ := foldl_reaches_alone hstep ⟨rfl, h⟩
  exact ⟨n, hreturned⟩

/-! ## Section 7: A recorded session -/

section results

variable (Lin : Layout MarketDataMsg α W) (Lout : Layout ExecutionReport β V)
  (cfg : Config) (clock : Nat → Clock)
  (inmem : Nat → Item α W) (outmem : Nat → Item β V) (msg : Item α W)
  (mem : MatchingEngine) (books : SymbolId → OrderBook) (ids : List SymbolId)
  (evs : List TraceEvent)

/-- An engine with the symbols `ids` is started, the header of a trace with the
    events `evs` has been read, and the threads take turns. -/
def live (schedule : List (Turn β V)) : State α β W V :=
  State.run Lin Lout cfg clock
    ⟨Pipeline.pipeline Lin Lout inmem outmem msg mem books ids [], .submitting 0, evs, [], 0⟩ schedule

theorem inv_live (schedule : List (Turn β V)) :
    Inv Lin Lout cfg (register_symbols mem books ids) evs
      (live Lin Lout cfg clock inmem outmem msg mem books ids evs schedule) := by
  refine foldl_keeps (fun s turn h => h.step turn) ?_ schedule
  refine ⟨Pipeline.consistent_pipeline .., rfl, ?_, ?_, ?_, rfl, rfl, ?_, ?_⟩
  · cases evs with
    | nil => rfl
    | cons ev evs => exact trivial
  · intro spin hpc
    rcases hpc with hpc | hpc
    · cases hpc
      decide
    · cases hpc
  · intro spin hpc
    cases hpc
  · intro i p hp
    cases hp
  · intro hpc
    simp at hpc

theorem live_append (before after : List (Turn β V)) :
    live Lin Lout cfg clock inmem outmem msg mem books ids evs (before ++ after) =
      (live Lin Lout cfg clock inmem outmem msg mem books ids evs before).run Lin Lout cfg clock
        after :=
  List.foldl_append

/-- Nothing is skipped, or the inbound queue was full at some moment. -/
theorem smooth_or_jammed (schedule : List (Turn β V)) :
    Smooth (live Lin Lout cfg clock inmem outmem msg mem books ids evs schedule) ∨
      ∃ moment, moment <+: schedule ∧
        Jammed (live Lin Lout cfg clock inmem outmem msg mem books ids evs moment).engine := by
  induction schedule using List.reverseRecOn with
  | nil =>
    left
    constructor
    · intro p hp
      cases hp
    · intro spin hpc
      cases hpc
      rfl
  | append_singleton schedule turn ih =>
    rcases ih with hsmooth | ⟨moment, hmoment, hfull⟩
    · by_cases hfull : Jammed (live Lin Lout cfg clock inmem outmem msg mem books ids evs schedule).engine
      · exact .inr ⟨schedule, List.prefix_append _ _, hfull⟩
      · left
        rw [live_append]
        exact hsmooth.step (inv_live ..) hfull
    · exact .inr ⟨moment, hmoment.trans (List.prefix_append _ _), hfull⟩

end results

/-- The engine as its own threads see it. -/
theorem run_engine (s : State α β W V) (n : Nat) :
    (s.run Lin Lout cfg clock (List.replicate n .loop ++ [.stop])).engine =
      s.engine.run Lin Lout (List.replicate n .loop ++ [.stop]) := by
  induction n generalizing s with
  | zero => rfl
  | succ n ih => exact ih { s with engine := s.engine.step Lin Lout .loop }

/-- `stop` has been called on `called`, whose replay had returned. -/
structure Closing (called s : State α β W V) : Prop where
  pc : s.pc = .returned
  past : s.past = called.past
  drained : s.drained = called.drained
  stopping : Pipeline.Stopping called.engine.inbound.pushed s.engine
  stop : s.engine.stop ≠ .idle

theorem Closing.step {called : State α β W V} (h : Closing called s)
    (hinv : Inv Lin Lout cfg first evs s) (turn : Turn β V) :
    Closing called (s.step Lin Lout cfg clock turn) := by
  have hengine : ∀ turn, Pipeline.Stopping called.engine.inbound.pushed
      (s.engine.step Lin Lout turn) ∧ (s.engine.step Lin Lout turn).stop ≠ .idle :=
    fun turn => ⟨h.stopping.step hinv.engine, hinv.engine.stop_step h.stop⟩
  cases turn with
  | replay rpt =>
    have hsame : s.step Lin Lout cfg clock (.replay rpt) = s := by
      show s.replay_step Lin Lout cfg clock rpt = s
      unfold State.replay_step
      rw [h.pc]
    rw [hsame]
    exact h
  | loop => exact ⟨h.pc, h.past, h.drained, (hengine .loop).1, (hengine .loop).2⟩
  | stop => exact ⟨h.pc, h.past, h.drained, (hengine .stop).1, (hengine .stop).2⟩

/-- What `replay` returns in the environment that a finished run has made. -/
theorem Inv.result (h : Inv Lin Lout cfg first evs s) (hpc : s.pc = .returned)
    (hcfg : ¬ (cfg.mode = .Throttled ∧ cfg.throttle_mps = 0)) {file : Option (List UInt8)}
    {hdr : TraceHeader} (hhdr : traceHeaderOf file = some hdr) (hevs : evs = eventsOf file)
    (wall_start : UInt64) :
    ∃ out, replay cfg (s.env clock wall_start) file .zero = some out ∧ out.returned = true ∧
      out.result.events_replayed.toNat = (s.engine.submitted Lin).length ∧
      out.result.events_replayed.toNat + out.result.events_skipped.toNat = evs.length ∧
      out.result.matches_generated = .ofNat (s.engine.received Lout).length := by
  have hpast : s.past.map Prod.fst = evs := by
    rw [← h.events, h.ended (.inr hpc), List.append_nil]
  have hlength : s.past.length < 2 ^ 64 := by
    have hlt := length_eventsOf_lt file
    rwa [← hevs, ← hpast, List.length_map] at hlt
  have hsubmitted : (s.engine.submitted Lin).length = s.past.countP accepted := by
    rw [h.submitted, hand_of_not_polling (by simp [hpc]), List.append_nil, played, List.length_map,
      List.countP_eq_length_filter]
  have hsum : s.past.length = s.past.countP accepted + s.past.countP fun p => !accepted p := by
    rw [List.length_eq_countP_add_countP accepted]
    simp
  -- The environment repeats what the live calls were answered.
  obtain ⟨r, hr, hreplayed, hskipped, hmatches⟩ := replay_events_past hcfg
    (s.env clock wall_start) s.past (i := 0) (r := ⟨0, .zero, [], []⟩)
    (by simpa using hlength)
    (by
      intro k p hp
      show (s.past[0 + k]?.map Prod.snd).getD _ = p.2
      rw [Nat.zero_add, hp]
      rfl)
    (by
      intro k p hp hreported
      show _ ∧ Warm cfg (0 + k)
      rw [Nat.zero_add]
      exact h.reports k p hp hreported)
  -- A file has fewer than 2^64 events, so no count wraps.
  have hreplayed' : r.result.events_replayed.toNat = s.past.countP accepted := by
    rw [hreplayed]
    show ((0 : UInt64) + _).toNat = _
    rw [UInt64.zero_add, UInt64.toNat_ofNat_of_lt' (by show _ < 2 ^ 64; omega)]
  have hskipped' : r.result.events_skipped.toNat = s.past.countP fun p => !accepted p := by
    rw [hskipped]
    show ((0 : UInt64) + _).toNat = _
    rw [UInt64.zero_add, UInt64.toNat_ofNat_of_lt' (by show _ < 2 ^ 64; omega)]
  refine ⟨OrderFlowReplay.finish (s.env clock wall_start) r, ?_, rfl, ?_, ?_, ?_⟩
  · rw [replay_eq, hhdr, ← hevs, ← hpast]
    show (replay_events cfg _ _ 0 _).map _ = _
    rw [hr]
    rfl
  · exact hreplayed'.trans hsubmitted.symm
  · show r.result.events_replayed.toNat + r.result.events_skipped.toNat = _
    rw [hreplayed', hskipped', ← hpast, List.length_map, hsum]
  · show r.result.matches_generated + .ofNat s.drained = _
    rw [h.received, UInt64.ofNat_add, hmatches]
    show (0 : UInt64) + _ + _ = _
    rw [UInt64.zero_add]

/-- What a writer leaves is read back. -/
theorem written_messages {events : List (UInt64 × MarketDataMsg)}
    (hprices : ∀ event ∈ events, -2 ^ 63 ≤ event.2.price ∧ event.2.price < 2 ^ 63)
    {file : Option (List UInt8)} (hfile : traceFile events = some file) :
    (∃ hdr, traceHeaderOf file = some hdr) ∧
      (eventsOf file).map trace_event_to_msg = events.map Prod.snd := by
  rw [traceFile_eq] at hfile
  by_cases hfits : 32 + 48 * events.length ≤ File.maxOffset
  · rw [if_pos hfits] at hfile
    obtain rfl := Option.some.inj hfile
    refine ⟨⟨_, traceHeaderOf_written _ rfl (eventBytes events)⟩, ?_⟩
    rw [eventsOf_written hfits, List.map_map]
    apply List.map_congr_left
    intro event hmem
    obtain ⟨hlo, hhi⟩ := hprices event hmem
    exact trace_event_to_msg_of_msg event.1 hlo hhi
  · rw [if_neg hfits] at hfile
    cases hfile

theorem played_sublist (past : List (TraceEvent × Answers)) :
    (played past).Sublist ((past.map Prod.fst).map trace_event_to_msg) := by
  unfold played
  rw [List.map_map]
  exact List.filter_sublist.map _

theorem played_of_smooth (h : Smooth s) :
    played s.past = (s.past.map Prod.fst).map trace_event_to_msg := by
  unfold played
  rw [List.filter_eq_self.mpr h.past, List.map_map]
  rfl

/-- From the call of `stop` on. -/
theorem closing_run {called : State α β W V} (h : Inv Lin Lout cfg first evs called)
    (hpc : called.pc = .returned) (hidle : called.engine.stop = .idle) (after : List (Turn β V)) :
    Closing called (called.run Lin Lout cfg clock (.stop :: after)) := by
  -- the flag is still set, so the thread has not ended
  have hlive : called.engine.loop ≠ .done := by
    obtain ⟨items, held, hengine⟩ := h.engine
    intro hdone
    have hcleared := hengine.leaving (by rw [hdone]; trivial)
    rw [hengine.running.mpr hidle] at hcleared
    cases hcleared
  have hstopping : Pipeline.Stopping called.engine.inbound.pushed called.engine :=
    ⟨List.prefix_refl _, fun hdone => absurd hdone hlive⟩
  have hstopped : Pipeline.Stopping called.engine.inbound.pushed
      (called.engine.step Lin Lout .stop) := hstopping.step h.engine
  let Keeps (s : State α β W V) := Inv Lin Lout cfg first evs s ∧ Closing called s
  have hfirst : Keeps (called.step Lin Lout cfg clock .stop) :=
    ⟨h.step .stop, hpc, rfl, rfl, hstopped, Pipeline.stop_step_ne_idle called.engine⟩
  have hstep : ∀ s turn, Keeps s → Keeps (s.step Lin Lout cfg clock turn) :=
    fun s turn hs => ⟨hs.1.step turn, hs.2.step hs.1 turn⟩
  exact (foldl_keeps hstep hfirst after).2

/-- When `stop` has returned, everything submitted is processed and reported. -/
theorem Closing.processed {called : State α β W V} (h : Closing called s)
    (hinv : Inv Lin Lout cfg first evs s) (hcalled : Inv Lin Lout cfg first evs called)
    (hpc : called.pc = .returned) (hstop : s.engine.stop = .returned) :
    s.engine.processed = played s.past ∧
      ∃ e, first.process_all s.engine.processed = some (s.engine.emitted, e) ∧
        s.engine.engine.books = e.books := by
  obtain ⟨items, held, hengine⟩ := hinv.engine
  have hdone := hengine.joined hstop
  have htaken := hengine.taken
  rw [Pipeline.hand_nil (by simp [hdone]), List.append_nil] at htaken
  have hsubmitted : s.engine.inbound.pushed.map Lin.item = played s.past := by
    have heq := hinv.submitted
    rw [hand_of_not_polling (by simp [h.pc]), List.append_nil] at heq
    exact heq
  have hearlier : called.engine.inbound.pushed.map Lin.item = played s.past := by
    have heq := hcalled.submitted
    rw [hand_of_not_polling (by simp [hpc]), List.append_nil, ← h.past] at heq
    exact heq
  -- nothing was submitted since, so what was popped is all of it
  have hlength : called.engine.inbound.pushed.length = s.engine.inbound.pushed.length := by
    have heq := congrArg List.length (hearlier.trans hsubmitted.symm)
    simpa using heq
  have hall : s.engine.inbound.popped = s.engine.inbound.pushed := by
    have hle := h.stopping.done hdone
    have hprefix : s.engine.inbound.popped <+: s.engine.inbound.pushed :=
      ⟨items, hengine.inbound.history⟩
    exact hprefix.eq_of_length_le (by omega)
  have hreports : ¬ s.engine.loop.Reports := by simp [hdone, Pipeline.LoopPc.Reports]
  obtain ⟨e, hrun, halike⟩ := hengine.books
  rw [hengine.pending hreports, List.map_nil, List.append_nil] at hrun
  rw [hengine.settled_eq hreports] at halike
  refine ⟨?_, e, hrun, halike.books⟩
  rw [htaken, hall]
  exact hsubmitted

/-- A session was recorded to a file, and the file is replayed to an engine that
    runs beside the replay.  Whatever the interleaving, the replay returns if it
    gets enough turns.  Let `stop` be called after that: it returns if the engine
    thread gets enough turns, and then the engine has processed the recorded
    messages that were not skipped, in their order; its books are theirs, and the
    counts of the replay are right.  If the inbound queue was never full, nothing
    was skipped. -/
theorem replayed_session (Lin : Layout MarketDataMsg α W) (Lout : Layout ExecutionReport β V)
    (cfg : Config) (hcfg : ¬ (cfg.mode = .Throttled ∧ cfg.throttle_mps = 0))
    (clock : Nat → Clock) (wall_start : UInt64)
    (inmem : Nat → Item α W) (outmem : Nat → Item β V) (msg : Item α W) (rpt : Item β V)
    (mem : MatchingEngine) (books : SymbolId → OrderBook) (ids : List SymbolId)
    (events : List (UInt64 × MarketDataMsg))
    (hprices : ∀ event ∈ events, -2 ^ 63 ≤ event.2.price ∧ event.2.price < 2 ^ 63)
    (file : Option (List UInt8)) (hfile : traceFile events = some file)
    (before after : List (Turn β V)) :
    let run := live Lin Lout cfg clock inmem outmem msg mem books ids (eventsOf file)
    (∃ n, (run (before ++ List.replicate n (.replay rpt))).pc = .returned) ∧
    ((run before).pc = .returned → (run before).engine.stop = .idle →
      let s := run (before ++ .stop :: after)
      let c := s.engine
      (∃ n, (run (before ++ .stop :: after ++
        (List.replicate n .loop ++ [.stop]))).engine.stop = .returned) ∧
      (c.stop = .returned →
        ∃ out e, replay cfg (s.env clock wall_start) file .zero = some out ∧
          out.returned = true ∧
          (register_symbols mem books ids).process_all c.processed = some (c.emitted, e) ∧
          c.engine.books = e.books ∧ c.processed.Sublist (events.map Prod.snd) ∧
          out.result.events_replayed.toNat = c.processed.length ∧
          out.result.events_skipped.toNat = events.length - c.processed.length ∧
          out.result.matches_generated = .ofNat (c.received Lout).length ∧
          (c.received Lout).Sublist c.emitted ∧
          ((∀ moment, moment <+: before ++ .stop :: after → ¬ Jammed (run moment).engine) →
            c.processed = events.map Prod.snd))) := by
  intro run
  have hinv := inv_live Lin Lout cfg clock inmem outmem msg mem books ids (eventsOf file)
  constructor
  · obtain ⟨n, hreturned⟩ := replay_returns rpt (hinv before)
    refine ⟨n, ?_⟩
    show (live ..).pc = _
    rw [live_append]
    exact hreturned
  · intro hpc hidle s c
    have hs : Inv Lin Lout cfg _ _ s := hinv _
    have hclosing : Closing (run before) s := by
      show Closing (run before) (live ..)
      rw [live_append]
      exact closing_run (hinv before) hpc hidle after
    constructor
    · obtain ⟨n, hreturned⟩ := hs.engine.stop_returns hclosing.stop
      refine ⟨n, ?_⟩
      show (live ..).engine.stop = _
      rw [live_append, run_engine]
      exact hreturned
    · intro hstop
      obtain ⟨⟨hdr, hhdr⟩, hmessages⟩ := written_messages hprices hfile
      have hlength := congrArg List.length hmessages
      rw [List.length_map, List.length_map] at hlength
      -- All events are past, and they are the messages recorded.
      have hpast : (s.past.map Prod.fst).map trace_event_to_msg = events.map Prod.snd := by
        have hevents := hs.events
        rw [hs.ended (.inr hclosing.pc), List.append_nil] at hevents
        rw [hevents, hmessages]
      obtain ⟨hprocessed, e, hrun, hbooks⟩ :=
        hclosing.processed hs (hinv before) hpc hstop
      have hsubmitted : s.engine.submitted Lin = c.processed := by
        rw [hs.submitted, hand_of_not_polling (by simp [hclosing.pc]), List.append_nil]
        exact hprocessed.symm
      obtain ⟨out, hout, htrue, hreplayed, hsum, hmatches⟩ :=
        hs.result hclosing.pc hcfg hhdr rfl wall_start
      rw [hsubmitted] at hreplayed
      rw [hlength] at hsum
      refine ⟨out, e, hout, htrue, hrun, hbooks, ?_, hreplayed, ?_, hmatches, ?_, ?_⟩
      · rw [hprocessed, ← hpast]
        exact played_sublist s.past
      · omega
      · obtain ⟨items, held, hengine⟩ := hs.engine
        have hprefix : c.received Lout <+: c.queued Lout := by
          rw [hengine.queued_eq]
          exact List.prefix_append _ _
        exact hprefix.sublist.trans hengine.queued_sublist
      · intro hroom
        rcases smooth_or_jammed Lin Lout cfg clock inmem outmem msg mem books ids (eventsOf file)
          (before ++ .stop :: after) with hsmooth | ⟨moment, hmoment, hfull⟩
        · rw [hprocessed, ← hpast]
          exact played_of_smooth hsmooth
        · exact absurd hfull (hroom moment hmoment)

def sell : MarketDataMsg := new_order .Limit 20 0 .Sell 100 100

def buy : MarketDataMsg := new_order .Limit 21 0 .Buy 100 100

/-- The replay of a file to an engine with one symbol. -/
def replayRun (file : Option (List UInt8)) :
    List (Turn ExecutionReport 1) → State MarketDataMsg ExecutionReport 1 1 :=
  live (Worker.oneWord _) (Worker.oneWord _) {} (fun _ => ⟨0, 0, 0, 0⟩) (fun _ => .replicate 1 sell)
    (fun _ => .replicate 1 ⟨0, 0, 0, 0, 0, 0, .Buy, .New⟩) (.replicate 1 sell) zeroed
    (fun _ => OrderBook.zeroed) [0] (eventsOf file)

/-- A sell and a buy were recorded.  The replay has returned before the engine
    thread gets its first turn: all its counts are right, and it has seen no
    report of the match. -/
theorem replayed_sell_and_buy :
    let file := some (pack (headerWith 2).fields ++ eventBytes [(5, sell), (9, buy)])
    let rpt : Item ExecutionReport 1 := .replicate 1 ⟨0, 0, 0, 0, 0, 0, .Buy, .New⟩
    let s := replayRun file
      (List.replicate 12 (.replay rpt) ++ .stop :: (List.replicate 30 .loop ++ [.stop]))
    traceFile [(5, sell), (9, buy)] = some file ∧ s.engine.processed = [sell, buy] ∧
      ∃ out e, replay {} (s.env (fun _ => ⟨0, 0, 0, 0⟩) 0) file .zero = some out ∧
        out.result.events_replayed.toNat = 2 ∧ out.result.matches_generated = 0 ∧
        (register_symbols zeroed (fun _ => OrderBook.zeroed) [0]).process_all [sell, buy] =
          some (s.engine.emitted, e) ∧
        s.engine.emitted.length = 1 := by
  intro file rpt s
  have hfile : traceFile [(5, sell), (9, buy)] = some file := by
    rw [traceFile_eq, if_pos (by decide)]
    rfl
  have hprocessed : s.engine.processed = [sell, buy] := by decide +kernel
  have hstop : s.engine.stop = .returned := by decide +kernel
  have hreceived : (s.engine.received (Worker.oneWord _)).length = 0 := by decide +kernel
  obtain ⟨_, hstopped⟩ := replayed_session (Worker.oneWord _) (Worker.oneWord _) {} (by decide)
    (fun _ => ⟨0, 0, 0, 0⟩) 0 (fun _ => .replicate 1 sell) (fun _ => rpt) (.replicate 1 sell) rpt
    zeroed (fun _ => OrderBook.zeroed) [0] [(5, sell), (9, buy)] (by decide) file hfile
    (List.replicate 12 (.replay rpt)) (List.replicate 30 .loop ++ [.stop])
  obtain ⟨_, hresult⟩ := hstopped (by decide +kernel) (by decide +kernel)
  obtain ⟨out, e, hout, _, hrun, _, _, hreplayed, _, hmatches, _⟩ := hresult hstop
  refine ⟨hfile, hprocessed, out, e, hout, ?_, ?_, ?_, by decide +kernel⟩
  · exact hreplayed.trans (congrArg List.length hprocessed)
  · exact hmatches.trans (congrArg UInt64.ofNat hreceived)
  · rw [← hprocessed]
    exact hrun

end Live

end OrderFlowReplay

end OptionsEngine
