import OptionsEngine.MatchingEngine.Isolation
import OptionsEngine.MultiSymbolEngine.Routing
import OptionsEngine.SpscQueue.Worker

/-! # The threads of the sharded engine (`shard_loop`, `submit` and `stop`)

    One feed thread calls `submit`, each shard has a thread in `shard_loop`,
    and some thread calls `stop`, which clears the flags of all shards and then
    joins their threads one after the other.  All are cut into their atomic
    steps and taken in any order; each shard is a thread that works off a queue.

    * `projects`: what a run does to a shard is a run of that shard alone.
    * `Inv`: how the calls of `submit` and `stop` relate to the shards.
    * `sharded_equals_single`: once `stop` has returned, the books and reports
      of every symbol are those of a single engine that processes what was
      accepted, one message after the other. -/

namespace OptionsEngine

open Ring Loop MatchingEngine MultiSymbolEngine

namespace Sharded

/-! ## Section 1: Model -/

/-- What the thread of a shard works on, and the reports its engine has passed
    to `on_execution`. -/
structure Work where
  engine : MatchingEngine
  msgs_processed : UInt64
  reports : List ExecutionReport

def on_message (s : Work) (msg : MarketDataMsg) : Work :=
  match s.engine.process_message msg with
  | none => s
  | some p => { s with engine := p.engine, reports := s.reports ++ p.reports }

/-- `shard_loop`: one message between two looks at the flag, and what is left
    after it; only the former are counted. -/
def shard_loop : Worker.Program MarketDataMsg Work where
  handle := fun
    | .polling => fun s msg => { on_message s msg with msgs_processed := s.msgs_processed + 1 }
    | .draining => on_message
  limit := fun
    | .polling => some 1
    | .draining => none

/-- Where the feed thread stands in `submit`. -/
inductive FeedPc (N : ShardCount) where
  | idle
  /-- In the `push` to the queue of a shard. -/
  | pushing (i : Fin N.count) (msg : MarketDataMsg)
  /-- About to count the message as dropped. -/
  | refused (i : Fin N.count) (msg : MarketDataMsg)

/-- Where the caller of `stop` stands. -/
inductive StopPc where
  /-- Has cleared the flags of the shards before `k`; 0 before the call. -/
  | clearing (k : Nat)
  /-- Has joined the threads of the shards before `k`. -/
  | joining (k : Nat)
  | returned
  deriving DecidableEq

structure State (N : ShardCount) (α : Type) (W : Nat) where
  shards : Fin N.count → Worker.Config MarketDataMsg Work α W
  msgs_dropped : Fin N.count → UInt64
  feed : FeedPc N
  stop : StopPc
  /-- The calls of `submit` that have returned, with their results. -/
  submits : List (MarketDataMsg × Bool)

/-- Whose turn it is.  A feed thread that begins a call begins it with `msg`. -/
inductive Turn (N : ShardCount) where
  | submit (msg : MarketDataMsg)
  | work (i : Fin N.count)
  | stop

variable {N : ShardCount} {α : Type} {W : Nat}

namespace State

variable (L : Worker.Layout MarketDataMsg α W)

/-- `start` has been called and all threads are at the heads of their loops. -/
def start (mem : Fin N.count → Nat → Item α W) (msg : Fin N.count → Item α W)
    (m : MultiSymbolEngine N) : State N α W where
  shards := fun i =>
    .start (mem i) (msg i) ⟨(m.shards i).engine, (m.shards i).msgs_processed, []⟩
  msgs_dropped := fun i => (m.shards i).msgs_dropped
  feed := .idle
  stop := .clearing 0
  submits := []

/-- A shard takes a step. -/
def advance (s : State N α W) (i : Fin N.count) (turn : Worker.Turn MarketDataMsg) :
    State N α W :=
  { s with
    shards := Function.update s.shards i ((s.shards i).step shard_loop L Shard.kQueueDepth turn) }

/-- One step of `submit`. -/
def submit_step (s : State N α W) (msg : MarketDataMsg) : State N α W :=
  match s.feed with
  | .idle => { s with feed := .pushing (N.index msg.symbol.toNat) msg }
  | .pushing i msg =>
    let s' := s.advance L i (.push msg)
    match Spsc.returned (s.shards i).queue (s'.shards i).queue with
    | some (.push _ true) => { s' with feed := .idle, submits := s.submits ++ [(msg, true)] }
    | some (.push _ false) => { s' with feed := .refused i msg }
    | _ => s'
  | .refused i msg =>
    { s with
      msgs_dropped := Function.update s.msgs_dropped i (s.msgs_dropped i + 1)
      feed := .idle
      submits := s.submits ++ [(msg, false)] }

/-- One step of `stop`. -/
def stop_step (s : State N α W) : State N α W :=
  match s.stop with
  | .clearing k =>
    if h : k < N.count then { s.advance L ⟨k, h⟩ .stop with stop := .clearing (k + 1) }
    else { s with stop := .joining 0 }
  | .joining k =>
    if h : k < N.count then
      let s' := s.advance L ⟨k, h⟩ .stop
      -- the join waits for the thread
      if (s'.shards ⟨k, h⟩).stop = .returned then { s' with stop := .joining (k + 1) } else s'
    else { s with stop := .returned }
  | .returned => s

def step (s : State N α W) : Turn N → State N α W
  | .submit msg => s.submit_step L msg
  | .work i => s.advance L i .work
  | .stop => s.stop_step L

def run (s : State N α W) (schedule : List (Turn N)) : State N α W :=
  schedule.foldl (step L) s

/-- The messages whose `submit` has returned true, in that order. -/
def accepted (s : State N α W) : List MarketDataMsg :=
  (s.submits.filter fun p => p.2).map Prod.fst

/-- How many messages for a shard were refused. -/
def refusals (s : State N α W) (i : Fin N.count) : Nat :=
  (s.submits.filter fun p => p.2 = false ∧ N.index p.1.symbol.toNat = i).length

end State

open State

/-! ## Section 2: One shard -/

section shard

variable {L : Worker.Layout MarketDataMsg α W} {s : State N α W}

theorem advance_self (s : State N α W) (i : Fin N.count)
    (turn : Worker.Turn MarketDataMsg) : (s.advance L i turn).shards i =
      (s.shards i).step shard_loop L Shard.kQueueDepth turn := Function.update_self ..

theorem advance_other (s : State N α W) {i j : Fin N.count} (turn : Worker.Turn MarketDataMsg)
    (h : j ≠ i) : (s.advance L i turn).shards j = s.shards j := Function.update_of_ne h ..

/-- A step of the system is a step of a shard, or none. -/
theorem step_projects (s : State N α W) (turn : Turn N) (j : Fin N.count) :
    ∃ turns, (s.step L turn).shards j = (s.shards j).run shard_loop L Shard.kQueueDepth turns := by
  have hadvance : ∀ i t, ∃ turns, (s.advance L i t).shards j =
      (s.shards j).run shard_loop L Shard.kQueueDepth turns := by
    intro i t
    by_cases hj : j = i
    · subst hj
      exact ⟨[t], advance_self s j t⟩
    · exact ⟨[], advance_other s t hj⟩
  cases turn with
  | submit msg =>
    cases hfeed : s.feed with
    | idle => exact ⟨[], by simp only [State.step, State.submit_step, hfeed]; rfl⟩
    | pushing i m =>
      obtain ⟨turns, hturns⟩ := hadvance i (.push m)
      refine ⟨turns, hturns ▸ ?_⟩
      simp only [State.step, State.submit_step, hfeed]
      split <;> rfl
    | refused i m => exact ⟨[], by simp only [State.step, State.submit_step, hfeed]; rfl⟩
  | work i => exact hadvance i .work
  | stop =>
    show ∃ turns, (s.stop_step L).shards j = _
    unfold State.stop_step
    split
    · split
      · exact hadvance _ .stop
      · exact ⟨[], rfl⟩
    · split
      · simp only
        split
        · exact hadvance _ .stop
        · exact hadvance _ .stop
      · exact ⟨[], rfl⟩
    · exact ⟨[], rfl⟩

/-- What a run does to a shard is a run of that shard alone. -/
theorem projects (schedule : List (Turn N)) (j : Fin N.count) :
    ∀ s : State N α W, ∃ turns, (s.run L schedule).shards j =
      (s.shards j).run shard_loop L Shard.kQueueDepth turns := by
  induction schedule with
  | nil => exact fun s => ⟨[], rfl⟩
  | cons turn schedule ih =>
    intro s
    obtain ⟨first, hfirst⟩ := step_projects (L := L) s turn j
    obtain ⟨rest, hrest⟩ := ih (s.step L turn)
    refine ⟨first ++ rest, ?_⟩
    rw [Worker.run_append, ← hfirst]
    exact hrest

/-- A step of a worker other than a push leaves what was accepted, and the push
    in progress. -/
theorem worker_queue {c : Worker.Config MarketDataMsg Work α W} {turn : Worker.Turn MarketDataMsg}
    (hturn : ∀ msg, turn ≠ .push msg) :
    (c.step shard_loop L Shard.kQueueDepth turn).accepted L = c.accepted L ∧
      (c.step shard_loop L Shard.kQueueDepth turn).queue.producer = c.queue.producer := by
  cases turn with
  | push msg => exact absurd rfl (hturn msg)
  | work =>
    rcases Worker.work_step_queue (P := shard_loop) (L := L) (C := Shard.kQueueDepth) c with
      heq | heq
    · have hqueue : (c.step shard_loop L Shard.kQueueDepth .work).queue = c.queue := heq
      exact ⟨by rw [Worker.Config.accepted, hqueue]; rfl, by rw [hqueue]⟩
    · have hqueue : (c.step shard_loop L Shard.kQueueDepth .work).queue =
        c.queue.consumer_step Shard.kQueueDepth c.out := heq
      rw [Worker.Config.accepted, hqueue]
      refine ⟨?_, Spsc.consumer_step_producer _ _⟩
      rw [Spsc.consumer_step_pushed]
      rfl
  | stop =>
    have hqueue : (c.step shard_loop L Shard.kQueueDepth .stop).queue = c.queue :=
      Worker.stop_step_queue c
    exact ⟨by rw [Worker.Config.accepted, hqueue]; rfl, by rw [hqueue]⟩

end shard

/-! ## Section 3: What `submit` has done -/

variable (L : Worker.Layout MarketDataMsg α W)

structure FeedInv (first s : State N α W) : Prop where
  accepted : ∀ i, (s.shards i).accepted L =
    s.accepted.filter fun msg => N.index msg.symbol.toNat = i
  dropped : ∀ i, s.msgs_dropped i = first.msgs_dropped i + .ofNat (s.refusals i)
  quiet : ∀ i, (∀ msg, s.feed ≠ .pushing i msg) → (s.shards i).queue.producer = .idle
  carries : ∀ i msg, s.feed = .pushing i msg →
    N.index msg.symbol.toNat = i ∧ (s.shards i).queue.producer.Carries (L.words msg)
  refused : ∀ i msg, s.feed = .refused i msg → N.index msg.symbol.toNat = i

variable {L} {first s : State N α W}

theorem feedInv_start (mem : Fin N.count → Nat → Item α W) (msg : Fin N.count → Item α W)
    (m : MultiSymbolEngine N) : FeedInv L (start mem msg m) (start mem msg m) where
  accepted := fun _ => rfl
  dropped := fun _ => (UInt64.add_zero _).symm
  quiet := fun _ _ => rfl
  carries := fun _ _ h => by cases h
  refused := fun _ _ h => by cases h

/-- The threads of the shards and `stop` change nothing of this. -/
theorem FeedInv.advance (h : FeedInv L first s) (i : Fin N.count)
    {turn : Worker.Turn MarketDataMsg} (hturn : ∀ msg, turn ≠ .push msg) :
    FeedInv L first (s.advance L i turn) := by
  have hqueue : ∀ j, ((s.advance L i turn).shards j).accepted L = (s.shards j).accepted L ∧
      ((s.advance L i turn).shards j).queue.producer = (s.shards j).queue.producer := by
    intro j
    by_cases hj : j = i
    · subst hj
      rw [advance_self]
      exact worker_queue hturn
    · rw [advance_other s turn hj]
      exact ⟨rfl, rfl⟩
  exact {
    accepted := fun j => (hqueue j).1.trans (h.accepted j)
    dropped := h.dropped
    quiet := fun j hj => (hqueue j).2.trans (h.quiet j hj)
    carries := fun j msg hj => by
      rw [(hqueue j).2]
      exact h.carries j msg hj
    refused := h.refused }

/-- A step of the `push` in progress returns nothing yet, or whether there was
    room for the message. -/
structure Pushed (L : Worker.Layout MarketDataMsg α W) (s : State N α W) (i : Fin N.count)
    (msg : MarketDataMsg) (ok : Option Bool) : Prop where
  returned : Spsc.returned (s.shards i).queue ((s.advance L i (.push msg)).shards i).queue =
    ok.map (.push (L.words msg))
  accepted : ∀ j, ((s.advance L i (.push msg)).shards j).accepted L =
    (s.shards j).accepted L ++ if j = i ∧ ok = some true then [msg] else []
  other : ∀ j, j ≠ i →
    ((s.advance L i (.push msg)).shards j).queue.producer = (s.shards j).queue.producer
  carries : ((s.advance L i (.push msg)).shards i).queue.producer.Carries (L.words msg)
  idle : ok ≠ none → ((s.advance L i (.push msg)).shards i).queue.producer = .idle

theorem push_step_cases {i : Fin N.count} {msg : MarketDataMsg}
    (hcarries : (s.shards i).queue.producer.Carries (L.words msg)) : ∃ ok, Pushed L s i msg ok := by
  have hself : ((s.advance L i (.push msg)).shards i).queue =
      (s.shards i).queue.producer_step Shard.kQueueDepth (L.words msg) := by
    rw [advance_self]
    rfl
  have hframe : ∀ j, j ≠ i → (s.advance L i (.push msg)).shards j = s.shards j :=
    fun j hj => advance_other s _ hj
  rcases Spsc.producer_step_carries (C := Shard.kQueueDepth) hcarries with
    ⟨hret, hcarries', _⟩ | ⟨ok, hret, hidle⟩
  · refine ⟨none, ?_, ?_, ?_, ?_, by simp⟩
    · rw [hself, Spsc.returned_none hret, Option.map_none]
    · intro j
      rw [if_neg (by simp), List.append_nil]
      by_cases hj : j = i
      · subst hj
        unfold Worker.Config.accepted
        rw [hself]
        simp only [Spsc.Config.pushed, hret]
      · rw [hframe j hj]
    · intro j hj
      rw [hframe j hj]
    · rw [hself]
      exact hcarries'
  · refine ⟨some ok, ?_, ?_, ?_, ?_, ?_⟩
    · rw [hself, Spsc.returned_some hret, Option.map_some]
    · intro j
      by_cases hj : j = i
      · subst hj
        unfold Worker.Config.accepted
        rw [hself]
        cases ok with
        | true => simp [Spsc.Config.pushed, hret, L.item_words]
        | false => simp [Spsc.Config.pushed, hret]
      · rw [hframe j hj, if_neg (by simp [hj]), List.append_nil]
    · intro j hj
      rw [hframe j hj]
    · rw [hself, hidle]
      trivial
    · intro _
      rw [hself]
      exact hidle

/-- A step of the `push` in progress. -/
theorem FeedInv.push {i : Fin N.count} {msg : MarketDataMsg} (h : FeedInv L first s)
    (hfeed : s.feed = .pushing i msg) (other : MarketDataMsg) :
    FeedInv L first (s.submit_step L other) := by
  obtain ⟨hindex, hcarries⟩ := h.carries i msg hfeed
  obtain ⟨ok, hp⟩ := push_step_cases hcarries
  have hothers : ∀ j, j ≠ i → ((s.advance L i (.push msg)).shards j).queue.producer = .idle := by
    intro j hj
    rw [hp.other j hj]
    apply h.quiet j
    intro m heq
    rw [hfeed] at heq
    exact hj (FeedPc.pushing.inj heq).1.symm
  have hall : ok ≠ none → ∀ j,
      ((s.advance L i (.push msg)).shards j).queue.producer = .idle := by
    intro hok j
    by_cases hj : j = i
    · subst hj
      exact hp.idle hok
    · exact hothers j hj
  have haccepted := hp.accepted
  unfold State.submit_step
  simp only [hfeed, hp.returned]
  -- The push goes on, or was refused, or was accepted.
  rcases ok with _ | _ | _
  · refine ⟨?_, h.dropped, ?_, ?_, fun j m hm => ?_⟩
    · intro j
      show ((s.advance L i (.push msg)).shards j).accepted L = _
      rw [haccepted j, if_neg (by simp), List.append_nil]
      exact h.accepted j
    · intro j hj
      refine hothers j ?_
      rintro rfl
      exact hj msg hfeed
    · intro j m hm
      obtain ⟨rfl, rfl⟩ := FeedPc.pushing.inj (hfeed.symm.trans hm)
      exact ⟨hindex, hp.carries⟩
    · exact absurd (hfeed.symm.trans hm) (by simp)
  · refine ⟨?_, h.dropped, fun j _ => hall (by simp) j, by simp, ?_⟩
    · intro j
      show ((s.advance L i (.push msg)).shards j).accepted L = _
      rw [haccepted j, if_neg (by simp), List.append_nil]
      exact h.accepted j
    · intro j m hm
      obtain ⟨rfl, rfl⟩ := FeedPc.refused.inj hm
      exact hindex
  · refine ⟨?_, ?_, fun j _ => hall (by simp) j, by simp, by simp⟩
    -- Only the shard that the symbol goes to has one more.
    · intro j
      show ((s.advance L i (.push msg)).shards j).accepted L = _
      rw [haccepted j, h.accepted j]
      by_cases hj : j = i
      · subst hj
        simp [State.accepted, hindex]
      · simp [State.accepted, hindex, hj, Ne.symm hj]
    · intro j
      have hdropped := h.dropped j
      simpa [State.refusals, State.advance] using hdropped

theorem FeedInv.submit (h : FeedInv L first s) (msg : MarketDataMsg) :
    FeedInv L first (s.submit_step L msg) := by
  cases hfeed : s.feed with
  | idle =>
    have hall : ∀ j, (s.shards j).queue.producer = .idle := fun j => h.quiet j (by simp [hfeed])
    unfold State.submit_step
    rw [hfeed]
    refine ⟨h.accepted, h.dropped, fun j _ => hall j, ?_, by simp⟩
    intro j m hm
    obtain ⟨rfl, rfl⟩ := FeedPc.pushing.inj hm
    refine ⟨rfl, ?_⟩
    show (s.shards _).queue.producer.Carries _
    rw [hall]
    trivial
  | pushing i m => exact h.push hfeed msg
  | refused i m =>
    -- The counter of the shard is raised only now, after `push` has returned.
    have hindex := h.refused i m hfeed
    unfold State.submit_step
    rw [hfeed]
    refine ⟨?_, ?_, fun j _ => h.quiet j (by simp [hfeed]), by simp, by simp⟩
    · intro j
      rw [show (s.shards j).accepted L = _ from h.accepted j]
      simp [State.accepted]
    · intro j
      have hdropped := h.dropped j
      by_cases hj : j = i
      · subst hj
        have hone : { s with
            msgs_dropped := Function.update s.msgs_dropped j (s.msgs_dropped j + 1)
            feed := .idle
            submits := s.submits ++ [(m, false)] }.refusals j = s.refusals j + 1 := by
          simp [State.refusals, hindex]
        rw [hone, UInt64.ofNat_add, ← UInt64.add_assoc, ← hdropped]
        exact Function.update_self ..
      · have hsame : { s with
            msgs_dropped := Function.update s.msgs_dropped i (s.msgs_dropped i + 1)
            feed := .idle
            submits := s.submits ++ [(m, false)] }.refusals j = s.refusals j := by
          simp [State.refusals, hindex, Ne.symm hj]
        rw [hsame, ← hdropped]
        exact Function.update_of_ne hj ..

/-! ## Section 4: What `stop` has done -/

/-- Where the call of `stop` stands with a shard. -/
def StopPc.shard (pc : StopPc) (i : Nat) : Worker.StopPc :=
  match pc with
  | .clearing k => if i < k then .joining else .idle
  | .joining k => if i < k then .returned else .joining
  | .returned => .returned

def StopInv (s : State N α W) : Prop := ∀ i, (s.shards i).stop = s.stop.shard i

/-- Nobody but `stop` moves it on. -/
theorem StopInv.advance (h : StopInv s) (i : Fin N.count) {turn : Worker.Turn MarketDataMsg}
    (hturn : turn ≠ .stop) : StopInv (s.advance L i turn) := by
  intro j
  show ((s.advance L i turn).shards j).stop = s.stop.shard j
  rw [← h j]
  by_cases hj : j = i
  · subst hj
    rw [advance_self]
    cases turn with
    | push msg => rfl
    | work => exact Worker.work_step_stop _
    | stop => exact absurd rfl hturn
  · rw [advance_other s turn hj]

theorem StopInv.submit (h : StopInv s) (msg : MarketDataMsg) : StopInv (s.submit_step L msg) := by
  unfold State.submit_step
  split
  · exact h
  · simp only
    split
    · exact h.advance _ (by simp)
    · exact h.advance _ (by simp)
    · exact h.advance _ (by simp)
  · exact h

theorem StopInv.stop_step (h : StopInv s) : StopInv (s.stop_step L) := by
  unfold State.stop_step
  cases hstop : s.stop with
  | clearing k =>
    simp only
    split
    · next hk =>
      intro j
      show ((s.advance L ⟨k, hk⟩ .stop).shards j).stop = if j.val < k + 1 then _ else _
      have hj := h j
      rw [hstop] at hj
      change _ = if j.val < k then _ else _ at hj
      -- Shard `k` is moved on; the others stand on the same side of `k` and of `k + 1`.
      by_cases hjk : j = ⟨k, hk⟩
      · subst hjk
        rw [advance_self, if_pos (Nat.lt_succ_self k)]
        rw [if_neg (Nat.lt_irrefl k)] at hj
        show (Worker.Config.stop_step _).stop = _
        rw [Worker.Config.stop_step, hj]
      · have hne : j.val ≠ k := fun heq => hjk (Fin.ext heq)
        rw [advance_other s _ hjk, hj]
        simp only [show j.val < k + 1 ↔ j.val < k by omega]
    · next hk =>
      intro j
      have hj := h j
      rw [hstop] at hj
      change _ = if j.val < k then _ else _ at hj
      rw [if_pos (Nat.lt_of_lt_of_le j.isLt (Nat.not_lt.mp hk))] at hj
      exact hj
  | joining k =>
    simp only
    split
    · next hk =>
      have hjoin : ∀ j, j ≠ ⟨k, hk⟩ → ((s.advance L ⟨k, hk⟩ .stop).shards j).stop =
          if j.val < k + 1 then .returned else .joining := by
        intro j hjk
        have hne : j.val ≠ k := fun heq => hjk (Fin.ext heq)
        have hj := h j
        rw [hstop] at hj
        rw [advance_other s _ hjk, hj]
        show (if j.val < k then _ else _) = _
        simp only [show j.val < k + 1 ↔ j.val < k by omega]
      have hself : (s.shards ⟨k, hk⟩).stop = .joining := by
        rw [h ⟨k, hk⟩, hstop]
        exact if_neg (Nat.lt_irrefl k)
      split
      · next hret =>
        intro j
        by_cases hjk : j = ⟨k, hk⟩
        · subst hjk
          exact hret.trans (if_pos (Nat.lt_succ_self k)).symm
        · exact hjoin j hjk
      -- The thread of shard `k` still runs, and `stop` waits for it.
      · next hret =>
        intro j
        show _ = (s.advance L ⟨k, hk⟩ .stop).stop.shard j
        rw [show (s.advance L ⟨k, hk⟩ .stop).stop = .joining k from hstop]
        by_cases hjk : j = ⟨k, hk⟩
        · subst hjk
          rw [StopPc.shard, if_neg (Nat.lt_irrefl k)]
          rw [advance_self] at hret ⊢
          change (Worker.Config.stop_step _).stop ≠ _ at hret
          show (Worker.Config.stop_step _).stop = _
          unfold Worker.Config.stop_step at hret ⊢
          rw [hself] at hret ⊢
          simp only at hret ⊢
          split at hret
          · exact absurd rfl hret
          · next hlive =>
            rw [if_neg hlive]
            exact hself
        · have hne : j.val ≠ k := fun heq => hjk (Fin.ext heq)
          rw [hjoin j hjk, StopPc.shard]
          simp only [show j.val < k + 1 ↔ j.val < k by omega]
    · next hk =>
      intro j
      have hj := h j
      rw [hstop] at hj
      change _ = if j.val < k then _ else _ at hj
      rw [if_pos (Nat.lt_of_lt_of_le j.isLt (Nat.not_lt.mp hk))] at hj
      exact hj
  | returned => exact h

variable (L) in
structure Inv (first s : State N α W) : Prop where
  feed : FeedInv L first s
  stop : StopInv s

theorem Inv.step (s : State N α W) (turn : Turn N) (h : Inv L first s) :
    Inv L first (s.step L turn) := by
  cases turn with
  | submit msg => exact ⟨h.feed.submit msg, h.stop.submit msg⟩
  | work i => exact ⟨h.feed.advance i (by simp), h.stop.advance i (by simp)⟩
  | stop =>
    refine ⟨?_, h.stop.stop_step⟩
    show FeedInv L first (s.stop_step L)
    unfold State.stop_step
    -- A turn of `stop` on a shard submits nothing.
    have hadvance : ∀ i, FeedInv L first (s.advance L i .stop) := fun i =>
      h.feed.advance i (by simp)
    split
    · split
      · next hk =>
        have hf := hadvance ⟨_, hk⟩
        exact ⟨hf.accepted, hf.dropped, hf.quiet, hf.carries, hf.refused⟩
      · exact ⟨h.feed.accepted, h.feed.dropped, h.feed.quiet, h.feed.carries, h.feed.refused⟩
    · split
      · next hk =>
        have hf := hadvance ⟨_, hk⟩
        simp only
        split
        · exact ⟨hf.accepted, hf.dropped, hf.quiet, hf.carries, hf.refused⟩
        · exact hf
      · exact ⟨h.feed.accepted, h.feed.dropped, h.feed.quiet, h.feed.carries, h.feed.refused⟩
    · exact h.feed

theorem Inv.run (h : Inv L first s) (schedule : List (Turn N)) :
    Inv L first (s.run L schedule) := foldl_keeps Inv.step h schedule

theorem inv_start (mem : Fin N.count → Nat → Item α W) (msg : Fin N.count → Item α W)
    (m : MultiSymbolEngine N) : Inv L (start mem msg m) (start mem msg m) where
  feed := feedInv_start mem msg m
  stop := fun i => by simp [start, StopPc.shard, Worker.Config.start]

/-! ## Section 5: `stop` returns -/

/-- Turns of the threads and of `stop`, with no call of `submit`. -/
def NoSubmit (turns : List (Turn N)) : Prop := ∀ msg, .submit msg ∉ turns

theorem submits_run {turns : List (Turn N)} (h : NoSubmit turns) :
    ∀ s : State N α W, (s.run L turns).submits = s.submits := by
  induction turns with
  | nil => exact fun _ => rfl
  | cons turn turns ih =>
    intro s
    refine (ih (fun msg hmem => h msg (List.mem_cons_of_mem _ hmem)) (s.step L turn)).trans ?_
    cases turn with
    | submit msg => exact absurd List.mem_cons_self (h msg)
    | work i => rfl
    | stop =>
      show (s.stop_step L).submits = s.submits
      unfold State.stop_step
      split
      · split <;> rfl
      · split
        · simp only
          split <;> rfl
        · rfl
      · rfl

theorem run_append (s : State N α W) (before after : List (Turn N)) :
    s.run L (before ++ after) = (s.run L before).run L after := List.foldl_append

/-- The thread of a shard takes `n` turns. -/
theorem run_work (i : Fin N.count) (n : Nat) :
    ∀ s : State N α W, (s.run L (List.replicate n (.work i))).stop = s.stop ∧
      (s.run L (List.replicate n (.work i))).shards i =
        (s.shards i).run shard_loop L Shard.kQueueDepth (List.replicate n .work) := by
  induction n with
  | zero => exact fun _ => ⟨rfl, rfl⟩
  | succ n ih =>
    intro s
    obtain ⟨hstop, hshard⟩ := ih (s.advance L i .work)
    refine ⟨hstop, ?_⟩
    rw [advance_self] at hshard
    exact hshard

/-- Every shard is the run of a thread from its start. -/
def Threads (L : Worker.Layout MarketDataMsg α W) (init : Fin N.count → Work) (s : State N α W) :
    Prop := ∀ i, Worker.Consistent shard_loop L Shard.kQueueDepth (init i) (s.shards i)

variable {init : Fin N.count → Work}

theorem Threads.run (h : Threads L init s) (schedule : List (Turn N)) :
    Threads L init (s.run L schedule) := by
  intro i
  obtain ⟨turns, heq⟩ := projects (L := L) schedule i s
  rw [heq]
  exact foldl_keeps Worker.Consistent.step (h i) turns

/-- What a call of `stop` has left to do with the shards. -/
def StopPc.left (pc : StopPc) (count : Nat) : Nat :=
  match pc with
  | .clearing k => count - k + (count + 2)
  | .joining k => count - k + 1
  | .returned => 0

/-- The thread of shard `k` comes to its end, and the next turn of `stop` finds
    it so. -/
theorem Inv.join_next (h : Inv L first s) (hthreads : Threads L init s) {k : Nat}
    (hk : k < N.count) (hstop : s.stop = .joining k) :
    ∃ n, (s.run L (List.replicate n (.work ⟨k, hk⟩) ++ [.stop])).stop = .joining (k + 1) := by
  obtain ⟨items, hc⟩ := hthreads ⟨k, hk⟩
  have hjoining : (s.shards ⟨k, hk⟩).stop = .joining := by
    rw [h.stop ⟨k, hk⟩, hstop]
    exact if_neg (Nat.lt_irrefl k)
  obtain ⟨n, hreturned⟩ := Worker.stop_returns hc (by rw [hjoining]; simp)
  obtain ⟨hstop', hshard⟩ := run_work (L := L) ⟨k, hk⟩ n s
  rw [hstop] at hstop'
  rw [Worker.run_append, ← hshard] at hreturned
  refine ⟨n, ?_⟩
  rw [run_append]
  show ((s.run L (List.replicate n (.work ⟨k, hk⟩))).stop_step L).stop = _
  unfold State.stop_step
  simp only [hstop', dif_pos hk, advance_self]
  rw [if_pos]
  exact hreturned

/-- A call of `stop` that has not returned gets on with a shard, and no message
    is submitted for it. -/
theorem Inv.stop_gets_on (h : Inv L first s) (hthreads : Threads L init s)
    (hlive : s.stop ≠ .returned) :
    ∃ turns : List (Turn N), (∀ turn ∈ turns, ∀ msg, turn ≠ .submit msg) ∧
      (s.run L turns).stop.left N.count < s.stop.left N.count := by
  have honly : ∀ turn ∈ [(.stop : Turn N)], ∀ msg, turn ≠ .submit msg := by simp
  cases hstop : s.stop with
  | clearing k =>
    refine ⟨[.stop], honly, ?_⟩
    show (s.stop_step L).stop.left N.count < _
    unfold State.stop_step
    by_cases hk : k < N.count
    · simp only [hstop, dif_pos hk, StopPc.left]
      omega
    · simp only [hstop, dif_neg hk, StopPc.left]
      omega
  | joining k =>
    by_cases hk : k < N.count
    · obtain ⟨n, hjoined⟩ := h.join_next hthreads hk hstop
      refine ⟨List.replicate n (.work ⟨k, hk⟩) ++ [.stop], ?_, ?_⟩
      · intro turn hmem msg
        rcases List.mem_append.mp hmem with hmem | hmem
        · rw [(List.mem_replicate.mp hmem).2]
          simp
        · exact honly turn hmem msg
      · rw [hjoined]
        simp only [StopPc.left]
        omega
    · refine ⟨[.stop], honly, ?_⟩
      show (s.stop_step L).stop.left N.count < _
      unfold State.stop_step
      simp only [hstop, dif_neg hk, StopPc.left]
      omega
  | returned => exact absurd hstop hlive

/-- A call of `stop` returns if the threads get enough turns. -/
theorem stop_returns (h : Inv L first s) (hthreads : Threads L init s) :
    ∃ more, NoSubmit more ∧ (s.run L more).stop = .returned := by
  let Ranked (m : Nat) (s' : State N α W) :=
    s'.stop.left N.count = m ∧ Inv L first s' ∧ Threads L init s'
  have hstep : ∀ m s', Ranked m s' → ¬ s'.stop = .returned →
      ∃ turns : List (Turn N), (∀ turn ∈ turns, ∀ msg, turn ≠ .submit msg) ∧
        ∃ m' < m, Ranked m' (turns.foldl (State.step L) s') := by
    rintro m s' ⟨rfl, h', hthreads'⟩ hlive
    obtain ⟨turns, hturns, hlt⟩ := h'.stop_gets_on hthreads' hlive
    exact ⟨turns, hturns, _, hlt, rfl, h'.run turns, hthreads'.run turns⟩
  obtain ⟨more, hmore, _, hdone⟩ := foldl_reaches hstep _ ⟨rfl, h, hthreads⟩
  exact ⟨more, fun msg hmem => hmore _ hmem msg rfl, hdone⟩

/-! ## Section 6: What the engines have done -/

/-- Messages one after the other are processed as by `process_all`. -/
theorem foldl_handle (phase : Worker.Phase) (msgs : List MarketDataMsg) :
    ∀ w : Work, w.engine.InOrder →
      ∃ reports e count, w.engine.process_all msgs = some (reports, e) ∧ e.InOrder ∧
        msgs.foldl (shard_loop.handle phase) w = ⟨e, count, w.reports ++ reports⟩ := by
  induction msgs with
  | nil =>
    intro w hw
    exact ⟨[], w.engine, w.msgs_processed, rfl, hw, by rw [List.append_nil]; rfl⟩
  | cons msg msgs ih =>
    intro w hw
    obtain ⟨p, hp, _⟩ := hw.sound.process_message msg
    have hnext : ∃ count, shard_loop.handle phase w msg =
        ⟨p.engine, count, w.reports ++ p.reports⟩ := by
      cases phase with
      | polling => exact ⟨w.msgs_processed + 1, by simp [shard_loop, on_message, hp]⟩
      | draining => exact ⟨w.msgs_processed, by simp [shard_loop, on_message, hp]⟩
    obtain ⟨count, hnext⟩ := hnext
    obtain ⟨reports, e, count', hrun, he, hfold⟩ :=
      ih (shard_loop.handle phase w msg) (by rw [hnext]; exact (hw.process_message hp).1)
    rw [hnext] at hrun
    refine ⟨p.reports ++ reports, e, count', ?_, he, ?_⟩
    · have hstep : machine.step w.engine msg = some (p.reports, p.engine) := by
        show w.engine.process msg = _
        rw [process, hp, Option.map_some]
      exact Keyed.run_cons hstep hrun
    · rw [List.foldl_cons, hfold, hnext, List.append_assoc]

theorem outcome_process_all {w : Work} (hw : w.engine.InOrder) (polled drained : List MarketDataMsg) :
    ∃ reports e count, w.engine.process_all (polled ++ drained) = some (reports, e) ∧
      Worker.outcome shard_loop w polled drained = ⟨e, count, w.reports ++ reports⟩ := by
  obtain ⟨reports, e, count, hrun, he, hfold⟩ := foldl_handle .polling polled w hw
  obtain ⟨reports', e', count', hrun', _, hfold'⟩ :=
    foldl_handle .draining drained ⟨e, count, w.reports ++ reports⟩ he
  refine ⟨reports ++ reports', e', count', ?_, ?_⟩
  · rw [process_all, Keyed.run_append _ _ hrun]
    have hrest : Keyed.run process e drained = some (reports', e') := hrun'
    rw [hrest, Option.map_some]
  · rw [Worker.outcome, hfold, hfold', List.append_assoc]

/-- The shards and a single engine have the same books, and those of the shards
    are in order. -/
structure SameBooks (m : MultiSymbolEngine N) (e : MatchingEngine) : Prop where
  books : ∀ id : SymbolId, (m.shards (N.index id.toNat)).engine.books id = e.books id
  inOrder : ∀ i, (m.shards i).engine.InOrder

/-- A registration that succeeds in the shard where the messages go succeeds in
    a single engine. -/
theorem SameBooks.register_symbol {m m' : MultiSymbolEngine N} {e : MatchingEngine}
    {mem : OrderBook} {symbol : List UInt8} {id : SymbolId} (h : SameBooks m e)
    (hreg : m.register_symbol mem symbol id = (m', true))
    (hrouted : N.index (fnv1a symbol).toNat = N.index id.toNat) :
    SameBooks m' (e.register_symbol mem id).1 := by
  have hm : m' = m.set (N.index id.toNat) { m.shards (N.index id.toNat) with
      engine := ((m.shards (N.index id.toNat)).engine.register_symbol mem id).1 } := by
    rw [← hrouted]
    exact (congrArg Prod.fst hreg).symm
  have hok : ((m.shards (N.index id.toNat)).engine.register_symbol mem id).2 = true := by
    rw [← hrouted]
    exact congrArg Prod.snd hreg
  have hself : (m'.shards (N.index id.toNat)).engine =
      ((m.shards (N.index id.toNat)).engine.register_symbol mem id).1 := by
    rw [hm, set_shards_self]
  have hother : ∀ j, j ≠ N.index id.toNat → m'.shards j = m.shards j := by
    intro j hj
    rw [hm, set_shards_ne _ _ hj]
  constructor
  · intro id'
    have hbooks := h.books id
    unfold MatchingEngine.register_symbol at hok hself ⊢
    split at hok
    · cases hok
    · next hlt =>
      split at hok
      · cases hok
      · next hnew =>
        rw [hbooks] at hnew
        rw [if_neg hlt, if_neg hnew]
        rw [if_neg hlt, hbooks, if_neg hnew] at hself
        -- The symbol itself, another of the same shard, and one of another shard.
        by_cases hid : id' = id
        · subst hid
          rw [hself]
          simp
        · simp only [Function.update_of_ne hid]
          by_cases hj : N.index id'.toNat = N.index id.toNat
          · rw [hj, hself]
            simp only [Function.update_of_ne hid]
            rw [← hj]
            exact h.books id'
          · rw [hother _ hj]
            exact h.books id'
  · intro j
    by_cases hj : j = N.index id.toNat
    · subst hj
      rw [hself]
      exact (h.inOrder _).register_symbol mem id
    · rw [hother j hj]
      exact h.inOrder j

theorem SameBooks.register_all {books : SymbolId → OrderBook} {m' : MultiSymbolEngine N}
    (regs : List (List UInt8 × SymbolId)) :
    ∀ {m : MultiSymbolEngine N} {e : MatchingEngine}, SameBooks m e →
      m.register_all books regs = some m' →
      (∀ reg ∈ regs, N.index (fnv1a reg.1).toNat = N.index reg.2.toNat) →
      SameBooks m' ((regs.map Prod.snd).foldl (fun e id => (e.register_symbol (books id) id).1) e) := by
  induction regs with
  | nil =>
    intro m e h hreg _
    obtain rfl := Option.some.inj hreg
    exact h
  | cons reg regs ih =>
    obtain ⟨symbol, id⟩ := reg
    intro m e h hreg hrouted
    unfold MultiSymbolEngine.register_all at hreg
    split at hreg
    · next m₁ hfirst =>
      exact ih (h.register_symbol hfirst (hrouted (symbol, id) List.mem_cons_self)) hreg
        fun reg hmem => hrouted reg (List.mem_cons_of_mem _ hmem)
    · cases hreg

theorem sameBooks_fresh (shards : Fin N.count → Shard) (engine : MatchingEngine) :
    SameBooks (MultiSymbolEngine.fresh shards) (MatchingEngine.fresh engine) where
  books := fun _ => rfl
  inOrder := fun i => ⟨sound_fresh _, fun _ _ h => by cases h⟩

/-- What a shard and a single engine show of a symbol whose messages they have
    both processed. -/
theorem same_symbol {w : Work} {e₀ e : MatchingEngine} {id : SymbolId}
    {own all : List MarketDataMsg} {reports : List ExecutionReport} {polled drained : List MarketDataMsg}
    (hw : w.engine.InOrder) (he₀ : e₀.InOrder) (hnone : w.reports = [])
    (hbooks : w.engine.books id = e₀.books id) (hown : own = polled ++ drained)
    (hids : ∀ msg ∈ own, WithId msg) (hall : ∀ msg ∈ all, WithId msg)
    (hsame : own.filter (fun msg => msg.symbol = id) = all.filter fun msg => msg.symbol = id)
    (hrun : e₀.process_all all = some (reports, e)) :
    let w' := Worker.outcome shard_loop w polled drained
    w'.engine.books id = e.books id ∧
      w'.reports.filter (fun rpt => rpt.symbol = id) =
        reports.filter fun rpt => rpt.symbol = id := by
  intro w'
  obtain ⟨rs, e', count, hrs, houtcome⟩ := outcome_process_all hw polled drained
  rw [← hown] at hrs
  -- both show what the messages of the symbol alone do
  obtain ⟨out₁, s₁, out₂, s₂, hfull, hfilter, hout, hview⟩ :=
    isolated.run_filter (k := id) own hw he₀ hids hbooks
  obtain ⟨out₃, s₃, out₄, s₄, hfull', hfilter', hout', hview'⟩ :=
    isolated.run_filter (k := id) all he₀ he₀ hall rfl
  obtain ⟨rfl, rfl⟩ := Prod.mk.inj (Option.some.inj (hrs.symm.trans hfull))
  obtain ⟨rfl, rfl⟩ := Prod.mk.inj (Option.some.inj (hrun.symm.trans hfull'))
  rw [show machine.inputs id own = machine.inputs id all from hsame] at hfilter
  obtain ⟨rfl, rfl⟩ := Prod.mk.inj (Option.some.inj (hfilter.symm.trans hfilter'))
  have hw' : w' = ⟨e', count, rs⟩ := by
    rw [show w' = _ from houtcome, hnone, List.nil_append]
  rw [hw']
  exact ⟨hview.trans hview'.symm, hout.trans hout'.symm⟩

/-! ## Section 7: Every interleaving -/

/-- A shard that `stop` has joined has handled what it had accepted before the
    call, if it has not accepted anything since. -/
theorem handled_eq {c : Worker.Config MarketDataMsg Work α W} {w : Work}
    {mem : Nat → Item α W} {out : Item α W} {before after : List (Worker.Turn MarketDataMsg)}
    (hbefore : c = (Worker.Config.start mem out w).run shard_loop L Shard.kQueueDepth before)
    (hidle : c.stop = .idle)
    (hreturned : (c.run shard_loop L Shard.kQueueDepth after).stop = .returned)
    (hlast : (c.run shard_loop L Shard.kQueueDepth after).accepted L = c.accepted L) :
    (c.run shard_loop L Shard.kQueueDepth after).handled = c.accepted L := by
  have hdrains : shard_loop.DrainsAll Shard.kQueueDepth := fun _ h => absurd h (by
    simp [Worker.Program.Reached, shard_loop])
  subst hbefore
  rw [← Worker.run_append] at hreturned hlast ⊢
  have hfirst := Worker.handled_before_stop hdrains mem out w before after hidle hreturned
  obtain ⟨items, h⟩ := Worker.consistent_run (P := shard_loop) (L := L) (C := Shard.kQueueDepth)
    mem out w (before ++ after)
  -- Handled is between what was accepted before the call and what was accepted at all.
  have hsecond : ((Worker.Config.start mem out w).run shard_loop L Shard.kQueueDepth
      (before ++ after)).handled <+: _ := ⟨_, h.results.1.symm⟩
  rw [hlast] at hsecond
  exact hsecond.eq_of_length (Nat.le_antisymm hsecond.length_le hfirst.length_le)

/-- Let every symbol be registered in the shard where its messages go, let
    `stop` be called after `before`, and let nothing be accepted since.  When
    `stop` has returned, each symbol has the book and the reports that a single
    engine gives it for the messages accepted, in the order of their submission.
    What was refused is counted by the shard that refused it, and `stop` returns
    if the threads get enough turns. -/
theorem sharded_equals_single (L : Worker.Layout MarketDataMsg α W)
    (mem : Fin N.count → Nat → Item α W) (msg : Fin N.count → Item α W)
    (shards : Fin N.count → Shard) (engine : MatchingEngine) (books : SymbolId → OrderBook)
    {regs : List (List UInt8 × SymbolId)} {m : MultiSymbolEngine N}
    (hreg : (MultiSymbolEngine.fresh shards).register_all books regs = some m)
    (hrouted : ∀ reg ∈ regs, N.index (fnv1a reg.1).toNat = N.index reg.2.toNat)
    (before after : List (Turn N))
    (hidle : ((start mem msg m).run L before).stop = .clearing 0)
    (hids : ∀ x ∈ ((start mem msg m).run L before).accepted, WithId x) :
    let s := (start mem msg m).run L (before ++ after)
    (s.stop = .returned → s.accepted = ((start mem msg m).run L before).accepted →
      ∃ reports e, (register_symbols engine books (regs.map Prod.snd)).process_all s.accepted =
          some (reports, e) ∧
        ∀ id : SymbolId,
          (s.shards (N.index id.toNat)).state.engine.books id = e.books id ∧
          (s.shards (N.index id.toNat)).state.reports.filter (fun rpt => rpt.symbol = id) =
            reports.filter fun rpt => rpt.symbol = id) ∧
    (∀ i, s.msgs_dropped i = (m.shards i).msgs_dropped + .ofNat (s.refusals i)) ∧
    ∃ more, NoSubmit more ∧ (s.run L more).stop = .returned := by
  intro s
  have hinv : ∀ schedule, Inv L (start mem msg m) ((start mem msg m).run L schedule) :=
    (inv_start mem msg m).run
  have hthreads : Threads L (fun i => ⟨(m.shards i).engine, (m.shards i).msgs_processed, []⟩)
      (start mem msg m) := fun i => Worker.consistent_run (mem i) (msg i) _ []
  refine ⟨?_, (hinv _).feed.dropped, stop_returns (hinv _) (hthreads.run _)⟩
  intro hreturned hlast
  have hsame := (sameBooks_fresh shards engine).register_all regs hreg hrouted
  let single := register_symbols engine books (regs.map Prod.snd)
  have hsingle : single.InOrder := inOrder_register_symbols engine books _
  have hall : ∀ x ∈ s.accepted, WithId x := by
    rw [hlast]
    exact hids
  obtain ⟨reports, e, hrun, _⟩ := isolated.run_ends s.accepted hsingle hall
  refine ⟨reports, e, hrun, ?_⟩
  intro id
  let i := N.index id.toNat
  -- the shard of the symbol, before the call of `stop` and after
  obtain ⟨turns, hturns⟩ := projects (L := L) before i (start mem msg m)
  obtain ⟨rest, hrest⟩ := projects (L := L) after i ((start mem msg m).run L before)
  rw [← run_append] at hrest
  have hown : (s.shards i).accepted L = s.accepted.filter fun x => N.index x.symbol.toNat = i :=
    (hinv _).feed.accepted i
  have hhandled : (s.shards i).handled = (s.shards i).accepted L := by
    have hstop₀ := (hinv before).stop i
    have hstop₁ := (hinv (before ++ after)).stop i
    rw [hidle] at hstop₀
    rw [show ((start mem msg m).run L (before ++ after)).stop = .returned from hreturned] at hstop₁
    have haccepted : (s.shards i).accepted L =
        (((start mem msg m).run L before).shards i).accepted L := by
      rw [hown, (hinv before).feed.accepted i, hlast]
    have heq := handled_eq hturns hstop₀ (by rw [← hrest]; exact hstop₁)
      (by rw [← hrest]; exact haccepted)
    rw [← hrest] at heq
    exact heq.trans haccepted.symm
  obtain ⟨items, hc⟩ := hthreads.run (before ++ after) i
  rw [show (s.shards i).state = _ from hc.state]
  refine same_symbol (hsame.inOrder i) hsingle rfl (hsame.books id) hhandled.symm ?_ hall ?_ hrun
  · intro x hx
    rw [hown] at hx
    exact hall x (List.mem_filter.mp hx).1
  -- A shard has all messages of its symbols, in the order of their submission.
  · rw [hown, List.filter_filter]
    refine List.filter_congr fun x _ => ?_
    by_cases hx : x.symbol = id
    · simp [hx, i]
    · simp [hx]

/-- `SPY` is symbol 1 of four shards.  A sell and a buy are submitted; when
    `stop` has returned, its book is that of a single engine. -/
theorem sharded_sell_and_buy :
    let sell := new_order .Limit 20 1 .Sell 100 100
    let buy := new_order .Limit 21 1 .Buy 100 40
    let first : State fourShards MarketDataMsg 1 :=
      start (fun _ _ => .replicate 1 sell) (fun _ => .replicate 1 sell) (registered spy 1)
    let before : List (Turn fourShards) :=
      List.replicate 5 (.submit sell) ++ List.replicate 5 (.submit buy)
    ∃ after, ∃ s, s = first.run (Worker.oneWord _) (before ++ after) ∧ s.stop = .returned ∧
      ∃ reports e, (register_symbols zeroed (fun _ => OrderBook.zeroed) [1]).process_all [sell, buy] =
          some (reports, e) ∧
        (s.shards ⟨1, by decide⟩).state.engine.books 1 = e.books 1 := by
  intro sell buy first before
  have hreg : (MultiSymbolEngine.fresh zeroedShards).register_all (fun _ => OrderBook.zeroed)
      [(spy, 1)] = some (registered spy 1) := rfl
  have hrouted : ∀ reg ∈ [(spy, (1 : SymbolId))],
      fourShards.index (fnv1a reg.1).toNat = fourShards.index reg.2.toNat := by decide
  have haccepted : (first.run (Worker.oneWord _) before).accepted = [sell, buy] := by
    decide +kernel
  have hids : ∀ x ∈ (first.run (Worker.oneWord _) before).accepted, WithId x := by
    rw [haccepted]
    decide
  have hidle : (first.run (Worker.oneWord _) before).stop = .clearing 0 := by decide +kernel
  obtain ⟨_, _, more, hmore, hreturned⟩ := sharded_equals_single (Worker.oneWord _) _ _ _ zeroed _
    hreg hrouted before [] hidle hids
  rw [List.append_nil, ← run_append] at hreturned
  have hlast : (first.run (Worker.oneWord _) (before ++ more)).accepted =
      (first.run (Worker.oneWord _) before).accepted := by
    unfold State.accepted
    rw [run_append, submits_run hmore]
  obtain ⟨hsame, _⟩ := sharded_equals_single (Worker.oneWord _) _ _ _ zeroed _ hreg hrouted
    before more hidle hids
  obtain ⟨reports, e, hrun, hbooks⟩ := hsame hreturned hlast
  rw [show ((start _ _ _).run (Worker.oneWord _) (before ++ more)).accepted = [sell, buy] from
    hlast.trans haccepted] at hrun
  exact ⟨more, _, rfl, hreturned, reports, e, hrun, (hbooks 1).1⟩

end Sharded

end OptionsEngine
