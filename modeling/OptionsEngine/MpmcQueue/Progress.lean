import OptionsEngine.MpmcQueue.StressTest

/-! # The stress test is never stuck

    A full queue keeps the producers in their loops until a consumer pops, and
    the consumers stay until the producers are done.

    * `settle`: the calls that are under way can be brought to their return.
    * `push_alone`, `pop_alone`, `leave`: with no call under way, what a thread
      achieves alone.
    * `test_npmc_can_finish`: hence from every state that the test can come to,
      all its threads can return. -/

namespace OptionsEngine

open Ring Loop Function

namespace Mpmc

variable {ι α : Type} {W : Nat} {C : Capacity} {c : Config ι α W} {t : ι} {pc : Pc α W}

/-! ## Section 1: The invariants together -/

variable [DecidableEq ι]

structure Whole (C : Capacity) (c : Config ι α W) : Prop where
  inv : Inv C c
  freed : Freed C c
  standing : Standing C c
  written : Written c

omit [DecidableEq ι] in
theorem whole_start (mem : Nat → Item α W) : Whole C (Config.start (ι := ι) mem) :=
  ⟨inv_start mem, freed_start mem, standing_start mem, written_start mem⟩

theorem Whole.step (h : Whole C c) (hcalls : c.calls < 2 ^ 63) (turn : Turn ι α W) :
    Whole C (c.step C turn) where
  inv := h.inv.step hcalls turn
  freed := h.freed.move h.inv hcalls (step_move c turn)
  standing := h.standing.move h.inv hcalls (step_move c turn)
  written := h.written.step h.inv hcalls turn

/-! ## Section 2: The two ends -/

omit [DecidableEq ι] in
/-- With room in the ring and nobody reading, the slot at the tail is empty. -/
theorem Whole.tail_empty (h : Whole C c) (hreads : ∀ t, (c.pc t).reads = none)
    (hroom : c.queue.enqueue_pos < c.queue.dequeue_pos + C.size) :
    (c.slotAt C c.queue.enqueue_pos).sequence = c.queue.enqueue_pos := by
  have hord := h.inv.history.ordered
  have hone := C.one_lt
  obtain ⟨p, hmod, hok⟩ := h.inv.slot (c.queue.enqueue_pos % C.size) (Nat.mod_lt _ C.pos)
  have hsame : c.slotAt C p = c.slotAt C c.queue.enqueue_pos := by rw [Config.slotAt, hmod]; rfl
  have hreached := hok.reached
  rw [← hsame]
  rcases hok.phase with ⟨hseq, hle⟩ | ⟨hseq, hpub, _⟩
  · rcases Nat.lt_trichotomy p c.queue.enqueue_pos with hlt | heq | hgt
    · have hturn : p + C.size ≤ c.queue.enqueue_pos := Nat.ModEq.add_le_of_lt hmod hlt
      omega
    · rw [hseq, heq]
    · have hturn : c.queue.enqueue_pos + C.size ≤ p := Nat.ModEq.add_le_of_lt hmod.symm hgt
      omega
  · -- written one turn ago, hence read and released since
    have hlt := h.inv.lt_of_published hpub
    have hturn : p + C.size ≤ c.queue.enqueue_pos := Nat.ModEq.add_le_of_lt hmod hlt
    rcases h.inv.claims.consumed p (by omega) with hdel | ⟨t, hr⟩
    · have hfreed := h.freed p hdel
      omega
    · rw [hreads t] at hr
      cases hr

omit [DecidableEq ι] in
/-- With something in the ring and nobody writing, the slot at the head is
    written. -/
theorem Whole.head_written (h : Whole C c) (hwrites : ∀ t, (c.pc t).writes = none)
    (hne : c.queue.dequeue_pos < c.queue.enqueue_pos) :
    (c.slotAt C c.queue.dequeue_pos).sequence = c.queue.dequeue_pos + 1 := by
  rcases h.written c.queue.dequeue_pos hne with hpub | ⟨t, hw⟩
  · exact h.standing _ hpub (Nat.le_refl _)
  · rw [hwrites t] at hw
    cases hw

theorem pc_step_other (c : Config ι α W) {turn : Turn ι α W} {t' : ι} (ht : t' ≠ turn.thread) :
    (c.step C turn).pc t' = c.pc t' := by
  have hmove := step_move (C := C) c turn
  generalize c.step C turn = c' at hmove
  cases hmove with
  | _ => exact update_of_ne ht _ _

namespace Stress

variable {ps cs : List ι} {task : ι → List (Item α W)} {s s' : State ι α W}

/-! ## Section 3: States of the test -/

/-- Producers and consumers are different threads, and there is a consumer. -/
structure Teams (ps cs : List ι) : Prop where
  producers : ps.Nodup
  consumers : cs.Nodup
  disjoint : ∀ t ∈ ps, t ∉ cs
  consumer : cs ≠ []

structure Ready (C : Capacity) (ps cs : List ι) (task : ι → List (Item α W)) (s : State ι α W) :
    Prop where
  runs : Runs C ps cs task s
  whole : Whole C s.queue

/-- A step of the test is one of the queue, or leaves the queue alone. -/
theorem queue_step (C : Capacity) (n : Nat) (s : State ι α W) (turn : ι × Bool) :
    (s.step C n turn).queue = s.queue ∨
      ∃ call, (s.step C n turn).queue = s.queue.step C ⟨turn.1, call, turn.2⟩ := by
  cases hprog : s.prog turn.1 with
  | pushing rest =>
    cases rest with
    | nil =>
      simp only [State.step, hprog]
      exact .inl rfl
    | cons item rest =>
      simp only [State.step, hprog, State.push_step]
      right
      split
      · exact ⟨.push item, rfl⟩
      · exact ⟨.push item, rfl⟩
  | popping v =>
    simp only [State.step, hprog, State.pop_step]
    right
    split
    · exact ⟨.pop v, rfl⟩
    · exact ⟨.pop v, rfl⟩
    · exact ⟨.pop v, rfl⟩
  | load_done v | load_enqueue v | load_dequeue v ep =>
    simp only [State.step, hprog]
    exact .inl rfl
  | done =>
    left
    simp only [State.step, hprog]

theorem Ready.step (h : Ready C ps cs task s) (hteams : Teams ps cs)
    (hcalls : s.queue.calls < 2 ^ 63) (turn : ι × Bool) :
    Ready C ps cs task (s.step C ps.length turn) := by
  refine ⟨h.runs.step hcalls hteams.disjoint hteams.producers turn, ?_⟩
  rcases queue_step C ps.length s turn with heq | ⟨call, heq⟩
  · rw [heq]
    exact h.whole
  · rw [heq]
    exact h.whole.step hcalls _

theorem ready_launch (mem : Nat → Item α W) (v : Item α W) (hteams : Teams ps cs) :
    Ready C ps cs task (launch mem ps cs task v) :=
  ⟨runs_launch mem v hteams.disjoint, whole_start mem⟩

theorem Ready.run (h : Ready C ps cs task s) (hteams : Teams ps cs) (turns : List (ι × Bool))
    (hcalls : (s.run C ps.length turns).queue.calls < 2 ^ 63) :
    Ready C ps cs task (s.run C ps.length turns) :=
  foldl_keeps_below (calls_le C ps.length) (fun _ turn hlt h => h.step hteams hlt turn) turns h
    hcalls

/-- The other threads stand where they stood. -/
theorem step_other (C : Capacity) (n : Nat) (s : State ι α W) (turn : ι × Bool) {t' : ι}
    (ht : t' ≠ turn.1) :
    (s.step C n turn).queue.pc t' = s.queue.pc t' ∧ (s.step C n turn).prog t' = s.prog t' := by
  have hpc : (s.step C n turn).queue.pc t' = s.queue.pc t' := by
    rcases queue_step C n s turn with heq | ⟨call, heq⟩
    · rw [heq]
    · rw [heq]
      exact pc_step_other s.queue ht
  refine ⟨hpc, ?_⟩
  cases hprog : s.prog turn.1 with
  | pushing rest =>
    cases rest with
    | nil =>
      simp only [State.step, hprog]
      exact update_of_ne ht _ _
    | cons item rest =>
      simp only [State.step, hprog, State.push_step]
      split
      · exact update_of_ne ht _ _
      · rfl
  | popping v =>
    simp only [State.step, hprog, State.pop_step]
    split
    · exact update_of_ne ht _ _
    · exact update_of_ne ht _ _
    · rfl
  | load_done v | load_enqueue v | load_dequeue v ep =>
    simp only [State.step, hprog]
    exact update_of_ne ht _ _
  | done => simp only [State.step, hprog]

/-! ## Section 4: Calls under way -/

/-- A thread in a call takes a step of it. -/
theorem Ready.queue_step_active (h : Ready C ps cs task s) (hactive : s.queue.pc t ≠ .idle) :
    ∃ call, (s.step C ps.length (t, false)).queue = s.queue.step C ⟨t, call, false⟩ := by
  by_cases hps : t ∈ ps
  · have hpc := (h.runs.producers t hps).pc
    cases hprog : s.prog t with
    | pushing rest =>
      rw [hprog] at hpc
      cases rest with
      | nil => exact absurd hpc hactive
      | cons item rest =>
        simp only [State.step, hprog, State.push_step]
        split
        · exact ⟨.push item, rfl⟩
        · exact ⟨.push item, rfl⟩
    | done =>
      rw [hprog] at hpc
      exact absurd hpc hactive
    | _ =>
      rw [hprog] at hpc
      exact absurd hpc id
  · by_cases hcs : t ∈ cs
    · have hpc := (h.runs.consumers t hcs).pc
      cases hprog : s.prog t with
      | pushing rest =>
        rw [hprog] at hpc
        exact absurd hpc id
      | popping v =>
        simp only [State.step, hprog, State.pop_step]
        split
        · exact ⟨.pop v, rfl⟩
        · exact ⟨.pop v, rfl⟩
        · exact ⟨.pop v, rfl⟩
      | load_done v =>
        rw [hprog] at hpc
        exact absurd hpc hactive
      | load_enqueue v | load_dequeue v ep | done =>
        rw [hprog] at hpc
        exact absurd hpc.1 hactive
    · exact absurd (h.runs.others t hps hcs).2 hactive

/-- Alone, a thread comes to the return of the call it is in. -/
theorem Ready.settle_one (h : Ready C ps cs task s) (hteams : Teams ps cs) (hsize : C.size ≤ 2 ^ 62)
    (hcalls : s.queue.calls < 2 ^ 63) (t : ι) :
    ∃ turns, Ready C ps cs task (s.run C ps.length turns) ∧
      (s.run C ps.length turns).queue.calls = s.queue.calls ∧
      (s.run C ps.length turns).queue.pc t = .idle ∧
      ∀ t', t' ≠ t → (s.run C ps.length turns).queue.pc t' = s.queue.pc t' := by
  let Ranked (m : Nat) (s' : State ι α W) := Ready C ps cs task s' ∧ s'.queue.left t = m ∧
    s'.queue.calls = s.queue.calls ∧ ∀ t', t' ≠ t → s'.queue.pc t' = s.queue.pc t'
  have hstep : ∀ m s', Ranked m s' → ¬ s'.queue.pc t = .idle →
      ∃ m' < m, Ranked m' (s'.step C ps.length (t, false)) := by
    rintro m s' ⟨h', rfl, hsame, hothers⟩ hactive
    have hcalls' : s'.queue.calls < 2 ^ 63 := by rw [hsame]; exact hcalls
    obtain ⟨call, hqueue⟩ := h'.queue_step_active hactive
    obtain ⟨hlt, hkept⟩ := rank_step h'.whole.inv hsize hcalls' ⟨t, call, false⟩ hactive
    rw [failure_eq_zero rfl] at hlt
    refine ⟨_, hlt, h'.step hteams hcalls' _, by rw [hqueue], by rw [hqueue, hkept, hsame], ?_⟩
    intro t' ht
    rw [(step_other C ps.length s' (t, false) ht).1, hothers t' ht]
  obtain ⟨n, ⟨_, hend, _, hsame, hothers⟩, hidle⟩ :=
    foldl_reaches_alone hstep (m := s.queue.left t) ⟨h, rfl, rfl, fun _ _ => rfl⟩
  exact ⟨List.replicate n (t, false), hend, hsame, hidle, hothers⟩

theorem run_append (s : State ι α W) (n : Nat) (before after : List (ι × Bool)) :
    s.run C n (before ++ after) = (s.run C n before).run C n after :=
  List.foldl_append

/-- No call is under way. -/
def Calm (s : State ι α W) : Prop := ∀ t, s.queue.pc t = .idle

/-- All calls that are under way come to their return, one after the other. -/
theorem Ready.settle (h : Ready C ps cs task s) (hteams : Teams ps cs) (hsize : C.size ≤ 2 ^ 62)
    (hcalls : s.queue.calls < 2 ^ 63) :
    ∃ turns, Ready C ps cs task (s.run C ps.length turns) ∧ Calm (s.run C ps.length turns) ∧
      (s.run C ps.length turns).queue.calls = s.queue.calls := by
  have hall : ∀ ts : List ι, ∃ turns, Ready C ps cs task (s.run C ps.length turns) ∧
      (∀ t ∈ ts, (s.run C ps.length turns).queue.pc t = .idle) ∧
      (s.run C ps.length turns).queue.calls = s.queue.calls := by
    intro ts
    induction ts with
    | nil => exact ⟨[], h, fun t ht => (List.not_mem_nil ht).elim, rfl⟩
    | cons t ts ih =>
      obtain ⟨turns, h', hidle, hsame⟩ := ih
      obtain ⟨more, h'', hsame', hpc, hothers⟩ :=
        h'.settle_one hteams hsize (by rw [hsame]; exact hcalls) t
      refine ⟨turns ++ more, ?_, ?_, ?_⟩
      · rw [run_append]
        exact h''
      · rw [run_append]
        intro t' ht'
        by_cases heq : t' = t
        · rw [heq]
          exact hpc
        · rw [hothers t' heq]
          exact hidle t' (List.mem_of_ne_of_mem heq ht')
      · rw [run_append, hsame', hsame]
  obtain ⟨turns, h', hidle, hsame⟩ := hall (ps ++ cs)
  refine ⟨turns, h', ?_, hsame⟩
  intro t
  by_cases ht : t ∈ ps ++ cs
  · exact hidle t ht
  · rw [List.mem_append, not_or] at ht
    exact (h'.runs.others t ht.1 ht.2).2

/-! ## Section 5: A thread alone -/

/-- From a calm state, the thread `t` alone has come here: the others have not
    moved, and one call more has begun. -/
structure Alone (C : Capacity) (ps cs : List ι) (task : ι → List (Item α W)) (t : ι)
    (s s' : State ι α W) : Prop where
  ready : Ready C ps cs task s'
  calls : s'.queue.calls = s.queue.calls + 1
  idle : ∀ t', t' ≠ t → s'.queue.pc t' = .idle
  prog : ∀ t', t' ≠ t → s'.prog t' = s.prog t'

theorem Alone.step (h : Alone C ps cs task t s s') (hteams : Teams ps cs)
    (hcalls : s.queue.calls + 1 < 2 ^ 63)
    (hsame : (s'.step C ps.length (t, false)).queue.calls = s'.queue.calls) :
    Alone C ps cs task t s (s'.step C ps.length (t, false)) where
  ready := h.ready.step hteams (by rw [h.calls]; exact hcalls) _
  calls := hsame.trans h.calls
  idle := by
    intro t' ht
    rw [(step_other C ps.length s' (t, false) ht).1]
    exact h.idle t' ht
  prog := by
    intro t' ht
    rw [(step_other C ps.length s' (t, false) ht).2]
    exact h.prog t' ht

theorem Alone.calm (h : Alone C ps cs task t s s') (hidle : s'.queue.pc t = .idle) : Calm s' := by
  intro t'
  by_cases ht : t' = t
  · rw [ht]
    exact hidle
  · exact h.idle t' ht

/-- Nobody holds a claim, if `t` holds none. -/
theorem Alone.no_claims (h : Alone C ps cs task t s s') {claims : Pc α W → Option Nat}
    (hself : claims (s'.queue.pc t) = none) (hidle : claims .idle = none) :
    ∀ t', claims (s'.queue.pc t') = none := by
  intro t'
  by_cases ht : t' = t
  · rw [ht]
    exact hself
  · rw [h.idle t' ht]
    exact hidle

/-- The first step of a call. -/
theorem Ready.begin_alone (h : Ready C ps cs task s) (hcalm : Calm s) (hteams : Teams ps cs)
    (hcalls : s.queue.calls + 1 < 2 ^ 63)
    (hbegun : (s.step C ps.length (t, false)).queue.calls = s.queue.calls + 1) :
    Alone C ps cs task t s (s.step C ps.length (t, false)) where
  ready := h.step hteams (by omega) _
  calls := hbegun
  idle := by
    intro t' ht
    rw [(step_other C ps.length s (t, false) ht).1]
    exact hcalm t'
  prog := fun t' ht => (step_other C ps.length s (t, false) ht).2

/-- Where a `try_push` that finds room stands, how many steps it has left, what
    the producer has left to push, and the tail. -/
inductive PushStage (item : Item α W) (rest : List (Item α W)) (pos : Nat) :
    Nat → Pc α W → Prog α W → Nat → Prop where
  | top : PushStage item rest pos (W + 3) (.push_top item pos) (.pushing (item :: rest)) pos
  | cas : PushStage item rest pos (W + 2) (.push_cas item pos) (.pushing (item :: rest)) pos
  | write (i : Nat) :
    PushStage item rest pos (W - i + 1) (.push_write item pos i) (.pushing (item :: rest)) (pos + 1)
  | returned : PushStage item rest pos 0 .idle (.pushing rest) (pos + 1)

omit [DecidableEq ι] in
theorem PushStage.of_idle {item : Item α W} {rest : List (Item α W)} {pos m enq : Nat}
    {prog : Prog α W} (h : PushStage item rest pos m .idle prog enq) :
    prog = .pushing rest ∧ enq = pos + 1 := by
  cases h
  exact ⟨rfl, rfl⟩

/-- A step within a `try_push`. -/
theorem step_push_on {n : Nat} {rest : List (Item α W)} {item : Item α W}
    (hprog : s.prog t = .pushing (item :: rest))
    (hqueue : s.queue.step C ⟨t, .push item, false⟩ = c) (hactive : active (c.pc t) = true) :
    s.step C n (t, false) = { s with queue := c } := by
  simp only [State.step, hprog, State.push_step, hqueue]
  rw [answer_none (.inr hactive)]

/-- The step with which a `try_push` returns true. -/
theorem step_push_true {n : Nat} {rest : List (Item α W)} {item : Item α W} {r : Record ι α W}
    (hprog : s.prog t = .pushing (item :: rest)) (hactive : active (s.queue.pc t) = true)
    (hqueue : s.queue.step C ⟨t, .push item, false⟩ = c) (hidle : c.pc t = .idle)
    (hpushed : c.pushed = s.queue.pushed ++ [r]) :
    s.step C n (t, false) = { s with queue := c }.goto t (.pushing rest) := by
  simp only [State.step, hprog, State.push_step, hqueue]
  rw [answer_true Config.pushed r hactive hidle hpushed]

/-- The producer `t`, alone, is in the `try_push` of its next value. -/
structure Pushing (C : Capacity) (ps cs : List ι) (task : ι → List (Item α W)) (t : ι)
    (item : Item α W) (rest : List (Item α W)) (s : State ι α W) (m : Nat) (s' : State ι α W) :
    Prop where
  alone : Alone C ps cs task t s s'
  deq : s'.queue.queue.dequeue_pos = s.queue.queue.dequeue_pos
  stage : PushStage item rest s.queue.queue.enqueue_pos m (s'.queue.pc t) (s'.prog t)
    s'.queue.queue.enqueue_pos

variable {item : Item α W} {rest : List (Item α W)} {m k : Nat}

/-- The call goes on. -/
theorem Pushing.on (h : Pushing C ps cs task t item rest s m s') (hteams : Teams ps cs)
    (hcalls : s.queue.calls + 1 < 2 ^ 63) (hprog : s'.prog t = .pushing (item :: rest))
    (hqueue : s'.queue.step C ⟨t, .push item, false⟩ = c) (hactive : active (c.pc t) = true)
    (hsame : c.calls = s'.queue.calls)
    (hdeq : c.queue.dequeue_pos = s'.queue.queue.dequeue_pos)
    (hstage : PushStage item rest s.queue.queue.enqueue_pos k (c.pc t) (.pushing (item :: rest))
      c.queue.enqueue_pos) :
    Pushing C ps cs task t item rest s k (s'.step C ps.length (t, false)) := by
  have hnext := step_push_on (n := ps.length) hprog hqueue hactive
  refine ⟨h.alone.step hteams hcalls (by rw [hnext]; exact hsame), ?_, ?_⟩
  · rw [hnext]
    exact hdeq.trans h.deq
  · rw [hnext]
    show PushStage item rest _ _ (c.pc t) (s'.prog t) c.queue.enqueue_pos
    rw [hprog]
    exact hstage

theorem Pushing.step (h : Pushing C ps cs task t item rest s m s') (hteams : Teams ps cs)
    (hcalls : s.queue.calls + 1 < 2 ^ 63)
    (hroom : s.queue.queue.enqueue_pos < s.queue.queue.dequeue_pos + C.size)
    (hactive : s'.queue.pc t ≠ .idle) :
    ∃ k < m, Pushing C ps cs task t item rest s k (s'.step C ps.length (t, false)) := by
  have hcount := h.alone.ready.whole.inv.claims.counted.le
  have hbegun := h.alone.calls
  have hstage := h.stage
  generalize hpc : s'.queue.pc t = pc at hstage
  generalize hprog : s'.prog t = prog at hstage
  generalize henq : s'.queue.queue.enqueue_pos = enq at hstage
  cases hstage with
  | top =>
    -- nobody reads, so the slot at the tail is empty
    have hseq := h.alone.ready.whole.tail_empty (h.alone.no_claims (by rw [hpc]; rfl) (by rfl))
      (by rw [henq, h.deq]; exact hroom)
    rw [henq] at hseq
    have hqueue : s'.queue.step C ⟨t, .push item, false⟩ =
        s'.queue.goto t (.push_cas item s.queue.queue.enqueue_pos) := by
      simp only [Config.step, hpc, slots_and_mask, hseq, Int.sub_self, if_true]
    refine ⟨W + 2, Nat.lt_succ_self _, h.on hteams hcalls hprog hqueue ?_ rfl rfl ?_⟩
    · rw [pc_goto]
      rfl
    · rw [pc_goto, show (s'.queue.goto t _).queue.enqueue_pos = _ from henq]
      exact .cas
  | cas =>
    have hqueue : s'.queue.step C ⟨t, .push item, false⟩ = { s'.queue with
        queue.enqueue_pos := s.queue.queue.enqueue_pos + 1
        enqueued := s'.queue.enqueued ++ [(s.queue.queue.enqueue_pos, item)] }.goto t
          (.push_write item s.queue.queue.enqueue_pos 0) := by
      simp only [Config.step, hpc, henq, and_true, if_true]
      rw [size_t_eq (by omega)]
    refine ⟨W + 1, Nat.lt_succ_self _, h.on hteams hcalls hprog hqueue ?_ rfl rfl ?_⟩
    · rw [pc_goto]
      rfl
    · rw [pc_goto]
      exact .write 0
  | write i =>
    by_cases hi : i < W
    · obtain ⟨slot, hqueue⟩ : ∃ slot, s'.queue.step C ⟨t, .push item, false⟩ =
          (s'.queue.store C s.queue.queue.enqueue_pos slot).goto t
            (.push_write item s.queue.queue.enqueue_pos (i + 1)) := by
        simp only [Config.step, hpc, dif_pos hi]
        exact ⟨_, rfl⟩
      refine ⟨W - (i + 1) + 1, by omega, h.on hteams hcalls hprog hqueue ?_ rfl rfl ?_⟩
      · rw [pc_goto]
        rfl
      · rw [pc_goto, show ((s'.queue.store C _ slot).goto t _).queue.enqueue_pos = _ from henq]
        exact .write (i + 1)
    · -- the sequence is stored, and the call returns
      obtain ⟨slot, hqueue⟩ : ∃ slot, s'.queue.step C ⟨t, .push item, false⟩ =
          { s'.queue.store C s.queue.queue.enqueue_pos slot with
            pushed := s'.queue.pushed ++ [Record.mk t s.queue.queue.enqueue_pos item] }.goto t
              .idle := by
        simp only [Config.step, hpc, dif_neg hi]
        exact ⟨_, rfl⟩
      have hnext := step_push_true (n := ps.length) hprog (by rw [hpc]; rfl) hqueue (pc_goto _ _ _)
        rfl
      refine ⟨0, Nat.succ_pos _, h.alone.step hteams hcalls (by rw [hnext]; rfl), ?_, ?_⟩
      · rw [hnext]
        exact h.deq
      · rw [hnext]
        show PushStage item rest _ _ (update s'.queue.pc t _ t) (update s'.prog t _ t)
          s'.queue.queue.enqueue_pos
        rw [update_self, update_self, henq]
        exact .returned
  | returned => exact absurd hpc hactive

/-- The call begins at the tail. -/
theorem Ready.begin_push (h : Ready C ps cs task s) (hcalm : Calm s) (hteams : Teams ps cs)
    (hcalls : s.queue.calls + 1 < 2 ^ 63) (hprog : s.prog t = .pushing (item :: rest)) :
    Pushing C ps cs task t item rest s (W + 3) (s.step C ps.length (t, false)) := by
  have hqueue : s.queue.step C ⟨t, .push item, false⟩ =
      { s.queue with calls := s.queue.calls + 1 }.goto t
        (.push_top item s.queue.queue.enqueue_pos) := by
    simp only [Config.step, hcalm t, Config.begin_call]
  have hnext := step_push_on (n := ps.length) hprog hqueue (by rw [pc_goto]; rfl)
  refine ⟨h.begin_alone hcalm hteams hcalls (by rw [hnext]; rfl), by rw [hnext]; rfl, ?_⟩
  rw [hnext]
  show PushStage item rest _ _ (update s.queue.pc t _ t) (s.prog t) s.queue.queue.enqueue_pos
  rw [update_self, hprog]
  exact .top

/-- With no call under way and room in the ring, a producer pushes its next
    value. -/
theorem Ready.push_alone (h : Ready C ps cs task s) (hcalm : Calm s) (hteams : Teams ps cs)
    (hcalls : s.queue.calls + 1 < 2 ^ 63) (hprog : s.prog t = .pushing (item :: rest))
    (hroom : s.queue.queue.enqueue_pos < s.queue.queue.dequeue_pos + C.size) :
    ∃ turns, Alone C ps cs task t s (s.run C ps.length turns) ∧
      Calm (s.run C ps.length turns) ∧
      (s.run C ps.length turns).prog t = .pushing rest ∧
      (s.run C ps.length turns).queue.queue.enqueue_pos = s.queue.queue.enqueue_pos + 1 ∧
      (s.run C ps.length turns).queue.queue.dequeue_pos = s.queue.queue.dequeue_pos := by
  have hstep : ∀ m s', Pushing C ps cs task t item rest s m s' → ¬ s'.queue.pc t = .idle →
      ∃ k < m, Pushing C ps cs task t item rest s k (s'.step C ps.length (t, false)) :=
    fun m s' h' hactive => h'.step hteams hcalls hroom hactive
  obtain ⟨n, ⟨m, hend⟩, hidle⟩ :=
    foldl_reaches_alone hstep (h.begin_push hcalm hteams hcalls hprog)
  have hstage := hend.stage
  rw [hidle] at hstage
  obtain ⟨hpushed, henq⟩ := hstage.of_idle
  exact ⟨(t, false) :: List.replicate n (t, false), hend.alone, hend.alone.calm hidle, hpushed, henq,
    hend.deq⟩

/-- Where a `try_pop` that finds an item stands, as `PushStage`. -/
inductive PopStage (v : Item α W) (pos : Nat) : Nat → Pc α W → Prog α W → Nat → Prop where
  | top : PopStage v pos (W + 3) (.pop_top v pos) (.popping v) pos
  | cas : PopStage v pos (W + 2) (.pop_cas v pos) (.popping v) pos
  | read (out : Item α W) (i : Nat) :
    PopStage v pos (W - i + 1) (.pop_read out pos i) (.popping v) (pos + 1)
  | returned (v' : Item α W) : PopStage v pos 0 .idle (.popping v') (pos + 1)

omit [DecidableEq ι] in
theorem PopStage.of_idle {v : Item α W} {pos m deq : Nat} {prog : Prog α W}
    (h : PopStage v pos m .idle prog deq) : (∃ v', prog = .popping v') ∧ deq = pos + 1 := by
  cases h with
  | returned v' => exact ⟨⟨v', rfl⟩, rfl⟩

/-- A step within a `try_pop`. -/
theorem step_pop_on {n : Nat} {v : Item α W} (hprog : s.prog t = .popping v)
    (hqueue : s.queue.step C ⟨t, .pop v, false⟩ = c) (hactive : active (c.pc t) = true) :
    s.step C n (t, false) = { s with queue := c } := by
  simp only [State.step, hprog, State.pop_step, hqueue]
  rw [answer_none (.inr hactive)]

/-- The step with which a `try_pop` returns true ... -/
theorem step_pop_true {n : Nat} {v : Item α W} {r : Record ι α W} (hprog : s.prog t = .popping v)
    (hactive : active (s.queue.pc t) = true)
    (hqueue : s.queue.step C ⟨t, .pop v, false⟩ = c) (hidle : c.pc t = .idle)
    (hpopped : c.popped = s.queue.popped ++ [r]) :
    s.step C n (t, false) =
      { s with queue := c, received := update s.received t (s.received t ++ [r.item]) }.goto t
        (.popping r.item) := by
  simp only [State.step, hprog, State.pop_step, hqueue]
  rw [answer_true Config.popped r hactive hidle hpopped]

/-- ... and the one with which it returns false. -/
theorem step_pop_false {n : Nat} {v : Item α W} (hprog : s.prog t = .popping v)
    (hactive : active (s.queue.pc t) = true)
    (hqueue : s.queue.step C ⟨t, .pop v, false⟩ = c) (hidle : c.pc t = .idle)
    (hpopped : c.popped = s.queue.popped) :
    s.step C n (t, false) = { s with queue := c }.goto t (.load_done v) := by
  simp only [State.step, hprog, State.pop_step, hqueue]
  rw [answer_false Config.popped hactive hidle hpopped]

/-- The call begins at the head. -/
theorem step_pop_begin {n : Nat} {v : Item α W} (hcalm : Calm s) (hprog : s.prog t = .popping v) :
    s.step C n (t, false) = { s with
      queue := { s.queue with calls := s.queue.calls + 1 }.goto t
        (.pop_top v s.queue.queue.dequeue_pos) } := by
  have hqueue : s.queue.step C ⟨t, .pop v, false⟩ =
      { s.queue with calls := s.queue.calls + 1 }.goto t
        (.pop_top v s.queue.queue.dequeue_pos) := by
    simp only [Config.step, hcalm t, Config.begin_call]
  exact step_pop_on hprog hqueue (by rw [pc_goto]; rfl)

/-- The consumer `t`, alone, is in a `try_pop`. -/
structure Popping (C : Capacity) (ps cs : List ι) (task : ι → List (Item α W)) (t : ι)
    (v : Item α W) (s : State ι α W) (m : Nat) (s' : State ι α W) : Prop where
  alone : Alone C ps cs task t s s'
  enq : s'.queue.queue.enqueue_pos = s.queue.queue.enqueue_pos
  stage : PopStage v s.queue.queue.dequeue_pos m (s'.queue.pc t) (s'.prog t)
    s'.queue.queue.dequeue_pos

variable {v : Item α W}

theorem Popping.on (h : Popping C ps cs task t v s m s') (hteams : Teams ps cs)
    (hcalls : s.queue.calls + 1 < 2 ^ 63) (hprog : s'.prog t = .popping v)
    (hqueue : s'.queue.step C ⟨t, .pop v, false⟩ = c) (hactive : active (c.pc t) = true)
    (hsame : c.calls = s'.queue.calls)
    (henq : c.queue.enqueue_pos = s'.queue.queue.enqueue_pos)
    (hstage : PopStage v s.queue.queue.dequeue_pos k (c.pc t) (.popping v) c.queue.dequeue_pos) :
    Popping C ps cs task t v s k (s'.step C ps.length (t, false)) := by
  have hnext := step_pop_on (n := ps.length) hprog hqueue hactive
  refine ⟨h.alone.step hteams hcalls (by rw [hnext]; exact hsame), ?_, ?_⟩
  · rw [hnext]
    exact henq.trans h.enq
  · rw [hnext]
    show PopStage v _ _ (c.pc t) (s'.prog t) c.queue.dequeue_pos
    rw [hprog]
    exact hstage

theorem Popping.step (h : Popping C ps cs task t v s m s') (hteams : Teams ps cs)
    (hcalls : s.queue.calls + 1 < 2 ^ 63)
    (hne : s.queue.queue.dequeue_pos < s.queue.queue.enqueue_pos)
    (hactive : s'.queue.pc t ≠ .idle) :
    ∃ k < m, Popping C ps cs task t v s k (s'.step C ps.length (t, false)) := by
  have hcount := h.alone.ready.whole.inv.claims.counted.le
  have hbegun := h.alone.calls
  have hstage := h.stage
  generalize hpc : s'.queue.pc t = pc at hstage
  generalize hprog : s'.prog t = prog at hstage
  generalize hdeq : s'.queue.queue.dequeue_pos = deq at hstage
  cases hstage with
  | top =>
    -- nobody writes, so the slot at the head is written
    have hseq := h.alone.ready.whole.head_written (h.alone.no_claims (by rw [hpc]; rfl) (by rfl))
      (by rw [h.enq, hdeq]; exact hne)
    rw [hdeq] at hseq
    have hwrap : size_t (s.queue.queue.dequeue_pos + 1) = s.queue.queue.dequeue_pos + 1 :=
      size_t_eq (by omega)
    have hqueue : s'.queue.step C ⟨t, .pop v, false⟩ =
        s'.queue.goto t (.pop_cas v s.queue.queue.dequeue_pos) := by
      simp only [Config.step, hpc, slots_and_mask, hseq, hwrap, Int.sub_self, if_true]
    refine ⟨W + 2, Nat.lt_succ_self _, h.on hteams hcalls hprog hqueue ?_ rfl rfl ?_⟩
    · rw [pc_goto]
      rfl
    · rw [pc_goto, show (s'.queue.goto t _).queue.dequeue_pos = _ from hdeq]
      exact .cas
  | cas =>
    have hqueue : s'.queue.step C ⟨t, .pop v, false⟩ = { s'.queue with
        queue.dequeue_pos := s.queue.queue.dequeue_pos + 1
        dequeued := s'.queue.dequeued ++ [s.queue.queue.dequeue_pos] }.goto t
          (.pop_read v s.queue.queue.dequeue_pos 0) := by
      simp only [Config.step, hpc, hdeq, and_true, if_true]
      rw [size_t_eq (by omega)]
    refine ⟨W + 1, Nat.lt_succ_self _, h.on hteams hcalls hprog hqueue ?_ rfl rfl ?_⟩
    · rw [pc_goto]
      rfl
    · rw [pc_goto]
      exact .read v 0
  | read out i =>
    by_cases hi : i < W
    · obtain ⟨out', hqueue⟩ : ∃ out', s'.queue.step C ⟨t, .pop v, false⟩ =
          s'.queue.goto t (.pop_read out' s.queue.queue.dequeue_pos (i + 1)) := by
        simp only [Config.step, hpc, dif_pos hi]
        exact ⟨_, rfl⟩
      refine ⟨W - (i + 1) + 1, by omega, h.on hteams hcalls hprog hqueue ?_ rfl rfl ?_⟩
      · rw [pc_goto]
        rfl
      · rw [pc_goto, show (s'.queue.goto t _).queue.dequeue_pos = _ from hdeq]
        exact .read out' (i + 1)
    · -- the slot is released, and the call returns
      obtain ⟨slot, hqueue⟩ : ∃ slot, s'.queue.step C ⟨t, .pop v, false⟩ =
          { s'.queue.store C s.queue.queue.dequeue_pos slot with
            popped := s'.queue.popped ++ [Record.mk t s.queue.queue.dequeue_pos out] }.goto t
              .idle := by
        simp only [Config.step, hpc, dif_neg hi]
        exact ⟨_, rfl⟩
      have hnext := step_pop_true (n := ps.length) hprog (by rw [hpc]; rfl) hqueue (pc_goto _ _ _)
        rfl
      refine ⟨0, Nat.succ_pos _, h.alone.step hteams hcalls (by rw [hnext]; rfl), ?_, ?_⟩
      · rw [hnext]
        exact h.enq
      · rw [hnext]
        show PopStage v _ _ (update s'.queue.pc t _ t) (update s'.prog t _ t)
          s'.queue.queue.dequeue_pos
        rw [update_self, update_self, hdeq]
        exact .returned out
  | returned v' => exact absurd hpc hactive

theorem Ready.begin_pop (h : Ready C ps cs task s) (hcalm : Calm s) (hteams : Teams ps cs)
    (hcalls : s.queue.calls + 1 < 2 ^ 63) (hprog : s.prog t = .popping v) :
    Popping C ps cs task t v s (W + 3) (s.step C ps.length (t, false)) := by
  have hnext := step_pop_begin (C := C) (n := ps.length) hcalm hprog
  refine ⟨h.begin_alone hcalm hteams hcalls (by rw [hnext]; rfl), by rw [hnext]; rfl, ?_⟩
  rw [hnext]
  show PopStage v _ _ (update s.queue.pc t _ t) (s.prog t) s.queue.queue.dequeue_pos
  rw [update_self, hprog]
  exact .top

/-- With no call under way and something in the ring, a consumer pops it. -/
theorem Ready.pop_alone (h : Ready C ps cs task s) (hcalm : Calm s) (hteams : Teams ps cs)
    (hcalls : s.queue.calls + 1 < 2 ^ 63) (hprog : s.prog t = .popping v)
    (hne : s.queue.queue.dequeue_pos < s.queue.queue.enqueue_pos) :
    ∃ turns, Alone C ps cs task t s (s.run C ps.length turns) ∧
      Calm (s.run C ps.length turns) ∧
      (∃ v', (s.run C ps.length turns).prog t = .popping v') ∧
      (s.run C ps.length turns).queue.queue.enqueue_pos = s.queue.queue.enqueue_pos ∧
      (s.run C ps.length turns).queue.queue.dequeue_pos = s.queue.queue.dequeue_pos + 1 := by
  have hstep : ∀ m s', Popping C ps cs task t v s m s' → ¬ s'.queue.pc t = .idle →
      ∃ k < m, Popping C ps cs task t v s k (s'.step C ps.length (t, false)) :=
    fun m s' h' hactive => h'.step hteams hcalls hne hactive
  obtain ⟨n, ⟨m, hend⟩, hidle⟩ :=
    foldl_reaches_alone hstep (h.begin_pop hcalm hteams hcalls hprog)
  have hstage := hend.stage
  rw [hidle] at hstage
  obtain ⟨hpopped, hdeq⟩ := hstage.of_idle
  exact ⟨(t, false) :: List.replicate n (t, false), hend.alone, hend.alone.calm hidle, hpopped,
    hend.enq, hdeq⟩

/-- With no call under way and nothing in the ring, a consumer pops in vain. -/
theorem Ready.pop_nothing (h : Ready C ps cs task s) (hcalm : Calm s) (hteams : Teams ps cs)
    (hsize : C.size ≤ 2 ^ 62) (hcalls : s.queue.calls + 1 < 2 ^ 63) {v : Item α W}
    (hprog : s.prog t = .popping v)
    (hempty : s.queue.queue.dequeue_pos = s.queue.queue.enqueue_pos) :
    ∃ turns, Alone C ps cs task t s (s.run C ps.length turns) ∧
      Calm (s.run C ps.length turns) ∧ (s.run C ps.length turns).prog t = .load_done v ∧
      (s.run C ps.length turns).queue.queue = s.queue.queue := by
  have hnext := step_pop_begin (C := C) (n := ps.length) hcalm hprog
  have hbegun : Alone C ps cs task t s (s.step C ps.length (t, false)) :=
    h.begin_alone hcalm hteams hcalls (by rw [hnext]; rfl)
  have hcount := h.whole.inv.claims.counted.le
  obtain ⟨s₁, hs₁⟩ : ∃ s₁, s₁ = s.step C ps.length (t, false) := ⟨_, rfl⟩
  rw [← hs₁] at hbegun hnext
  have hpc : s₁.queue.pc t = .pop_top v s.queue.queue.dequeue_pos := by
    rw [hnext]
    exact pc_goto _ _ _
  have hprog₁ : s₁.prog t = .popping v := by
    rw [hnext]
    exact hprog
  have hsame : s₁.queue.queue = s.queue.queue := by rw [hnext]; rfl
  -- the sequence at the tail is not above it
  have htail := (sequence_at_ends hbegun.ready.whole.inv).1
  rw [hsame, ← hempty] at htail
  have hwrap : size_t (s.queue.queue.dequeue_pos + 1) = s.queue.queue.dequeue_pos + 1 :=
    size_t_eq (by omega)
  have hpos : ptrdiff_t (s.queue.queue.dequeue_pos + 1) =
      ((s.queue.queue.dequeue_pos + 1 : Nat) : Int) := if_pos (by omega)
  have hseq := ptrdiff_sequence hbegun.ready.whole.inv hsize (by rw [hbegun.calls]; exact hcalls)
    s.queue.queue.dequeue_pos
  have hqueue : s₁.queue.step C ⟨t, .pop v, false⟩ = s₁.queue.goto t .idle := by
    simp only [Config.step, hpc, slots_and_mask, hseq, hwrap, hpos]
    rw [if_neg (by omega), if_pos (by omega)]
  have hfail := step_pop_false (n := ps.length) hprog₁ (by rw [hpc]; rfl) hqueue (pc_goto _ _ _) rfl
  have halone := hbegun.step hteams hcalls (by rw [hfail]; rfl)
  have hidle : (s₁.step C ps.length (t, false)).queue.pc t = .idle := by
    rw [hfail]
    exact pc_goto _ _ _
  have hrun : s.run C ps.length [(t, false), (t, false)] = s₁.step C ps.length (t, false) := by
    rw [hs₁]
    rfl
  refine ⟨[(t, false), (t, false)], ?_⟩
  rw [hrun]
  refine ⟨halone, halone.calm hidle, ?_, ?_⟩
  · rw [hfail]
    exact update_self _ _ _
  · rw [hfail]
    exact hsame

/-! ## Section 6: Consumers between their calls -/

theorem goto_goto (s : State ι α W) (t : ι) (prog prog' : Prog α W) :
    (s.goto t prog).goto t prog' = s.goto t prog' := by
  show { s with prog := update (update s.prog t prog) t prog' } = _
  rw [update_idem]
  rfl

theorem step_load_done {n : Nat} {v : Item α W} (hprog : s.prog t = .load_done v) :
    s.step C n (t, false) =
      s.goto t (if s.producers_done = n then .load_enqueue v else .popping v) := by
  simp only [State.step, hprog]

/-- `empty`, alone. -/
theorem run_empty {n : Nat} {v : Item α W} (hprog : s.prog t = .load_enqueue v) :
    s.run C n [(t, false), (t, false)] = s.goto t
      (if empty s.queue.queue.enqueue_pos s.queue.queue.dequeue_pos then .done else .popping v) := by
  have hfirst : s.step C n (t, false) = s.goto t (.load_dequeue v s.queue.queue.enqueue_pos) := by
    simp only [State.step, hprog]
  show (s.step C n (t, false)).step C n (t, false) = _
  rw [hfirst]
  have hprog' : (s.goto t (.load_dequeue v s.queue.queue.enqueue_pos)).prog t =
      .load_dequeue v s.queue.queue.enqueue_pos := update_self _ _ _
  simp only [State.step, hprog']
  exact goto_goto _ _ _ _

/-- A consumer that has not returned comes to its next `try_pop`, or returns. -/
theorem run_loads (C : Capacity) {n : Nat} (hlive : s.prog t ≠ .done)
    (hconsumer : ∀ rest, s.prog t ≠ .pushing rest) :
    ∃ turns prog, s.run C n turns = s.goto t prog ∧ (prog = .done ∨ ∃ v, prog = .popping v) := by
  have hempty : ∀ {s : State ι α W} {v : Item α W}, s.prog t = .load_enqueue v →
      ∃ turns prog, s.run C n turns = s.goto t prog ∧ (prog = .done ∨ ∃ v, prog = .popping v) := by
    intro s v hprog
    refine ⟨_, _, run_empty hprog, ?_⟩
    split
    · exact .inl rfl
    · exact .inr ⟨v, rfl⟩
  cases hprog : s.prog t with
  | pushing rest => exact absurd hprog (hconsumer rest)
  | popping v =>
    have hsame : s = s.goto t (.popping v) := by
      rw [← hprog]
      show s = { s with prog := update s.prog t (s.prog t) }
      rw [update_eq_self]
    exact ⟨[], _, hsame, .inr ⟨v, rfl⟩⟩
  | load_done v =>
    have hstep := step_load_done (C := C) (n := n) hprog
    by_cases hdone : s.producers_done = n
    · rw [if_pos hdone] at hstep
      obtain ⟨turns, prog, hrun, hend⟩ := hempty
        (s := s.goto t (.load_enqueue v)) (update_self t _ s.prog)
      refine ⟨(t, false) :: turns, prog, ?_, hend⟩
      show (s.step C n (t, false)).run C n turns = _
      rw [hstep, hrun, goto_goto]
    · rw [if_neg hdone] at hstep
      exact ⟨[(t, false)], _, hstep, .inr ⟨v, rfl⟩⟩
  | load_enqueue v => exact hempty hprog
  | load_dequeue v ep =>
    have hstep : s.run C n [(t, false)] = s.goto t
        (if empty ep s.queue.queue.dequeue_pos then .done else .popping v) := by
      show s.step C n (t, false) = _
      simp only [State.step, hprog]
    refine ⟨_, _, hstep, ?_⟩
    split
    · exact .inl rfl
    · exact .inr ⟨v, rfl⟩
  | done => exact absurd hprog hlive

/-- A consumer that has popped in vain, after the producers, returns. -/
theorem leave {n : Nat} {v : Item α W} (hprog : s.prog t = .load_done v)
    (hdone : s.producers_done = n)
    (hempty : s.queue.queue.dequeue_pos = s.queue.queue.enqueue_pos) :
    s.run C n [(t, false), (t, false), (t, false)] = s.goto t .done := by
  have hstep := step_load_done (C := C) (n := n) hprog
  rw [if_pos hdone] at hstep
  have hprog' : (s.goto t (.load_enqueue v)).prog t = .load_enqueue v := update_self _ _ _
  have hloads := run_empty (C := C) (n := n) hprog'
  have htrue : empty (s.goto t (.load_enqueue v)).queue.queue.enqueue_pos
      (s.goto t (.load_enqueue v)).queue.queue.dequeue_pos = true := by
    show (s.queue.queue.enqueue_pos == s.queue.queue.dequeue_pos) = true
    rw [hempty]
    exact beq_self_eq_true _
  rw [if_pos htrue, goto_goto] at hloads
  show (s.step C n (t, false)).run C n [(t, false), (t, false)] = _
  rw [hstep]
  exact hloads

/-! ## Section 7: What is left to do -/

/-- What a thread has left: two for each value to push, one to return. -/
def Prog.cost : Prog α W → Nat
  | .pushing rest => 2 * rest.length + 1
  | .done => 0
  | _ => 1

/-- What the threads have left, and what is in the ring. -/
def weight (ps cs : List ι) (s : State ι α W) : Nat :=
  ((ps ++ cs).map fun t => (s.prog t).cost).sum +
    (s.queue.queue.enqueue_pos - s.queue.queue.dequeue_pos)

omit [DecidableEq ι] in
/-- A sum in which one term changes. -/
theorem sum_map_update {f g : ι → Nat} {ts : List ι} (hnodup : ts.Nodup) (ht : t ∈ ts)
    (hsame : ∀ t', t' ≠ t → g t' = f t') : (ts.map g).sum + f t = (ts.map f).sum + g t := by
  obtain ⟨L, R, rfl⟩ := List.append_of_mem ht
  obtain ⟨hL, hR⟩ : t ∉ L ∧ t ∉ R := by
    rw [List.nodup_middle, List.nodup_cons, List.mem_append, not_or] at hnodup
    exact hnodup.1
  have hcongr : ∀ xs : List ι, t ∉ xs → xs.map g = xs.map f := by
    intro xs hxs
    apply List.map_congr_left
    intro x hx
    exact hsame x fun heq => hxs (heq ▸ hx)
  rw [List.map_append, List.map_append, List.map_cons, List.map_cons, hcongr L hL, hcongr R hR,
    List.sum_append, List.sum_append, List.sum_cons, List.sum_cons]
  omega

omit [DecidableEq ι] in
theorem Teams.nodup (hteams : Teams ps cs) : (ps ++ cs).Nodup := by
  rw [List.nodup_append]
  refine ⟨hteams.producers, hteams.consumers, ?_⟩
  rintro t hps _ hcs rfl
  exact hteams.disjoint t hps hcs

omit [DecidableEq ι] in
/-- What is left after one thread has moved. -/
theorem weight_moved (s s' : State ι α W) (hteams : Teams ps cs) (ht : t ∈ ps ++ cs)
    (hsame : ∀ t', t' ≠ t → s'.prog t' = s.prog t') :
    weight ps cs s' +
        ((s.prog t).cost + (s.queue.queue.enqueue_pos - s.queue.queue.dequeue_pos)) =
      weight ps cs s +
        ((s'.prog t).cost + (s'.queue.queue.enqueue_pos - s'.queue.queue.dequeue_pos)) := by
  have hcost : ∀ t', t' ≠ t → (s'.prog t').cost = (s.prog t').cost :=
    fun t' ht' => congrArg Prog.cost (hsame t' ht')
  have hsum := sum_map_update (g := fun t => (s'.prog t).cost) hteams.nodup ht hcost
  simp only [weight]
  omega

/-- From one calm state to another with less to do, with one call at most. -/
structure Advances (C : Capacity) (ps cs : List ι) (task : ι → List (Item α W))
    (s s' : State ι α W) : Prop where
  ready : Ready C ps cs task s'
  calm : Calm s'
  weight : weight ps cs s' < weight ps cs s
  calls : s'.queue.calls ≤ s.queue.calls + 1

/-- A state that differs in what one thread does next. -/
theorem Ready.goto_run (h : Ready C ps cs task s) (hteams : Teams ps cs)
    (hcalls : s.queue.calls < 2 ^ 63) {turns : List (ι × Bool)} {prog : Prog α W}
    (hrun : s.run C ps.length turns = s.goto t prog) : Ready C ps cs task (s.goto t prog) := by
  rw [← hrun]
  apply h.run hteams
  rw [hrun]
  exact hcalls

/-- A producer with a value to push, and room for it. -/
theorem Ready.push_advances (h : Ready C ps cs task s) (hcalm : Calm s) (hteams : Teams ps cs)
    (hcalls : s.queue.calls + 1 < 2 ^ 63) (ht : t ∈ ps) {item : Item α W} {rest : List (Item α W)}
    (hprog : s.prog t = .pushing (item :: rest))
    (hroom : s.queue.queue.enqueue_pos < s.queue.queue.dequeue_pos + C.size) :
    ∃ turns, Advances C ps cs task s (s.run C ps.length turns) := by
  obtain ⟨turns, halone, hcalm', hpushed, henq, hdeq⟩ :=
    h.push_alone hcalm hteams hcalls hprog hroom
  refine ⟨turns, halone.ready, hcalm', ?_, Nat.le_of_eq halone.calls⟩
  have hord := h.whole.inv.history.ordered
  have hmoved := weight_moved s _ hteams (List.mem_append_left cs ht) halone.prog
  rw [hprog, hpushed, henq, hdeq] at hmoved
  simp only [Prog.cost, List.length_cons] at hmoved
  omega

/-- A producer that has pushed its values. -/
theorem Ready.finish_advances (h : Ready C ps cs task s) (hcalm : Calm s) (hteams : Teams ps cs)
    (hcalls : s.queue.calls < 2 ^ 63) (ht : t ∈ ps) (hprog : s.prog t = .pushing []) :
    ∃ turns, Advances C ps cs task s (s.run C ps.length turns) := by
  have hstep : s.step C ps.length (t, false) =
      { s with producers_done := s.producers_done + 1 }.goto t .done := by
    simp only [State.step, hprog]
  refine ⟨[(t, false)], h.step hteams hcalls _, ?_, ?_, ?_⟩
  · show Calm (s.step C ps.length (t, false))
    rw [hstep]
    exact hcalm
  · show weight ps cs (s.step C ps.length (t, false)) < _
    have hmoved := weight_moved s (s.step C ps.length (t, false)) hteams
      (List.mem_append_left cs ht) fun t' ht' => (step_other C ps.length s (t, false) ht').2
    have hdone : (s.step C ps.length (t, false)).prog t = .done := by
      rw [hstep]
      exact update_self _ _ _
    have hqueue : (s.step C ps.length (t, false)).queue = s.queue := by rw [hstep]; rfl
    rw [hprog, hdone, hqueue] at hmoved
    simp only [Prog.cost, List.length_nil] at hmoved
    omega
  · show (s.step C ps.length (t, false)).queue.calls ≤ _
    rw [hstep]
    exact Nat.le_succ _

/-- A consumer about to pop, with something in the ring. -/
theorem Ready.pop_advances (h : Ready C ps cs task s) (hcalm : Calm s) (hteams : Teams ps cs)
    (hcalls : s.queue.calls + 1 < 2 ^ 63) (ht : t ∈ cs) {v : Item α W}
    (hprog : s.prog t = .popping v)
    (hne : s.queue.queue.dequeue_pos < s.queue.queue.enqueue_pos) :
    ∃ turns, Advances C ps cs task s (s.run C ps.length turns) := by
  obtain ⟨turns, halone, hcalm', ⟨v', hpopped⟩, henq, hdeq⟩ :=
    h.pop_alone hcalm hteams hcalls hprog hne
  refine ⟨turns, halone.ready, hcalm', ?_, Nat.le_of_eq halone.calls⟩
  have hmoved := weight_moved s _ hteams (List.mem_append_right ps ht) halone.prog
  rw [hprog, hpopped, henq, hdeq] at hmoved
  simp only [Prog.cost] at hmoved
  omega

/-- A consumer about to pop, with nothing in the ring and the producers
    returned: it pops in vain and returns. -/
theorem Ready.return_advances (h : Ready C ps cs task s) (hcalm : Calm s) (hteams : Teams ps cs)
    (hsize : C.size ≤ 2 ^ 62) (hcalls : s.queue.calls + 1 < 2 ^ 63) (ht : t ∈ cs) {v : Item α W}
    (hprog : s.prog t = .popping v) (hdone : AllDone ps s)
    (hempty : s.queue.queue.dequeue_pos = s.queue.queue.enqueue_pos) :
    ∃ turns, Advances C ps cs task s (s.run C ps.length turns) := by
  obtain ⟨turns, halone, hcalm', hload, hqueue⟩ :=
    h.pop_nothing hcalm hteams hsize hcalls hprog hempty
  obtain ⟨s₁, hs₁⟩ : ∃ s₁, s₁ = s.run C ps.length turns := ⟨_, rfl⟩
  rw [← hs₁] at halone hcalm' hload hqueue
  have hall : s₁.producers_done = ps.length := by
    rw [halone.ready.runs.counted, List.countP_eq_length]
    intro p hp
    have hpt : p ≠ t := by
      rintro rfl
      exact hteams.disjoint p hp ht
    rw [halone.prog p hpt, hdone p hp]
    rfl
  have hleave := leave (C := C) (n := ps.length) hload hall (by rw [hqueue]; exact hempty)
  refine ⟨turns ++ [(t, false), (t, false), (t, false)], ?_⟩
  rw [run_append, ← hs₁, hleave]
  refine ⟨halone.ready.goto_run hteams (by rw [halone.calls]; exact hcalls) hleave, hcalm', ?_,
    Nat.le_of_eq halone.calls⟩
  have hmoved := weight_moved s (s₁.goto t .done) hteams (List.mem_append_right ps ht)
    fun t' ht' => (update_of_ne ht' _ _).trans (halone.prog t' ht')
  have hreturned : (s₁.goto t .done).prog t = .done := update_self _ _ _
  have hsame : (s₁.goto t .done).queue.queue = s.queue.queue := hqueue
  rw [hprog, hreturned, hsame] at hmoved
  simp only [Prog.cost] at hmoved
  omega

/-- A consumer that has not returned, if there is something in the ring or the
    producers have returned. -/
theorem Ready.consumer_advances (h : Ready C ps cs task s) (hcalm : Calm s) (hteams : Teams ps cs)
    (hsize : C.size ≤ 2 ^ 62) (hcalls : s.queue.calls + 1 < 2 ^ 63) (ht : t ∈ cs)
    (hlive : s.prog t ≠ .done)
    (hcan : AllDone ps s ∨ s.queue.queue.dequeue_pos < s.queue.queue.enqueue_pos) :
    ∃ turns, Advances C ps cs task s (s.run C ps.length turns) := by
  have hconsumer : ∀ rest, s.prog t ≠ .pushing rest := by
    intro rest hprog
    have hpc := (h.runs.consumers t ht).pc
    rw [hprog] at hpc
    exact hpc
  have hcost : (s.prog t).cost = 1 := by
    cases hprog : s.prog t with
    | pushing rest => exact absurd hprog (hconsumer rest)
    | done => exact absurd hprog hlive
    | _ => rfl
  obtain ⟨turns, prog, hrun, hprog⟩ := run_loads C (n := ps.length) hlive hconsumer
  have h₁ : Ready C ps cs task (s.goto t prog) := h.goto_run hteams (by omega) hrun
  have hself : (s.goto t prog).prog t = prog := update_self _ _ _
  have hmoved := weight_moved s (s.goto t prog) hteams (List.mem_append_right ps ht)
    fun t' ht' => update_of_ne ht' _ _
  rw [hself, hcost, show (s.goto t prog).queue = s.queue from rfl] at hmoved
  rcases hprog with rfl | ⟨v, rfl⟩
  · refine ⟨turns, ?_⟩
    rw [hrun]
    simp only [Prog.cost] at hmoved
    exact ⟨h₁, hcalm, by omega, Nat.le_succ _⟩
  · -- nothing is done yet; what follows is
    obtain ⟨more, hnext⟩ : ∃ more, Advances C ps cs task (s.goto t (.popping v))
        ((s.goto t (.popping v)).run C ps.length more) := by
      by_cases hne : s.queue.queue.dequeue_pos < s.queue.queue.enqueue_pos
      · exact h₁.pop_advances hcalm hteams hcalls ht hself hne
      · have hdone : AllDone ps (s.goto t (.popping v)) := by
          intro p hp
          have hpt : p ≠ t := by
            rintro rfl
            exact hteams.disjoint p hp ht
          exact (update_of_ne hpt _ _).trans (hcan.resolve_right hne p hp)
        have hord := h.whole.inv.history.ordered
        exact h₁.return_advances hcalm hteams hsize hcalls ht hself hdone (by
          show s.queue.queue.dequeue_pos = s.queue.queue.enqueue_pos
          omega)
    refine ⟨turns ++ more, ?_⟩
    rw [run_append, hrun]
    have hless := hnext.weight
    simp only [Prog.cost] at hmoved
    exact ⟨hnext.ready, hnext.calm, by omega, hnext.calls⟩

/-- With no call under way, something can be done, unless all have returned. -/
theorem Ready.advances (h : Ready C ps cs task s) (hcalm : Calm s) (hteams : Teams ps cs)
    (hsize : C.size ≤ 2 ^ 62) (hcalls : s.queue.calls + 1 < 2 ^ 63)
    (hlive : ¬ ∀ t, s.prog t = .done) :
    ∃ turns, Advances C ps cs task s (s.run C ps.length turns) := by
  by_cases hdone : AllDone ps s
  · obtain ⟨t, ht⟩ := not_forall.mp hlive
    have hcs : t ∈ cs := by
      by_contra hcs
      have hps : t ∉ ps := fun hps => ht (hdone t hps)
      exact ht (h.runs.others t hps hcs).1
    exact h.consumer_advances hcalm hteams hsize hcalls hcs ht (.inl hdone)
  · unfold AllDone at hdone
    push Not at hdone
    obtain ⟨p, hp, hprog⟩ := hdone
    have hpc := (h.runs.producers p hp).pc
    cases hat : s.prog p with
    | pushing rest =>
      cases rest with
      | nil => exact h.finish_advances hcalm hteams (by omega) hp hat
      | cons item rest =>
        by_cases hroom : s.queue.queue.enqueue_pos < s.queue.queue.dequeue_pos + C.size
        · exact h.push_advances hcalm hteams hcalls hp hat hroom
        · -- a full ring: no consumer has returned while a producer has not
          obtain ⟨t, ht⟩ := List.exists_mem_of_ne_nil cs hteams.consumer
          have hone := C.one_lt
          refine h.consumer_advances hcalm hteams hsize hcalls ht ?_ (.inr (by omega))
          intro hreturned
          have hin := (h.runs.consumers t ht).pc
          rw [hreturned] at hin
          exact hprog (hin.2.1 p hp)
    | done => exact absurd hat hprog
    | _ =>
      rw [hat] at hpc
      exact absurd hpc id

/-! ## Section 8: The test comes to its end -/

omit [DecidableEq ι] in
theorem sum_map_le {f g : ι → Nat} {ts : List ι} (h : ∀ t ∈ ts, f t ≤ 2 * g t + 1) :
    (ts.map f).sum ≤ 2 * (ts.map g).sum + ts.length := by
  induction ts with
  | nil => exact Nat.zero_le _
  | cons t ts ih =>
    have hfirst := h t List.mem_cons_self
    have hrest := ih fun t' ht' => h t' (List.mem_cons_of_mem _ ht')
    simp only [List.map_cons, List.sum_cons, List.length_cons]
    omega

/-- At most this much is left. -/
theorem Ready.weight_le (h : Ready C ps cs task s) :
    weight ps cs s ≤ 2 * (ps.flatMap task).length + ps.length + cs.length + C.size := by
  have hproducers : (ps.map fun t => (s.prog t).cost).sum ≤
      2 * (ps.map fun t => (task t).length).sum + ps.length := by
    apply sum_map_le
    intro t ht
    have hsent := congrArg List.length (h.runs.producers t ht).sent
    rw [List.length_append] at hsent
    have hcost : (s.prog t).cost ≤ 2 * (s.prog t).rest.length + 1 := by
      cases s.prog t with
      | done => exact Nat.zero_le _
      | _ => exact Nat.le_refl _
    omega
  have hconsumers : (cs.map fun t => (s.prog t).cost).sum ≤
      2 * (cs.map fun _ => 0).sum + cs.length := by
    apply sum_map_le
    intro t ht
    have hpc := (h.runs.consumers t ht).pc
    cases hprog : s.prog t with
    | pushing rest =>
      rw [hprog] at hpc
      exact absurd hpc id
    | done => exact Nat.zero_le _
    | _ => exact Nat.le_refl _
  have hzero : (cs.map fun _ => 0).sum = 0 := by simp
  have hbounded := h.whole.inv.bounded
  simp only [weight, List.map_append, List.sum_append, List.length_flatMap]
  omega

/-- A thread that has not returned has something left to do. -/
theorem Ready.weight_pos (h : Ready C ps cs task s) (hlive : ¬ ∀ t, s.prog t = .done) :
    0 < weight ps cs s := by
  obtain ⟨t, ht⟩ := not_forall.mp hlive
  have hmem : t ∈ ps ++ cs := by
    by_contra hnot
    rw [List.mem_append, not_or] at hnot
    exact ht (h.runs.others t hnot.1 hnot.2).1
  have hcost : 0 < (s.prog t).cost := by
    cases hprog : s.prog t with
    | pushing rest => exact Nat.succ_pos _
    | done => exact absurd hprog ht
    | _ => exact Nat.one_pos
  have hsum : 0 < ((ps ++ cs).map fun t => (s.prog t).cost).sum :=
    List.sum_pos_iff_exists_pos_nat.mpr ⟨_, List.mem_map_of_mem hmem, hcost⟩
  exact Nat.lt_of_lt_of_le hsum (Nat.le_add_right _ _)

/-- From every state of the test, all its threads can return. -/
theorem Ready.can_finish (h : Ready C ps cs task s) (hteams : Teams ps cs) (hsize : C.size ≤ 2 ^ 62)
    (hcalls : s.queue.calls +
      (2 * (ps.flatMap task).length + ps.length + cs.length + C.size) < 2 ^ 63) :
    ∃ more, ∀ t, (s.run C ps.length more).prog t = .done := by
  obtain ⟨first, h₁, hcalm, hsame⟩ := h.settle hteams hsize (by omega)
  have hweight := h₁.weight_le
  let Ranked (m : Nat) (s' : State ι α W) := Ready C ps cs task s' ∧ Calm s' ∧
    weight ps cs s' = m ∧ s'.queue.calls + weight ps cs s' < 2 ^ 63
  have hstep : ∀ m s', Ranked m s' → ¬ (∀ t, s'.prog t = .done) →
      ∃ turns : List (ι × Bool), (∀ i ∈ turns, True) ∧ ∃ m' < m,
        Ranked m' (turns.foldl (State.step C ps.length) s') := by
    rintro m s' ⟨h', hcalm', rfl, hbudget⟩ hlive
    obtain ⟨turns, hnext⟩ : ∃ turns, Advances C ps cs task s' (s'.run C ps.length turns) := by
      have hpos := h'.weight_pos hlive
      exact h'.advances hcalm' hteams hsize (by omega) hlive
    have hless := hnext.weight
    have hmore := hnext.calls
    exact ⟨turns, fun _ _ => trivial, _, hless, hnext.ready, hnext.calm, rfl, by
      show (s'.run C ps.length turns).queue.calls + weight ps cs (s'.run C ps.length turns) < 2 ^ 63
      omega⟩
  obtain ⟨rest, _, _, hend⟩ := foldl_reaches hstep _
    ⟨h₁, hcalm, rfl, by rw [hsame]; omega⟩
  refine ⟨first ++ rest, ?_⟩
  rw [run_append]
  exact hend

theorem teams (n_producers : Nat) {n_consumers : Nat} (h : 0 < n_consumers) :
    Teams (producers n_producers) (consumers n_consumers) where
  producers := nodup_producers n_producers
  consumers := nodup_consumers n_consumers
  disjoint := producers_disjoint n_producers n_consumers
  consumer := by
    intro hnil
    have hlen := congrArg List.length hnil
    simp [Stress.consumers] at hlen
    omega

/-- Whatever the interleaving has been so far: the test is not stuck, and some
    continuation lets all its threads be joined. -/
theorem test_npmc_can_finish (C : Capacity) (mem : Nat → Item UInt64 1) (v : Item UInt64 1)
    (n_producers n_consumers items_per_producer : Nat) (schedule : List (Thread × Bool))
    (hsize : C.size ≤ 2 ^ 62) (hconsumers : 0 < n_consumers)
    (hcalls : ((threads mem v n_producers n_consumers items_per_producer).run C n_producers
        schedule).queue.calls +
      (2 * (n_producers * items_per_producer) + n_producers + n_consumers + C.size) < 2 ^ 63) :
    ∃ more, joinable n_producers n_consumers
      ((threads mem v n_producers n_consumers items_per_producer).run C n_producers
        (schedule ++ more)) = true := by
  have hteams := teams n_producers hconsumers
  have hps : (producers n_producers).length = n_producers := by simp [producers]
  have hcs : (consumers n_consumers).length = n_consumers := by simp [consumers]
  have htotal : ((producers n_producers).flatMap (values items_per_producer)).length =
      n_producers * items_per_producer := by
    have hlen := congrArg List.length (values_eq_range n_producers items_per_producer)
    rwa [List.length_map, List.length_map, List.length_range] at hlen
  have hready : Ready C (producers n_producers) (consumers n_consumers) (values items_per_producer)
      ((threads mem v n_producers n_consumers items_per_producer).run C n_producers schedule) := by
    have hlaunch : Ready C (producers n_producers) (consumers n_consumers)
        (values items_per_producer)
        (threads mem v n_producers n_consumers items_per_producer) := ready_launch mem v hteams
    have hrun := hlaunch.run hteams schedule
    rw [hps] at hrun
    exact hrun (Nat.lt_of_le_of_lt (Nat.le_add_right _ _) hcalls)
  obtain ⟨more, hdone⟩ := hready.can_finish hteams hsize (by rw [htotal, hps, hcs]; exact hcalls)
  rw [hps] at hdone
  refine ⟨more, ?_⟩
  rw [run_append]
  refine List.all_eq_true.mpr ?_
  intro t _
  rw [hdone t]
  rfl

/-- A producer that has found the ring of two slots full, with three values to
    push, while the only consumer has not begun. -/
theorem test_npmc_full_can_finish :
    let first : State Thread UInt64 1 := threads (fun _ => .replicate 1 0) (.replicate 1 0) 1 1 3
    let schedule := List.replicate 12 ((.inl 0 : Thread), false)
    (first.run twoSlots 1 schedule).queue.queue.enqueue_pos = 2 ∧
      ∃ more, joinable 1 1 (first.run twoSlots 1 (schedule ++ more)) = true :=
  ⟨by decide +kernel, test_npmc_can_finish twoSlots _ _ 1 1 3 _ (by decide) (by decide)
    (by decide +kernel)⟩

end Stress

end Mpmc

end OptionsEngine
