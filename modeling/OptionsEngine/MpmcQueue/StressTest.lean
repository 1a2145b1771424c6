import Mathlib.Data.List.Perm.Basic
import OptionsEngine.MpmcQueue.Fullness

/-! # The stress test of the queue (`tests/test_mpmc.cpp`)

    Producers push their values, each one until it is accepted, and count
    themselves as done.  Consumers pop until a pop fails, all producers are done
    and `empty` says so; `empty` loads the two positions one after the other,
    while other consumers may still claim.  The flag that lets the threads go is
    left out: before it is set nothing happens.

    * `push_call`, `pop_call`: what a step of a call can do.
    * `Runs`: where every thread stands.
    * `drained`: when all threads have returned, the consumers have what the
      producers pushed, each value once.
    * `test_npmc_passes`: hence the test's checks succeed, for any number of
      threads and values and under every interleaving. -/

namespace OptionsEngine

open Ring Loop Function

namespace Mpmc

/-- `empty`, with what its two loads found. -/
def empty (ep dp : Nat) : Bool := ep == dp

namespace Stress

/-! ## Section 1: Model -/

/-- Where a thread of the test stands. -/
inductive Prog (α : Type) (W : Nat) where
  /-- A producer with these values left, the first of them in `try_push`. -/
  | pushing (rest : List (Item α W))
  /-- A consumer in `try_pop`. -/
  | popping (v : Item α W)
  /-- `try_pop` has failed. -/
  | load_done (v : Item α W)
  /-- In `empty`, before its first load. -/
  | load_enqueue (v : Item α W)
  | load_dequeue (v : Item α W) (ep : Nat)
  | done

def Prog.isDone {α : Type} {W : Nat} : Prog α W → Bool
  | .done => true
  | _ => false

structure State (ι α : Type) (W : Nat) where
  queue : Config ι α W
  prog : ι → Prog α W
  producers_done : Nat
  received : ι → List (Item α W)

variable {ι α : Type} {W : Nat}

def active : Pc α W → Bool
  | .idle => false
  | _ => true

/-- What a call returned, if it returned in this step: the record it left, if it
    returned true. -/
def answer (t : ι) (records : Config ι α W → List (Record ι α W)) (c c' : Config ι α W) :
    Option (Option (Item α W)) :=
  if active (c.pc t) = true ∧ active (c'.pc t) = false then
    some (((records c').drop (records c).length).head?.map Record.item)
  else none

variable [DecidableEq ι]

namespace State

def goto (s : State ι α W) (t : ι) (prog : Prog α W) : State ι α W :=
  { s with prog := update s.prog t prog }

def push_step (C : Capacity) (s : State ι α W) (t : ι) (item : Item α W) (rest : List (Item α W))
    (spurious : Bool) : State ι α W :=
  let queue := s.queue.step C ⟨t, .push item, spurious⟩
  match answer t Config.pushed s.queue queue with
  | some (some _) => { s with queue := queue }.goto t (.pushing rest)
  | _ => { s with queue := queue }

def pop_step (C : Capacity) (s : State ι α W) (t : ι) (v : Item α W) (spurious : Bool) :
    State ι α W :=
  let queue := s.queue.step C ⟨t, .pop v, spurious⟩
  match answer t Config.popped s.queue queue with
  | some (some v') =>
    { s with
      queue := queue
      received := update s.received t (s.received t ++ [v']) }.goto t (.popping v')
  | some none => { s with queue := queue }.goto t (.load_done v)
  | none => { s with queue := queue }

/-- One step of a thread; `turn.2` is whether an exchange fails spuriously. -/
def step (C : Capacity) (n_producers : Nat) (s : State ι α W) (turn : ι × Bool) : State ι α W :=
  let t := turn.1
  match s.prog t with
  | .pushing [] => { s with producers_done := s.producers_done + 1 }.goto t .done
  | .pushing (item :: rest) => s.push_step C t item rest turn.2
  | .popping v => s.pop_step C t v turn.2
  | .load_done v =>
    s.goto t (if s.producers_done = n_producers then .load_enqueue v else .popping v)
  | .load_enqueue v => s.goto t (.load_dequeue v s.queue.queue.enqueue_pos)
  | .load_dequeue v ep =>
    s.goto t (if empty ep s.queue.queue.dequeue_pos then .done else .popping v)
  | .done => s

def run (C : Capacity) (n_producers : Nat) (s : State ι α W) (schedule : List (ι × Bool)) :
    State ι α W :=
  schedule.foldl (step C n_producers) s

end State

/-- The producers `ps` with their values and the consumers `cs` at their
    beginning. -/
def launch (mem : Nat → Item α W) (ps cs : List ι) (task : ι → List (Item α W)) (v : Item α W) :
    State ι α W where
  queue := .start mem
  prog := fun t => if t ∈ ps then .pushing (task t) else if t ∈ cs then .popping v else .done
  producers_done := 0
  received := fun _ => []

/-! ## Section 2: Calls of the queue -/

/-- The thread is between calls or in a `try_push` of the item. -/
def Pushes (item : Item α W) : Pc α W → Prop
  | .idle => True
  | .push_top x _ | .push_cas x _ | .push_reload x | .push_write x _ _ => x = item
  | _ => False

/-- The thread is between calls or in a `try_pop`. -/
def Pops : Pc α W → Prop
  | .idle | .pop_top _ _ | .pop_cas _ _ | .pop_reload _ | .pop_read _ _ _ => True
  | _ => False

variable {C : Capacity} {c : Config ι α W} {t : ι} {item : Item α W}

omit [DecidableEq ι] in
theorem answer_none {records : Config ι α W → List (Record ι α W)} {c c' : Config ι α W}
    (h : active (c.pc t) = false ∨ active (c'.pc t) = true) : answer t records c c' = none := by
  apply if_neg
  rcases h with h | h <;> simp [h]

omit [DecidableEq ι] in
theorem answer_false (records : Config ι α W → List (Record ι α W)) {c c' : Config ι α W}
    (h : active (c.pc t) = true) (h' : c'.pc t = .idle) (hsame : records c' = records c) :
    answer t records c c' = some none := by
  rw [answer, if_pos ⟨h, by rw [h']; rfl⟩, hsame, List.drop_length]
  rfl

omit [DecidableEq ι] in
theorem answer_true (records : Config ι α W → List (Record ι α W)) {c c' : Config ι α W}
    (r : Record ι α W) (h : active (c.pc t) = true) (h' : c'.pc t = .idle)
    (hmore : records c' = records c ++ [r]) : answer t records c c' = some (some r.item) := by
  rw [answer, if_pos ⟨h, by rw [h']; rfl⟩, hmore, List.drop_left]
  rfl

theorem pc_goto (c : Config ι α W) (t : ι) (pc : Pc α W) : (c.goto t pc).pc t = pc := update_self _ _ _

omit [DecidableEq ι] in
/-- The thread goes on within its call. -/
theorem push_on {c' : Config ι α W} {pc : Pc α W} (hpc : c'.pc t = pc) (hactive : active pc = true)
    (hpushes : Pushes item pc) (hpushed : c'.pushed = c.pushed) :
    (answer t Config.pushed c c' = none ∨ answer t Config.pushed c c' = some none) ∧
      c'.pushed = c.pushed ∧ Pushes item (c'.pc t) := by
  subst hpc
  exact ⟨.inl (answer_none (.inr hactive)), hpushed, hpushes⟩

/-- A step of a `try_push`. -/
theorem push_call (hpc : Pushes item (c.pc t)) (spurious : Bool) :
    let c' := c.step C ⟨t, .push item, spurious⟩
    (∀ t', t' ≠ t → c'.pc t' = c.pc t') ∧ c'.popped = c.popped ∧
    (((answer t Config.pushed c c' = none ∨ answer t Config.pushed c c' = some none) ∧
        c'.pushed = c.pushed ∧ Pushes item (c'.pc t)) ∨
      ∃ pos, answer t Config.pushed c c' = some (some item) ∧
        c'.pushed = c.pushed ++ [⟨t, pos, item⟩] ∧ c'.pc t = .idle) := by
  cases hat : c.pc t with
  | idle =>
    simp only [Config.step, hat, Config.begin_call]
    exact ⟨fun t' ht => update_of_ne ht _ _, rfl, .inl (push_on (pc_goto _ _ _) rfl rfl rfl)⟩
  | push_top x pos =>
    rw [hat] at hpc
    obtain rfl : x = item := hpc
    have hactive : active (c.pc t) = true := by rw [hat]; rfl
    simp only [Config.step, hat]
    split
    · exact ⟨fun t' ht => update_of_ne ht _ _, rfl, .inl (push_on (pc_goto _ _ _) rfl rfl rfl)⟩
    · split
      -- The queue is full: `try_push` returns, and the test begins it again.
      · refine ⟨fun t' ht => update_of_ne ht _ _, rfl, .inl ⟨.inr ?_, rfl, ?_⟩⟩
        · exact answer_false Config.pushed hactive (pc_goto _ _ _) rfl
        · rw [pc_goto]
          exact trivial
      · exact ⟨fun t' ht => update_of_ne ht _ _, rfl, .inl (push_on (pc_goto _ _ _) rfl rfl rfl)⟩
  | push_cas x pos =>
    rw [hat] at hpc
    obtain rfl : x = item := hpc
    simp only [Config.step, hat]
    split
    · exact ⟨fun t' ht => update_of_ne ht _ _, rfl, .inl (push_on (pc_goto _ _ _) rfl rfl rfl)⟩
    · exact ⟨fun t' ht => update_of_ne ht _ _, rfl, .inl (push_on (pc_goto _ _ _) rfl rfl rfl)⟩
  | push_reload x =>
    rw [hat] at hpc
    obtain rfl : x = item := hpc
    simp only [Config.step, hat]
    exact ⟨fun t' ht => update_of_ne ht _ _, rfl, .inl (push_on (pc_goto _ _ _) rfl rfl rfl)⟩
  | push_write x pos i =>
    rw [hat] at hpc
    obtain rfl : x = item := hpc
    have hactive : active (c.pc t) = true := by rw [hat]; rfl
    simp only [Config.step, hat]
    split
    · exact ⟨fun t' ht => update_of_ne ht _ _, rfl, .inl (push_on (pc_goto _ _ _) rfl rfl rfl)⟩
    -- The sequence number is stored, and with it the call returns.
    · refine ⟨fun t' ht => update_of_ne ht _ _, rfl, .inr ⟨pos, ?_, rfl, pc_goto _ _ _⟩⟩
      exact answer_true Config.pushed ⟨t, pos, x⟩ hactive (pc_goto _ _ _) rfl
  | pop_top _ _ | pop_cas _ _ | pop_reload _ | pop_read _ _ _ =>
    rw [hat] at hpc
    exact absurd hpc id

omit [DecidableEq ι] in
theorem pop_on {c' : Config ι α W} {pc : Pc α W} (hpc : c'.pc t = pc) (hactive : active pc = true)
    (hpops : Pops pc) (hpopped : c'.popped = c.popped) :
    answer t Config.popped c c' = none ∧ c'.popped = c.popped ∧ Pops (c'.pc t) := by
  subst hpc
  exact ⟨answer_none (.inr hactive), hpopped, hpops⟩

/-- A step of a `try_pop`. -/
theorem pop_call (hpc : Pops (c.pc t)) (v : Item α W) (spurious : Bool) :
    let c' := c.step C ⟨t, .pop v, spurious⟩
    (∀ t', t' ≠ t → c'.pc t' = c.pc t') ∧ c'.pushed = c.pushed ∧
    c'.queue.enqueue_pos = c.queue.enqueue_pos ∧
    ((answer t Config.popped c c' = none ∧ c'.popped = c.popped ∧ Pops (c'.pc t)) ∨
      (answer t Config.popped c c' = some none ∧ c'.popped = c.popped ∧ c'.pc t = .idle) ∨
      ∃ pos item, answer t Config.popped c c' = some (some item) ∧
        c'.popped = c.popped ++ [⟨t, pos, item⟩] ∧ c'.pc t = .idle) := by
  cases hat : c.pc t with
  | idle =>
    simp only [Config.step, hat, Config.begin_call]
    exact ⟨fun t' ht => update_of_ne ht _ _, rfl, rfl,
      .inl (pop_on (pc_goto _ _ _) rfl trivial rfl)⟩
  | pop_top x pos =>
    have hactive : active (c.pc t) = true := by rw [hat]; rfl
    simp only [Config.step, hat]
    split
    · exact ⟨fun t' ht => update_of_ne ht _ _, rfl, rfl,
        .inl (pop_on (pc_goto _ _ _) rfl trivial rfl)⟩
    · split
      · refine ⟨fun t' ht => update_of_ne ht _ _, rfl, rfl, .inr (.inl ⟨?_, rfl, pc_goto _ _ _⟩)⟩
        exact answer_false Config.popped hactive (pc_goto _ _ _) rfl
      · exact ⟨fun t' ht => update_of_ne ht _ _, rfl, rfl,
          .inl (pop_on (pc_goto _ _ _) rfl trivial rfl)⟩
  | pop_cas x pos =>
    simp only [Config.step, hat]
    split
    · exact ⟨fun t' ht => update_of_ne ht _ _, rfl, rfl,
        .inl (pop_on (pc_goto _ _ _) rfl trivial rfl)⟩
    · exact ⟨fun t' ht => update_of_ne ht _ _, rfl, rfl,
        .inl (pop_on (pc_goto _ _ _) rfl trivial rfl)⟩
  | pop_reload x =>
    simp only [Config.step, hat]
    exact ⟨fun t' ht => update_of_ne ht _ _, rfl, rfl,
      .inl (pop_on (pc_goto _ _ _) rfl trivial rfl)⟩
  | pop_read x pos i =>
    have hactive : active (c.pc t) = true := by rw [hat]; rfl
    simp only [Config.step, hat]
    split
    · exact ⟨fun t' ht => update_of_ne ht _ _, rfl, rfl,
        .inl (pop_on (pc_goto _ _ _) rfl trivial rfl)⟩
    · refine ⟨fun t' ht => update_of_ne ht _ _, rfl, rfl,
        .inr (.inr ⟨pos, x, ?_, rfl, pc_goto _ _ _⟩)⟩
      exact answer_true Config.popped ⟨t, pos, x⟩ hactive (pc_goto _ _ _) rfl
  | push_top _ _ | push_cas _ _ | push_reload _ | push_write _ _ _ =>
    rw [hat] at hpc
    exact absurd hpc id

/-- Consumers never go back. -/
theorem dequeue_pos_le (h : Inv C c) (hcalls : c.calls < 2 ^ 63) (turn : Turn ι α W) :
    c.queue.dequeue_pos ≤ (c.step C turn).queue.dequeue_pos := by
  have hcount := h.claims.counted.le
  have hmove := step_move (C := C) c turn
  generalize c.step C turn = c' at hmove
  cases hmove with
  | @claim_pop out pos hpos =>
    show c.queue.dequeue_pos ≤ size_t (pos + 1)
    rw [size_t_eq (by omega)]
    omega
  | _ => exact Nat.le_refl _

/-! ## Section 3: Where the threads stand -/

/-- The items of one thread's calls. -/
def itemsOf (records : List (Record ι α W)) (t : ι) : List (Item α W) :=
  (records.filter fun r => r.thread = t).map Record.item

theorem itemsOf_append_self (records : List (Record ι α W)) (t : ι) (pos : Nat) (item : Item α W) :
    itemsOf (records ++ [⟨t, pos, item⟩]) t = itemsOf records t ++ [item] := by
  simp [itemsOf]

theorem itemsOf_append_ne (records : List (Record ι α W)) {t t' : ι} (h : t' ≠ t) (pos : Nat)
    (item : Item α W) : itemsOf (records ++ [⟨t, pos, item⟩]) t' = itemsOf records t' := by
  simp [itemsOf, Ne.symm h]

def Prog.rest : Prog α W → List (Item α W)
  | .pushing rest => rest
  | _ => []

/-- A producer is in the `try_push` of its next value. -/
def InPush (pc : Pc α W) : Prog α W → Prop
  | .pushing (item :: _) => Pushes item pc
  | .pushing [] | .done => pc = .idle
  | _ => False

structure ProducerOk (task : ι → List (Item α W)) (s : State ι α W) (t : ι) : Prop where
  sent : itemsOf s.queue.pushed t ++ (s.prog t).rest = task t
  pc : InPush (s.queue.pc t) (s.prog t)

def AllDone (ps : List ι) (s : State ι α W) : Prop := ∀ p ∈ ps, s.prog p = .done

/-- Once a consumer has seen the producers done, nobody pushes; once it has seen
    the queue empty as well, nothing is left to claim. -/
def InPop (ps : List ι) (s : State ι α W) (pc : Pc α W) : Prog α W → Prop
  | .popping _ => Pops pc
  | .load_done _ => pc = .idle
  | .load_enqueue _ => pc = .idle ∧ AllDone ps s
  | .load_dequeue _ ep => pc = .idle ∧ AllDone ps s ∧ ep = s.queue.queue.enqueue_pos
  | .done =>
    pc = .idle ∧ AllDone ps s ∧ s.queue.queue.dequeue_pos = s.queue.queue.enqueue_pos
  | .pushing _ => False

structure ConsumerOk (ps : List ι) (s : State ι α W) (t : ι) : Prop where
  got : s.received t = itemsOf s.queue.popped t
  pc : InPop ps s (s.queue.pc t) (s.prog t)

structure Runs (C : Capacity) (ps cs : List ι) (task : ι → List (Item α W)) (s : State ι α W) :
    Prop where
  queue : Inv C s.queue
  producers : ∀ t ∈ ps, ProducerOk task s t
  consumers : ∀ t ∈ cs, ConsumerOk ps s t
  others : ∀ t, t ∉ ps → t ∉ cs → s.prog t = .done ∧ s.queue.pc t = .idle
  pushed : ∀ r ∈ s.queue.pushed, r.thread ∈ ps
  popped : ∀ r ∈ s.queue.popped, r.thread ∈ cs
  counted : s.producers_done = ps.countP fun t => (s.prog t).isDone

/-- A step of `t` as the other threads see it. -/
structure Frame (ps : List ι) (t : ι) (s s' : State ι α W) : Prop where
  prog : ∀ t', t' ≠ t → s'.prog t' = s.prog t'
  pc : ∀ t', t' ≠ t → s'.queue.pc t' = s.queue.pc t'
  sent : ∀ t', t' ≠ t → itemsOf s'.queue.pushed t' = itemsOf s.queue.pushed t'
  got : ∀ t', t' ≠ t → itemsOf s'.queue.popped t' = itemsOf s.queue.popped t'
  received : ∀ t', t' ≠ t → s'.received t' = s.received t'
  settled : AllDone ps s → AllDone ps s' ∧
    s'.queue.queue.enqueue_pos = s.queue.queue.enqueue_pos ∧
    (s.queue.queue.dequeue_pos = s.queue.queue.enqueue_pos →
      s'.queue.queue.dequeue_pos = s'.queue.queue.enqueue_pos)

variable {ps cs : List ι} {task : ι → List (Item α W)} {s s' : State ι α W}

theorem Frame.producer (hf : Frame ps t s s') {t' : ι} (ht : t' ≠ t) (h : ProducerOk task s t') :
    ProducerOk task s' t' := by
  refine ⟨?_, ?_⟩
  · rw [hf.sent t' ht, hf.prog t' ht]
    exact h.sent
  · rw [hf.pc t' ht, hf.prog t' ht]
    exact h.pc

theorem Frame.consumer (hf : Frame ps t s s') {t' : ι} (ht : t' ≠ t) (h : ConsumerOk ps s t') :
    ConsumerOk ps s' t' := by
  refine ⟨?_, ?_⟩
  · rw [hf.received t' ht, hf.got t' ht]
    exact h.got
  · have hpc := h.pc
    rw [hf.pc t' ht, hf.prog t' ht]
    -- What a consumer has seen stays so: the producers remain done.
    cases hprog : s.prog t' with
    | pushing rest => rw [hprog] at hpc; exact hpc
    | popping v => rw [hprog] at hpc; exact hpc
    | load_done v => rw [hprog] at hpc; exact hpc
    | load_enqueue v =>
      rw [hprog] at hpc
      exact ⟨hpc.1, (hf.settled hpc.2).1⟩
    | load_dequeue v ep =>
      rw [hprog] at hpc
      obtain ⟨hidle, hdone, rfl⟩ := hpc
      obtain ⟨hdone', henq, _⟩ := hf.settled hdone
      exact ⟨hidle, hdone', henq.symm⟩
    | done =>
      rw [hprog] at hpc
      obtain ⟨hidle, hdone, hempty⟩ := hpc
      obtain ⟨hdone', _, hkeep⟩ := hf.settled hdone
      exact ⟨hidle, hdone', hkeep hempty⟩

/-- A step of a producer. -/
theorem Runs.by_producer (h : Runs C ps cs task s) (hdisj : ∀ t ∈ ps, t ∉ cs) (ht : t ∈ ps)
    (hf : Frame ps t s s') (hqueue : Inv C s'.queue) (hok : ProducerOk task s' t)
    (hpushed : ∀ r ∈ s'.queue.pushed, r ∈ s.queue.pushed ∨ r.thread = t)
    (hpopped : s'.queue.popped = s.queue.popped)
    (hcounted : s'.producers_done = ps.countP fun t => (s'.prog t).isDone) :
    Runs C ps cs task s' where
  queue := hqueue
  producers := by
    intro t' ht'
    by_cases heq : t' = t
    · rw [heq]
      exact hok
    · exact hf.producer heq (h.producers t' ht')
  consumers := by
    intro t' ht'
    have hne : t' ≠ t := by
      rintro rfl
      exact hdisj t' ht ht'
    exact hf.consumer hne (h.consumers t' ht')
  others := by
    intro t' hps hcs
    have hne : t' ≠ t := by
      rintro rfl
      exact hps ht
    rw [hf.prog t' hne, hf.pc t' hne]
    exact h.others t' hps hcs
  pushed := by
    intro r hr
    rcases hpushed r hr with hr | heq
    · exact h.pushed r hr
    · rw [heq]
      exact ht
  popped := by
    rw [hpopped]
    exact h.popped
  counted := hcounted

/-- A step of a consumer. -/
theorem Runs.by_consumer (h : Runs C ps cs task s) (hdisj : ∀ t ∈ ps, t ∉ cs) (ht : t ∈ cs)
    (hf : Frame ps t s s') (hqueue : Inv C s'.queue) (hok : ConsumerOk ps s' t)
    (hpushed : s'.queue.pushed = s.queue.pushed)
    (hpopped : ∀ r ∈ s'.queue.popped, r ∈ s.queue.popped ∨ r.thread = t)
    (hcounted : s'.producers_done = s.producers_done) : Runs C ps cs task s' where
  queue := hqueue
  producers := by
    intro t' ht'
    have hne : t' ≠ t := by
      rintro rfl
      exact hdisj t' ht' ht
    exact hf.producer hne (h.producers t' ht')
  consumers := by
    intro t' ht'
    by_cases heq : t' = t
    · rw [heq]
      exact hok
    · exact hf.consumer heq (h.consumers t' ht')
  others := by
    intro t' hps hcs
    have hne : t' ≠ t := by
      rintro rfl
      exact hcs ht
    rw [hf.prog t' hne, hf.pc t' hne]
    exact h.others t' hps hcs
  pushed := by
    rw [hpushed]
    exact h.pushed
  popped := by
    intro r hr
    rcases hpopped r hr with hr | heq
    · exact h.popped r hr
    · rw [heq]
      exact ht
  counted := by
    rw [hcounted, h.counted]
    apply List.countP_congr
    intro p hp
    have hne : p ≠ t := by
      rintro rfl
      exact hdisj p hp ht
    rw [hf.prog p hne]

/-! ## Section 4: Steps of producers -/

omit [DecidableEq ι] in
theorem not_allDone (ht : t ∈ ps) (hprog : s.prog t ≠ .done) : ¬ AllDone ps s := by
  intro hdone
  exact hprog (hdone t ht)

omit [DecidableEq ι] in
theorem countP_update {f g : ι → Bool} (hnodup : ps.Nodup) (ht : t ∈ ps) (hold : f t = false)
    (hnew : g t = true) (hsame : ∀ t', t' ≠ t → g t' = f t') : ps.countP g = ps.countP f + 1 := by
  obtain ⟨L, R, rfl⟩ := List.append_of_mem ht
  obtain ⟨hL, hR⟩ : t ∉ L ∧ t ∉ R := by
    rw [List.nodup_middle, List.nodup_cons, List.mem_append, not_or] at hnodup
    exact hnodup.1
  have hcongr : ∀ xs : List ι, t ∉ xs → xs.countP g = xs.countP f := by
    intro xs hxs
    apply List.countP_congr
    intro x hx
    rw [hsame x fun heq => hxs (heq ▸ hx)]
  rw [List.countP_append, List.countP_append, List.countP_cons_of_pos hnew,
    List.countP_cons_of_neg (by simp [hold]), hcongr L hL, hcongr R hR, Nat.add_assoc]

/-- The producer has pushed its values and counts itself. -/
theorem Runs.finish (h : Runs C ps cs task s) (hdisj : ∀ t ∈ ps, t ∉ cs) (hnodup : ps.Nodup)
    (ht : t ∈ ps) (hprog : s.prog t = .pushing []) :
    Runs C ps cs task ({ s with producers_done := s.producers_done + 1 }.goto t .done) := by
  have hok := h.producers t ht
  refine h.by_producer hdisj ht ?_ h.queue ⟨?_, ?_⟩ (fun r hr => .inl hr) rfl ?_
  · refine ⟨fun t' ht' => update_of_ne ht' _ _, fun _ _ => rfl, fun _ _ => rfl, fun _ _ => rfl,
      fun _ _ => rfl, ?_⟩
    intro hdone
    exact absurd hdone (not_allDone ht (by rw [hprog]; simp))
  · have hsent := hok.sent
    rw [hprog] at hsent
    show itemsOf s.queue.pushed t ++ (update s.prog t .done t).rest = task t
    rw [update_self]
    exact hsent
  · have hpc := hok.pc
    rw [hprog] at hpc
    show InPush (s.queue.pc t) (update s.prog t .done t)
    rw [update_self]
    exact hpc
  -- One producer more is done, and it is counted once.
  · show s.producers_done + 1 = ps.countP fun t' => (update s.prog t .done t').isDone
    rw [h.counted]
    symm
    apply countP_update hnodup ht
    · rw [hprog]
      rfl
    · rw [update_self]
      rfl
    · intro t' ht'
      rw [update_of_ne ht']

/-- The producer has not counted itself before or after the step. -/
theorem counted_pushing (h : Runs C ps cs task s) {rest rest' : List (Item α W)}
    (hprog : s.prog t = .pushing rest) (hprog' : s'.prog t = .pushing rest')
    (hsame : ∀ t', t' ≠ t → s'.prog t' = s.prog t')
    (hcount : s'.producers_done = s.producers_done) :
    s'.producers_done = ps.countP fun t => (s'.prog t).isDone := by
  rw [hcount, h.counted]
  apply List.countP_congr
  intro t' _
  by_cases ht : t' = t
  · rw [ht, hprog, hprog']
    exact Iff.rfl
  · rw [hsame t' ht]

/-- A step of a `try_push` of the test. -/
theorem Runs.push_step (h : Runs C ps cs task s) (hcalls : s.queue.calls < 2 ^ 63)
    (hdisj : ∀ t ∈ ps, t ∉ cs) (ht : t ∈ ps) {rest : List (Item α W)}
    (hprog : s.prog t = .pushing (item :: rest)) (spurious : Bool) :
    Runs C ps cs task (s.push_step C t item rest spurious) := by
  have hok := h.producers t ht
  have hpc := hok.pc
  have hsent := hok.sent
  rw [hprog] at hpc hsent
  have hnot : ¬ AllDone ps s := not_allDone ht (by rw [hprog]; simp)
  have hinv := h.queue.step hcalls ⟨t, .push item, spurious⟩
  obtain ⟨hframe, hpopped, hcases⟩ := push_call (C := C) hpc spurious
  unfold State.push_step
  generalize s.queue.step C ⟨t, .push item, spurious⟩ = c' at hframe hpopped hcases hinv ⊢
  rcases hcases with ⟨hans, hpushed, hpc'⟩ | ⟨pos, hans, hpushed, hpc'⟩
  · -- the call goes on, or begins again
    have hkeeps : Runs C ps cs task { s with queue := c' } := by
      refine h.by_producer hdisj ht ?_ hinv ⟨?_, ?_⟩ (fun r hr => .inl (hpushed ▸ hr)) hpopped
        (counted_pushing h hprog hprog (fun _ _ => rfl) rfl)
      · refine ⟨fun _ _ => rfl, hframe, ?_, ?_, fun _ _ => rfl, fun hdone => absurd hdone hnot⟩
        · intro t' _
          rw [hpushed]
        · intro t' _
          rw [hpopped]
      · show itemsOf c'.pushed t ++ (s.prog t).rest = task t
        rw [hpushed, hprog]
        exact hsent
      · show InPush (c'.pc t) (s.prog t)
        rw [hprog]
        exact hpc'
    rcases hans with hans | hans
    · simp only [hans]
      exact hkeeps
    · simp only [hans]
      exact hkeeps
  -- The value was accepted, and the next one is up.
  · simp only [hans]
    refine h.by_producer hdisj ht ?_ hinv ⟨?_, ?_⟩ ?_ hpopped
      (counted_pushing h hprog (update_self _ _ _) (fun t' ht' => update_of_ne ht' _ _) rfl)
    · refine ⟨fun t' ht' => update_of_ne ht' _ _, hframe, ?_, ?_, fun _ _ => rfl,
        fun hdone => absurd hdone hnot⟩
      · intro t' ht'
        show itemsOf c'.pushed t' = _
        rw [hpushed, itemsOf_append_ne _ ht']
      · intro t' _
        show itemsOf c'.popped t' = _
        rw [hpopped]
    · show itemsOf c'.pushed t ++ (update s.prog t (.pushing rest) t).rest = task t
      rw [hpushed, itemsOf_append_self, update_self, List.append_assoc]
      exact hsent
    · show InPush (c'.pc t) (update s.prog t (.pushing rest) t)
      rw [hpc', update_self]
      cases rest with
      | nil => rfl
      | cons item' rest => exact trivial
    · intro r hr
      change r ∈ c'.pushed at hr
      rw [hpushed, List.mem_append, List.mem_singleton] at hr
      rcases hr with hr | rfl
      · exact .inl hr
      · exact .inr rfl

/-! ## Section 5: Steps of consumers -/

/-- A consumer moves no producer, and the tail stays where it is. -/
theorem frame_pop (hdisj : ∀ t ∈ ps, t ∉ cs) (ht : t ∈ cs)
    (hinv : Inv C s'.queue) (hprog : ∀ t', t' ≠ t → s'.prog t' = s.prog t')
    (hpc : ∀ t', t' ≠ t → s'.queue.pc t' = s.queue.pc t')
    (hpushed : s'.queue.pushed = s.queue.pushed)
    (hgot : ∀ t', t' ≠ t → itemsOf s'.queue.popped t' = itemsOf s.queue.popped t')
    (hreceived : ∀ t', t' ≠ t → s'.received t' = s.received t')
    (henq : s'.queue.queue.enqueue_pos = s.queue.queue.enqueue_pos)
    (hdeq : s.queue.queue.dequeue_pos ≤ s'.queue.queue.dequeue_pos) : Frame ps t s s' := by
  refine ⟨hprog, hpc, ?_, hgot, hreceived, ?_⟩
  · intro t' _
    rw [hpushed]
  · intro hdone
    refine ⟨?_, henq, ?_⟩
    · intro p hp
      have hne : p ≠ t := by
        rintro rfl
        exact hdisj p hp ht
      rw [hprog p hne]
      exact hdone p hp
    · -- an empty queue stays empty when nobody pushes
      intro hempty
      have hord := hinv.history.ordered
      omega

/-- A step of a consumer between its calls. -/
theorem Runs.goto_consumer (h : Runs C ps cs task s) (hdisj : ∀ t ∈ ps, t ∉ cs) (ht : t ∈ cs)
    {prog : Prog α W} (hpc : InPop ps s (s.queue.pc t) prog) : Runs C ps cs task (s.goto t prog) := by
  have hf : Frame ps t s (s.goto t prog) :=
    frame_pop hdisj ht h.queue (fun t' ht' => update_of_ne ht' _ _) (fun _ _ => rfl) rfl
      (fun _ _ => rfl) (fun _ _ => rfl) rfl (Nat.le_refl _)
  refine h.by_consumer hdisj ht hf h.queue ⟨(h.consumers t ht).got, ?_⟩ rfl (fun _ hr => .inl hr) rfl
  show InPop ps (s.goto t prog) (s.queue.pc t) (update s.prog t prog t)
  rw [update_self]
  cases prog with
  | pushing rest | popping v | load_done v => exact hpc
  | load_enqueue v => exact ⟨hpc.1, (hf.settled hpc.2).1⟩
  | load_dequeue v ep => exact ⟨hpc.1, (hf.settled hpc.2.1).1, hpc.2.2⟩
  | done => exact ⟨hpc.1, (hf.settled hpc.2.1).1, hpc.2.2⟩

/-- The producers are done if so many are counted. -/
theorem Runs.allDone (h : Runs C ps cs task s) (hcount : s.producers_done = ps.length) :
    AllDone ps s := by
  intro p hp
  -- As many are done as there are, so each one is.
  rw [h.counted, List.countP_eq_length] at hcount
  have hdone := hcount p hp
  cases hprog : s.prog p with
  | done => rfl
  | _ =>
    rw [hprog] at hdone
    cases hdone

/-- A step of a `try_pop` of the test. -/
theorem Runs.pop_step (h : Runs C ps cs task s) (hcalls : s.queue.calls < 2 ^ 63)
    (hdisj : ∀ t ∈ ps, t ∉ cs) (ht : t ∈ cs) {v : Item α W} (hprog : s.prog t = .popping v)
    (spurious : Bool) : Runs C ps cs task (s.pop_step C t v spurious) := by
  have hok := h.consumers t ht
  have hpc := hok.pc
  have hgot := hok.got
  rw [hprog] at hpc
  have hinv := h.queue.step hcalls ⟨t, .pop v, spurious⟩
  have hdeq := dequeue_pos_le h.queue hcalls ⟨t, .pop v, spurious⟩
  obtain ⟨hframe, hpushed, henq, hcases⟩ := pop_call (C := C) hpc v spurious
  unfold State.pop_step
  generalize s.queue.step C ⟨t, .pop v, spurious⟩ = c' at hframe hpushed henq hcases hinv hdeq ⊢
  rcases hcases with ⟨hans, hpopped, hpc'⟩ | ⟨hans, hpopped, hpc'⟩ | ⟨pos, x, hans, hpopped, hpc'⟩
  · simp only [hans]
    refine h.by_consumer hdisj ht (frame_pop hdisj ht hinv (fun _ _ => rfl) hframe hpushed
      (fun t' _ => by rw [hpopped]) (fun _ _ => rfl) henq hdeq) hinv ⟨?_, ?_⟩ hpushed
      (fun r hr => .inl (hpopped ▸ hr)) rfl
    · show s.received t = itemsOf c'.popped t
      rw [hpopped]
      exact hgot
    · show InPop ps _ (c'.pc t) (s.prog t)
      rw [hprog]
      exact hpc'
  · simp only [hans]
    refine h.by_consumer hdisj ht (frame_pop hdisj ht hinv (fun t' ht' => update_of_ne ht' _ _)
      hframe hpushed ?_ (fun _ _ => rfl) henq hdeq) hinv ⟨?_, ?_⟩ hpushed ?_ rfl
    · intro t' _
      show itemsOf c'.popped t' = _
      rw [hpopped]
    · show s.received t = itemsOf c'.popped t
      rw [hpopped]
      exact hgot
    · show InPop ps _ (c'.pc t) (update s.prog t (.load_done v) t)
      rw [update_self]
      exact hpc'
    · intro r hr
      change r ∈ c'.popped at hr
      rw [hpopped] at hr
      exact .inl hr
  · simp only [hans]
    refine h.by_consumer hdisj ht (frame_pop hdisj ht hinv (fun t' ht' => update_of_ne ht' _ _)
      hframe hpushed ?_ (fun t' ht' => update_of_ne ht' _ _) henq hdeq) hinv ⟨?_, ?_⟩ hpushed ?_ rfl
    · intro t' ht'
      show itemsOf c'.popped t' = _
      rw [hpopped, itemsOf_append_ne _ ht']
    · show update s.received t (s.received t ++ [x]) t = itemsOf c'.popped t
      rw [hpopped, itemsOf_append_self, update_self, hgot]
    · show InPop ps _ (c'.pc t) (update s.prog t (.popping x) t)
      rw [update_self, hpc']
      exact trivial
    · intro r hr
      change r ∈ c'.popped at hr
      rw [hpopped, List.mem_append, List.mem_singleton] at hr
      rcases hr with hr | rfl
      · exact .inl hr
      · exact .inr rfl

/-! ## Section 6: Runs of the test -/

theorem Runs.step_producer (h : Runs C ps cs task s) (hcalls : s.queue.calls < 2 ^ 63)
    (hdisj : ∀ t ∈ ps, t ∉ cs) (hnodup : ps.Nodup) (ht : t ∈ ps) (spurious : Bool) :
    Runs C ps cs task (s.step C ps.length (t, spurious)) := by
  have hpc := (h.producers t ht).pc
  cases hprog : s.prog t with
  | pushing rest =>
    cases rest with
    | nil =>
      simp only [State.step, hprog]
      exact h.finish hdisj hnodup ht hprog
    | cons item rest =>
      simp only [State.step, hprog]
      exact h.push_step hcalls hdisj ht hprog spurious
  | done =>
    simp only [State.step, hprog]
    exact h
  | _ =>
    rw [hprog] at hpc
    exact absurd hpc id

theorem Runs.step_consumer (h : Runs C ps cs task s) (hcalls : s.queue.calls < 2 ^ 63)
    (hdisj : ∀ t ∈ ps, t ∉ cs) (ht : t ∈ cs) (spurious : Bool) :
    Runs C ps cs task (s.step C ps.length (t, spurious)) := by
  have hpc := (h.consumers t ht).pc
  cases hprog : s.prog t with
  | pushing rest =>
    rw [hprog] at hpc
    exact absurd hpc id
  | popping v =>
    simp only [State.step, hprog]
    exact h.pop_step hcalls hdisj ht hprog spurious
  | load_done v =>
    rw [hprog] at hpc
    have hidle : s.queue.pc t = .idle := hpc
    simp only [State.step, hprog]
    -- All counted: the consumer goes on to compare the two positions.
    apply h.goto_consumer hdisj ht
    split
    · next hcount => exact ⟨hidle, h.allDone hcount⟩
    · show Pops (s.queue.pc t)
      rw [hidle]
      exact trivial
  | load_enqueue v =>
    rw [hprog] at hpc
    simp only [State.step, hprog]
    apply h.goto_consumer hdisj ht
    exact ⟨hpc.1, hpc.2, rfl⟩
  | load_dequeue v ep =>
    rw [hprog] at hpc
    obtain ⟨hidle, hdone, hep⟩ := hpc
    simp only [State.step, hprog]
    apply h.goto_consumer hdisj ht
    split
    · next hempty =>
      have heq : ep = s.queue.queue.dequeue_pos := eq_of_beq hempty
      exact ⟨hidle, hdone, by rw [← heq, hep]⟩
    · show Pops (s.queue.pc t)
      rw [hidle]
      exact trivial
  | done =>
    simp only [State.step, hprog]
    exact h

theorem Runs.step (h : Runs C ps cs task s) (hcalls : s.queue.calls < 2 ^ 63)
    (hdisj : ∀ t ∈ ps, t ∉ cs) (hnodup : ps.Nodup) (turn : ι × Bool) :
    Runs C ps cs task (s.step C ps.length turn) := by
  obtain ⟨t, spurious⟩ := turn
  by_cases hps : t ∈ ps
  · exact h.step_producer hcalls hdisj hnodup hps spurious
  · by_cases hcs : t ∈ cs
    · exact h.step_consumer hcalls hdisj hcs spurious
    · obtain ⟨hdone, _⟩ := h.others t hps hcs
      simp only [State.step, hdone]
      exact h

theorem calls_le (C : Capacity) (n : Nat) (s : State ι α W) (turn : ι × Bool) :
    s.queue.calls ≤ (s.step C n turn).queue.calls := by
  have hcall : ∀ call, s.queue.calls ≤ (s.queue.step C ⟨turn.1, call, turn.2⟩).calls :=
    fun call => (step_effect s.queue ⟨turn.1, call, turn.2⟩).calls
  cases hprog : s.prog turn.1 with
  | pushing rest =>
    cases rest with
    | nil =>
      simp only [State.step, hprog]
      exact Nat.le_refl _
    | cons item rest =>
      simp only [State.step, hprog, State.push_step]
      split
      · exact hcall _
      · exact hcall _
  | popping v =>
    simp only [State.step, hprog, State.pop_step]
    split
    · exact hcall _
    · exact hcall _
    · exact hcall _
  | load_done v | load_enqueue v | load_dequeue v ep | done =>
    simp only [State.step, hprog]
    exact Nat.le_refl _

theorem runs_launch (mem : Nat → Item α W) (v : Item α W) (hdisj : ∀ t ∈ ps, t ∉ cs) :
    Runs C ps cs task (launch mem ps cs task v) := by
  have hproducer : ∀ t ∈ ps, (launch mem ps cs task v).prog t = .pushing (task t) :=
    fun t ht => if_pos ht
  have hconsumer : ∀ t ∈ cs, (launch mem ps cs task v).prog t = .popping v := by
    intro t ht
    have hps : t ∉ ps := fun hps => hdisj t hps ht
    exact (if_neg hps).trans (if_pos ht)
  refine ⟨inv_start mem, ?_, ?_, ?_, ?_, ?_, ?_⟩
  · intro t ht
    refine ⟨?_, ?_⟩
    · rw [hproducer t ht]
      rfl
    · rw [hproducer t ht]
      cases task t with
      | nil => rfl
      | cons item rest => exact trivial
  · intro t ht
    refine ⟨rfl, ?_⟩
    rw [hconsumer t ht]
    exact trivial
  · intro t hps hcs
    exact ⟨(if_neg hps).trans (if_neg hcs), rfl⟩
  · intro r hr
    cases hr
  · intro r hr
    cases hr
  -- No producer has counted itself.
  · symm
    show ps.countP _ = 0
    rw [List.countP_eq_zero]
    intro t ht
    rw [hproducer t ht]
    exact Bool.false_ne_true

theorem runs_run (C : Capacity) (task : ι → List (Item α W)) (mem : Nat → Item α W) (v : Item α W)
    (hdisj : ∀ t ∈ ps, t ∉ cs) (hnodup : ps.Nodup) (schedule : List (ι × Bool))
    (hcalls : ((launch mem ps cs task v).run C ps.length schedule).queue.calls < 2 ^ 63) :
    Runs C ps cs task ((launch mem ps cs task v).run C ps.length schedule) :=
  foldl_keeps_below (calls_le C ps.length) (fun _ turn hlt h => h.step hlt hdisj hnodup turn)
    schedule (runs_launch mem v hdisj) hcalls

/-! ## Section 7: What the consumers have -/

/-- A list, sorted into the parts of its keys. -/
theorem flatMap_filter_perm {β κ : Type} [DecidableEq κ] (key : β → κ) {ks : List κ} :
    ks.Nodup → ∀ {xs : List β}, (∀ x ∈ xs, key x ∈ ks) →
      (ks.flatMap fun k => xs.filter fun x => key x = k).Perm xs := by
  -- Induction on the keys: the part of the first is split off.
  induction ks with
  | nil =>
    intro _ xs hxs
    cases xs with
    | nil => exact .nil
    | cons x xs => exact absurd (hxs x List.mem_cons_self) List.not_mem_nil
  | cons k ks ih =>
    intro hnodup xs hxs
    obtain ⟨hk, hks⟩ := List.nodup_cons.mp hnodup
    have hrest : (ks.flatMap fun k' => xs.filter fun x => key x = k') =
        ks.flatMap fun k' => (xs.filter fun x => !decide (key x = k)).filter fun x => key x = k' := by
      apply List.flatMap_congr
      intro k' hk'
      rw [List.filter_filter]
      apply List.filter_congr
      intro x _
      by_cases hx : key x = k'
      · have hne : k' ≠ k := by
          rintro rfl
          exact hk hk'
        simp [hx, hne]
      · simp [hx]
    have hmem : ∀ x ∈ xs.filter fun x => !decide (key x = k), key x ∈ ks := by
      intro x hx
      obtain ⟨hx, hne⟩ := List.mem_filter.mp hx
      rcases List.mem_cons.mp (hxs x hx) with heq | hin
      · simp [heq] at hne
      · exact hin
    rw [List.flatMap_cons, hrest]
    exact ((ih hks hmem).append_left _).trans (List.filter_append_perm _ xs)

theorem flatMap_itemsOf_perm {records : List (Record ι α W)} {ts : List ι} (hnodup : ts.Nodup)
    (hall : ∀ r ∈ records, r.thread ∈ ts) :
    (ts.flatMap (itemsOf records)).Perm (records.map Record.item) := by
  have hparts := (flatMap_filter_perm Record.thread hnodup hall).map Record.item
  rw [List.map_flatMap] at hparts
  exact hparts

omit [DecidableEq ι] in
/-- Finished calls at the same positions have the same items. -/
theorem map_item_perm {items : List (Item α W)} {xs ys : List (Record ι α W)}
    (hx : ∀ r ∈ xs, items[r.pos]? = some r.item) (hy : ∀ r ∈ ys, items[r.pos]? = some r.item)
    (hpos : (xs.map Record.pos).Perm (ys.map Record.pos)) :
    (xs.map Record.item).Perm (ys.map Record.item) := by
  have hsome : ∀ {zs : List (Record ι α W)}, (∀ r ∈ zs, items[r.pos]? = some r.item) →
      (zs.map Record.item).map some = (zs.map Record.pos).map fun p => items[p]? := by
    intro zs hzs
    rw [List.map_map, List.map_map]
    exact List.map_congr_left fun r hr => (hzs r hr).symm
  have hperm : ((xs.map Record.item).map some).Perm ((ys.map Record.item).map some) := by
    rw [hsome hx, hsome hy]
    exact hpos.map _
  exact (List.map_perm_map_iff (Option.some_injective _)).mp hperm

omit [DecidableEq ι] in
/-- With nothing left to claim and nobody in the middle of a read, the finished
    pops are those of the finished pushes. -/
theorem popped_perm_pushed (h : Inv C c) (hempty : c.queue.dequeue_pos = c.queue.enqueue_pos)
    (hidle : ∀ t, c.pc t = .idle) : (c.popped.map Record.item).Perm (c.pushed.map Record.item) := by
  -- Every position below the head has been read out and every one written.
  have hdelivered : ∀ p, p ∈ c.delivered ↔ p < c.queue.dequeue_pos := by
    intro p
    constructor
    · exact h.lt_of_delivered
    · intro hlt
      rcases h.claims.consumed p hlt with hmem | ⟨t, hreads⟩
      · exact hmem
      · rw [hidle t] at hreads
        cases hreads
  have hpublished : ∀ p, p ∈ c.published ↔ p < c.queue.dequeue_pos := by
    intro p
    constructor
    · intro hp
      rw [hempty]
      exact h.lt_of_published hp
    · exact h.history.published p
  apply map_item_perm (fun r hr => (h.history.popped_item r hr).1) h.history.pushed_item
  apply (List.perm_ext_iff_of_nodup h.history.popped_nodup h.history.pushed_nodup).mpr
  intro p
  exact (hdelivered p).trans (hpublished p).symm

/-- When all threads have returned, the consumers have what the producers
    pushed, each value once. -/
theorem Runs.drained (h : Runs C ps cs task s) (hps : ps.Nodup) (hcs : cs.Nodup) (hne : cs ≠ [])
    (hdone : ∀ t, s.prog t = .done) : (cs.flatMap s.received).Perm (ps.flatMap task) := by
  have hsent : ps.flatMap task = ps.flatMap (itemsOf s.queue.pushed) := by
    apply List.flatMap_congr
    intro t ht
    have hsent := (h.producers t ht).sent
    rw [hdone t] at hsent
    rw [← hsent]
    exact List.append_nil _
  have hgot : cs.flatMap s.received = cs.flatMap (itemsOf s.queue.popped) := by
    apply List.flatMap_congr
    intro t ht
    exact (h.consumers t ht).got
  have hidle : ∀ t, s.queue.pc t = .idle := by
    intro t
    by_cases hp : t ∈ ps
    · have hpc := (h.producers t hp).pc
      rw [hdone t] at hpc
      exact hpc
    · by_cases hc : t ∈ cs
      · have hpc := (h.consumers t hc).pc
        rw [hdone t] at hpc
        exact hpc.1
      · exact (h.others t hp hc).2
  -- The last thing a consumer saw before it returned.
  have hempty : s.queue.queue.dequeue_pos = s.queue.queue.enqueue_pos := by
    obtain ⟨t, ht⟩ := List.exists_mem_of_ne_nil cs hne
    have hpc := (h.consumers t ht).pc
    rw [hdone t] at hpc
    exact hpc.2.2
  rw [hsent, hgot]
  calc (cs.flatMap (itemsOf s.queue.popped)).Perm (s.queue.popped.map Record.item) :=
        flatMap_itemsOf_perm hcs h.popped
    _ |>.Perm (s.queue.pushed.map Record.item) := popped_perm_pushed h.queue hempty hidle
    _ |>.Perm (ps.flatMap (itemsOf s.queue.pushed)) := (flatMap_itemsOf_perm hps h.pushed).symm

/-! ## Section 8: The test -/

/-- Producers on the left, consumers on the right. -/
abbrev Thread := Nat ⊕ Nat

def producers (n_producers : Nat) : List Thread := (List.range n_producers).map .inl

def consumers (n_consumers : Nat) : List Thread := (List.range n_consumers).map .inr

/-- The `uint64_t` of a payload that is copied as one word. -/
def value (item : Item UInt64 1) : UInt64 := item.get ⟨0, Nat.zero_lt_one⟩

/-- What a producer pushes: its own range of values. -/
def values (items_per_producer : Nat) : Thread → List (Item UInt64 1)
  | .inl p =>
    let base := UInt64.ofNat p * UInt64.ofNat items_per_producer
    (List.range items_per_producer).map fun i => .replicate 1 (base + UInt64.ofNat i)
  | .inr _ => []

/-- The threads, before the first step of any of them. -/
def threads (mem : Nat → Item UInt64 1) (v : Item UInt64 1)
    (n_producers n_consumers items_per_producer : Nat) : State Thread UInt64 1 :=
  launch mem (producers n_producers) (consumers n_consumers) (values items_per_producer) v

/-- All threads can be joined. -/
def joinable (n_producers n_consumers : Nat) (s : State Thread UInt64 1) : Bool :=
  (producers n_producers ++ consumers n_consumers).all fun t => (s.prog t).isDone

/-- The received vectors merged and sorted. -/
def all (n_consumers : Nat) (received : Thread → List (Item UInt64 1)) : List UInt64 :=
  (((consumers n_consumers).flatMap received).map value).mergeSort fun a b => a ≤ b

/-- The three checks at the end of `test_npmc`. -/
def checks (total : Nat) (all : List UInt64) : Bool :=
  all.length == total &&
  ((List.range (all.length - 1)).all fun i => all[i]? != all[i + 1]?) &&
  (List.range total).all fun i => decide (i < all.length) && all[i]? == some (UInt64.ofNat i)

theorem nodup_producers (n : Nat) : (producers n).Nodup :=
  List.nodup_range.map Sum.inl_injective

theorem nodup_consumers (n : Nat) : (consumers n).Nodup :=
  List.nodup_range.map Sum.inr_injective

theorem producers_disjoint (np nc : Nat) : ∀ t ∈ producers np, t ∉ consumers nc := by
  intro t hp hc
  obtain ⟨p, _, rfl⟩ := List.mem_map.mp hp
  obtain ⟨c, _, heq⟩ := List.mem_map.mp hc
  cases heq

/-- The producers' ranges lie side by side. -/
theorem values_eq_range (np items : Nat) :
    (((producers np).flatMap (values items)).map value) =
      (List.range (np * items)).map UInt64.ofNat := by
  induction np with
  | zero => simp [producers]
  | succ np ih =>
    have hsplit : producers (np + 1) = producers np ++ [.inl np] := by
      simp [producers, List.range_succ]
    rw [hsplit, List.flatMap_append, List.map_append, ih, Nat.succ_mul, List.range_add,
      List.map_append]
    simp only [List.flatMap_singleton, values, List.map_map, UInt64.ofNat_add, UInt64.ofNat_mul,
      Function.comp_def]
    rfl

theorem ofNat_lt {i j total : Nat} (htotal : total < 2 ^ 31) (hj : j < total) (hlt : i < j) :
    UInt64.ofNat i < UInt64.ofNat j := by
  have hi : i < UInt64.size := by
    show i < 2 ^ 64
    omega
  have hj : j < UInt64.size := by
    show j < 2 ^ 64
    omega
  rw [UInt64.ofNat_lt_iff hi, UInt64.toNat_ofNat_of_lt' hj]
  exact hlt

/-- The checks succeed on the values of all producers in order. -/
theorem checks_range {total : Nat} (htotal : total < 2 ^ 31) :
    checks total ((List.range total).map UInt64.ofNat) = true := by
  have hat : ∀ i, i < total →
      ((List.range total).map UInt64.ofNat)[i]? = some (UInt64.ofNat i) := by
    intro i hi
    simp [hi]
  unfold checks
  rw [List.length_map, List.length_range, Bool.and_eq_true, Bool.and_eq_true]
  refine ⟨⟨beq_self_eq_true _, ?_⟩, ?_⟩
  · rw [List.all_eq_true]
    intro i hi
    have hi : i + 1 < total := by
      have := List.mem_range.mp hi
      omega
    rw [hat i (by omega), hat (i + 1) hi]
    have hne := ofNat_lt htotal hi (Nat.lt_succ_self i)
    simp only [bne_iff_ne, ne_eq, Option.some.injEq]
    intro heq
    rw [heq] at hne
    exact absurd hne (UInt64.lt_irrefl _)
  · rw [List.all_eq_true]
    intro i hi
    have hi := List.mem_range.mp hi
    rw [hat i hi]
    simp [hi]

/-- Sorting gives the values in order, whatever the interleaving was. -/
theorem mergeSort_eq_range {total : Nat} (htotal : total < 2 ^ 31) {xs : List UInt64}
    (h : xs.Perm ((List.range total).map UInt64.ofNat)) :
    (xs.mergeSort fun a b => a ≤ b) = (List.range total).map UInt64.ofNat := by
  have hsorted : ((List.range total).map UInt64.ofNat).Pairwise fun a b => decide (a ≤ b) = true := by
    apply List.pairwise_map.mpr
    apply List.Pairwise.imp_of_mem _ List.pairwise_lt_range
    intro i j _ hj hlt
    exact decide_eq_true (UInt64.le_of_lt (ofNat_lt htotal (List.mem_range.mp hj) hlt))
  apply List.Perm.eq_of_pairwise _ _ hsorted ((List.mergeSort_perm _ _).trans h)
  · intro a b _ _ hab hba
    exact UInt64.le_antisymm (of_decide_eq_true hab) (of_decide_eq_true hba)
  · apply List.pairwise_mergeSort
    · intro a b c hab hbc
      exact decide_eq_true (UInt64.le_trans (of_decide_eq_true hab) (of_decide_eq_true hbc))
    · intro a b
      rcases UInt64.le_total a b with hle | hle
      · simp [hle]
      · simp [hle]

theorem Runs.joined (h : Runs C ps cs task s) (hall : (ps ++ cs).all fun t => (s.prog t).isDone) :
    ∀ t, s.prog t = .done := by
  intro t
  by_cases ht : t ∈ ps ++ cs
  · have hdone := List.all_eq_true.mp hall t ht
    cases hprog : s.prog t with
    | done => rfl
    | _ =>
      rw [hprog] at hdone
      cases hdone
  · rw [List.mem_append, not_or] at ht
    exact (h.others t ht.1 ht.2).1

/-- Whatever the interleaving of the producers and the consumers, and however
    often an exchange fails: when the threads have been joined, the three checks
    of the test succeed. -/
theorem test_npmc_passes (C : Capacity) (mem : Nat → Item UInt64 1) (v : Item UInt64 1)
    (n_producers n_consumers items_per_producer : Nat) (schedule : List (Thread × Bool))
    (hconsumers : 0 < n_consumers) (htotal : n_producers * items_per_producer < 2 ^ 31)
    (hcalls : ((threads mem v n_producers n_consumers items_per_producer).run C n_producers
      schedule).queue.calls < 2 ^ 63)
    (hjoin : joinable n_producers n_consumers
      ((threads mem v n_producers n_consumers items_per_producer).run C n_producers schedule)) :
    checks (n_producers * items_per_producer) (all n_consumers
      ((threads mem v n_producers n_consumers items_per_producer).run C n_producers
        schedule).received) = true := by
  have hlength : n_producers = (producers n_producers).length := by simp [producers]
  have hruns : Runs C (producers n_producers) (consumers n_consumers) (values items_per_producer)
      ((threads mem v n_producers n_consumers items_per_producer).run C n_producers schedule) := by
    have hrun := runs_run C (values items_per_producer) mem v
      (producers_disjoint n_producers n_consumers) (nodup_producers n_producers) schedule
    rw [← hlength] at hrun
    exact hrun hcalls
  have hne : consumers n_consumers ≠ [] := by
    intro hnil
    have hlen := congrArg List.length hnil
    simp [consumers] at hlen
    omega
  -- Whoever received a value, the merged values are those of the producers.
  have hperm := (hruns.drained (nodup_producers _) (nodup_consumers _) hne
    (hruns.joined hjoin)).map value
  rw [values_eq_range] at hperm
  unfold all
  rw [mergeSort_eq_range htotal hperm]
  exact checks_range htotal

/-- One producer pushes two values while two consumers pop. -/
def twoConsumers : List (Thread × Bool) :=
  List.replicate 12 (.inl 0, false) ++ List.replicate 11 (.inr 0, false) ++
    List.replicate 17 (.inr 1, false) ++ List.replicate 10 (.inr 0, false)

theorem test_npmc_two_consumers :
    joinable 1 2 ((threads (fun _ => .replicate 1 0) (.replicate 1 0) 1 2 2).run twoSlots 1
      twoConsumers) = true ∧
    checks 2 (all 2 ((threads (fun _ => .replicate 1 0) (.replicate 1 0) 1 2 2).run twoSlots 1
      twoConsumers).received) = true :=
  ⟨by decide +kernel, test_npmc_passes twoSlots _ _ 1 2 2 twoConsumers (by decide) (by decide)
    (by decide +kernel) (by decide +kernel)⟩

end Stress

end Mpmc

end OptionsEngine
