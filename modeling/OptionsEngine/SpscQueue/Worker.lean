import OptionsEngine.SpscQueue.Linear

/-! # Threads that work off a queue

    The background threads of the engine share one shape: while a flag is set,
    pop items off a queue and handle them; once the flag is cleared, drain what
    is left; `stop` clears the flag and joins the thread.  They differ in what
    they do with an item, and in how many items they take before they look at
    the flag again.

    The thread that pushes, the working thread and the caller of `stop` are
    cut into their atomic steps and taken in any order.

    * `Inv`: what every reachable configuration keeps.
    * `Inv.results`: what was handled is what was accepted, in order, and the
      state is the one it leads to.
    * `handled_before_stop`: when `stop` has returned, everything accepted
      before it was called has been handled.
    * `finishes`: once the flag is cleared, the thread comes to its end by
      itself. -/

namespace OptionsEngine

open Ring Loop

namespace Worker

/-! ## Section 1: Model -/

/-- How an item lies in memory, word by word. -/
structure Layout (T α : Type) (W : Nat) where
  words : T → Item α W
  item : Item α W → T
  item_words : ∀ x, item (words x) = x

/-- An item that is copied as one word. -/
def oneWord (T : Type) : Layout T T 1 where
  words := fun x => .replicate 1 x
  item := fun v => v.get ⟨0, Nat.zero_lt_one⟩
  item_words := fun _ => rfl

/-- Before and after the flag was seen cleared. -/
inductive Phase where
  | polling
  | draining
  deriving DecidableEq

/-- What a thread does with an item, and how many items it takes at most
    between two looks at the flag, or in all while it drains. -/
structure Program (T σ : Type) where
  handle : Phase → σ → T → σ
  limit : Phase → Option Nat

/-- Where the thread stands; `count` items were taken since it last looked at
    the flag. -/
inductive Pc where
  /-- About to load the flag. -/
  | test
  | popping (phase : Phase) (count : Nat)
  /-- Has an item in its local variable. -/
  | handling (phase : Phase) (count : Nat)
  | done
  deriving DecidableEq

/-- Where a loop is left to. -/
def Phase.exit : Phase → Pc
  | .polling => .test
  | .draining => .done

/-- The thread has seen the flag cleared. -/
def Pc.Drains : Pc → Prop
  | .test | .popping .polling _ | .handling .polling _ => False
  | .popping .draining _ | .handling .draining _ | .done => True

/-- Where the caller of `stop` stands. -/
inductive StopPc where
  | idle
  /-- Has cleared the flag and waits for the thread. -/
  | joining
  | returned
  deriving DecidableEq

/-- The queue with the `try_push` and `try_pop` in progress, the two threads,
    and what was handled in each phase. -/
structure Config (T σ α : Type) (W : Nat) where
  queue : Spsc.Config α W
  state : σ
  running : Bool
  pc : Pc
  /-- The local variable of the loop. -/
  out : Item α W
  stop : StopPc
  polled : List T
  drained : List T

/-- Whose turn it is.  A thread that begins a push begins it with `x`. -/
inductive Turn (T : Type) where
  | push (x : T)
  | work
  | stop

variable {T σ α : Type} {W : Nat}

/-- The loop has taken as many items as it may. -/
def Program.Reached (P : Program T σ) (phase : Phase) (count : Nat) : Prop :=
  match P.limit phase with
  | none => False
  | some n => n ≤ count

instance (P : Program T σ) (phase : Phase) (count : Nat) : Decidable (P.Reached phase count) := by
  unfold Program.Reached
  split <;> infer_instance

namespace Config

variable (P : Program T σ) (L : Layout T α W) (C : Capacity)

/-- The thread has been started and is at the head of its loop. -/
def start (mem : Nat → Item α W) (out : Item α W) (state : σ) : Config T σ α W :=
  ⟨.start mem, state, true, .test, out, .idle, [], []⟩

/-- One step of `try_pop`, and where to go on if it returns. -/
def pop_step (c : Config T σ α W) (phase : Phase) (count : Nat) : Config T σ α W :=
  let queue := c.queue.consumer_step C c.out
  match Spsc.returned c.queue queue with
  | some (.pop none) => { c with queue := queue, pc := phase.exit }
  | some (.pop (some out)) => { c with queue := queue, out := out, pc := .handling phase count }
  | _ => { c with queue := queue }

/-- What was popped is handled. -/
def handle_step (c : Config T σ α W) (phase : Phase) (count : Nat) : Config T σ α W :=
  let x := L.item c.out
  { c with
    state := P.handle phase c.state x
    polled := if phase = .polling then c.polled ++ [x] else c.polled
    drained := if phase = .draining then c.drained ++ [x] else c.drained
    pc := .popping phase (count + 1) }

/-- One step of the loop. -/
def work_step (c : Config T σ α W) : Config T σ α W :=
  match c.pc with
  | .test => { c with pc := .popping (if c.running then .polling else .draining) 0 }
  | .popping phase count =>
    if P.Reached phase count then { c with pc := phase.exit } else c.pop_step C phase count
  | .handling phase count => c.handle_step P L phase count
  | .done => c

/-- One step of `stop`; the join waits for the thread. -/
def stop_step (c : Config T σ α W) : Config T σ α W :=
  match c.stop with
  | .idle => { c with running := false, stop := .joining }
  | .joining => if c.pc = .done then { c with stop := .returned } else c
  | .returned => c

def step (c : Config T σ α W) : Turn T → Config T σ α W
  | .push x => { c with queue := c.queue.producer_step C (L.words x) }
  | .work => c.work_step P L C
  | .stop => c.stop_step

def run (c : Config T σ α W) (schedule : List (Turn T)) : Config T σ α W :=
  schedule.foldl (step P L C) c

/-- The items whose push has returned true, in that order. -/
def accepted (c : Config T σ α W) : List T := c.queue.pushed.map L.item

/-- Everything that was handled. -/
def handled (c : Config T σ α W) : List T := c.polled ++ c.drained

/-- What was popped and is not yet handled. -/
def hand (c : Config T σ α W) : List T :=
  match c.pc with
  | .handling _ _ => [L.item c.out]
  | _ => []

end Config

open Config

/-! ## Section 2: What a step can do -/

/-- How far a `try_pop` still has to go, if it goes all the way. -/
def left : Spsc.ConsumerPc α W → Nat
  | .idle => W + 3
  | .loaded _ _ => W + 2
  | .reading _ _ i => W + 1 - i

theorem left_le (k : Spsc.ConsumerPc α W) : left k ≤ W + 3 := by
  cases k with
  | idle => exact Nat.le_refl _
  | loaded out rp => exact Nat.le_succ _
  | reading out rp i =>
    simp only [left]
    omega

/-- A step of `try_pop` that does not return gets further. -/
theorem left_consumer_step {C : Capacity} {q : Spsc.Config α W} {out : Item α W}
    (h : (q.consumer_step C out).returns = q.returns) :
    left (q.consumer_step C out).consumer < left q.consumer := by
  unfold Spsc.Config.consumer_step at h ⊢
  cases hk : q.consumer with
  | idle => simp [left]
  | loaded x rp =>
    simp only [hk] at h ⊢
    split at h
    · simp at h
    · next hne =>
      rw [if_neg hne]
      simp [left]
  | reading x rp i =>
    simp only [hk] at h ⊢
    split at h
    · next hi =>
      rw [dif_pos hi]
      simp only [left]
      omega
    · simp at h

variable (P : Program T σ) (L : Layout T α W) (C : Capacity)

/-- What a step of the loop can do if `items` are in the ring. -/
inductive Work (c : Config T σ α W) (items : List (Item α W)) :
    Config T σ α W → List (Item α W) → Prop where
  | look (hpc : c.pc = .test) :
      Work c items { c with pc := .popping (if c.running then .polling else .draining) 0 } items
  | limit {phase : Phase} {count : Nat} (hpc : c.pc = .popping phase count)
      (hreached : P.Reached phase count) : Work c items { c with pc := phase.exit } items
  /-- A `try_pop` that is not over. -/
  | quiet {phase : Phase} {count : Nat} {q : Spsc.Config α W} (hpc : c.pc = .popping phase count)
      (hq : Spsc.Inv C q items) (hpopped : q.popped = c.queue.popped)
      (hpushed : q.pushed = c.queue.pushed) (hleft : left q.consumer < left c.queue.consumer) :
      Work c items { c with queue := q } items
  | empty {phase : Phase} {count : Nat} {q : Spsc.Config α W} (hpc : c.pc = .popping phase count)
      (hnil : items = []) (hq : Spsc.Inv C q []) (hpopped : q.popped = c.queue.popped)
      (hpushed : q.pushed = c.queue.pushed) :
      Work c items { c with queue := q, pc := phase.exit } []
  | taken {phase : Phase} {count : Nat} {q : Spsc.Config α W} {x : Item α W}
      {rest : List (Item α W)} (hpc : c.pc = .popping phase count)
      (hreached : ¬ P.Reached phase count) (hcons : items = x :: rest) (hq : Spsc.Inv C q rest)
      (hpopped : q.popped = c.queue.popped ++ [x]) (hpushed : q.pushed = c.queue.pushed) :
      Work c items { c with queue := q, out := x, pc := .handling phase count } rest
  | handled {phase : Phase} {count : Nat} (hpc : c.pc = .handling phase count) :
      Work c items (c.handle_step P L phase count) items
  | done (hpc : c.pc = .done) : Work c items c items

variable {P L C} {c c' : Config T σ α W} {items items' : List (Item α W)}

theorem work_pop {phase : Phase} {count : Nat} (h : Spsc.Inv C c.queue items)
    (hpc : c.pc = .popping phase count) (hreached : ¬ P.Reached phase count) :
    ∃ items', Work P L C c items (c.pop_step C phase count) items' := by
  unfold Config.pop_step
  rcases h.consumer_cases c.out with ⟨heq, hq⟩ | ⟨heq, hnil, hq⟩ | ⟨x, rest, heq, hcons, hq⟩
  · simp only [Spsc.returned_none heq]
    refine ⟨items, .quiet hpc hq ?_ ?_ (left_consumer_step heq)⟩
    · simp [Spsc.Config.popped, heq]
    · simp [Spsc.Config.pushed, heq]
  · simp only [Spsc.returned_some heq]
    refine ⟨[], .empty hpc hnil hq ?_ ?_⟩
    · simp [Spsc.Config.popped, heq]
    · simp [Spsc.Config.pushed, heq]
  · simp only [Spsc.returned_some heq]
    refine ⟨rest, .taken hpc hreached hcons hq ?_ ?_⟩
    · simp [Spsc.Config.popped, heq]
    · simp [Spsc.Config.pushed, heq]

theorem work_cases (h : Spsc.Inv C c.queue items) :
    ∃ items', Work P L C c items (c.work_step P L C) items' := by
  unfold Config.work_step
  cases hpc : c.pc with
  | test => exact ⟨items, .look hpc⟩
  | popping phase count =>
    by_cases hreached : P.Reached phase count
    · simp only [if_pos hreached]
      exact ⟨items, .limit hpc hreached⟩
    · simp only [if_neg hreached]
      exact work_pop h hpc hreached
  | handling phase count => exact ⟨items, .handled hpc⟩
  | done => exact ⟨items, .done hpc⟩

/-! ## Section 3: The invariant -/

/-- The state that handling `polled` and then `drained` leads to. -/
def outcome (P : Program T σ) (init : σ) (polled drained : List T) : σ :=
  drained.foldl (P.handle .draining) (polled.foldl (P.handle .polling) init)

variable (P L C) in
structure Inv (init : σ) (c : Config T σ α W) (items : List (Item α W)) : Prop where
  queue : Spsc.Inv C c.queue items
  taken : c.handled ++ c.hand L = c.queue.popped.map L.item
  state : c.state = outcome P init c.polled c.drained
  polls : ¬ c.pc.Drains → c.drained = []
  running : c.running = true ↔ c.stop = .idle
  leaving : c.pc.Drains → c.running = false
  joined : c.stop = .returned → c.pc = .done

variable {init : σ}

theorem inv_start (mem : Nat → Item α W) (out : Item α W) (init : σ) :
    Inv P L C init (start mem out init) [] where
  queue := Spsc.inv_start mem
  taken := rfl
  state := rfl
  polls := fun _ => rfl
  running := by simp [start]
  leaving := fun h => absurd h (by simp [start, Pc.Drains])
  joined := fun h => by simp [start] at h

theorem Phase.exit_drains (phase : Phase) : phase.exit.Drains ↔ phase = .draining := by
  cases phase <;> simp [Phase.exit, Pc.Drains]

theorem drains_popping (phase : Phase) (count : Nat) :
    (Pc.popping phase count).Drains ↔ phase = .draining := by
  cases phase <;> simp [Pc.Drains]

theorem drains_handling (phase : Phase) (count : Nat) :
    (Pc.handling phase count).Drains ↔ phase = .draining := by
  cases phase <;> simp [Pc.Drains]

/-- Nothing is in the hand of a thread that is not about to handle it. -/
theorem hand_nil (h : ∀ phase count, c.pc ≠ .handling phase count) : c.hand L = [] := by
  unfold Config.hand
  split
  · next phase count hpc => exact absurd hpc (h phase count)
  · rfl

/-- The thread moves on within its loop, perhaps with an item it has popped. -/
theorem Inv.move {q : Spsc.Config α W} {x : Item α W} {pc : Pc} (h : Inv P L C init c items)
    (hq : Spsc.Inv C q items')
    (htaken : c.handled ++ { c with queue := q, out := x, pc := pc }.hand L = q.popped.map L.item)
    (hsame : pc.Drains ↔ c.pc.Drains) (hlive : c.pc ≠ .done) :
    Inv P L C init { c with queue := q, out := x, pc := pc } items' where
  queue := hq
  taken := htaken
  state := h.state
  polls := fun hd => h.polls (mt hsame.mpr hd)
  running := h.running
  leaving := fun hd => h.leaving (hsame.mp hd)
  joined := fun hret => absurd (h.joined hret) hlive

theorem Inv.work (h : Inv P L C init c items) (hwork : Work P L C c items c' items') :
    Inv P L C init c' items' := by
  have htaken := h.taken
  cases hwork with
  | look hpc =>
    rw [hand_nil (by simp [hpc])] at htaken
    refine ⟨h.queue, htaken, h.state, ?_, h.running, ?_, ?_⟩
    · intro _
      exact h.polls (by simp [hpc, Pc.Drains])
    -- Only a cleared flag leads to the drain loop.
    · intro hdrains
      cases hrun : c.running with
      | false => rfl
      | true => simp [hrun, Pc.Drains] at hdrains
    · intro hret
      have hdone := h.joined hret
      rw [hpc] at hdone
      cases hdone
  | @limit phase count hpc hreached =>
    rw [hand_nil (by simp [hpc])] at htaken
    refine h.move h.queue ?_ ?_ (by simp [hpc])
    · rw [← htaken]
      cases phase <;> rfl
    · rw [hpc, Phase.exit_drains, drains_popping]
  | quiet hpc hq hpopped hpushed hleft =>
    exact ⟨hq, by rw [hpopped]; exact h.taken, h.state, h.polls, h.running, h.leaving, h.joined⟩
  | @empty phase count q hpc hnil hq hpopped hpushed =>
    rw [hand_nil (by simp [hpc])] at htaken
    refine h.move hq ?_ ?_ (by simp [hpc])
    · rw [hpopped, ← htaken]
      cases phase <;> rfl
    · rw [hpc, Phase.exit_drains, drains_popping]
  | @taken phase count q x rest hpc hreached hcons hq hpopped hpushed =>
    rw [hand_nil (by simp [hpc]), List.append_nil] at htaken
    refine h.move hq ?_ ?_ (by simp [hpc])
    · rw [hpopped, List.map_append, ← htaken]
      rfl
    · rw [hpc, drains_handling, drains_popping]
  | @handled phase count hpc =>
    have hhand : c.hand L = [L.item c.out] := by simp [Config.hand, hpc]
    rw [hhand] at htaken
    have hsame : (Pc.popping phase (count + 1)).Drains ↔ c.pc.Drains := by
      rw [hpc, drains_handling, drains_popping]
    have hlive : c.pc ≠ .done := by simp [hpc]
    have hstate := h.state
    cases phase with
    | polling =>
      -- nothing has been drained yet
      have hnone : c.drained = [] := h.polls (by simp [hpc, Pc.Drains])
      refine ⟨h.queue, ?_, ?_, fun hd => h.polls (mt hsame.mpr hd), h.running,
        fun hd => h.leaving (hsame.mp hd), fun hret => absurd (h.joined hret) hlive⟩
      · simpa [Config.handle_step, Config.handled, Config.hand, hnone] using htaken
      · simp [Config.handle_step, outcome, hnone, hstate]
    | draining =>
      refine ⟨h.queue, ?_, ?_, fun hd => absurd trivial hd, h.running,
        fun hd => h.leaving (hsame.mp hd), fun hret => absurd (h.joined hret) hlive⟩
      · simpa [Config.handle_step, Config.handled, Config.hand] using htaken
      · simp [Config.handle_step, outcome, hstate]
  | done hpc => exact h

theorem Inv.push (h : Inv P L C init c items) (x : T) :
    ∃ items', Inv P L C init (c.step P L C (.push x)) items' := by
  obtain ⟨more, hq, hpopped, _⟩ := h.queue.push_more (L.words x)
  refine ⟨items ++ more, hq, ?_, h.state, h.polls, h.running, h.leaving, h.joined⟩
  show c.handled ++ c.hand L = (c.queue.producer_step C (L.words x)).popped.map L.item
  rw [hpopped]
  exact h.taken

theorem Inv.stop_step (h : Inv P L C init c items) : Inv P L C init c.stop_step items := by
  unfold Config.stop_step
  cases hstop : c.stop with
  | idle => exact ⟨h.queue, h.taken, h.state, h.polls, by simp, fun _ => rfl, by simp⟩
  | joining =>
    have hfalse : c.running = false := by
      have hiff := h.running
      rw [hstop] at hiff
      simpa using hiff
    -- `join` waits for the thread.
    by_cases hdone : c.pc = .done
    · simp only [if_pos hdone]
      exact ⟨h.queue, h.taken, h.state, h.polls, by simp [hfalse], h.leaving, fun _ => hdone⟩
    · simp only [if_neg hdone]
      exact h
  | returned => exact h

theorem Inv.step (h : Inv P L C init c items) (turn : Turn T) :
    ∃ items', Inv P L C init (c.step P L C turn) items' := by
  cases turn with
  | push x => exact h.push x
  | work =>
    obtain ⟨items', hwork⟩ := work_cases (P := P) (L := L) h.queue
    exact ⟨items', h.work hwork⟩
  | stop => exact ⟨items, h.stop_step⟩

/-- Some items are in the ring, and the invariant holds of them. -/
def Consistent (P : Program T σ) (L : Layout T α W) (C : Capacity) (init : σ)
    (c : Config T σ α W) : Prop := ∃ items, Inv P L C init c items

theorem Consistent.step (c : Config T σ α W) (turn : Turn T) (h : Consistent P L C init c) :
    Consistent P L C init (c.step P L C turn) := by
  obtain ⟨items, h⟩ := h
  exact h.step turn

theorem consistent_run (mem : Nat → Item α W) (out : Item α W) (init : σ)
    (schedule : List (Turn T)) :
    Consistent P L C init ((start mem out init).run P L C schedule) :=
  foldl_keeps Consistent.step ⟨[], inv_start mem out init⟩ schedule

/-! ## Section 4: What was handled -/

/-- What was handled was accepted, in this order, and only what is in the hand
    or in the ring is missing. -/
theorem Inv.results (h : Inv P L C init c items) :
    c.accepted L = c.handled ++ (c.hand L ++ items.map L.item) ∧
      c.state = outcome P init c.polled c.drained := by
  constructor
  · unfold Config.accepted
    rw [← h.queue.history, List.map_append, ← h.taken, List.append_assoc]
  · exact h.state

/-- `n` items were accepted when the flag was cleared.  The thread does not end
    before it has popped as many. -/
structure Stopping (C : Capacity) (n : Nat) (c : Config T σ α W) : Prop where
  accepted : n ≤ c.queue.pushed.length
  popping : ∀ count, c.pc = .popping .draining count →
    n + count ≤ c.queue.popped.length + (C.size - 1)
  handling : ∀ count, c.pc = .handling .draining count →
    n + (count + 1) ≤ c.queue.popped.length + (C.size - 1)
  done : c.pc = .done → n ≤ c.queue.popped.length

/-- While it drains, the thread takes at least as many items as the ring can
    hold. -/
def Program.DrainsAll (P : Program T σ) (C : Capacity) : Prop :=
  ∀ count, P.Reached .draining count → C.size - 1 ≤ count

theorem stopping_of_polls (h : ¬ c.pc.Drains) : Stopping C c.queue.pushed.length c where
  accepted := Nat.le_refl _
  popping := fun count hpc => absurd (by rw [hpc]; trivial) h
  handling := fun count hpc => absurd (by rw [hpc]; trivial) h
  done := fun hpc => absurd (by rw [hpc]; trivial) h

theorem Stopping.work {n : Nat} (hlimit : P.DrainsAll C) (hs : Stopping C n c)
    (h : Inv P L C init c items) (hwork : Work P L C c items c' items') : Stopping C n c' := by
  have hlt := h.queue.holds.length_lt
  have hlength : c.queue.pushed.length = c.queue.popped.length + items.length := by
    rw [← h.queue.history, List.length_append]
  have haccepted := hs.accepted
  cases hwork with
  | look hpc =>
    refine ⟨hs.accepted, ?_, by simp, by simp⟩
    intro count heq
    obtain ⟨_, rfl⟩ := Pc.popping.inj heq
    -- The ring holds less than its size, so the drain loop has enough passes left.
    show n + 0 ≤ c.queue.popped.length + (C.size - 1)
    omega
  | @limit phase count hpc hreached =>
    refine ⟨hs.accepted, by cases phase <;> simp [Phase.exit], by cases phase <;> simp [Phase.exit], ?_⟩
    intro hdone
    have hphase : phase = .draining := by
      cases phase with
      | polling => cases hdone
      | draining => rfl
    subst hphase
    have hcount := hs.popping count hpc
    -- As many were drained as the ring can hold, so nothing earlier is left.
    have hmax := hlimit count hreached
    show n ≤ c.queue.popped.length
    omega
  | quiet hpc hq hpopped hpushed hleft =>
    exact ⟨by rw [hpushed]; exact hs.accepted, by rw [hpopped]; exact hs.popping,
      by rw [hpopped]; exact hs.handling, by rw [hpopped]; exact hs.done⟩
  | @empty phase count q hpc hnil hq hpopped hpushed =>
    refine ⟨by rw [hpushed]; exact hs.accepted, by cases phase <;> simp [Phase.exit],
      by cases phase <;> simp [Phase.exit], ?_⟩
    intro _
    -- The ring was empty, so all that was accepted is popped.
    rw [hnil, List.length_nil] at hlength
    show n ≤ q.popped.length
    rw [hpopped]
    omega
  | @taken phase count q x rest hpc hreached hcons hq hpopped hpushed =>
    refine ⟨by rw [hpushed]; exact hs.accepted, by simp, ?_, by simp⟩
    intro count' heq
    obtain ⟨rfl, rfl⟩ := Pc.handling.inj heq
    have hcount := hs.popping _ hpc
    show n + (_ + 1) ≤ q.popped.length + (C.size - 1)
    rw [hpopped, List.length_append, List.length_singleton]
    omega
  | @handled phase count hpc =>
    refine ⟨hs.accepted, ?_, by simp [Config.handle_step], by simp [Config.handle_step]⟩
    intro count' heq
    obtain ⟨rfl, rfl⟩ := Pc.popping.inj heq
    exact hs.handling _ hpc
  | done hpc => exact hs

theorem Stopping.step {n : Nat} (hlimit : P.DrainsAll C) (hs : Stopping C n c)
    (h : Inv P L C init c items) (turn : Turn T) : Stopping C n (c.step P L C turn) := by
  cases turn with
  | push x =>
    obtain ⟨more, _, hpopped, hpushed⟩ := h.queue.push_more (L.words x)
    refine ⟨?_, ?_, ?_, ?_⟩
    · show n ≤ (c.queue.producer_step C (L.words x)).pushed.length
      rw [hpushed, List.length_append]
      exact Nat.le_trans hs.accepted (Nat.le_add_right _ _)
    · show ∀ count, c.pc = _ → _ ≤ (c.queue.producer_step C (L.words x)).popped.length + _
      rw [hpopped]
      exact hs.popping
    · show ∀ count, c.pc = _ → _ ≤ (c.queue.producer_step C (L.words x)).popped.length + _
      rw [hpopped]
      exact hs.handling
    · show c.pc = _ → _ ≤ (c.queue.producer_step C (L.words x)).popped.length
      rw [hpopped]
      exact hs.done
  | work =>
    obtain ⟨items', hwork⟩ := work_cases (P := P) (L := L) h.queue
    exact hs.work hlimit h hwork
  | stop =>
    show Stopping C n c.stop_step
    unfold Config.stop_step
    split
    · exact ⟨hs.accepted, hs.popping, hs.handling, hs.done⟩
    · split
      · exact ⟨hs.accepted, hs.popping, hs.handling, hs.done⟩
      · exact hs
    · exact hs

theorem pushed_step (h : Inv P L C init c items) (turn : Turn T) :
    c.queue.pushed <+: (c.step P L C turn).queue.pushed := by
  cases turn with
  | push x =>
    obtain ⟨more, _, _, hpushed⟩ := h.queue.push_more (L.words x)
    exact ⟨more, hpushed.symm⟩
  | work =>
    obtain ⟨items', hwork⟩ := work_cases (P := P) (L := L) h.queue
    show c.queue.pushed <+: (c.work_step P L C).queue.pushed
    generalize c.work_step P L C = c' at hwork
    cases hwork with
    | look | limit | handled | done => exact List.prefix_refl _
    | quiet _ _ _ hpushed _ => exact hpushed ▸ List.prefix_refl _
    | empty _ _ _ _ hpushed => exact hpushed ▸ List.prefix_refl _
    | taken _ _ _ _ _ hpushed => exact hpushed ▸ List.prefix_refl _
  | stop =>
    show c.queue.pushed <+: c.stop_step.queue.pushed
    unfold Config.stop_step
    split
    · exact List.prefix_refl _
    · split
      · exact List.prefix_refl _
      · exact List.prefix_refl _
    · exact List.prefix_refl _

theorem run_append (c : Config T σ α W) (before after : List (Turn T)) :
    c.run P L C (before ++ after) = (c.run P L C before).run P L C after := List.foldl_append

/-- Let `stop` be called after `before`, and return.  Then everything accepted
    before has been handled. -/
theorem handled_before_stop (hlimit : P.DrainsAll C) (mem : Nat → Item α W) (out : Item α W)
    (init : σ) (before after : List (Turn T))
    (hidle : ((start mem out init).run P L C before).stop = .idle)
    (hreturned : ((start mem out init).run P L C (before ++ after)).stop = .returned) :
    ((start mem out init).run P L C before).accepted L <+:
      ((start mem out init).run P L C (before ++ after)).handled := by
  let run := (start mem out init).run P L C
  have hinv : ∀ schedule, Consistent P L C init (run schedule) := consistent_run mem out init
  obtain ⟨items, hbefore⟩ := hinv before
  -- the flag is still set, so the thread polls
  have hpolls : ¬ (run before).pc.Drains := by
    intro hdrains
    have hset := hbefore.running.mpr hidle
    rw [hbefore.leaving hdrains] at hset
    cases hset
  let Keeps (c : Config T σ α W) :=
    Consistent P L C init c ∧ Stopping C (run before).queue.pushed.length c ∧
      (run before).queue.pushed <+: c.queue.pushed
  have hkeeps : Keeps (run (before ++ after)) := by
    have hstep : ∀ (c : Config T σ α W) (turn : Turn T), Keeps c → Keeps (c.step P L C turn) := by
      intro c turn ⟨⟨items, h⟩, hs, hprefix⟩
      refine ⟨h.step turn, hs.step hlimit h turn, hprefix.trans ?_⟩
      exact pushed_step h turn
    show Keeps ((start mem out init).run P L C (before ++ after))
    rw [run_append]
    exact foldl_keeps hstep (s := run before) ⟨hinv before, stopping_of_polls hpolls,
      List.prefix_refl _⟩ after
  obtain ⟨⟨items', h⟩, hs, hprefix⟩ := hkeeps
  have hdone := h.joined hreturned
  have hlength := hs.done hdone
  have hhandled : (run (before ++ after)).handled =
      (run (before ++ after)).queue.popped.map L.item := by
    have htaken := h.taken
    rw [hand_nil (by simp [hdone]), List.append_nil] at htaken
    exact htaken
  show (run before).queue.pushed.map L.item <+: (run (before ++ after)).handled
  rw [hhandled]
  exact (List.prefix_of_prefix_length_le hprefix ⟨items', h.queue.history⟩ hlength).map L.item

/-! ## Section 5: The thread comes to its end -/

/-- A bound on the steps the thread still makes, once the flag is cleared, if
    nobody pushes. -/
def remaining (c : Config T σ α W) (items : List (Item α W)) : Nat :=
  items.length * (W + 6) +
    match c.pc with
    | .done => 0
    | .popping .draining _ => left c.queue.consumer + 1
    | .handling .draining _ => W + 5
    | .test => W + 5
    | .popping .polling _ => left c.queue.consumer + 1 + (W + 5)
    | .handling .polling _ => W + 5 + (W + 5)

theorem Work.running (hwork : Work P L C c items c' items') : c'.running = c.running := by
  cases hwork <;> rfl

theorem Work.remaining_lt (hwork : Work P L C c items c' items') (hrun : c.running = false)
    (hlive : c.pc ≠ .done) : remaining c' items' < remaining c items := by
  have hleft := left_le c.queue.consumer
  cases hwork with
  | look hpc =>
    simp only [remaining, hpc, hrun, Bool.false_eq_true, if_false]
    omega
  | @limit phase count hpc hreached =>
    cases phase with
    | polling =>
      simp only [remaining, hpc, Phase.exit]
      omega
    | draining =>
      simp only [remaining, hpc, Phase.exit]
      omega
  | @quiet phase count q hpc hq hpopped hpushed hless =>
    cases phase with
    | polling =>
      simp only [remaining, hpc]
      omega
    | draining =>
      simp only [remaining, hpc]
      omega
  | @empty phase count q hpc hnil hq hpopped hpushed =>
    subst hnil
    cases phase with
    | polling =>
      simp only [remaining, hpc, Phase.exit]
      omega
    | draining =>
      simp only [remaining, hpc, Phase.exit]
      omega
  | @taken phase count q x rest hpc hreached hcons hq hpopped hpushed =>
    subst hcons
    cases phase with
    | polling =>
      simp only [remaining, hpc, List.length_cons, Nat.add_mul]
      omega
    | draining =>
      simp only [remaining, hpc, List.length_cons, Nat.add_mul]
      omega
  | @handled phase count hpc =>
    cases phase with
    | polling =>
      simp only [remaining, hpc, Config.handle_step]
      omega
    | draining =>
      simp only [remaining, hpc, Config.handle_step]
      omega
  | done hpc => exact absurd hpc hlive

/-- The thread does not touch the call of `stop`. -/
theorem work_step_stop (c : Config T σ α W) : (c.work_step P L C).stop = c.stop := by
  unfold Config.work_step
  split
  · rfl
  · split
    · rfl
    · unfold Config.pop_step
      simp only
      split <;> rfl
  · rfl
  · rfl

/-- Left to itself after the flag was cleared, the thread ends. -/
theorem finishes (h : Inv P L C init c items) (hrun : c.running = false) :
    ∃ n, (c.run P L C (List.replicate n .work)).pc = .done ∧
      (c.run P L C (List.replicate n .work)).stop = c.stop := by
  let Ranked (m : Nat) (c' : Config T σ α W) := ∃ items', remaining c' items' = m ∧
    Inv P L C init c' items' ∧ c'.running = false ∧ c'.stop = c.stop
  have hstep : ∀ m c', Ranked m c' → ¬ c'.pc = .done → ∃ m' < m, Ranked m' (c'.step P L C .work) := by
    rintro m c' ⟨items', rfl, h', hrun', hstop⟩ hlive
    obtain ⟨items'', hwork⟩ := work_cases (P := P) (L := L) h'.queue
    refine ⟨_, hwork.remaining_lt hrun' hlive, items'', rfl, h'.work hwork, ?_, ?_⟩
    · exact hwork.running.trans hrun'
    · exact (work_step_stop c').trans hstop
  obtain ⟨n, ⟨_, _, _, _, _, hstop⟩, hdone⟩ :=
    foldl_reaches_alone hstep ⟨items, rfl, h, hrun, rfl⟩
  exact ⟨n, hdone, hstop⟩

/-- A call of `stop` returns once the thread has had enough turns. -/
theorem stop_returns (h : Inv P L C init c items) (hstop : c.stop ≠ .idle) :
    ∃ n, (c.run P L C (List.replicate n .work ++ [.stop])).stop = .returned := by
  have hrun : c.running = false := by
    cases hr : c.running with
    | false => rfl
    | true => exact absurd (h.running.mp hr) hstop
  obtain ⟨n, hdone, hsame⟩ := finishes h hrun
  refine ⟨n, ?_⟩
  rw [run_append]
  show (c.run P L C (List.replicate n .work)).stop_step.stop = .returned
  unfold Config.stop_step
  rw [hsame]
  cases hc : c.stop with
  | idle => exact absurd hc hstop
  | joining => simp only [if_pos hdone]
  | returned => rw [hsame, hc]

theorem stop_step_ne_idle (c : Config T σ α W) : c.stop_step.stop ≠ .idle := by
  unfold Config.stop_step
  cases hstop : c.stop with
  | idle => simp
  | joining =>
    by_cases hdone : c.pc = .done
    · simp [hdone]
    · simp [hdone, hstop]
  | returned => simp [hstop]

/-- After a call of `stop` it is not idle again. -/
theorem stop_after_call (mem : Nat → Item α W) (out : Item α W) (init : σ)
    (before after : List (Turn T)) :
    ((start mem out init).run P L C (before ++ .stop :: after)).stop ≠ .idle := by
  let Keeps (c : Config T σ α W) := Consistent P L C init c ∧ c.stop ≠ .idle
  have hstep : ∀ (c : Config T σ α W) (turn : Turn T), Keeps c → Keeps (c.step P L C turn) := by
    intro c turn ⟨⟨items, h⟩, hne⟩
    refine ⟨h.step turn, ?_⟩
    cases turn with
    | push x => exact hne
    | work =>
      show (c.work_step P L C).stop ≠ .idle
      rw [work_step_stop]
      exact hne
    | stop => exact stop_step_ne_idle c
  have hcalled : Keeps (((start mem out init).run P L C before).step P L C .stop) :=
    ⟨Consistent.step _ .stop (consistent_run mem out init before), stop_step_ne_idle _⟩
  rw [run_append]
  exact (foldl_keeps hstep hcalled after).2

/-! ## Section 6: Where the items come from -/

theorem work_step_queue (c : Config T σ α W) :
    (c.work_step P L C).queue = c.queue ∨
      (c.work_step P L C).queue = c.queue.consumer_step C c.out := by
  unfold Config.work_step
  split
  · exact .inl rfl
  · split
    · exact .inl rfl
    · right
      unfold Config.pop_step
      simp only
      split <;> rfl
  · exact .inl rfl
  · exact .inl rfl

theorem stop_step_queue (c : Config T σ α W) : c.stop_step.queue = c.queue := by
  unfold Config.stop_step
  split
  · rfl
  · split <;> rfl
  · rfl

end Worker

end OptionsEngine
