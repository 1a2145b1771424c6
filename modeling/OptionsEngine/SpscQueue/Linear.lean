import OptionsEngine.SpscQueue.Interleaving

/-! # The single-producer single-consumer queue is linearizable

    A call takes effect in the step in which it returns: the store that moves
    its cursor, or the load that finds no room or no item.

    * `Inv.producer_cases`, `Inv.consumer_cases`: what a step of a thread does
      to the items in the ring.
    * `returned`: the call that a step returns from.
    * `linearizable`: the calls of every interleaving, in the order in which
      they return, return what whole calls made one after the other return.
    * `Sourced`: what is in the ring came in through a push. -/

namespace OptionsEngine

open Ring Loop

namespace Spsc

open Config

variable {α : Type} {W : Nat} {C : Capacity} {c : Config α W} {items : List (Item α W)}

/-! ## Section 1: What a step does to the items -/

/-- The items in the ring are determined by what was pushed and popped. -/
theorem Inv.items_eq {c' : Config α W} {items' : List (Item α W)} (h : Inv C c items)
    (h' : Inv C c' items') (more : List (Item α W)) (hpopped : c'.popped = c.popped)
    (hpushed : c'.pushed = c.pushed ++ more) : items' = items ++ more := by
  have heq : c.popped ++ items' = c.popped ++ (items ++ more) := by
    rw [← List.append_assoc, h.history, ← hpushed, ← h'.history, hpopped]
  exact List.append_cancel_left heq

theorem producer_step_popped (c : Config α W) (item : Item α W) :
    (c.producer_step C item).popped = c.popped := by
  rcases producer_step_returns (C := C) c item with heq | ⟨x, ok, heq⟩
  · simp [popped, heq]
  · simp [popped, heq]

theorem consumer_step_pushed (c : Config α W) (out : Item α W) :
    (c.consumer_step C out).pushed = c.pushed := by
  rcases consumer_step_returns (C := C) c out with heq | ⟨x, heq⟩
  · simp [pushed, heq]
  · simp [pushed, heq]

/-- A step of `try_push` does not return yet, finds the ring full, or
    publishes its item. -/
theorem Inv.producer_cases (h : Inv C c items) (item : Item α W) :
    ((c.producer_step C item).returns = c.returns ∧ Inv C (c.producer_step C item) items) ∨
    (∃ x, (c.producer_step C item).returns = c.returns ++ [.push x false] ∧
      items.length = C.size - 1 ∧ Inv C (c.producer_step C item) items) ∨
    (∃ x, (c.producer_step C item).returns = c.returns ++ [.push x true] ∧
      items.length ≠ C.size - 1 ∧ Inv C (c.producer_step C item) (items ++ [x])) := by
  obtain ⟨items', h'⟩ := h.producer_step item
  have hpopped := producer_step_popped (C := C) c item
  rcases producer_step_returns (C := C) c item with heq | ⟨x, ok, heq⟩
  · left
    have hitems := h.items_eq h' [] hpopped (by simp [pushed, heq])
    rw [hitems, List.append_nil] at h'
    exact ⟨heq, h'⟩
  · right
    cases ok with
    | false =>
      left
      have hitems := h.items_eq h' [] hpopped (by simp [pushed, heq])
      rw [hitems, List.append_nil] at h'
      have hfails : (c.step C (.producer item)).returns = c.returns ++ [.push x false] := heq
      exact ⟨x, heq, (h.full_of_push_fails hfails).2, h'⟩
    | true =>
      right
      have hitems := h.items_eq h' [x] hpopped (by simp [pushed, heq])
      rw [hitems] at h'
      have hlt := h'.holds.length_lt
      rw [List.length_append, List.length_singleton] at hlt
      exact ⟨x, heq, by omega, h'⟩

/-- In short: nothing is popped, and what is pushed is appended. -/
theorem Inv.push_more (h : Inv C c items) (item : Item α W) :
    ∃ more, Inv C (c.producer_step C item) (items ++ more) ∧
      (c.producer_step C item).popped = c.popped ∧
      (c.producer_step C item).pushed = c.pushed ++ more := by
  have hpopped := producer_step_popped (C := C) c item
  rcases h.producer_cases item with ⟨heq, hq⟩ | ⟨x, heq, _, hq⟩ | ⟨x, heq, _, hq⟩
  · exact ⟨[], by simpa using hq, hpopped, by simp [pushed, heq]⟩
  · exact ⟨[], by simpa using hq, hpopped, by simp [pushed, heq]⟩
  · exact ⟨[x], hq, hpopped, by simp [pushed, heq]⟩

/-- A step of `try_pop` does not return yet, finds the ring empty, or hands out
    the oldest item. -/
theorem Inv.consumer_cases (h : Inv C c items) (out : Item α W) :
    ((c.consumer_step C out).returns = c.returns ∧ Inv C (c.consumer_step C out) items) ∨
    ((c.consumer_step C out).returns = c.returns ++ [.pop none] ∧ items = [] ∧
      Inv C (c.consumer_step C out) []) ∨
    (∃ x rest, (c.consumer_step C out).returns = c.returns ++ [.pop (some x)] ∧
      items = x :: rest ∧ Inv C (c.consumer_step C out) rest) := by
  obtain ⟨items', h'⟩ := h.consumer_step out
  have hpushed := consumer_step_pushed (C := C) c out
  rcases consumer_step_returns (C := C) c out with heq | ⟨x, heq⟩
  · left
    have hitems := h.items_eq h' [] (by simp [popped, heq]) (by simpa using hpushed)
    rw [hitems, List.append_nil] at h'
    exact ⟨heq, h'⟩
  · right
    cases x with
    | none =>
      left
      have hfails : (c.step C (.consumer out)).returns = c.returns ++ [.pop none] := heq
      obtain rfl : items = [] := (h.empty_of_pop_fails hfails).2
      have hitems := h.items_eq h' [] (by simp [popped, heq]) (by simpa using hpushed)
      rw [hitems] at h'
      exact ⟨heq, rfl, h'⟩
    | some x =>
      right
      have hpopped : (c.consumer_step C out).popped = c.popped ++ [x] := by simp [popped, heq]
      -- the rest follows by cancelling what was popped before
      have hhistory := h'.history
      rw [hpopped, hpushed, ← h.history, List.append_assoc] at hhistory
      exact ⟨x, items', heq, (List.append_cancel_left hhistory).symm, h'⟩

/-- The call that has returned in the step from one configuration to another. -/
def returned (c c' : Config α W) : Option (Return α W) := (c'.returns.drop c.returns.length).head?

theorem returned_none {c' : Config α W} (h : c'.returns = c.returns) : returned c c' = none := by
  simp [returned, h]

theorem returned_some {c' : Config α W} {ret : Return α W} (h : c'.returns = c.returns ++ [ret]) :
    returned c c' = some ret := by
  simp [returned, h]

/-! ## Section 2: The sequential history -/

/-- A call, without its result. -/
inductive Invocation (α : Type) (W : Nat) where
  | push (item : Item α W)
  | pop

def Return.invocation : Return α W → Invocation α W
  | .push item _ => .push item
  | .pop _ => .pop

/-- A whole call of the queue that nothing interrupts. -/
def whole_call (C : Capacity) (s : SPSCQueue (Item α W) × List (Return α W)) :
    Invocation α W → SPSCQueue (Item α W) × List (Return α W)
  | .push item => ((s.1.try_push C item).1, s.2 ++ [.push item (s.1.try_push C item).2])
  | .pop => ((s.1.try_pop C).1, s.2 ++ [.pop (s.1.try_pop C).2])

/-- Whole calls one after the other, from the constructor on. -/
def sequential (C : Capacity) (mem : Nat → Item α W) (calls : List (Invocation α W)) :
    SPSCQueue (Item α W) × List (Return α W) :=
  calls.foldl (whole_call C) (.fresh mem, [])

theorem sequential_snoc (mem : Nat → Item α W) (calls : List (Invocation α W))
    (call : Invocation α W) :
    sequential C mem (calls ++ [call]) = whole_call C (sequential C mem calls) call := by
  rw [sequential, List.foldl_append]
  rfl

/-- The calls that have returned have their results from a sequential history,
    which leaves the same items behind. -/
structure Explained (C : Capacity) (mem : Nat → Item α W) (c : Config α W)
    (items : List (Item α W)) : Prop where
  inv : Inv C c items
  results : (sequential C mem (c.returns.map Return.invocation)).2 = c.returns
  holds : (sequential C mem (c.returns.map Return.invocation)).1.Holds C c.popped.length items

theorem explained_start (mem : Nat → Item α W) : Explained C mem (start mem) [] where
  inv := inv_start mem
  results := rfl
  holds := SPSCQueue.holds_fresh mem

/-- A step that returns from nothing leaves the history as it is. -/
theorem Explained.quiet {mem : Nat → Item α W} {c' : Config α W} (h : Explained C mem c items)
    (heq : c'.returns = c.returns) (hinv : Inv C c' items) : Explained C mem c' items where
  inv := hinv
  results := by rw [heq]; exact h.results
  holds := by
    have hpopped : c'.popped = c.popped := by unfold popped; rw [heq]
    rw [heq, hpopped]
    exact h.holds

/-- A call that returns is the next call of the history. -/
theorem explained_returned {mem : Nat → Item α W} {c' : Config α W} {ret : Return α W}
    {items' : List (Item α W)} {q : SPSCQueue (Item α W)}
    (heq : c'.returns = c.returns ++ [ret]) (hinv : Inv C c' items')
    (hcall : whole_call C (sequential C mem (c.returns.map Return.invocation)) ret.invocation =
      (q, c.returns ++ [ret]))
    (hq : q.Holds C c'.popped.length items') : Explained C mem c' items' := by
  have hseq : sequential C mem (c'.returns.map Return.invocation) = (q, c'.returns) := by
    rw [heq, List.map_append, List.map_singleton, sequential_snoc, hcall]
  exact ⟨hinv, by rw [hseq], by rw [hseq]; exact hq⟩

theorem Explained.step {mem : Nat → Item α W} (h : Explained C mem c items) (turn : Turn α W) :
    ∃ items', Explained C mem (c.step C turn) items' := by
  have hresults := h.results
  cases turn with
  | producer item =>
    have hpopped := producer_step_popped (C := C) c item
    rcases h.inv.producer_cases item with ⟨heq, hinv⟩ | ⟨x, heq, hfull, hinv⟩ | ⟨x, heq, hroom, hinv⟩
    · exact ⟨items, h.quiet heq hinv⟩
    · -- the whole call finds its queue full as well
      have hpush := h.holds.try_push x
      rw [if_pos hfull] at hpush
      refine ⟨items, explained_returned heq hinv ?_ (hpopped ▸ h.holds)⟩
      simp only [Return.invocation, whole_call, hpush, hresults]
    · have hpush := h.holds.try_push x
      rw [if_neg hroom] at hpush
      obtain ⟨q, hpush, hq⟩ := hpush
      refine ⟨items ++ [x], explained_returned heq hinv ?_ (hpopped ▸ hq)⟩
      simp only [Return.invocation, whole_call, hpush, hresults]
  | consumer out =>
    rcases h.inv.consumer_cases out with ⟨heq, hinv⟩ | ⟨heq, hnil, hinv⟩ | ⟨x, rest, heq, hcons, hinv⟩
    · exact ⟨items, h.quiet heq hinv⟩
    · subst hnil
      have hpopped : (c.consumer_step C out).popped = c.popped := by simp [popped, heq]
      refine ⟨[], explained_returned heq hinv ?_ (hpopped ▸ h.holds)⟩
      simp only [Return.invocation, whole_call, h.holds.try_pop_nil, hresults]
    · subst hcons
      obtain ⟨q, hpop, hq⟩ := h.holds.try_pop_cons
      have hpopped : (c.consumer_step C out).popped = c.popped ++ [x] := by simp [popped, heq]
      have hlength : (c.consumer_step C out).popped.length = c.popped.length + 1 := by
        rw [hpopped, List.length_append, List.length_singleton]
      refine ⟨rest, explained_returned heq hinv ?_ (hlength ▸ hq)⟩
      simp only [Return.invocation, whole_call, hpop, hresults]

theorem explained_run (mem : Nat → Item α W) (schedule : List (Turn α W)) :
    ∃ items, Explained C mem ((start mem).run C schedule) items := by
  let Keeps (c : Config α W) := ∃ items, Explained C mem c items
  have hstep : ∀ c turn, Keeps c → Keeps (Config.step C c turn) := by
    intro c turn ⟨items, h⟩
    exact h.step turn
  have hstart : Keeps (start mem) := ⟨[], explained_start mem⟩
  exact foldl_keeps hstep hstart schedule

/-- The calls that have returned stay in their order. -/
theorem returns_step (c : Config α W) (turn : Turn α W) :
    c.returns <+: (c.step C turn).returns := by
  cases turn with
  | producer item =>
    rcases producer_step_returns (C := C) c item with heq | ⟨x, ok, heq⟩
    · exact heq ▸ List.prefix_refl _
    · exact ⟨_, heq.symm⟩
  | consumer out =>
    rcases consumer_step_returns (C := C) c out with heq | ⟨x, heq⟩
    · exact heq ▸ List.prefix_refl _
    · exact ⟨_, heq.symm⟩

theorem returns_run (schedule : List (Turn α W)) :
    ∀ c : Config α W, c.returns <+: (c.run C schedule).returns := by
  induction schedule with
  | nil => exact fun c => List.prefix_refl _
  | cons turn schedule ih => exact fun c => (returns_step c turn).trans (ih (c.step C turn))

/-- Whatever the schedule: the calls that have returned, in this order, are a
    run of whole calls with the same results, after which the same items are in
    the ring at the same cursors; and a call that begins later comes later. -/
theorem linearizable (C : Capacity) (mem : Nat → Item α W) (schedule : List (Turn α W)) :
    let c := (start mem).run C schedule
    let s := sequential C mem (c.returns.map Return.invocation)
    s.2 = c.returns ∧ s.1.contents C = c.queue.contents C ∧
      s.1.write_pos = c.queue.write_pos ∧ s.1.read_pos = c.queue.read_pos ∧
      ∀ more, c.returns <+: (c.run C more).returns := by
  intro c s
  obtain ⟨items, h⟩ : ∃ items, Explained C mem c items := explained_run mem schedule
  have hholds : s.1.Holds C c.popped.length items := h.holds
  refine ⟨h.results, ?_, ?_, ?_, fun more => returns_run more c⟩
  · rw [hholds.contents_eq, h.inv.holds.contents_eq]
  · rw [hholds.write_pos_eq, h.inv.holds.write_pos_eq]
  · rw [hholds.read_pos_eq, h.inv.holds.read_pos_eq]

/-! ## Section 3: Where the items come from -/

/-- Everything pushed, or being pushed, meets `Q`. -/
structure Sourced (Q : Item α W → Prop) (c : Config α W) : Prop where
  pushed : ∀ x ∈ c.pushed, Q x
  loaded : ∀ x wp, c.producer = .loaded x wp → Q x
  writing : ∀ x wp next i, c.producer = .writing x wp next i → Q x

variable {Q : Item α W → Prop}

theorem Sourced.producer_step (h : Sourced Q c) {item : Item α W} (hitem : Q item) :
    Sourced Q (c.producer_step C item) := by
  unfold Config.producer_step
  split
  · refine ⟨h.pushed, ?_, by simp⟩
    intro x wp heq
    obtain ⟨rfl, _⟩ := ProducerPc.loaded.inj heq
    exact hitem
  · next y wp hpc =>
    simp only
    split
    · refine ⟨?_, by simp, by simp⟩
      intro x hx
      exact h.pushed x (by simpa [Config.pushed] using hx)
    · refine ⟨h.pushed, by simp, ?_⟩
      intro x wp' next i heq
      obtain ⟨rfl, _⟩ := ProducerPc.writing.inj heq
      exact h.loaded _ wp hpc
  · next y wp next i hpc =>
    have hy := h.writing y wp next i hpc
    split
    · refine ⟨h.pushed, by simp, ?_⟩
      intro x wp' next' j heq
      obtain ⟨rfl, _⟩ := ProducerPc.writing.inj heq
      exact hy
    · refine ⟨?_, by simp, by simp⟩
      intro x hx
      have hcases : x ∈ c.pushed ∨ x = y := by simpa [Config.pushed] using hx
      rcases hcases with hx | rfl
      · exact h.pushed x hx
      · exact hy

theorem consumer_step_producer (c : Config α W) (out : Item α W) :
    (c.consumer_step C out).producer = c.producer := by
  unfold Config.consumer_step
  split
  · rfl
  · split
    · rfl
    · rfl
  · split
    · rfl
    · rfl

theorem Sourced.consumer_step (h : Sourced Q c) (out : Item α W) :
    Sourced Q (c.consumer_step C out) := by
  have hproducer := consumer_step_producer (C := C) c out
  have hpushed := consumer_step_pushed (C := C) c out
  exact ⟨by rw [hpushed]; exact h.pushed, by rw [hproducer]; exact h.loaded,
    by rw [hproducer]; exact h.writing⟩

/-! ## Section 4: A producer with a single item -/

/-- A call in progress is one with `x`. -/
def ProducerPc.Carries (x : Item α W) : ProducerPc α W → Prop
  | .idle => True
  | .loaded y _ => y = x
  | .writing y _ _ _ => y = x

/-- How far a `try_push` still has to go, if it goes all the way. -/
def push_left : ProducerPc α W → Nat
  | .idle => W + 3
  | .loaded _ _ => W + 2
  | .writing _ _ _ i => W + 1 - i

/-- A producer that pushes `x` gets further, or returns from a call with `x`. -/
theorem producer_step_carries {x : Item α W} (h : c.producer.Carries x) :
    ((c.producer_step C x).returns = c.returns ∧ (c.producer_step C x).producer.Carries x ∧
      push_left (c.producer_step C x).producer < push_left c.producer) ∨
    ∃ ok, (c.producer_step C x).returns = c.returns ++ [.push x ok] ∧
      (c.producer_step C x).producer = .idle := by
  unfold Config.producer_step
  cases hpc : c.producer with
  | idle => exact .inl ⟨rfl, rfl, Nat.lt_succ_self _⟩
  | loaded y wp =>
    rw [hpc] at h
    obtain rfl : y = x := h
    simp only
    split
    · exact .inr ⟨false, rfl, rfl⟩
    · exact .inl ⟨rfl, rfl, Nat.lt_succ_self _⟩
  | writing y wp next i =>
    rw [hpc] at h
    obtain rfl : y = x := h
    simp only
    split
    · next hi =>
      refine .inl ⟨rfl, rfl, ?_⟩
      simp only [push_left]
      omega
    · exact .inr ⟨true, rfl, rfl⟩

/-- The items of all calls of `try_push`, whatever they returned. -/
def Config.offered (c : Config α W) : List (Item α W) :=
  c.returns.filterMap fun
    | .push item _ => some item
    | _ => none

theorem pushed_sublist_offered (c : Config α W) : c.pushed.Sublist c.offered := by
  unfold Config.pushed Config.offered
  induction c.returns with
  | nil => exact .slnil
  | cons ret returns ih =>
    cases ret with
    | push item ok =>
      cases ok with
      | false => exact ih.cons item
      | true => exact ih.cons_cons item
    | pop out => exact ih

end Spsc

end OptionsEngine
