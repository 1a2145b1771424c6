import OptionsEngine.Framework.Loop
import OptionsEngine.SpscQueue

/-! # The single-producer single-consumer queue under every interleaving

    The calls of the two threads cut into their atomic steps: a load of the
    own cursor, a load of the other side's cursor, the copy of the payload one
    word at a time, and the store that moves the own cursor.  A schedule says
    whose turn it is; a thread that is between calls begins its next call.

    * `Config.step`: one step of one thread.
    * `Inv`: what every reachable configuration keeps, with one clause for
      each program point of each thread.
    * `every_schedule`: the guarantees of the queue, in every reachable
      configuration.
    * `try_push_alone`, `try_pop_alone`: a call that is not interrupted is the
      whole call of `SPSCQueue`. -/

namespace OptionsEngine

open Ring Loop

namespace Spsc

/-! ## Section 1: Model -/

/-- Where the producer stands in `try_push`. -/
inductive ProducerPc (α : Type) (W : Nat) where
  | idle
  /-- Has loaded its own cursor. -/
  | loaded (item : Item α W) (wp : Nat)
  /-- Has seen room and written the words before `i`. -/
  | writing (item : Item α W) (wp next i : Nat)

/-- Where the consumer stands in `try_pop`. -/
inductive ConsumerPc (α : Type) (W : Nat) where
  | idle
  /-- Has loaded its own cursor. -/
  | loaded (out : Item α W) (rp : Nat)
  /-- Has seen an item and read the words before `i` into `out`. -/
  | reading (out : Item α W) (rp i : Nat)

/-- A call that has returned. -/
inductive Return (α : Type) (W : Nat) where
  | push (item : Item α W) (ok : Bool)
  | pop (out : Option (Item α W))

/-- The shared queue, the two threads, and the calls that have returned. -/
structure Config (α : Type) (W : Nat) where
  queue : SPSCQueue (Item α W)
  producer : ProducerPc α W
  consumer : ConsumerPc α W
  returns : List (Return α W)

/-- Whose turn it is.  A producer that begins a call begins it with `item`, a
    consumer that begins one hands in `out`. -/
inductive Turn (α : Type) (W : Nat) where
  | producer (item : Item α W)
  | consumer (out : Item α W)

variable {α : Type} {W : Nat}

namespace Config

def start (mem : Nat → Item α W) : Config α W := ⟨.fresh mem, .idle, .idle, []⟩

/-- One step of `try_push`. -/
def producer_step (C : Capacity) (c : Config α W) (item : Item α W) : Config α W :=
  match c.producer with
  | .idle => { c with producer := .loaded item c.queue.write_pos }
  | .loaded item wp =>
    let next := (wp + 1) &&& C.mask
    if next = c.queue.read_pos then
      { c with producer := .idle, returns := c.returns ++ [.push item false] }
    else { c with producer := .writing item wp next 0 }
  | .writing item wp next i =>
    if h : i < W then
      let slot := (c.queue.buffer wp).set i item[i]
      { c with
        queue := { c.queue with buffer := Function.update c.queue.buffer wp slot }
        producer := .writing item wp next (i + 1) }
    else
      { c with
        queue := { c.queue with write_pos := next }
        producer := .idle
        returns := c.returns ++ [.push item true] }

/-- One step of `try_pop`. -/
def consumer_step (C : Capacity) (c : Config α W) (out : Item α W) : Config α W :=
  match c.consumer with
  | .idle => { c with consumer := .loaded out c.queue.read_pos }
  | .loaded out rp =>
    if rp = c.queue.write_pos then
      { c with consumer := .idle, returns := c.returns ++ [.pop none] }
    else { c with consumer := .reading out rp 0 }
  | .reading out rp i =>
    if h : i < W then
      { c with consumer := .reading (out.set i (c.queue.buffer rp)[i]) rp (i + 1) }
    else
      { c with
        queue := { c.queue with read_pos := (rp + 1) &&& C.mask }
        consumer := .idle
        returns := c.returns ++ [.pop (some out)] }

def step (C : Capacity) (c : Config α W) : Turn α W → Config α W
  | .producer item => producer_step C c item
  | .consumer out => consumer_step C c out

def run (C : Capacity) (c : Config α W) (schedule : List (Turn α W)) : Config α W :=
  schedule.foldl (step C) c

/-! ### What an observer sees -/

/-- The values of the successful `try_push` calls, in the order of their return. -/
def pushed (c : Config α W) : List (Item α W) :=
  c.returns.filterMap fun
    | .push item true => some item
    | _ => none

/-- The values of the successful `try_pop` calls, in the order of their return. -/
def popped (c : Config α W) : List (Item α W) :=
  c.returns.filterMap fun
    | .pop out => out
    | _ => none

/-- The producer is about to write a word of this slot. -/
def Writes (c : Config α W) (slot : Nat) : Prop :=
  ∃ item next i, i < W ∧ c.producer = .writing item slot next i

/-- The consumer is about to read a word of this slot. -/
def Reads (c : Config α W) (slot : Nat) : Prop :=
  ∃ out i, i < W ∧ c.consumer = .reading out slot i

end Config

open Config

/-! ## Section 2: The invariant -/

variable (C : Capacity)

/-- A producer that has seen room still has it: only the consumer moves the
    read cursor, and only forward. -/
def ProducerOk (q : SPSCQueue (Item α W)) (items : List (Item α W)) : ProducerPc α W → Prop
  | .idle => True
  | .loaded _ wp => wp = q.write_pos
  | .writing item wp next i =>
    wp = q.write_pos ∧ next = (wp + 1) &&& C.mask ∧ items.length + 1 < C.size ∧
      Agree (q.buffer wp) item i

/-- A consumer that has seen an item holds a part of the oldest one. -/
def ConsumerOk (q : SPSCQueue (Item α W)) (items : List (Item α W)) : ConsumerPc α W → Prop
  | .idle => True
  | .loaded _ rp => rp = q.read_pos
  | .reading out rp i => rp = q.read_pos ∧ ∃ x rest, items = x :: rest ∧ Agree out x i

/-- The queue holds `items`, which are what was pushed and not popped. -/
structure Inv (c : Config α W) (items : List (Item α W)) : Prop where
  holds : c.queue.Holds C c.popped.length items
  history : c.popped ++ items = c.pushed
  producer : ProducerOk C c.queue items c.producer
  consumer : ConsumerOk c.queue items c.consumer

variable {C} {c : Config α W} {items : List (Item α W)}

theorem inv_start (mem : Nat → Item α W) : Inv C (start mem) [] where
  holds := SPSCQueue.holds_fresh mem
  history := rfl
  producer := trivial
  consumer := trivial

/-- The slots of the two threads differ while both copy. -/
theorem Inv.slots_ne (h : Inv C c items) {item out : Item α W} {wp next i rp j : Nat}
    (hp : c.producer = .writing item wp next i) (hc : c.consumer = .reading out rp j) :
    wp ≠ rp := by
  have hprod := h.producer
  have hcons := h.consumer
  rw [hp] at hprod
  rw [hc] at hcons
  obtain ⟨rfl, _, _, _⟩ := hprod
  obtain ⟨rfl, x, rest, rfl, _⟩ := hcons
  intro heq
  have := h.holds.empty_iff.mp heq.symm
  simp at this

/-! ## Section 3: Steps -/

/-- A longer queue keeps its oldest item. -/
theorem ConsumerOk.append {q : SPSCQueue (Item α W)} {k : ConsumerPc α W}
    (h : ConsumerOk q items k) (more : List (Item α W)) : ConsumerOk q (items ++ more) k := by
  cases k with
  | idle => trivial
  | loaded out rp => exact h
  | reading out rp i =>
    obtain ⟨hrp, x, rest, rfl, hagree⟩ := h
    exact ⟨hrp, x, rest ++ more, rfl, hagree⟩

/-- A shorter queue keeps the producer's room. -/
theorem ProducerOk.tail {q : SPSCQueue (Item α W)} {x : Item α W} {p : ProducerPc α W}
    (h : ProducerOk C q (x :: items) p) : ProducerOk C q items p := by
  cases p with
  | idle => trivial
  | loaded item wp => exact h
  | writing item wp next i =>
    obtain ⟨hwp, hnext, hroom, hagree⟩ := h
    rw [List.length_cons] at hroom
    exact ⟨hwp, hnext, by omega, hagree⟩

theorem Inv.producer_step (h : Inv C c items) (item : Item α W) :
    ∃ items', Inv C (producer_step C c item) items' := by
  obtain ⟨q, producer, consumer, returns⟩ := c
  have hok : ProducerOk C q items producer := h.producer
  cases producer with
  | idle => exact ⟨items, h.holds, h.history, rfl, h.consumer⟩
  | loaded item wp =>
    obtain rfl : wp = q.write_pos := hok
    simp only [Config.producer_step]
    split
    · refine ⟨items, ?_, ?_, trivial, h.consumer⟩
      · simpa [popped] using h.holds
      · simpa [popped, pushed] using h.history
    · next hroom =>
      have hlt := h.holds.length_lt
      have hne := mt h.holds.full_iff.mpr hroom
      exact ⟨items, h.holds, h.history, ⟨rfl, rfl, by omega, Agree.zero _ _⟩, h.consumer⟩
  | writing item wp next i =>
    obtain ⟨rfl, rfl, hroom, hagree⟩ := hok
    simp only [Config.producer_step]
    split
    · next hi =>
      refine ⟨items, h.holds.write _, h.history, ⟨rfl, rfl, hroom, ?_⟩, h.consumer⟩
      simpa using hagree.set hi
    · next hi =>
      -- the slot now holds the whole item, and the store publishes it
      have hslot : q.buffer q.write_pos = item := hagree.eq hi
      refine ⟨items ++ [item], ?_, ?_, trivial, h.consumer.append _⟩
      · simpa [popped] using h.holds.publish hroom hslot
      · simpa [popped, pushed] using congrArg (· ++ [item]) h.history

theorem Inv.consumer_step (h : Inv C c items) (out : Item α W) :
    ∃ items', Inv C (consumer_step C c out) items' := by
  obtain ⟨q, producer, consumer, returns⟩ := c
  have hok : ConsumerOk q items consumer := h.consumer
  cases consumer with
  | idle => exact ⟨items, h.holds, h.history, h.producer, rfl⟩
  | loaded out rp =>
    obtain rfl : rp = q.read_pos := hok
    simp only [Config.consumer_step]
    split
    · refine ⟨items, ?_, ?_, h.producer, trivial⟩
      · simpa [popped] using h.holds
      · simpa [popped, pushed] using h.history
    · next hne =>
      have hitems : items ≠ [] := mt h.holds.empty_iff.mpr hne
      obtain ⟨x, rest, rfl⟩ := List.exists_cons_of_ne_nil hitems
      exact ⟨x :: rest, h.holds, h.history, h.producer, rfl, x, rest, rfl, Agree.zero _ _⟩
  | reading out rp i =>
    obtain ⟨rfl, x, rest, rfl, hagree⟩ := hok
    simp only [Config.consumer_step]
    split
    · next hi =>
      refine ⟨x :: rest, h.holds, h.history, h.producer, rfl, x, rest, rfl, ?_⟩
      have hfront : q.buffer q.read_pos = x := h.holds.front
      show Agree (out.set i (q.buffer q.read_pos)[i]) x (i + 1)
      rw [hfront]
      exact hagree.set hi
    · next hi =>
      -- the copy is complete, and the store gives the slot back
      obtain rfl : out = x := hagree.eq hi
      refine ⟨rest, ?_, ?_, h.producer.tail, trivial⟩
      · simpa [popped] using h.holds.release
      · simpa [popped, pushed] using h.history

theorem Inv.step (h : Inv C c items) (turn : Turn α W) : ∃ items', Inv C (c.step C turn) items' := by
  cases turn with
  | producer item => exact h.producer_step item
  | consumer out => exact h.consumer_step out

/-- Some items are in the queue, and the invariant holds of them. -/
def Consistent (C : Capacity) (c : Config α W) : Prop := ∃ items, Inv C c items

theorem Consistent.step (c : Config α W) (turn : Turn α W) (h : Consistent C c) :
    Consistent C (c.step C turn) := by
  obtain ⟨items, h⟩ := h
  exact h.step turn

theorem consistent_run (mem : Nat → Item α W) (schedule : List (Turn α W)) :
    Consistent C ((start mem).run C schedule) :=
  foldl_keeps Consistent.step ⟨[], inv_start mem⟩ schedule

/-! ## Section 4: Returns -/

/-- A step of the producer returns from a `try_push` or from nothing. -/
theorem producer_step_returns (c : Config α W) (item : Item α W) :
    (producer_step C c item).returns = c.returns ∨
      ∃ x ok, (producer_step C c item).returns = c.returns ++ [.push x ok] := by
  unfold Config.producer_step
  split
  · exact .inl rfl
  · next x wp hpc =>
    simp only
    split
    · exact .inr ⟨x, false, rfl⟩
    · exact .inl rfl
  · next x wp next i hpc =>
    split
    · exact .inl rfl
    · exact .inr ⟨x, true, rfl⟩

/-- A step of the consumer returns from a `try_pop` or from nothing. -/
theorem consumer_step_returns (c : Config α W) (out : Item α W) :
    (consumer_step C c out).returns = c.returns ∨
      ∃ x, (consumer_step C c out).returns = c.returns ++ [.pop x] := by
  unfold Config.consumer_step
  split
  · exact .inl rfl
  · next x rp hpc =>
    split
    · exact .inr ⟨none, rfl⟩
    · exact .inl rfl
  · next x rp i hpc =>
    split
    · exact .inl rfl
    · exact .inr ⟨some x, rfl⟩


/-- A `try_push` fails in the step that finds the successor of its cursor to
    be the read cursor. -/
theorem push_fails {turn : Turn α W} {item : Item α W}
    (h : (c.step C turn).returns = c.returns ++ [.push item false]) :
    ∃ wp, c.producer = .loaded item wp ∧ (wp + 1) &&& C.mask = c.queue.read_pos := by
  cases turn with
  | producer x =>
    simp only [Config.step, Config.producer_step] at h
    split at h
    · simp at h
    · next item' wp hpc =>
      split at h
      · next hfull =>
        obtain rfl : item' = item := by simpa using h
        exact ⟨wp, hpc, hfull⟩
      · simp at h
    · split at h <;> simp at h
  | consumer out =>
    simp only [Config.step, Config.consumer_step] at h
    split at h
    · simp at h
    · split at h <;> simp at h
    · split at h <;> simp at h

/-- A `try_pop` fails in the step that finds the two cursors equal. -/
theorem pop_fails {turn : Turn α W}
    (h : (c.step C turn).returns = c.returns ++ [.pop none]) :
    ∃ out rp, c.consumer = .loaded out rp ∧ rp = c.queue.write_pos := by
  cases turn with
  | producer x =>
    simp only [Config.step, Config.producer_step] at h
    split at h
    · simp at h
    · split at h <;> simp at h
    · split at h <;> simp at h
  | consumer out =>
    simp only [Config.step, Config.consumer_step] at h
    split at h
    · simp at h
    · next out' rp hpc =>
      split at h
      · next hempty => exact ⟨out', rp, hpc, hempty⟩
      · simp at h
    · split at h <;> simp at h

theorem Inv.full_of_push_fails (h : Inv C c items) {turn : Turn α W} {item : Item α W}
    (hret : (c.step C turn).returns = c.returns ++ [.push item false]) :
    (∃ wp, c.producer = .loaded item wp) ∧ items.length = C.size - 1 := by
  obtain ⟨wp, hpc, hfull⟩ := push_fails hret
  have hok := h.producer
  rw [hpc] at hok
  obtain rfl : wp = c.queue.write_pos := hok
  exact ⟨⟨_, hpc⟩, h.holds.full_iff.mp hfull⟩

theorem Inv.empty_of_pop_fails (h : Inv C c items) {turn : Turn α W}
    (hret : (c.step C turn).returns = c.returns ++ [.pop none]) :
    (∃ out rp, c.consumer = .loaded out rp) ∧ items = [] := by
  obtain ⟨out, rp, hpc, hempty⟩ := pop_fails hret
  have hok := h.consumer
  rw [hpc] at hok
  obtain rfl : rp = c.queue.read_pos := hok
  exact ⟨⟨_, _, hpc⟩, h.holds.empty_iff.mp hempty⟩

/-- Whatever the schedule: the values popped, followed by those in the ring,
    are the values pushed; at most `Capacity - 1` are in the ring; no slot is
    written while it is read; a `try_push` that fails does so at an instant of
    its call at which the ring is full, and a `try_pop` at one at which it is
    empty. -/
theorem spsc_every_interleaving (C : Capacity) (mem : Nat → Item α W)
    (schedule : List (Turn α W)) :
    let c := (start mem).run C schedule
    c.popped <+: c.pushed ∧
    c.popped ++ c.queue.contents C = c.pushed ∧
    (c.queue.contents C).length ≤ C.size - 1 ∧
    (∀ slot, c.Writes slot → ¬ c.Reads slot) ∧
    (∀ turn item, (c.step C turn).returns = c.returns ++ [.push item false] →
      (∃ wp, c.producer = .loaded item wp) ∧ (c.queue.contents C).length = C.size - 1) ∧
    (∀ turn, (c.step C turn).returns = c.returns ++ [.pop none] →
      (∃ out rp, c.consumer = .loaded out rp) ∧ c.queue.contents C = []) := by
  intro c
  obtain ⟨items, h⟩ : Consistent C c := consistent_run mem schedule
  have hlt := h.holds.length_lt
  rw [h.holds.contents_eq]
  refine ⟨⟨items, h.history⟩, h.history, by omega, ?_, ?_, ?_⟩
  · rintro slot ⟨item, next, i, _, hp⟩ ⟨out, j, _, hc⟩
    exact h.slots_ne hp hc rfl
  · intro turn item hret
    exact h.full_of_push_fails hret
  · intro turn hret
    exact h.empty_of_pop_fails hret

/-! ## Section 5: Calls that are not interrupted -/

theorem run_append (c : Config α W) (before after : List (Turn α W)) :
    c.run C (before ++ after) = (c.run C before).run C after := List.foldl_append

/-- The rest of the copy and the store, from the `i`-th word on. -/
theorem write_alone (item other : Item α W) (k : Nat) :
    ∀ {c : Config α W} {wp next i : Nat}, W - i = k → c.producer = .writing item wp next i →
      Agree (c.queue.buffer wp) item i →
      c.run C (List.replicate (k + 1) (.producer other)) =
        { c with
          queue := { c.queue with
            buffer := Function.update c.queue.buffer wp item, write_pos := next }
          producer := .idle
          returns := c.returns ++ [.push item true] } := by
  induction k with
  | zero =>
    intro c wp next i hk hpc hagree
    have hi : ¬ i < W := by omega
    have hslot : Function.update c.queue.buffer wp item = c.queue.buffer := by
      rw [← hagree.eq hi, Function.update_eq_self]
    simp [Config.run, Config.step, Config.producer_step, hpc, hi, hslot]
  | succ k ih =>
    intro c wp next i hk hpc hagree
    have hi : i < W := by omega
    rw [List.replicate_succ, Config.run, List.foldl_cons]
    simp only [Config.step, Config.producer_step, hpc, hi, dif_pos]
    rw [← Config.run, ih (by omega) rfl (by simpa using hagree.set hi)]
    simp

theorem try_push_alone (item : Item α W) (hpc : c.producer = .idle) :
    ∃ n, c.run C (List.replicate n (.producer item)) =
      { c with
        queue := (c.queue.try_push C item).1
        returns := c.returns ++ [.push item (c.queue.try_push C item).2] } := by
  obtain ⟨q, producer, consumer, returns⟩ := c
  obtain rfl : producer = .idle := hpc
  by_cases hfull : (q.write_pos + 1) &&& C.mask = q.read_pos
  · refine ⟨2, ?_⟩
    simp [List.replicate, Config.run, Config.step, Config.producer_step, SPSCQueue.try_push, hfull]
  · refine ⟨2 + (W + 1), ?_⟩
    have htwo : Config.run C ⟨q, .idle, consumer, returns⟩ (List.replicate 2 (.producer item)) =
        ⟨q, .writing item q.write_pos ((q.write_pos + 1) &&& C.mask) 0, consumer, returns⟩ := by
      simp [List.replicate, Config.run, Config.step, Config.producer_step, hfull]
    rw [← List.replicate_append_replicate, run_append, htwo]
    rw [write_alone item item W (Nat.sub_zero W) rfl (Agree.zero _ _)]
    simp [SPSCQueue.try_push, hfull]

/-- The rest of the copy and the store, from the `i`-th word on. -/
theorem read_alone (other : Item α W) (k : Nat) :
    ∀ {c : Config α W} {out : Item α W} {rp i : Nat}, W - i = k →
      c.consumer = .reading out rp i → Agree out (c.queue.buffer rp) i →
      c.run C (List.replicate (k + 1) (.consumer other)) =
        { c with
          queue := { c.queue with read_pos := (rp + 1) &&& C.mask }
          consumer := .idle
          returns := c.returns ++ [.pop (some (c.queue.buffer rp))] } := by
  induction k with
  | zero =>
    intro c out rp i hk hpc hagree
    have hi : ¬ i < W := by omega
    simp [Config.run, Config.step, Config.consumer_step, hpc, hi, hagree.eq hi]
  | succ k ih =>
    intro c out rp i hk hpc hagree
    have hi : i < W := by omega
    rw [List.replicate_succ, Config.run, List.foldl_cons]
    simp only [Config.step, Config.consumer_step, hpc, hi, dif_pos]
    exact ih (by omega) rfl (hagree.set hi)

theorem try_pop_alone (out : Item α W) (hpc : c.consumer = .idle) :
    ∃ n, c.run C (List.replicate n (.consumer out)) =
      { c with
        queue := (c.queue.try_pop C).1
        returns := c.returns ++ [.pop (c.queue.try_pop C).2] } := by
  obtain ⟨q, producer, consumer, returns⟩ := c
  obtain rfl : consumer = .idle := hpc
  by_cases hempty : q.read_pos = q.write_pos
  · refine ⟨2, ?_⟩
    simp [List.replicate, Config.run, Config.step, Config.consumer_step, SPSCQueue.try_pop, hempty]
  · refine ⟨2 + (W + 1), ?_⟩
    have htwo : Config.run C ⟨q, producer, .idle, returns⟩ (List.replicate 2 (.consumer out)) =
        ⟨q, producer, .reading out q.read_pos 0, returns⟩ := by
      simp [List.replicate, Config.run, Config.step, Config.consumer_step, hempty]
    rw [← List.replicate_append_replicate, run_append, htwo]
    rw [read_alone out W (Nat.sub_zero W) rfl (Agree.zero _ _)]
    simp [SPSCQueue.try_pop, hempty]

end Spsc

end OptionsEngine
