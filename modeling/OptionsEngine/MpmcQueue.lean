import OptionsEngine.Framework.Ring

/-! # The multi-producer multi-consumer queue (`core/mpmc_queue.hpp`)

    A ring of slots, each with a sequence number next to its payload, and two
    positions that threads claim with a compare-and-swap.  Any number of
    threads, named by a type `ι`, run `try_push` and `try_pop`, cut into their
    atomic steps; positions and sequence numbers are `size_t` and wrap at
    `2 ^ 64`.

    A schedule is a list of turns.  The thread whose turn it is takes its next
    step; if it is between calls it begins the call the turn names, and if it
    stands at the compare-and-swap the turn says whether that fails
    spuriously. -/

namespace OptionsEngine

open Ring

structure Slot (T : Type) where
  sequence : Nat
  data : T

/-- `MPMCQueue<T, Capacity>`. -/
structure MPMCQueue (T : Type) where
  slots : Nat → Slot T
  enqueue_pos : Nat
  dequeue_pos : Nat

/-- The constructor: each slot's sequence is its index, its payload is the
    memory found there. -/
def MPMCQueue.fresh {T : Type} (mem : Nat → T) : MPMCQueue T := ⟨fun i => ⟨i, mem i⟩, 0, 0⟩

namespace Mpmc

/-- Arithmetic of `size_t`. -/
def size_t (n : Nat) : Nat := n % 2 ^ 64

/-- `static_cast<std::ptrdiff_t>` of a `size_t`.  The difference of two of them
    is taken in `Int`: the source relies on its not overflowing. -/
def ptrdiff_t (n : Nat) : Int := if n < 2 ^ 63 then n else n - 2 ^ 64

inductive Call (α : Type) (W : Nat) where
  | push (item : Item α W)
  | pop (out : Item α W)

/-- Where a thread stands. -/
inductive Pc (α : Type) (W : Nat) where
  | idle
  /-- `try_push` at the head of its loop. -/
  | push_top (item : Item α W) (pos : Nat)
  /-- `try_push` has seen the slot empty. -/
  | push_cas (item : Item α W) (pos : Nat)
  /-- `try_push` has seen another producer ahead. -/
  | push_reload (item : Item α W)
  /-- `try_push` has claimed `pos` and written the words before `i`. -/
  | push_write (item : Item α W) (pos i : Nat)
  /-- `try_pop` at the head of its loop. -/
  | pop_top (out : Item α W) (pos : Nat)
  /-- `try_pop` has seen the slot written. -/
  | pop_cas (out : Item α W) (pos : Nat)
  /-- `try_pop` has seen another consumer ahead. -/
  | pop_reload (out : Item α W)
  /-- `try_pop` has claimed `pos` and read the words before `i`. -/
  | pop_read (out : Item α W) (pos i : Nat)

/-- A finished call: the thread, the position it claimed and the payload. -/
structure Record (ι α : Type) (W : Nat) where
  thread : ι
  pos : Nat
  item : Item α W

/-- The shared queue, the threads, and what they have done so far. -/
structure Config (ι α : Type) (W : Nat) where
  queue : MPMCQueue (Item α W)
  pc : ι → Pc α W
  /-- The number of calls that have begun. -/
  calls : Nat
  /-- The positions producers claimed and their payloads, in the order of the
      claims. -/
  enqueued : List (Nat × Item α W)
  /-- The positions consumers claimed, in the order of the claims. -/
  dequeued : List Nat
  /-- The `try_push` calls that returned true, in the order of their return. -/
  pushed : List (Record ι α W)
  /-- The `try_pop` calls that returned true, in the order of their return. -/
  popped : List (Record ι α W)

structure Turn (ι α : Type) (W : Nat) where
  thread : ι
  call : Call α W
  spurious : Bool

variable {ι α : Type} {W : Nat} [DecidableEq ι]

namespace Config

def start (mem : Nat → Item α W) : Config ι α W := ⟨.fresh mem, fun _ => .idle, 0, [], [], [], []⟩

/-- A step of the thread that touches nothing shared. -/
def goto (c : Config ι α W) (t : ι) (pc : Pc α W) : Config ι α W :=
  { c with pc := Function.update c.pc t pc }

/-- A store to one slot of the ring. -/
def store (C : Capacity) (c : Config ι α W) (pos : Nat) (slot : Slot (Item α W)) : Config ι α W :=
  { c with queue.slots := Function.update c.queue.slots (pos &&& C.mask) slot }

def begin_call (c : Config ι α W) (t : ι) : Call α W → Config ι α W
  | .push item => { c with calls := c.calls + 1 }.goto t (.push_top item c.queue.enqueue_pos)
  | .pop out => { c with calls := c.calls + 1 }.goto t (.pop_top out c.queue.dequeue_pos)

/-- One step of the thread whose turn it is.  A call that returns false leaves
    no trace but an idle thread. -/
def step (C : Capacity) (c : Config ι α W) (turn : Turn ι α W) : Config ι α W :=
  let t := turn.thread
  let q := c.queue
  match c.pc t with
  | .idle => c.begin_call t turn.call
  | .push_top item pos =>
    let seq := (q.slots (pos &&& C.mask)).sequence
    let diff := ptrdiff_t seq - ptrdiff_t pos
    -- 0: the slot is empty at `pos`; below: still unread, the ring is full; above: `pos` is stale
    if diff = 0 then c.goto t (.push_cas item pos)
    else if diff < 0 then c.goto t .idle
    else c.goto t (.push_reload item)
  | .push_cas item pos =>
    -- a failed exchange loads the position it found into `pos`
    if q.enqueue_pos = pos ∧ turn.spurious = false then
      { c with
        queue.enqueue_pos := size_t (pos + 1)
        enqueued := c.enqueued ++ [(pos, item)] }.goto t (.push_write item pos 0)
    else c.goto t (.push_top item q.enqueue_pos)
  | .push_reload item => c.goto t (.push_top item q.enqueue_pos)
  | .push_write item pos i =>
    let slot := q.slots (pos &&& C.mask)
    if h : i < W then
      (c.store C pos { slot with data := slot.data.set i item[i] }).goto t
        (.push_write item pos (i + 1))
    else
      -- publish: consumers of `pos` may read
      { c.store C pos { slot with sequence := size_t (pos + 1) } with
        pushed := c.pushed ++ [Record.mk t pos item] }.goto t .idle
  | .pop_top out pos =>
    let seq := (q.slots (pos &&& C.mask)).sequence
    let diff := ptrdiff_t seq - ptrdiff_t (size_t (pos + 1))
    -- 0: the slot is written at `pos`; below: not yet, the ring is empty; above: `pos` is stale
    if diff = 0 then c.goto t (.pop_cas out pos)
    else if diff < 0 then c.goto t .idle
    else c.goto t (.pop_reload out)
  | .pop_cas out pos =>
    if q.dequeue_pos = pos ∧ turn.spurious = false then
      { c with
        queue.dequeue_pos := size_t (pos + 1)
        dequeued := c.dequeued ++ [pos] }.goto t (.pop_read out pos 0)
    else c.goto t (.pop_top out q.dequeue_pos)
  | .pop_reload out => c.goto t (.pop_top out q.dequeue_pos)
  | .pop_read out pos i =>
    let slot := q.slots (pos &&& C.mask)
    if h : i < W then c.goto t (.pop_read (out.set i slot.data[i]) pos (i + 1))
    else
      -- release: producers of the next lap may write
      { c.store C pos { slot with sequence := size_t (pos + C.mask + 1) } with
        popped := c.popped ++ [Record.mk t pos out] }.goto t .idle

def run (C : Capacity) (c : Config ι α W) (schedule : List (Turn ι α W)) : Config ι α W :=
  schedule.foldl (step C) c

end Config

/-- The position a producer has claimed and is writing. -/
def Pc.writes : Pc α W → Option Nat
  | .push_write _ pos _ => some pos
  | _ => none

/-- The position a consumer has claimed and is reading. -/
def Pc.reads : Pc α W → Option Nat
  | .pop_read _ pos _ => some pos
  | _ => none

namespace Config

/-- The thread is between its claim of a position of this slot and the store
    of the slot's sequence. -/
def Accesses (C : Capacity) (c : Config ι α W) (t : ι) (slot : Nat) : Prop :=
  ∃ pos, ((c.pc t).writes = some pos ∨ (c.pc t).reads = some pos) ∧ pos &&& C.mask = slot

/-- A consumer has claimed the position and its call has returned. -/
def Consumed (c : Config ι α W) (pos : Nat) : Prop :=
  pos < c.queue.dequeue_pos ∧ ∀ t, (c.pc t).reads ≠ some pos

/-- The successful `try_push` calls for one position. -/
def pushedAt (c : Config ι α W) (pos : Nat) : List (Record ι α W) :=
  c.pushed.filter fun r => r.pos = pos

/-- The successful `try_pop` calls for one position. -/
def poppedAt (c : Config ι α W) (pos : Nat) : List (Record ι α W) :=
  c.popped.filter fun r => r.pos = pos

/-- The positions and payloads of one producer, in the order of its returns. -/
def sentBy (c : Config ι α W) (t : ι) : List (Nat × Item α W) :=
  (c.pushed.filter fun r => r.thread = t).map fun r => (r.pos, r.item)

/-- The positions and payloads of one consumer, in the order of its returns. -/
def receivedBy (c : Config ι α W) (t : ι) : List (Nat × Item α W) :=
  (c.popped.filter fun r => r.thread = t).map fun r => (r.pos, r.item)

end Config

end Mpmc

end OptionsEngine
