import OptionsEngine.Framework.Span

/-! # The pool allocator (`util/allocator.hpp`)

    A slab of equal cells whose free list is threaded through the cells
    themselves: the first word of a free cell is the address of the next one.
    The memory is one of bytes, shared with the users of the pool, who write
    into their objects whatever they like; so do the constructor and the
    destructor of an object.

    The pool is asked to map memory once and to unmap it at the end; a mapping
    that fails ends the program.  The advice given with it has no part in the
    model. -/

namespace OptionsEngine

open Memory

/-- The template arguments, and the slab that was mapped. -/
structure Slab where
  MaxObjects : Nat
  /-- `sizeof(T)`. -/
  size : Nat
  /-- The address `mmap` returned. -/
  base : Nat
  /-- The static assertion: a cell has room for a pointer. -/
  node_fits : 8 ≤ size
  /-- The mapping did not fail: it is not at the null address and lies within
      the address space. -/
  base_pos : 0 < base
  in_space : base + MaxObjects * size ≤ 2 ^ 64

/-- The address of a cell. -/
def Slab.cell (S : Slab) (i : Nat) : Nat := S.base + i * S.size

/-- `class PoolAllocator`, with the memory its slab is in. -/
structure PoolAllocator where
  mem : Nat → UInt8
  /-- The first free cell; 0 is the null pointer. -/
  free_head : Nat
  total : UInt64
  allocated : UInt64

/-- Bytes written into an object, by their offset. -/
abbrev Writes := List (Nat × UInt8)

namespace PoolAllocator

/-- `node->next = next`. -/
def set_next (mem : Nat → UInt8) (node next : Nat) : Nat → UInt8 := store mem node (leBytes 8 next)

/-- `node->next`. -/
def next (mem : Nat → UInt8) (node : Nat) : Nat := load mem node 8

/-- The loop of the constructor, over the cells below `i` from the last one
    down. -/
def build (S : Slab) : Nat → (Nat → UInt8) → Nat → (Nat → UInt8) × Nat
  | 0, mem, free_head => (mem, free_head)
  | i + 1, mem, free_head => build S i (set_next mem (S.cell i) free_head) (S.cell i)

/-- The constructor, on whatever the memory holds. -/
def fresh (S : Slab) (mem : Nat → UInt8) : PoolAllocator :=
  let (mem, free_head) := build S S.MaxObjects mem 0
  { mem := mem, free_head := free_head, total := .ofNat S.MaxObjects, allocated := 0 }

/-- The pointer returned, null if there is no free cell. -/
def allocate (p : PoolAllocator) : Nat × PoolAllocator :=
  if p.free_head = 0 then (0, p)
  else
    let node := p.free_head
    (node, { p with free_head := next p.mem node, allocated := p.allocated + 1 })

/-- Somebody writes into the object at `ptr`. -/
def write (p : PoolAllocator) (ptr : Nat) (writes : Writes) : PoolAllocator :=
  { p with mem := writes.foldl (fun mem w => store mem (ptr + w.1) [w.2]) p.mem }

/-- `deallocate(ptr)`, with what the destructor writes. -/
def deallocate (p : PoolAllocator) (ptr : Nat) (dtor : Writes) : PoolAllocator :=
  let p := p.write ptr dtor
  { p with
    mem := set_next p.mem ptr p.free_head
    free_head := ptr
    allocated := p.allocated - 1 }

/-- `construct(args...)`, with what the constructor writes. -/
def construct (p : PoolAllocator) (ctor : Writes) : Nat × PoolAllocator :=
  let (mem, p) := p.allocate
  if mem = 0 then (0, p) else (mem, p.write mem ctor)

def available (p : PoolAllocator) : UInt64 := p.total - p.allocated

end PoolAllocator

/-! ## Runs -/

/-- What the users of a pool do. -/
inductive PoolCall where
  | allocate
  | construct (ctor : Writes)
  | deallocate (ptr : Nat) (dtor : Writes)
  /-- Writes into an object. -/
  | write (ptr : Nat) (writes : Writes)

/-- The pool, and the objects its users have, the latest first. -/
structure PoolState where
  pool : PoolAllocator
  live : List Nat

namespace PoolState

def start (S : Slab) (mem : Nat → UInt8) : PoolState := ⟨.fresh S mem, []⟩

/-- The pointer a call returns, if it returns one. -/
def returns (s : PoolState) : PoolCall → Option Nat
  | .allocate => some s.pool.allocate.1
  | .construct ctor => some (s.pool.construct ctor).1
  | .deallocate _ _ => none
  | .write _ _ => none

/-- An object is had from the call that returns it to its deallocation. -/
def step (s : PoolState) (call : PoolCall) : PoolState where
  pool :=
    match call with
    | .allocate => s.pool.allocate.2
    | .construct ctor => (s.pool.construct ctor).2
    | .deallocate ptr dtor => s.pool.deallocate ptr dtor
    | .write ptr writes => s.pool.write ptr writes
  live :=
    match call with
    | .deallocate ptr _ => s.live.erase ptr
    | _ =>
      match s.returns call with
      | some ptr => if ptr = 0 then s.live else ptr :: s.live
      | none => s.live

def run (s : PoolState) (calls : List PoolCall) : PoolState := calls.foldl step s

/-- What users may do: deallocate an object they have, and write inside one. -/
def Allowed (S : Slab) (s : PoolState) : PoolCall → Prop
  | .allocate => True
  | .construct ctor => ∀ w ∈ ctor, w.1 < S.size
  | .deallocate ptr dtor => ptr ∈ s.live ∧ ∀ w ∈ dtor, w.1 < S.size
  | .write ptr writes => ptr ∈ s.live ∧ ∀ w ∈ writes, w.1 < S.size

instance (S : Slab) (s : PoolState) (call : PoolCall) : Decidable (s.Allowed S call) :=
  match call with
  | .allocate => .isTrue trivial
  | .construct ctor => inferInstanceAs (Decidable (∀ w ∈ ctor, w.1 < S.size))
  | .deallocate ptr dtor =>
    inferInstanceAs (Decidable (ptr ∈ s.live ∧ ∀ w ∈ dtor, w.1 < S.size))
  | .write ptr writes =>
    inferInstanceAs (Decidable (ptr ∈ s.live ∧ ∀ w ∈ writes, w.1 < S.size))

/-- Every call of the sequence is allowed when it is made. -/
def AllAllowed (S : Slab) : PoolState → List PoolCall → Prop
  | _, [] => True
  | s, call :: calls => s.Allowed S call ∧ AllAllowed S (s.step call) calls

instance decidableAllAllowed (S : Slab) :
    ∀ (s : PoolState) (calls : List PoolCall), Decidable (AllAllowed S s calls)
  | _, [] => .isTrue trivial
  | s, call :: calls =>
    have := decidableAllAllowed S (s.step call) calls
    inferInstanceAs (Decidable (_ ∧ _))

end PoolState

end OptionsEngine
