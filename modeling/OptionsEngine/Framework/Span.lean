import Mathlib.Algebra.GroupWithZero.Nat
import Mathlib.Logic.Function.Basic

/-! # Spans of memory

    A view of part of a memory, as a decoder of a byte buffer sees it:

    * `Span`: a start and a length over the whole memory, so that a span may
      reach past the buffer it was made from.
    * `subspan`: a span of exactly the length asked for; nothing clamps it.
    * `le`: a little-endian load.
    * `extent`: the addresses that a copy of the first bytes reads.
    * `Shows`: the bytes that a span has from an offset on.
    * `leBytes`: the bytes of a number, least significant first; `le_of_shows`
      loads it back.
    * `load`, `store`: a word at an address.  `load_store` reads back what was
      stored, `load_congr` is the frame rule. -/

namespace Memory

structure Span where
  mem : Nat → UInt8
  start : Nat
  size : Nat

/-- A buffer at the start of a memory, followed by what happens to be there. -/
def Span.ofBytes (bytes : List UInt8) (beyond : Nat → UInt8) : Span where
  mem := fun i => bytes.getD i (beyond i)
  start := 0
  size := bytes.length

namespace Span

/-- The span of `count` bytes from `offset` on. -/
def subspan (s : Span) (offset count : Nat) : Span := ⟨s.mem, s.start + offset, count⟩

/-- The `n` bytes from `offset` on, least significant first. -/
def le (s : Span) (offset : Nat) : Nat → Nat
  | 0 => 0
  | n + 1 => (s.mem (s.start + offset)).toNat + 256 * s.le (offset + 1) n

/-- The addresses of the first `n` bytes. -/
def extent (s : Span) (n : Nat) : List Nat := (List.range n).map (s.start + ·)

theorem mem_extent {s : Span} {n i : Nat} :
    i ∈ s.extent n ↔ s.start ≤ i ∧ i < s.start + n := by
  simp only [extent, List.mem_map, List.mem_range]
  constructor
  · rintro ⟨k, hk, rfl⟩
    omega
  · rintro ⟨hle, hlt⟩
    exact ⟨i - s.start, by omega, by omega⟩

/-! ## Reading back what was written -/

/-- The bytes from `offset` on begin with the given ones. -/
def Shows (s : Span) : Nat → List UInt8 → Prop
  | _, [] => True
  | offset, b :: bs => s.mem (s.start + offset) = b ∧ s.Shows (offset + 1) bs

theorem shows_append {s : Span} {xs ys : List UInt8} {offset : Nat} :
    s.Shows offset (xs ++ ys) ↔ s.Shows offset xs ∧ s.Shows (offset + xs.length) ys := by
  induction xs generalizing offset with
  | nil => simp [Shows]
  | cons x xs ih =>
    have hlen : offset + 1 + xs.length = offset + (x :: xs).length := by
      rw [List.length_cons]
      omega
    simp only [List.cons_append, Shows, ih, hlen, and_assoc]

theorem shows_of_getD {s : Span} {bytes : List UInt8} {offset : Nat}
    (h : ∀ i < bytes.length, s.mem (s.start + offset + i) = bytes.getD i 0) :
    s.Shows offset bytes := by
  induction bytes generalizing offset with
  | nil => trivial
  | cons b bs ih =>
    refine ⟨h 0 (Nat.succ_pos _), ih ?_⟩
    intro i hi
    have := h (i + 1) (by simpa using hi)
    rwa [List.getD_cons_succ, show s.start + offset + (i + 1) = s.start + (offset + 1) + i by omega]
      at this

/-- A buffer shows its bytes. -/
theorem shows_ofBytes (bytes : List UInt8) (beyond : Nat → UInt8) :
    (ofBytes bytes beyond).Shows 0 bytes := by
  apply shows_of_getD
  intro i hi
  simp [ofBytes, hi]

theorem Shows.subspan {s : Span} {bytes : List UInt8} {offset start : Nat} (count : Nat)
    (h : s.Shows (start + offset) bytes) : (s.subspan start count).Shows offset bytes := by
  induction bytes generalizing offset with
  | nil => trivial
  | cons b bs ih =>
    refine ⟨?_, ih h.2⟩
    have hmem := h.1
    rwa [← Nat.add_assoc] at hmem

end Span

/-- The `n` low bytes of `v`, least significant first. -/
def leBytes : Nat → Nat → List UInt8
  | 0, _ => []
  | n + 1, v => UInt8.ofNat (v % 256) :: leBytes n (v / 256)

@[simp] theorem length_leBytes (n v : Nat) : (leBytes n v).length = n := by
  induction n generalizing v with
  | zero => rfl
  | succ n ih => rw [leBytes, List.length_cons, ih]

/-- A load reads back the number whose bytes are there. -/
theorem Span.le_of_shows {s : Span} (n : Nat) :
    ∀ {offset v : Nat}, v < 256 ^ n → s.Shows offset (leBytes n v) → s.le offset n = v := by
  induction n with
  | zero =>
    intro offset v hv _
    have : v = 0 := by simpa using hv
    rw [this]
    rfl
  | succ n ih =>
    intro offset v hv h
    have hdiv : v / 256 < 256 ^ n := by
      rw [Nat.div_lt_iff_lt_mul (by decide)]
      rwa [Nat.pow_succ] at hv
    rw [Span.le, h.1, ih hdiv h.2, UInt8.toNat_ofNat']
    omega

/-! ## Words at an address -/

variable {mem mem' : Nat → UInt8} {a n : Nat}

/-- The `n`-byte word at address `a`. -/
def load (mem : Nat → UInt8) (a n : Nat) : Nat := Span.le ⟨mem, a, n⟩ 0 n

/-- The memory with the given bytes from address `a` on. -/
def store (mem : Nat → UInt8) (a : Nat) (bytes : List UInt8) : Nat → UInt8 := fun i =>
  if a ≤ i ∧ i < a + bytes.length then bytes.getD (i - a) 0 else mem i

theorem store_of_lt {bytes : List UInt8} {i : Nat} (h : i < a) : store mem a bytes i = mem i :=
  if_neg (by omega)

theorem store_of_ge {bytes : List UInt8} {i : Nat} (h : a + bytes.length ≤ i) :
    store mem a bytes i = mem i :=
  if_neg (by omega)

theorem load_store {v : Nat} (hv : v < 256 ^ n) : load (store mem a (leBytes n v)) a n = v := by
  apply Span.le_of_shows n hv
  apply Span.shows_of_getD
  intro i hi
  show store mem a (leBytes n v) (a + 0 + i) = _
  rw [store, if_pos (by omega)]
  congr 1
  omega

/-- A load reads its own bytes only. -/
theorem load_congr (h : ∀ i, a ≤ i → i < a + n → mem' i = mem i) : load mem' a n = load mem a n := by
  have hle : ∀ k offset, offset + k ≤ n →
      Span.le ⟨mem', a, n⟩ offset k = Span.le ⟨mem, a, n⟩ offset k := by
    intro k
    induction k with
    | zero => exact fun _ _ => rfl
    | succ k ih =>
      intro offset hk
      have hbyte : mem' (a + offset) = mem (a + offset) := h _ (by omega) (by omega)
      rw [Span.le, Span.le, ih (offset + 1) (by omega)]
      simp only [hbyte]
  exact hle n 0 (by omega)

end Memory
