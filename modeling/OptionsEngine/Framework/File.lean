import Mathlib.Algebra.GroupWithZero.Nat
import Mathlib.Data.List.Basic

/-! # Files as streams of bytes

    * `Stream`: the contents of an open file and the position in it.
    * `fwrite`: overwrites from the position on and extends the file; it fails
      where the file would outgrow the offsets the system has.
    * `fread`: a whole block, or nothing at the end of the file.
    * `fwrite_end`, `fwrite_over`: appending, and patching in place.
    * `fread_eq`: what a read finds is the first block of the `rest`. -/

namespace File

structure Stream where
  bytes : List UInt8
  pos : Nat
  deriving DecidableEq

/-- The largest offset, `off_t` being signed and 64 bits wide. -/
def maxOffset : Nat := 2 ^ 63 - 1

variable {block : List UInt8}

namespace Stream

/-- A file just opened for reading. -/
def openRead (bytes : List UInt8) : Stream := ⟨bytes, 0⟩

/-- A file just opened for writing: what it had is gone. -/
def openWrite : Stream := ⟨[], 0⟩

def fseek (f : Stream) (offset : Nat) : Stream := ⟨f.bytes, offset⟩

/-- Write a block at the position; a gap before it is filled with zeros. -/
def fwrite (f : Stream) (block : List UInt8) : Option Stream :=
  if f.pos + block.length ≤ maxOffset then
    some ⟨f.bytes.take f.pos ++ List.replicate (f.pos - f.bytes.length) 0 ++ block ++
      f.bytes.drop (f.pos + block.length), f.pos + block.length⟩
  else none

/-- Read a block of `n` bytes; none if there are not so many left. -/
def fread (f : Stream) (n : Nat) : Option (List UInt8 × Stream) :=
  if f.pos + n ≤ f.bytes.length then
    some ((f.bytes.drop f.pos).take n, ⟨f.bytes, f.pos + n⟩)
  else none

/-- What is left to read. -/
def rest (f : Stream) : List UInt8 := f.bytes.drop f.pos

/-! ## Writing -/

theorem fwrite_end {bytes : List UInt8} {pos : Nat} (h : pos = bytes.length) :
    Stream.fwrite ⟨bytes, pos⟩ block =
      if pos + block.length ≤ maxOffset then some ⟨bytes ++ block, pos + block.length⟩
      else none := by
  have hdrop : bytes.drop (bytes.length + block.length) = [] :=
    List.drop_of_length_le (Nat.le_add_right _ _)
  unfold fwrite
  rw [h, hdrop]
  simp

/-- A block written over one of its own length leaves the others. -/
theorem fwrite_over {before old after : List UInt8} (hold : block.length = old.length)
    (hfits : before.length + block.length ≤ maxOffset) :
    Stream.fwrite ⟨before ++ old ++ after, before.length⟩ block =
      some ⟨before ++ block ++ after, before.length + block.length⟩ := by
  unfold fwrite
  have hgap : before.length - (before ++ old ++ after).length = 0 := by
    simp only [List.length_append]
    omega
  have htake : (before ++ old ++ after).take before.length = before := by
    rw [List.append_assoc, List.take_left]
  have hdrop : (before ++ old ++ after).drop (before.length + block.length) = after := by
    rw [hold, ← List.length_append, List.drop_left]
  rw [if_pos hfits, hgap, htake, hdrop]
  simp

/-! ## Reading -/

theorem fread_eq (f : Stream) {n : Nat} (hn : 0 < n) :
    f.fread n =
      if n ≤ f.rest.length then some (f.rest.take n, ⟨f.bytes, f.pos + n⟩) else none := by
  unfold fread rest
  rw [List.length_drop]
  by_cases h : f.pos + n ≤ f.bytes.length
  · rw [if_pos h, if_pos (by omega)]
  · rw [if_neg h, if_neg (by omega)]

theorem rest_advance (f : Stream) (n : Nat) : rest ⟨f.bytes, f.pos + n⟩ = f.rest.drop n := by
  unfold rest
  rw [List.drop_drop]

end Stream

end File
