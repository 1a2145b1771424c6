import Mathlib.Data.List.Perm.Basic
import Mathlib.Data.List.Nodup
import OptionsEngine.Framework.LinkedQueue
import OptionsEngine.PoolAllocator

/-! # The free list of the pool

    The free list runs through cells that users overwrite while they have them,
    so what keeps it intact is that every cell is either free or had by a user,
    never both: `PoolState.Inv` says that the chain from `free_head` and the live objects
    together are the cells of the slab, each once.  The words of the chain are
    then out of reach of the users' writes.

    `pool_integrity` reads off what allocations return and the counters say. -/

namespace OptionsEngine

open Memory LinkedQueue PoolAllocator

variable {S : Slab} {p : PoolAllocator} {s : PoolState} {free : List Nat} {x y : Nat}

/-! ## Section 1: Cells -/

/-- The cells of the slab. -/
def Slab.cells (S : Slab) : List Nat := (List.range S.MaxObjects).map S.cell

theorem Slab.cell_add_le (S : Slab) {i j : Nat} (h : i < j) : S.cell i + S.size ≤ S.cell j := by
  have hle : (i + 1) * S.size ≤ j * S.size := Nat.mul_le_mul_right _ h
  rw [Nat.succ_mul] at hle
  unfold Slab.cell
  omega

theorem Slab.mem_cells : x ∈ S.cells ↔ ∃ i < S.MaxObjects, x = S.cell i := by
  simp only [Slab.cells, List.mem_map, List.mem_range, eq_comm]

theorem Slab.nodup_cells (S : Slab) : S.cells.Nodup := by
  apply List.nodup_range.map
  intro i j heq
  have hpos := S.node_fits
  rcases Nat.lt_trichotomy i j with hlt | heq' | hgt
  · have := S.cell_add_le hlt
    omega
  · exact heq'
  · have := S.cell_add_le hgt
    omega

/-- Two cells do not overlap. -/
theorem Slab.apart (hx : x ∈ S.cells) (hy : y ∈ S.cells) (hne : x ≠ y) :
    x + S.size ≤ y ∨ y + S.size ≤ x := by
  obtain ⟨i, _, rfl⟩ := Slab.mem_cells.mp hx
  obtain ⟨j, _, rfl⟩ := Slab.mem_cells.mp hy
  rcases Nat.lt_trichotomy i j with hlt | heq | hgt
  · exact .inl (S.cell_add_le hlt)
  · exact absurd (congrArg S.cell heq) hne
  · exact .inr (S.cell_add_le hgt)

theorem Slab.pos_of_mem (hx : x ∈ S.cells) : 0 < x := by
  obtain ⟨i, _, rfl⟩ := Slab.mem_cells.mp hx
  exact Nat.add_pos_left S.base_pos _

theorem Slab.lt_of_mem (hx : x ∈ S.cells) : x < 2 ^ 64 := by
  obtain ⟨i, hi, rfl⟩ := Slab.mem_cells.mp hx
  have hend := S.cell_add_le hi
  have hfits := S.in_space
  have hpos := S.node_fits
  unfold Slab.cell at hend ⊢
  omega

theorem Slab.maxObjects_lt (S : Slab) : S.MaxObjects < 2 ^ 64 := by
  have hfits := S.in_space
  have hpos := S.base_pos
  have hle : S.MaxObjects * 1 ≤ S.MaxObjects * S.size :=
    Nat.mul_le_mul_left _ (Nat.le_trans (by decide) S.node_fits)
  omega

/-! ## Section 2: Writes and links -/

/-- Writes into the object at `x` stay inside it. -/
theorem write_frame {writes : Writes} (hw : ∀ w ∈ writes, w.1 < S.size) {a : Nat}
    (ha : a < x ∨ x + S.size ≤ a) : (p.write x writes).mem a = p.mem a := by
  unfold PoolAllocator.write
  simp only
  generalize p.mem = mem
  induction writes generalizing mem with
  | nil => rfl
  | cons w writes ih =>
    have hin := hw w (by simp)
    have hone : store mem (x + w.1) [w.2] a = mem a := by
      rcases ha with hlt | hge
      · exact store_of_lt (by omega)
      · exact store_of_ge (by rw [List.length_singleton]; omega)
    rw [List.foldl_cons, ih (fun v hv => hw v (by simp [hv])), hone]

theorem next_set_next_self {mem : Nat → UInt8} {n : Nat} (hn : n < 2 ^ 64) :
    next (set_next mem x n) x = n := load_store (n := 8) (by omega)

theorem next_set_next {mem : Nat → UInt8} {n : Nat} (h : x + 8 ≤ y ∨ y + 8 ≤ x) :
    next (set_next mem x n) y = next mem y := by
  apply load_congr
  intro i hle hlt
  rcases h with h | h
  · exact store_of_ge (by rw [length_leBytes]; omega)
  · exact store_of_lt (by omega)

/-- The link of another cell survives writes into an object. -/
theorem next_write (hx : x ∈ S.cells) (hy : y ∈ S.cells) (hne : y ≠ x) {writes : Writes}
    (hw : ∀ w ∈ writes, w.1 < S.size) : next (p.write x writes).mem y = next p.mem y := by
  have hsize := S.node_fits
  have hapart := Slab.apart hx hy (Ne.symm hne)
  apply load_congr
  intro i hle hlt
  exact write_frame hw (by omega)

/-- The loop of the constructor puts the cells below `i` in front of the ones
    already linked. -/
theorem chain_build (S : Slab) (i : Nat) :
    ∀ (mem : Nat → UInt8) {head : Nat} {q : List Nat}, i ≤ S.MaxObjects →
      head = q.headD 0 → Chain (next mem) q 0 → (∀ x ∈ q, x ∈ S.cells ∧ S.cell i ≤ x) →
      (build S i mem head).2 = ((List.range i).map S.cell ++ q).headD 0 ∧
        Chain (next (build S i mem head).1) ((List.range i).map S.cell ++ q) 0 := by
  induction i with
  | zero =>
    intro mem head q _ hhead hchain _
    exact ⟨hhead, hchain⟩
  | succ i ih =>
    intro mem head q hi hhead hchain hq
    have hcell : S.cell i ∈ S.cells := Slab.mem_cells.mpr ⟨i, hi, rfl⟩
    have hstep : S.cell i + S.size ≤ S.cell (i + 1) := S.cell_add_le (Nat.lt_succ_self i)
    have hsize := S.node_fits
    have hlt : head < 2 ^ 64 := by
      rw [hhead]
      cases q with
      | nil => exact Nat.two_pow_pos 64
      | cons x q => exact Slab.lt_of_mem (hq x (by simp)).1
    -- the cells linked so far lie above the one written now
    have hchain' : Chain (next (set_next mem (S.cell i) head)) (S.cell i :: q) 0 := by
      refine ⟨by rw [next_set_next_self hlt, hhead], hchain.congr ?_⟩
      intro y hy
      have habove := (hq y hy).2
      exact next_set_next (by omega)
    have hq' : ∀ x ∈ S.cell i :: q, x ∈ S.cells ∧ S.cell i ≤ x := by
      intro x hx
      rcases List.mem_cons.mp hx with rfl | hx
      · exact ⟨hcell, Nat.le_refl _⟩
      · obtain ⟨hmem, habove⟩ := hq x hx
        exact ⟨hmem, by omega⟩
    have hlist : (List.range (i + 1)).map S.cell ++ q =
        (List.range i).map S.cell ++ S.cell i :: q := by
      rw [List.range_succ, List.map_append, List.append_assoc]
      rfl
    rw [hlist]
    exact ih _ (Nat.le_of_lt hi) rfl hchain' hq'

/-! ## Section 3: The invariant -/

/-- The free list holds the cells `free`, the users have all the others. -/
structure PoolState.Inv (S : Slab) (s : PoolState) (free : List Nat) : Prop where
  head : s.pool.free_head = free.headD 0
  chain : Chain (next s.pool.mem) free 0
  cells : (free ++ s.live).Perm S.cells
  total : s.pool.total = .ofNat S.MaxObjects
  allocated : s.pool.allocated = .ofNat s.live.length

namespace PoolState

namespace Inv

theorem free_mem (h : Inv S s free) (hx : x ∈ free) : x ∈ S.cells :=
  h.cells.subset (List.mem_append_left _ hx)

theorem live_mem (h : Inv S s free) (hx : x ∈ s.live) : x ∈ S.cells :=
  h.cells.subset (List.mem_append_right _ hx)

theorem nodup (h : Inv S s free) : (free ++ s.live).Nodup := h.cells.nodup_iff.mpr S.nodup_cells

theorem ne_of_mem (h : Inv S s free) (hx : x ∈ free) (hy : y ∈ s.live) : x ≠ y :=
  (List.nodup_append.mp h.nodup).2.2 x hx y hy

theorem length_eq (h : Inv S s free) : free.length + s.live.length = S.MaxObjects := by
  have hlen := h.cells.length_eq
  simpa [Slab.cells] using hlen

theorem head_lt (h : Inv S s free) : s.pool.free_head < 2 ^ 64 := by
  rw [h.head]
  cases free with
  | nil => exact Nat.two_pow_pos 64
  | cons x free => exact Slab.lt_of_mem (h.free_mem (by simp))

/-- Users write into objects they have. -/
theorem write (h : Inv S s free) (hx : x ∈ s.live) {writes : Writes}
    (hw : ∀ w ∈ writes, w.1 < S.size) : Inv S ⟨s.pool.write x writes, s.live⟩ free where
  head := h.head
  chain := h.chain.congr fun _ hy =>
    next_write (h.live_mem hx) (h.free_mem hy) (h.ne_of_mem hy hx) hw
  cells := h.cells
  total := h.total
  allocated := h.allocated

/-- Nothing is free. -/
theorem allocate_nil (h : Inv S s []) : s.pool.allocate = (0, s.pool) := if_pos h.head

/-- The first free cell is handed out. -/
theorem allocate_cons (h : Inv S s (x :: free)) :
    s.pool.allocate.1 = x ∧ Inv S ⟨s.pool.allocate.2, x :: s.live⟩ free := by
  have hhead : s.pool.free_head = x := h.head
  have hne : s.pool.free_head ≠ 0 := by
    rw [hhead]
    exact Nat.ne_of_gt (Slab.pos_of_mem (h.free_mem (by simp)))
  obtain ⟨hlink, hchain⟩ := h.chain
  unfold PoolAllocator.allocate
  rw [if_neg hne, hhead]
  refine ⟨rfl, ⟨hlink, hchain, ?_, h.total, ?_⟩⟩
  · exact List.perm_middle.trans h.cells
  · show s.pool.allocated + 1 = _
    rw [h.allocated, List.length_cons, UInt64.ofNat_add]
    rfl

/-- The destructor runs, and then the cell goes in front of the free list. -/
theorem deallocate (h : Inv S s free) (hx : x ∈ s.live) {dtor : Writes}
    (hw : ∀ w ∈ dtor, w.1 < S.size) :
    Inv S ⟨s.pool.deallocate x dtor, s.live.erase x⟩ (x :: free) := by
  have h₁ := h.write hx hw
  have hsize := S.node_fits
  refine ⟨rfl, ⟨?_, ?_⟩, ?_, h.total, ?_⟩
  · show next (set_next _ x s.pool.free_head) x = free.headD 0
    rw [next_set_next_self h.head_lt, h.head]
  · apply h₁.chain.congr
    intro y hy
    have hapart := Slab.apart (h.live_mem hx) (h.free_mem hy) (Ne.symm (h.ne_of_mem hy hx))
    exact next_set_next (by omega)
  · have hback : (x :: (free ++ s.live.erase x)).Perm (free ++ s.live) :=
      List.perm_middle.symm.trans ((List.perm_cons_erase hx).symm.append_left free)
    exact hback.trans h.cells
  · have hpos : 0 < s.live.length := List.length_pos_of_mem hx
    show s.pool.allocated - 1 = _
    rw [h.allocated, List.length_erase_of_mem hx, UInt64.ofNat_sub (by omega)]
    rfl

/-! ## Section 4: Runs -/

/-- What `allocate` returns and leaves. -/
theorem allocate (h : Inv S s free) :
    (s.pool.allocate.1 = 0 ∧ s.live.length = S.MaxObjects ∧ s.pool.allocate.2 = s.pool) ∨
      (s.live.length < S.MaxObjects ∧ s.pool.allocate.1 ∈ S.cells ∧
        s.pool.allocate.1 ∉ s.live ∧
        ∃ free', Inv S ⟨s.pool.allocate.2, s.pool.allocate.1 :: s.live⟩ free') := by
  have hlen := h.length_eq
  cases free with
  | nil =>
    rw [h.allocate_nil]
    exact .inl ⟨rfl, by simpa using hlen, rfl⟩
  | cons x free =>
    obtain ⟨hret, hinv⟩ := h.allocate_cons
    rw [hret]
    refine .inr ⟨?_, h.free_mem (by simp), ?_, free, hinv⟩
    · rw [List.length_cons] at hlen
      omega
    · exact fun hx => h.ne_of_mem (by simp) hx rfl

theorem construct (h : Inv S s free) {ctor : Writes} (hw : ∀ w ∈ ctor, w.1 < S.size) :
    (s.pool.construct ctor).1 = s.pool.allocate.1 ∧
      ∃ free', Inv S (s.step (.construct ctor)) free' := by
  unfold PoolAllocator.construct PoolState.step PoolState.returns PoolAllocator.construct
  simp only
  rcases h.allocate with ⟨hnull, _, hsame⟩ | ⟨_, hcell, _, free', hinv⟩
  · rw [if_pos hnull]
    refine ⟨hnull.symm, free, ?_⟩
    simpa [hsame] using h
  · have hne : s.pool.allocate.1 ≠ 0 := Nat.ne_of_gt (Slab.pos_of_mem hcell)
    rw [if_neg hne]
    simp only [if_neg hne]
    exact ⟨trivial, free', hinv.write (by simp) hw⟩

theorem step (h : Inv S s free) {call : PoolCall} (hallowed : s.Allowed S call) :
    ∃ free', Inv S (s.step call) free' := by
  cases call with
  | allocate =>
    unfold PoolState.step PoolState.returns
    simp only
    rcases h.allocate with ⟨hnull, _, hsame⟩ | ⟨_, hcell, _, free', hinv⟩
    · rw [hsame, if_pos hnull]
      exact ⟨free, h⟩
    · rw [if_neg (Nat.ne_of_gt (Slab.pos_of_mem hcell))]
      exact ⟨free', hinv⟩
  | construct ctor => exact (h.construct hallowed).2
  | deallocate ptr dtor => exact ⟨ptr :: free, h.deallocate hallowed.1 hallowed.2⟩
  | write ptr writes => exact ⟨free, h.write hallowed.1 hallowed.2⟩

end Inv

theorem inv_start (S : Slab) (mem : Nat → UInt8) : Inv S (start S mem) S.cells := by
  have hnone : ∀ x ∈ ([] : List Nat), x ∈ S.cells ∧ S.cell S.MaxObjects ≤ x :=
    fun _ hx => absurd hx List.not_mem_nil
  obtain ⟨hhead, hchain⟩ := chain_build S S.MaxObjects mem (Nat.le_refl _) rfl
    (chain_nil 0) hnone
  rw [List.append_nil] at hhead hchain
  exact ⟨hhead, hchain, by rw [start, List.append_nil], rfl, rfl⟩

theorem inv_run (calls : List PoolCall) :
    ∀ {s : PoolState} {free : List Nat}, Inv S s free → AllAllowed S s calls →
      ∃ free', Inv S (s.run calls) free' := by
  induction calls with
  | nil => exact fun h _ => ⟨_, h⟩
  | cons call calls ih =>
    intro s free h hallowed
    obtain ⟨free', h'⟩ := h.step hallowed.1
    exact ih h' hallowed.2

/-- A pointer that a call returns. -/
theorem Inv.returns (h : Inv S s free) {call : PoolCall} (hallowed : s.Allowed S call) {ptr : Nat}
    (hret : s.returns call = some ptr) : ptr = s.pool.allocate.1 := by
  cases call with
  | allocate => exact (Option.some.inj hret).symm
  | construct ctor => rw [← (h.construct hallowed).1, Option.some.inj hret]
  | deallocate _ _ => cases hret
  | write _ _ => cases hret

end PoolState

open PoolState

/-- However the objects of a pool are allocated, constructed, overwritten and
    released: the counters say how many are live, a pointer is null exactly if
    all cells are, and any other pointer returned is that of a cell nobody has. -/
theorem pool_integrity (S : Slab) (mem : Nat → UInt8) (calls : List PoolCall)
    (hallowed : AllAllowed S (start S mem) calls) :
    let s := (start S mem).run calls
    s.pool.allocated.toNat = s.live.length ∧
      s.pool.available.toNat + s.pool.allocated.toNat = S.MaxObjects ∧
      ∀ call ptr, s.Allowed S call → s.returns call = some ptr →
        (ptr = 0 ↔ s.live.length = S.MaxObjects) ∧
        (ptr ≠ 0 → (∃ i < S.MaxObjects, ptr = S.base + i * S.size) ∧ ptr ∉ s.live) := by
  intro s
  obtain ⟨free, h⟩ : ∃ free, Inv S s free := inv_run calls (inv_start S mem) hallowed
  have hlen := h.length_eq
  have hmax := S.maxObjects_lt
  have hallocated : s.pool.allocated.toNat = s.live.length := by
    rw [h.allocated, UInt64.toNat_ofNat']
    omega
  have htotal : s.pool.total.toNat = S.MaxObjects := by
    rw [h.total, UInt64.toNat_ofNat']
    omega
  refine ⟨hallocated, ?_, ?_⟩
  · have hle : s.pool.allocated ≤ s.pool.total := by
      rw [UInt64.le_iff_toNat_le]
      omega
    rw [PoolAllocator.available, UInt64.toNat_sub_of_le _ _ hle]
    omega
  · intro call ptr hcall hret
    rw [h.returns hcall hret]
    rcases h.allocate with ⟨hnull, hfull, _⟩ | ⟨hroom, hcell, hnew, _⟩
    · rw [hnull]
      exact ⟨⟨fun _ => hfull, fun _ => rfl⟩, fun hc => absurd rfl hc⟩
    · have hpos := Slab.pos_of_mem hcell
      refine ⟨by omega, fun _ => ⟨Slab.mem_cells.mp hcell, hnew⟩⟩

/-- Two cells at address 4096; the first object, overwritten with ones, is given
    back and handed out again. -/
theorem pool_reuse :
    let S : Slab := ⟨2, 8, 4096, by decide, by decide, by decide⟩
    let calls : List PoolCall := [.allocate, .construct [], .write 4096 [(0, 255), (7, 255)],
      .deallocate 4096 []]
    let s := (start S fun _ => 0).run calls
    AllAllowed S (start S fun _ => 0) calls ∧ s.live = [4104] ∧
      s.pool.available.toNat + s.pool.allocated.toNat = 2 ∧ s.returns .allocate = some 4096 := by
  intro S calls s
  have hallowed : AllAllowed S (start S fun _ => 0) calls := by decide +kernel
  have h := pool_integrity S (fun _ => 0) calls hallowed
  refine ⟨hallowed, by decide +kernel, h.2.1, by decide +kernel⟩

end OptionsEngine
