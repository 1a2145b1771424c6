import OptionsEngine.Framework.Ring

/-! # The single-producer single-consumer queue (`core/spsc_queue.hpp`)

    A ring of `Capacity` slots with a cursor for each side; one slot stays
    unused, so that equal cursors mean an empty queue.  The buffer is a total
    map from slot numbers, and arbitrary memory to begin with.

    `try_push` and `try_pop` are here whole calls, as one thread alone sees
    them; `Holds` says which items a queue stores. -/

namespace OptionsEngine

open Ring

/-! The queues of the engine all have `1 << 16` slots, which the `requires`
    clause of the template admits. -/

theorem one_lt_depth : 1 < 65536 := by decide

theorem pow_two_depth : 65536 &&& (65536 - 1) = 0 := by decide

theorem depth_fits : 65536 < 2 ^ 64 := by decide

/-- `SPSCQueue<T, Capacity>`. -/
structure SPSCQueue (T : Type) where
  buffer : Nat → T
  write_pos : Nat
  read_pos : Nat

namespace SPSCQueue

variable {T : Type} (C : Capacity)

/-- The constructor, over the memory it finds. -/
def fresh (mem : Nat → T) : SPSCQueue T := ⟨mem, 0, 0⟩

def try_push (q : SPSCQueue T) (item : T) : SPSCQueue T × Bool :=
  let wp := q.write_pos
  let next := (wp + 1) &&& C.mask
  -- one slot stays free, so that a full queue differs from an empty one
  if next = q.read_pos then (q, false)
  else ({ q with buffer := Function.update q.buffer wp item, write_pos := next }, true)

/-- The item popped stands for the pair of the result `true` and the value of
    `out`; `none` is the result `false`, which leaves `out` alone. -/
def try_pop (q : SPSCQueue T) : SPSCQueue T × Option T :=
  let rp := q.read_pos
  if rp = q.write_pos then (q, none)
  else ({ q with read_pos := (rp + 1) &&& C.mask }, some (q.buffer rp))

def empty (q : SPSCQueue T) : Bool := q.read_pos == q.write_pos

/-- The difference of the two cursors is taken in `size_t`. -/
def size_approx (q : SPSCQueue T) : Nat := (q.write_pos + 2 ^ 64 - q.read_pos) % 2 ^ 64 &&& C.mask

/-- The items between the cursors, oldest first. -/
def contents (q : SPSCQueue T) : List T :=
  (List.range ((q.write_pos + C.size - q.read_pos) % C.size)).map
    fun i => q.buffer ((q.read_pos + i) % C.size)

/-! ## Pushes, whatever the cursors -/

section push

variable {C} {q q' : SPSCQueue T} {x y : T}

theorem try_push_false (h : q.try_push C x = (q', false)) : q' = q := by
  unfold try_push at h
  simp only at h
  split at h
  · exact (Prod.mk.inj h).1.symm
  · cases (Prod.mk.inj h).2

/-- A push that succeeds moves the write cursor and stores its item. -/
theorem try_push_true (h : q.try_push C x = (q', true)) :
    q' ≠ q ∧ q'.buffer q.write_pos = x := by
  unfold try_push at h
  simp only at h
  split at h
  · cases (Prod.mk.inj h).2
  · obtain rfl := (Prod.mk.inj h).1
    refine ⟨?_, by simp⟩
    intro heq
    have hone := C.one_lt
    have hpos : (q.write_pos + 1) &&& C.mask = q.write_pos := congrArg write_pos heq
    rw [C.and_mask] at hpos
    rcases Nat.lt_or_ge (q.write_pos + 1) C.size with hin | hwrap
    · rw [Nat.mod_eq_of_lt hin] at hpos
      omega
    · have hlt : q.write_pos < C.size := hpos ▸ Nat.mod_lt _ C.pos
      obtain hend : q.write_pos + 1 = C.size := by omega
      rw [hend, Nat.mod_self] at hpos
      omega

theorem try_push_inj (h : q.try_push C x = (q', true)) (h' : q.try_push C y = (q', true)) :
    x = y := (try_push_true h).2.symm.trans (try_push_true h').2

end push

/-! ## What a queue stores -/

/-- `n` items have left the queue and `items` are in it. -/
structure Holds (q : SPSCQueue T) (n : Nat) (items : List T) : Prop where
  read_pos_eq : q.read_pos = n % C.size
  write_pos_eq : q.write_pos = (n + items.length) % C.size
  length_lt : items.length < C.size
  window : Window q.buffer C.size n items

variable {C} {q : SPSCQueue T} {n : Nat} {items : List T} {x : T}

theorem holds_fresh (mem : Nat → T) : Holds C (fresh mem) 0 [] where
  read_pos_eq := by simp [fresh]
  write_pos_eq := by simp [fresh]
  length_lt := C.pos
  window := Window.nil

theorem Holds.next_eq (h : Holds C q n items) :
    (q.write_pos + 1) &&& C.mask = (n + (items.length + 1)) % C.size := by
  rw [C.and_mask, h.write_pos_eq, Nat.mod_add_mod]
  rfl

/-- The successor of the write cursor meets the read cursor exactly when one
    slot is left. -/
theorem Holds.full_iff (h : Holds C q n items) :
    (q.write_pos + 1) &&& C.mask = q.read_pos ↔ items.length = C.size - 1 := by
  have hlt := h.length_lt
  rw [h.next_eq, h.read_pos_eq]
  constructor
  · intro heq
    by_contra hne
    have := eq_of_mod_eq (Nat.le_add_right n _) (by omega) heq.symm
    omega
  · intro hlen
    rw [hlen, show n + (C.size - 1 + 1) = n + C.size by omega, Nat.add_mod_right]

/-- The cursors meet exactly when nothing is stored. -/
theorem Holds.empty_iff (h : Holds C q n items) : q.read_pos = q.write_pos ↔ items = [] := by
  have hlt := h.length_lt
  rw [h.read_pos_eq, h.write_pos_eq]
  constructor
  · intro heq
    have := eq_of_mod_eq (Nat.le_add_right n _) (by omega) heq
    exact List.eq_nil_of_length_eq_zero (by omega)
  · rintro rfl
    rfl

/-- The producer has written its slot and moves its cursor. -/
theorem Holds.publish (h : Holds C q n items) (hroom : items.length + 1 < C.size)
    (hslot : q.buffer q.write_pos = x) :
    Holds C { q with write_pos := (q.write_pos + 1) &&& C.mask } n (items ++ [x]) where
  read_pos_eq := h.read_pos_eq
  write_pos_eq := by rw [List.length_append, List.length_singleton]; exact h.next_eq
  length_lt := by simpa using hroom
  window := h.window.push (by rw [← h.write_pos_eq]; exact hslot)

/-- The consumer moves its cursor past the oldest item. -/
theorem Holds.release (h : Holds C q n (x :: items)) :
    Holds C { q with read_pos := (q.read_pos + 1) &&& C.mask } (n + 1) items where
  read_pos_eq := by rw [C.and_mask, h.read_pos_eq, Nat.mod_add_mod]
  write_pos_eq := by
    show q.write_pos = _
    rw [h.write_pos_eq, List.length_cons, Nat.add_assoc n 1, Nat.add_comm 1]
  length_lt := by
    have := h.length_lt
    rw [List.length_cons] at this
    omega
  window := h.window.pop

/-- A write to the producer's slot touches no stored item. -/
theorem Holds.write (h : Holds C q n items) (x : T) :
    Holds C { q with buffer := Function.update q.buffer q.write_pos x } n items where
  read_pos_eq := h.read_pos_eq
  write_pos_eq := h.write_pos_eq
  length_lt := h.length_lt
  window := by rw [h.write_pos_eq]; exact h.window.update h.length_lt x

theorem Holds.front (h : Holds C q n (x :: items)) : q.buffer q.read_pos = x := by
  rw [h.read_pos_eq]
  exact h.window.head

theorem Holds.try_push (h : Holds C q n items) (x : T) :
    if items.length = C.size - 1 then try_push C q x = (q, false)
    else ∃ q', try_push C q x = (q', true) ∧ Holds C q' n (items ++ [x]) := by
  have hlt := h.length_lt
  split
  · next hfull =>
    unfold SPSCQueue.try_push
    rw [if_pos (h.full_iff.mpr hfull)]
  · next hroom =>
    unfold SPSCQueue.try_push
    rw [if_neg (mt h.full_iff.mp hroom)]
    exact ⟨_, rfl, (h.write x).publish (by omega) (by simp)⟩

/-- A push fails on a full queue only. -/
theorem Holds.full_of_try_push {q' : SPSCQueue T} (h : Holds C q n items)
    (hpush : q.try_push C x = (q', false)) : items.length = C.size - 1 := by
  by_contra hroom
  have hspec := h.try_push x
  rw [if_neg hroom] at hspec
  obtain ⟨q'', htrue, _⟩ := hspec
  rw [hpush] at htrue
  cases (Prod.mk.inj htrue).2

theorem Holds.of_try_push {q' : SPSCQueue T} (h : Holds C q n items)
    (hpush : q.try_push C x = (q', true)) :
    items.length ≠ C.size - 1 ∧ Holds C q' n (items ++ [x]) := by
  have hspec := h.try_push x
  split at hspec
  · rw [hpush] at hspec
    cases (Prod.mk.inj hspec).2
  · next hroom =>
    obtain ⟨q'', htrue, hq⟩ := hspec
    obtain rfl := (Prod.mk.inj (hpush.symm.trans htrue)).1
    exact ⟨hroom, hq⟩

theorem Holds.try_pop_nil (h : Holds C q n []) : try_pop C q = (q, none) := by
  unfold SPSCQueue.try_pop
  rw [if_pos (h.empty_iff.mpr rfl)]

theorem Holds.try_pop_cons (h : Holds C q n (x :: items)) :
    ∃ q', try_pop C q = (q', some x) ∧ Holds C q' (n + 1) items := by
  have hne : q.read_pos ≠ q.write_pos := fun heq => by simpa using h.empty_iff.mp heq
  unfold SPSCQueue.try_pop
  rw [if_neg hne, h.front]
  exact ⟨_, rfl, h.release⟩

/-! ## Reading a queue off its cursors -/

/-- The distance between the cursors, modulo the capacity, is the number of
    stored items. -/
theorem Holds.distance (h : Holds C q n items) :
    (q.write_pos + C.size - q.read_pos) % C.size = items.length := by
  have hlt := h.length_lt
  have hr : n % C.size < C.size := Nat.mod_lt _ C.pos
  rw [h.write_pos_eq, h.read_pos_eq, ← Nat.mod_add_mod n]
  rcases Nat.lt_or_ge (n % C.size + items.length) C.size with hin | hwrap
  · rw [Nat.mod_eq_of_lt hin]
    rw [show n % C.size + items.length + C.size - n % C.size = items.length + C.size by omega]
    rw [Nat.add_mod_right, Nat.mod_eq_of_lt hlt]
  · rw [Nat.mod_eq_sub_mod hwrap, Nat.mod_eq_of_lt (by omega : n % C.size + items.length - C.size < _)]
    rw [show n % C.size + items.length - C.size + C.size - n % C.size = items.length by omega]
    exact Nat.mod_eq_of_lt hlt

theorem Holds.contents_eq (h : Holds C q n items) : contents C q = items := by
  have hread : ∀ i, (q.read_pos + i) % C.size = (n + i) % C.size := by
    intro i
    rw [h.read_pos_eq, Nat.mod_add_mod]
  unfold contents
  rw [h.distance]
  simp only [hread]
  exact h.window.eq_map

end SPSCQueue

end OptionsEngine
