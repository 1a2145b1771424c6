import Mathlib.Logic.Function.Basic

/-! # Doubly linked queues threaded through arrays

    A queue of cells is stored in two link arrays `nexts` and `prevs` indexed
    by cell; a `null` value ends it on both sides.  `Seg nexts prevs p q n`
    says that the list `q` is laid out as a segment: its first cell points
    back to `p`, its last one forward to `n`, and in between the links are
    inverse to each other.  A whole queue is `Seg nexts prevs null q null`.

    The updates a queue needs are all boundary updates:

    * `seg_append` splits a segment at any point,
    * `Seg.congr` is the frame rule: a segment only reads its own cells,
    * `Seg.set_next` and `Seg.set_prev` retarget the forward link of the last
      and the backward link of the first cell,
    * `Seg.unlink` and `Seg.snoc` are the two queue operations, built from
      these.

    A singly linked chain (a free list) is `Chain nexts q n`. -/

namespace LinkedQueue

open Function

variable {nexts prevs : Nat → Nat}

/-! ## Segments -/

/-- The cells `q` are linked in order, from predecessor `p` to successor `n`. -/
def Seg (nexts prevs : Nat → Nat) : Nat → List Nat → Nat → Prop
  | _, [], _ => True
  | p, x :: xs, n => prevs x = p ∧ nexts x = xs.headD n ∧ Seg nexts prevs x xs n

@[simp] theorem seg_nil (p n : Nat) : Seg nexts prevs p [] n := trivial

@[simp] theorem seg_cons (p x n : Nat) (xs : List Nat) :
    Seg nexts prevs p (x :: xs) n ↔
      prevs x = p ∧ nexts x = xs.headD n ∧ Seg nexts prevs x xs n := Iff.rfl

theorem headD_append (xs ys : List Nat) (n : Nat) :
    (xs ++ ys).headD n = xs.headD (ys.headD n) := by
  cases xs <;> rfl

theorem getLastD_append (xs ys : List Nat) (p : Nat) :
    (xs ++ ys).getLastD p = ys.getLastD (xs.getLastD p) := by
  induction xs generalizing p with
  | nil => rfl
  | cons x xs ih => simpa only [List.cons_append, List.getLastD_cons] using ih x

/-- A segment splits at any point; the two halves meet at each other's ends. -/
theorem seg_append (xs ys : List Nat) (p n : Nat) :
    Seg nexts prevs p (xs ++ ys) n ↔
      Seg nexts prevs p xs (ys.headD n) ∧ Seg nexts prevs (xs.getLastD p) ys n := by
  induction xs generalizing p with
  | nil => simp
  | cons x xs ih =>
    simp only [List.cons_append, seg_cons, ih, headD_append, List.getLastD_cons]
    constructor
    · rintro ⟨hp, hn, hxs, hys⟩
      exact ⟨⟨hp, hn, hxs⟩, hys⟩
    · rintro ⟨⟨hp, hn, hxs⟩, hys⟩
      exact ⟨hp, hn, hxs, hys⟩

/-- Frame rule: a segment reads the links of its own cells only. -/
theorem Seg.congr {nexts' prevs' : Nat → Nat} {p n : Nat} {xs : List Nat}
    (h : Seg nexts prevs p xs n)
    (hn : ∀ x ∈ xs, nexts' x = nexts x) (hp : ∀ x ∈ xs, prevs' x = prevs x) :
    Seg nexts' prevs' p xs n := by
  induction xs generalizing p with
  | nil => trivial
  | cons x xs ih =>
    obtain ⟨h1, h2, h3⟩ := h
    refine ⟨?_, ?_, ih h3 ?_ ?_⟩
    · rw [hp x (by simp), h1]
    · rw [hn x (by simp), h2]
    · exact fun y hy => hn y (by simp [hy])
    · exact fun y hy => hp y (by simp [hy])

/-- The list of nodes of a segment determines their links. -/
theorem Seg.links {nexts' prevs' : Nat → Nat} {p n : Nat} {xs : List Nat}
    (h : Seg nexts prevs p xs n) (h' : Seg nexts' prevs' p xs n) :
    ∀ x ∈ xs, nexts' x = nexts x ∧ prevs' x = prevs x := by
  induction xs generalizing p with
  | nil => simp
  | cons y ys ih =>
    rw [seg_cons] at h h'
    intro x hx
    rcases List.mem_cons.mp hx with rfl | hx
    · exact ⟨h'.2.1.trans h.2.1.symm, h'.1.trans h.1.symm⟩
    · exact ih h.2.2 h'.2.2 x hx

/-- Retarget the forward link of the last cell. -/
theorem Seg.set_next {p n : Nat} {xs : List Nat} {x : Nat} (m : Nat)
    (h : Seg nexts prevs p (xs ++ [x]) n) (hx : x ∉ xs) :
    Seg (update nexts x m) prevs p (xs ++ [x]) m := by
  rw [seg_append] at h ⊢
  obtain ⟨hxs, hlast⟩ := h
  refine ⟨?_, ?_⟩
  · apply hxs.congr
    · intro y hy
      exact update_of_ne (fun e : y = x => hx (e ▸ hy)) _ _
    · intro y _; rfl
  · obtain ⟨hp, _, _⟩ := hlast
    exact ⟨hp, by simp, trivial⟩

/-- Retarget the backward link of the first cell. -/
theorem Seg.set_prev {p n : Nat} {xs : List Nat} {x : Nat} (m : Nat)
    (h : Seg nexts prevs p (x :: xs) n) (hx : x ∉ xs) :
    Seg nexts (update prevs x m) m (x :: xs) n := by
  obtain ⟨_, hn, hxs⟩ := h
  refine ⟨by simp, hn, ?_⟩
  apply hxs.congr
  · intro y _; rfl
  · intro y hy
    exact update_of_ne (fun e : y = x => hx (e ▸ hy)) _ _

/-! ## Queue operations -/

/-- The links after unlinking a cell with neighbours `p` and `n`: a
    neighbour that is `null` has no link to update. -/
def unlinkNexts (nexts : Nat → Nat) (null p n : Nat) : Nat → Nat :=
  if p = null then nexts else update nexts p n

def unlinkPrevs (prevs : Nat → Nat) (null p n : Nat) : Nat → Nat :=
  if n = null then prevs else update prevs n p

/-- Unlink `x` from the middle of a queue. -/
theorem Seg.unlink {null x : Nat} {xs ys : List Nat}
    (h : Seg nexts prevs null (xs ++ x :: ys) null)
    (hnd : (xs ++ x :: ys).Nodup) (hnull : null ∉ xs ++ x :: ys) :
    Seg (unlinkNexts nexts null (xs.getLastD null) (ys.headD null))
      (unlinkPrevs prevs null (xs.getLastD null) (ys.headD null)) null (xs ++ ys) null := by
  rw [seg_append] at h
  obtain ⟨hxs, _, _, hys⟩ := h
  rw [List.nodup_append] at hnd
  obtain ⟨hndx, hndy, hdisj⟩ := hnd
  have hndy' := (List.nodup_cons.mp hndy).2
  have hdxy : ∀ a ∈ xs, a ∉ ys := fun a ha hb => hdisj a ha a (by simp [hb]) rfl
  have hnx : null ∉ xs := fun e => hnull (by simp [e])
  have hny : null ∉ ys := fun e => hnull (by simp [e])
  rw [seg_append]
  constructor
  · -- the left half: only its last cell's forward link moves
    rcases List.eq_nil_or_concat xs with rfl | ⟨zs, z, rfl⟩
    · trivial
    · rw [List.concat_eq_append] at *
      have hz : z ≠ null := fun e => hnx (by simp [e])
      have hzs : z ∉ zs := by
        rw [List.nodup_append] at hndx
        exact fun e => hndx.2.2 z e z (by simp) rfl
      have hlast : (zs ++ [z]).getLastD null = z := List.getLastD_concat ..
      have hstep := hxs.set_next (ys.headD null) hzs
      rw [hlast]
      apply hstep.congr
      · intro y _; simp [unlinkNexts, hz]
      · intro y hy
        cases ys with
        | nil => simp [unlinkPrevs]
        | cons w ws =>
          have hyw : y ≠ w := fun e => hdxy y hy (by simp [e])
          by_cases hw : w = null <;> simp [unlinkPrevs, hw, update_of_ne, hyw]
  · -- the right half: only its first cell's backward link moves
    cases ys with
    | nil => trivial
    | cons w ws =>
      have hw : w ≠ null := fun e => hny (by simp [e])
      have hws : w ∉ ws := (List.nodup_cons.mp hndy').1
      have hstep := hys.set_prev (xs.getLastD null) hws
      apply hstep.congr
      · intro y hy
        rcases List.eq_nil_or_concat xs with rfl | ⟨zs, z, rfl⟩
        · simp [unlinkNexts]
        · rw [List.concat_eq_append] at *
          have hyz : y ≠ z := fun e => hdxy z (by simp) (e ▸ hy)
          have hz : z ≠ null := fun e => hnx (by simp [e])
          simp [unlinkNexts, hz, update_of_ne hyz]
      · intro y _; simp [unlinkPrevs, hw]

/-- Append the cell `x` at the tail of a queue. -/
theorem Seg.snoc {null x t : Nat} {xs : List Nat}
    (h : Seg nexts prevs null (xs ++ [t]) null)
    (hnd : (xs ++ [t]).Nodup) (hx : x ∉ xs ++ [t]) :
    Seg (update (update nexts t x) x null) (update prevs x t) null (xs ++ [t] ++ [x]) null := by
  have ht : t ∉ xs := by
    rw [List.nodup_append] at hnd
    exact fun e => hnd.2.2 t e t (by simp) rfl
  rw [seg_append]
  constructor
  · apply (h.set_next x ht).congr
    · intro y hy
      exact update_of_ne (fun e : y = x => hx (e ▸ hy)) _ _
    · intro y hy
      exact update_of_ne (fun e : y = x => hx (e ▸ hy)) _ _
  · rw [List.getLastD_concat]
    simp

/-! ## Singly linked chains -/

/-- The cells `q` are linked forward in order, the last one to `n`. -/
def Chain (nexts : Nat → Nat) : List Nat → Nat → Prop
  | [], _ => True
  | x :: xs, n => nexts x = xs.headD n ∧ Chain nexts xs n

@[simp] theorem chain_nil (n : Nat) : Chain nexts [] n := trivial

@[simp] theorem chain_cons (x n : Nat) (xs : List Nat) :
    Chain nexts (x :: xs) n ↔ nexts x = xs.headD n ∧ Chain nexts xs n := Iff.rfl

theorem Seg.chain {p n : Nat} {xs : List Nat} (h : Seg nexts prevs p xs n) :
    Chain nexts xs n := by
  induction xs generalizing p with
  | nil => trivial
  | cons x xs ih => exact ⟨h.2.1, ih h.2.2⟩

/-- Frame rule for chains. -/
theorem Chain.congr {nexts' : Nat → Nat} {n : Nat} {xs : List Nat}
    (h : Chain nexts xs n) (hn : ∀ x ∈ xs, nexts' x = nexts x) : Chain nexts' xs n := by
  induction xs with
  | nil => trivial
  | cons x xs ih =>
    refine ⟨?_, ih h.2 fun y hy => hn y (by simp [hy])⟩
    rw [hn x (by simp), h.1]

/-- Push a cell in front of a chain. -/
theorem Chain.push {n x : Nat} {xs : List Nat} (h : Chain nexts xs n) (hx : x ∉ xs) :
    Chain (update nexts x (xs.headD n)) (x :: xs) n := by
  refine ⟨by simp, h.congr ?_⟩
  intro y hy
  exact update_of_ne (fun e : y = x => hx (e ▸ hy)) _ _

/-- Follow `nexts` from a cell until `null`, for at most `fuel` cells. -/
def walk (nexts : Nat → Nat) (null : Nat) : Nat → Nat → List Nat
  | 0, _ => []
  | fuel + 1, x => if x = null then [] else x :: walk nexts null fuel (nexts x)

/-- Walking a chain visits exactly its cells. -/
theorem Chain.walk_eq {null : Nat} {xs : List Nat} (h : Chain nexts xs null)
    (hnull : null ∉ xs) {fuel : Nat} (hfuel : xs.length ≤ fuel) :
    walk nexts null fuel (xs.headD null) = xs := by
  induction xs generalizing fuel with
  | nil => cases fuel <;> simp [walk]
  | cons x xs ih =>
    obtain ⟨hn, hxs⟩ := h
    have hx : x ≠ null := fun e => hnull (by simp [e])
    cases fuel with
    | zero => simp at hfuel
    | succ fuel =>
      have hfuel' : xs.length ≤ fuel := by simpa using hfuel
      have htl := ih hxs (fun e => hnull (by simp [e])) hfuel'
      rw [List.headD_cons, walk, if_neg hx, hn, htl]

end LinkedQueue
