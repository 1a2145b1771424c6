import Mathlib.Data.Finset.Card
import Mathlib.Data.Finset.Range
import Mathlib.Data.Nat.Find
import OptionsEngine.Framework.Loop

/-! # Open addressing with linear probing

    A table of `size` cells, each empty or holding one key.  A key is looked
    for from its home cell onward, cyclically, up to the first empty cell.
    Deletion empties a cell and puts every cell of the rest of its cluster
    back in by a fresh probe.

    The table is cyclic, but it has an empty cell, and no probe crosses an
    empty cell.  All arguments therefore run in *linear coordinates*: with `e`
    an empty cell, `pos e i` is the `i`-th cell after `e` and `off e p` the
    number of cells from `e` to `p`, so that a cluster becomes an interval.

    * `Inv`: every key sits in the cluster of its home cell, and in one cell
      only.
    * `Maps t m`: the occupied cells are exactly the graph of `m`.
    * `probe_spec`: with an empty cell left, the search ends at the key's cell
      or, if it has none, at an empty cell of its cluster.
    * `insert_inv`, `insert_maps`, `reinsert_spec`: insertion and deletion
      keep the invariant and act on `m` as map update and map erasure. -/

namespace ProbeTable

open Loop Function

/-- How a table reads its cells. -/
structure Layout (κ ε : Type) where
  size : Nat
  home : κ → Nat
  home_lt : ∀ k, home k < size
  isEmpty : ε → Bool
  key : ε → κ

section
variable {κ ε : Type} [DecidableEq κ] (L : Layout κ ε)

/-- One step of the search for `k`: go on while the cell holds another key. -/
def probeStep (t : Nat → ε) (k : κ) (h : Nat) : Option (LoopStep Nat Nat) :=
  if L.isEmpty (t h) = false ∧ L.key (t h) ≠ k then some (.next ((h + 1) % L.size))
  else some (.exit h)

/-- The cell where the search for `k` ends. -/
def probe (t : Nat → ε) (k : κ) : Option Nat :=
  loop (probeStep L t k) L.size (L.home k)

/-- One step of the re-insertion after a deletion: take cell `j` out and put
    it back where its key's search ends. -/
def reinsertStep (clear : ε → ε) (s : (Nat → ε) × Nat) :
    Option (LoopStep ((Nat → ε) × Nat) (Nat → ε)) :=
  if L.isEmpty (s.1 s.2) then some (.exit s.1)
  else
    let t := update s.1 s.2 (clear (s.1 s.2))
    (probe L t (L.key (s.1 s.2))).map fun k =>
      .next (update t k (s.1 s.2), (s.2 + 1) % L.size)

/-- Re-insert the cluster from `j` on. -/
def reinsert (clear : ε → ε) (t : Nat → ε) (j : Nat) : Option (Nat → ε) :=
  loop (reinsertStep L clear) L.size (t, j)

end

/-! ## Linear coordinates -/

/-- The `i`-th cell after `e`. -/
def pos (n e i : Nat) : Nat := (e + 1 + i) % n

/-- The number of cells from the one after `e` up to `p`. -/
def off (n e p : Nat) : Nat := (p + (n - (e + 1))) % n

theorem pos_lt {n : Nat} (hn : 0 < n) (e i : Nat) : pos n e i < n := Nat.mod_lt _ hn

theorem off_lt {n : Nat} (hn : 0 < n) (e p : Nat) : off n e p < n := Nat.mod_lt _ hn

theorem pos_off {n e p : Nat} (he : e < n) (hp : p < n) : pos n e (off n e p) = p := by
  unfold pos off
  rw [Nat.add_mod_mod, show e + 1 + (p + (n - (e + 1))) = p + n by omega, Nat.add_mod_right,
    Nat.mod_eq_of_lt hp]

theorem off_pos {n e i : Nat} (he : e < n) (hi : i < n) : off n e (pos n e i) = i := by
  unfold pos off
  rw [Nat.mod_add_mod, show e + 1 + i + (n - (e + 1)) = i + n by omega, Nat.add_mod_right,
    Nat.mod_eq_of_lt hi]

theorem pos_add (n e i d : Nat) : (pos n e i + d) % n = pos n e (i + d) := by
  unfold pos
  rw [Nat.mod_add_mod, Nat.add_assoc]

theorem pos_inj {n e i j : Nat} (he : e < n) (hi : i < n) (hj : j < n)
    (h : pos n e i = pos n e j) : i = j := by
  have h' := congrArg (off n e) h
  rwa [off_pos he hi, off_pos he hj] at h'

theorem pos_last {n e : Nat} (he : e < n) : pos n e (n - 1) = e := by
  unfold pos
  rw [show e + 1 + (n - 1) = e + n by omega, Nat.add_mod_right, Nat.mod_eq_of_lt he]

/-! ## The invariant -/

section
variable {κ ε : Type} (L : Layout κ ε)

/-- Cell `p` holds a key. -/
def Occ (t : Nat → ε) (p : Nat) : Prop := L.isEmpty (t p) = false

/-- `p` is reached from `h` over occupied cells only. -/
def Reach (t : Nat → ε) (h p : Nat) : Prop :=
  ∃ d, p = (h + d) % L.size ∧ ∀ i < d, Occ L t ((h + i) % L.size)

/-- Every key is found from its home cell, and in one cell only. -/
structure Inv (t : Nat → ε) : Prop where
  reach : ∀ p < L.size, Occ L t p → Reach L t (L.home (L.key (t p))) p
  inj : ∀ p < L.size, ∀ q < L.size, Occ L t p → Occ L t q →
    L.key (t p) = L.key (t q) → p = q

/-- The occupied cells are the graph of `m`. -/
def Maps (t : Nat → ε) (m : κ → Option ε) : Prop :=
  ∀ k c, m k = some c ↔ ∃ p < L.size, t p = c ∧ Occ L t p ∧ L.key c = k

/-- Some cell is empty. -/
def HasEmpty (t : Nat → ε) : Prop := ∃ e < L.size, L.isEmpty (t e) = true

end

section
variable {κ ε : Type} {L : Layout κ ε} {t : Nat → ε} {e : Nat}

theorem size_pos (he : e < L.size) : 0 < L.size := by omega

/-- In linear coordinates reachability is an interval of occupied cells: the
    path cannot pass the empty cell `e`. -/
theorem Reach.linear {h p : Nat} (he : e < L.size) (hempty : L.isEmpty (t e) = true)
    (hh : h < L.size) (hp : Occ L t p) (hr : Reach L t h p) :
    off L.size e h ≤ off L.size e p ∧
      ∀ i, off L.size e h ≤ i → i < off L.size e p → Occ L t (pos L.size e i) := by
  obtain ⟨d, rfl, hocc⟩ := hr
  have hn := size_pos he
  -- every cell of the path is one further from `e` than the one before it
  have hpath : ∀ i ≤ d, off L.size e ((h + i) % L.size) = off L.size e h + i := by
    intro i hi
    induction i with
    | zero => rw [Nat.add_zero, Nat.mod_eq_of_lt hh, Nat.add_zero]
    | succ i ih =>
      have ih' := ih (by omega)
      have hcell := hocc i (by omega)
      have hne : off L.size e h + i ≠ L.size - 1 := by
        intro hlast
        have hpe : (h + i) % L.size = e := by
          rw [← pos_off he (Nat.mod_lt (h + i) hn), ih', hlast, pos_last he]
        rw [Occ, hpe, hempty] at hcell
        cases hcell
      have hlt := off_lt hn e ((h + i) % L.size)
      have hstep : (h + (i + 1)) % L.size = pos L.size e (off L.size e h + i + 1) := by
        rw [← pos_add, ← ih', pos_off he (Nat.mod_lt _ hn), Nat.mod_add_mod, Nat.add_assoc]
      rw [hstep, off_pos he (by omega), Nat.add_assoc]
  have hend := hpath d (Nat.le_refl d)
  refine ⟨by omega, ?_⟩
  intro i h1 h2
  have hcell := hocc (i - off L.size e h) (by omega)
  have hmid := hpath (i - off L.size e h) (by omega)
  have : pos L.size e i = (h + (i - off L.size e h)) % L.size := by
    rw [← pos_off he (Nat.mod_lt (h + (i - off L.size e h)) hn), hmid]
    congr 1
    omega
  rwa [this]

/-- Conversely, an interval of occupied cells is a path. -/
theorem Reach.of_linear {h i : Nat} (he : e < L.size) (hh : h < L.size)
    (hle : off L.size e h ≤ i)
    (hocc : ∀ j, off L.size e h ≤ j → j < i → Occ L t (pos L.size e j)) :
    Reach L t h (pos L.size e i) := by
  have hpos : ∀ d, (h + d) % L.size = pos L.size e (off L.size e h + d) := by
    intro d
    rw [← pos_add, pos_off he hh]
  refine ⟨i - off L.size e h, ?_, ?_⟩
  · rw [hpos]
    congr 1
    omega
  · intro d hd
    rw [hpos]
    exact hocc _ (by omega) (by omega)

end

/-! ## Searching -/

section
variable {κ ε : Type} [DecidableEq κ] {L : Layout κ ε} {t : Nat → ε} {e : Nat}

/-- The search runs through cells of other keys up to the first cell that is
    empty or holds `k`. -/
theorem probe_loop (k : κ) {a j : Nat} (haj : a ≤ j)
    (hpass : ∀ i, a ≤ i → i < j →
      Occ L t (pos L.size e i) ∧ L.key (t (pos L.size e i)) ≠ k)
    (hstop : L.isEmpty (t (pos L.size e j)) = true ∨ L.key (t (pos L.size e j)) = k)
    {fuel : Nat} (hfuel : j - a < fuel) :
    loop (probeStep L t k) fuel (pos L.size e a) = some (pos L.size e j) := by
  -- induction on the distance still to go
  obtain ⟨d, rfl⟩ := Nat.exists_eq_add_of_le haj
  induction d generalizing a fuel with
  | zero =>
    obtain ⟨fuel, rfl⟩ : ∃ f, fuel = f + 1 := ⟨fuel - 1, by omega⟩
    apply loop_exit
    rw [Nat.add_zero] at hstop
    rw [probeStep, if_neg, Nat.add_zero]
    rintro ⟨h1, h2⟩
    rcases hstop with h | h
    · rw [h] at h1; cases h1
    · exact h2 h
  | succ d ih =>
    obtain ⟨fuel, rfl⟩ : ∃ f, fuel = f + 1 := ⟨fuel - 1, by omega⟩
    have hhere := hpass a (by omega) (by omega)
    have hstep : probeStep L t k (pos L.size e a) = some (.next (pos L.size e (a + 1))) := by
      obtain ⟨hocc, hkey⟩ := hhere
      rw [probeStep, if_pos ⟨hocc, hkey⟩, pos_add]
    rw [loop_next hstep]
    have hend : a + (d + 1) = a + 1 + d := by omega
    rw [hend] at hstop hpass ⊢
    exact ih (by omega) (fun i h1 h2 => hpass i (by omega) h2) hstop (by omega)

/-- With an empty cell `e`, the search ends, at the first cell of the cluster
    of `k`'s home that is empty or holds `k`. -/
theorem probe_linear (he : e < L.size) (hempty : L.isEmpty (t e) = true) (k : κ) :
    ∃ j < L.size, off L.size e (L.home k) ≤ j ∧
      probe L t k = some (pos L.size e j) ∧
      (∀ i, off L.size e (L.home k) ≤ i → i < j →
        Occ L t (pos L.size e i) ∧ L.key (t (pos L.size e i)) ≠ k) ∧
      (L.isEmpty (t (pos L.size e j)) = true ∨ L.key (t (pos L.size e j)) = k) := by
  have hn := size_pos he
  let P : Nat → Prop := fun j => off L.size e (L.home k) ≤ j ∧
    (L.isEmpty (t (pos L.size e j)) = true ∨ L.key (t (pos L.size e j)) = k)
  have hlast : P (L.size - 1) := by
    refine ⟨?_, Or.inl ?_⟩
    · have := off_lt hn e (L.home k)
      omega
    · rw [pos_last he, hempty]
  have hex : ∃ j, P j := ⟨_, hlast⟩
  classical
  let j := Nat.find hex
  have hj : P j := Nat.find_spec hex
  have hjle : j ≤ L.size - 1 := Nat.find_min' hex hlast
  have hpass : ∀ i, off L.size e (L.home k) ≤ i → i < j →
      Occ L t (pos L.size e i) ∧ L.key (t (pos L.size e i)) ≠ k := by
    intro i h1 h2
    have hnot := Nat.find_min hex h2
    constructor
    · cases hc : L.isEmpty (t (pos L.size e i)) with
      | false => exact hc
      | true => exact absurd ⟨h1, Or.inl hc⟩ hnot
    · exact fun hk => hnot ⟨h1, Or.inr hk⟩
  refine ⟨j, by omega, hj.1, ?_, hpass, hj.2⟩
  have hfuel : j - off L.size e (L.home k) < L.size := by omega
  have hloop := probe_loop k hj.1 hpass hj.2 hfuel
  rwa [pos_off he (L.home_lt k)] at hloop

/-- **Search.** The cell found holds `k`, or it is empty and no cell does; it
    is reached from `k`'s home over occupied cells. -/
theorem probe_spec (hinv : Inv L t) (hne : HasEmpty L t) (k : κ) :
    ∃ p < L.size, probe L t k = some p ∧ Reach L t (L.home k) p ∧
      ((L.isEmpty (t p) = true ∧ ∀ q < L.size, Occ L t q → L.key (t q) ≠ k) ∨
        (Occ L t p ∧ L.key (t p) = k)) := by
  obtain ⟨e, he, hempty⟩ := hne
  have hn := size_pos he
  obtain ⟨j, hj, hle, hprobe, hpass, hstop⟩ := probe_linear he hempty k
  refine ⟨pos L.size e j, pos_lt hn _ _, hprobe, ?_, ?_⟩
  · exact Reach.of_linear he (L.home_lt k) hle fun i h1 h2 => (hpass i h1 h2).1
  cases hc : L.isEmpty (t (pos L.size e j)) with
  | false =>
    refine Or.inr ⟨hc, ?_⟩
    rcases hstop with h | h
    · rw [hc] at h; cases h
    · exact h
  | true =>
    refine Or.inl ⟨rfl, ?_⟩
    intro q hq hocc hkey
    have hr := hinv.reach q hq hocc
    rw [hkey] at hr
    obtain ⟨hle', hcells⟩ := hr.linear he hempty (L.home_lt k) hocc
    -- the search would have stopped at `q`, or passed over the empty cell
    rcases Nat.lt_trichotomy j (off L.size e q) with hlt | heq | hgt
    · have := hcells j hle hlt
      rw [Occ, hc] at this
      cases this
    · rw [heq, pos_off he hq] at hc
      rw [Occ, hc] at hocc
      cases hocc
    · have := (hpass (off L.size e q) hle' hgt).2
      rw [pos_off he hq] at this
      exact this hkey

end

/-! ## Insertion -/

section
variable {κ ε : Type} {L : Layout κ ε} {t : Nat → ε}

/-- Writing a key into the cell its search ended at keeps the invariant. -/
theorem insert_inv (hinv : Inv L t) {p : Nat} {c : ε} (hp : p < L.size)
    (hc : L.isEmpty c = false) (hreach : Reach L t (L.home (L.key c)) p)
    (huniq : ∀ q < L.size, Occ L t q → L.key (t q) = L.key c → q = p) :
    Inv L (update t p c) := by
  have hocc : ∀ q, Occ L t q → Occ L (update t p c) q := by
    intro q hq
    by_cases hqp : q = p
    · subst hqp; simpa [Occ] using hc
    · simpa [Occ, update_of_ne hqp] using hq
  have hmono : ∀ h q, Reach L t h q → Reach L (update t p c) h q := by
    rintro h q ⟨d, hd, hcells⟩
    exact ⟨d, hd, fun i hi => hocc _ (hcells i hi)⟩
  have hother : ∀ q, q ≠ p → Occ L (update t p c) q → Occ L t q := by
    intro q hqp hq
    simpa [Occ, update_of_ne hqp] using hq
  refine ⟨?_, ?_⟩
  · intro q hq hqocc
    by_cases hqp : q = p
    · subst hqp
      rw [update_self]
      exact hmono _ _ hreach
    · rw [update_of_ne hqp]
      exact hmono _ _ (hinv.reach q hq (hother q hqp hqocc))
  · intro q hq r hr hqocc hrocc hkey
    by_cases hqp : q = p
    · subst hqp
      by_cases hrq : r = q
      · exact hrq.symm
      · rw [update_self, update_of_ne hrq] at hkey
        exact (huniq r hr (hother r hrq hrocc) hkey.symm).symm
    · by_cases hrp : r = p
      · subst hrp
        rw [update_self, update_of_ne hqp] at hkey
        exact huniq q hq (hother q hqp hqocc) hkey
      · rw [update_of_ne hqp, update_of_ne hrp] at hkey
        exact hinv.inj q hq r hr (hother q hqp hqocc) (hother r hrp hrocc) hkey

/-- ... and updates the map at that key. -/
theorem insert_maps [DecidableEq κ] {m : κ → Option ε} (hm : Maps L t m) {p : Nat} {c : ε} (hp : p < L.size)
    (hc : L.isEmpty c = false)
    (hold : Occ L t p → L.key (t p) = L.key c)
    (huniq : ∀ q < L.size, Occ L t q → L.key (t q) = L.key c → q = p) :
    Maps L (update t p c) (update m (L.key c) (some c)) := by
  intro k c'
  by_cases hk : k = L.key c
  · subst hk
    rw [update_self]
    constructor
    · intro h
      cases h
      exact ⟨p, hp, by simp, by simpa [Occ] using hc, rfl⟩
    · rintro ⟨q, hq, hqc, hqocc, hqkey⟩
      by_cases hqp : q = p
      · subst hqp
        rw [update_self] at hqc
        rw [hqc]
      · rw [update_of_ne hqp] at hqc
        rw [Occ, update_of_ne hqp] at hqocc
        exact absurd (huniq q hq hqocc (by rw [hqc, hqkey])) hqp
  · rw [update_of_ne hk, hm]
    constructor
    · rintro ⟨q, hq, hqc, hqocc, hqkey⟩
      have hqp : q ≠ p := by
        intro e
        subst e
        exact hk (by rw [← hold hqocc, hqc, hqkey])
      exact ⟨q, hq, by rwa [update_of_ne hqp], by rwa [Occ, update_of_ne hqp], hqkey⟩
    · rintro ⟨q, hq, hqc, hqocc, hqkey⟩
      have hqp : q ≠ p := by
        intro e
        subst e
        rw [update_self] at hqc
        exact hk (by rw [hqc, hqkey])
      rw [update_of_ne hqp] at hqc
      rw [Occ, update_of_ne hqp] at hqocc
      exact ⟨q, hq, hqc, hqocc, hqkey⟩

/-- Cells that embed into fewer values than there are cells leave one empty. -/
theorem hasEmpty_of_injOn (g : ε → Nat) {N : Nat} (hN : N < L.size)
    (hlt : ∀ p < L.size, Occ L t p → g (t p) < N)
    (hinj : ∀ p < L.size, ∀ q < L.size, Occ L t p → Occ L t q → g (t p) = g (t q) → p = q) :
    HasEmpty L t := by
  by_contra hno
  have hall : ∀ p < L.size, Occ L t p := by
    intro p hp
    cases hc : L.isEmpty (t p) with
    | false => exact hc
    | true => exact absurd ⟨p, hp, hc⟩ hno
  have hcard := Finset.card_le_card_of_injOn (s := Finset.range L.size) (t := Finset.range N)
    (fun p => g (t p))
    (fun p hp => by
      have hp' : p < L.size := by simpa using hp
      simpa using hlt p hp' (hall p hp'))
    (fun p hp q hq h => by
      have hp' : p < L.size := by simpa using hp
      have hq' : q < L.size := by simpa using hq
      exact hinj p hp' q hq' (hall p hp') (hall q hq') h)
  simp at hcard
  omega

end

/-! ## Deletion -/

section
variable {κ ε : Type} [DecidableEq κ] {L : Layout κ ε} {t u : Nat → ε} {e a b j : Nat}

/-- The table while the cluster behind the deleted cell `a` is re-inserted,
    in linear coordinates.  `t` is the table before the deletion, `b` the end
    of the cluster and `j` the next cell to take out. -/
structure Reinserting (L : Layout κ ε) (e a b : Nat) (t u : Nat → ε) (j : Nat) : Prop where
  /-- Only cells from `a` up to `j` have been touched. -/
  same : ∀ i < L.size, i < a ∨ j ≤ i → u (pos L.size e i) = t (pos L.size e i)
  /-- Outside `[j, b)` every key is again in the cluster of its home. -/
  settled : ∀ i < L.size, i < j ∨ b ≤ i → Occ L u (pos L.size e i) →
    off L.size e (L.home (L.key (u (pos L.size e i)))) ≤ i ∧
      ∀ i', off L.size e (L.home (L.key (u (pos L.size e i)))) ≤ i' → i' < i →
        Occ L u (pos L.size e i')
  inj : ∀ i < L.size, ∀ i' < L.size, Occ L u (pos L.size e i) → Occ L u (pos L.size e i') →
    L.key (u (pos L.size e i)) = L.key (u (pos L.size e i')) → i = i'
  /-- Nothing but cell `a` has gone. -/
  cells : ∀ c, L.isEmpty c = false →
    ((∃ i < L.size, u (pos L.size e i) = c) ↔ ∃ i < L.size, i ≠ a ∧ t (pos L.size e i) = c)

/-- The facts about the table before the deletion that the loop relies on. -/
structure Cluster (L : Layout κ ε) (e a b : Nat) (t : Nat → ε) : Prop where
  inv : Inv L t
  he : e < L.size
  hempty : L.isEmpty (t e) = true
  hab : a < b
  hb : b < L.size
  full : ∀ i, a < i → i < b → Occ L t (pos L.size e i)
  stop : L.isEmpty (t (pos L.size e b)) = true

omit [DecidableEq κ] in
/-- A key of the original table, in linear coordinates. -/
theorem Cluster.linear (hcl : Cluster L e a b t) {i : Nat} (hi : i < L.size)
    (hocc : Occ L t (pos L.size e i)) :
    off L.size e (L.home (L.key (t (pos L.size e i)))) ≤ i ∧
      ∀ i', off L.size e (L.home (L.key (t (pos L.size e i)))) ≤ i' → i' < i →
        Occ L t (pos L.size e i') := by
  have hn := size_pos hcl.he
  have hr := hcl.inv.reach _ (pos_lt hn e i) hocc
  have hlin := hr.linear hcl.he hcl.hempty (L.home_lt _) hocc
  rwa [off_pos hcl.he hi] at hlin

omit [DecidableEq κ] in
/-- Emptying cell `a` starts the loop. -/
theorem Reinserting.start (hcl : Cluster L e a b t) {c₀ : ε} (hc₀ : L.isEmpty c₀ = true) :
    Reinserting L e a b t (update t (pos L.size e a) c₀) (a + 1) := by
  have hab := hcl.hab
  have hb := hcl.hb
  have hat : update t (pos L.size e a) c₀ (pos L.size e a) = c₀ := by simp
  have hne : ∀ i < L.size, i ≠ a →
      update t (pos L.size e a) c₀ (pos L.size e i) = t (pos L.size e i) := by
    intro i hi hia
    exact update_of_ne (fun h => hia (pos_inj hcl.he hi (by omega) h)) _ _
  have hnocc : ¬ Occ L (update t (pos L.size e a) c₀) (pos L.size e a) := by
    rw [Occ, hat, hc₀]; simp
  refine ⟨?_, ?_, ?_, ?_⟩
  · intro i hi h
    exact hne i hi (by omega)
  · intro i hi h hio
    have hia : i ≠ a := fun h => hnocc (h ▸ hio)
    rw [Occ, hne i hi hia] at hio
    rw [hne i hi hia]
    obtain ⟨h1, h2⟩ := hcl.linear hi hio
    refine ⟨h1, ?_⟩
    intro i' h3 h4
    -- a path over `a` to a cell behind the cluster would cross its end `b`
    have hi'a : i' ≠ a := by
      intro h5
      subst h5
      have hbi : b ≤ i := by omega
      have hocc' : Occ L t (pos L.size e b) := by
        rcases Nat.eq_or_lt_of_le hbi with rfl | hlt
        · exact hio
        · exact h2 b (by omega) hlt
      rw [Occ, hcl.stop] at hocc'
      cases hocc'
    rw [Occ, hne i' (by omega) hi'a]
    exact h2 i' h3 h4
  · intro i hi i' hi' hio hio' hkey
    have hia : i ≠ a := fun h => hnocc (h ▸ hio)
    have hia' : i' ≠ a := fun h => hnocc (h ▸ hio')
    rw [Occ, hne i hi hia] at hio
    rw [Occ, hne i' hi' hia'] at hio'
    rw [hne i hi hia, hne i' hi' hia'] at hkey
    have hn := size_pos hcl.he
    exact pos_inj hcl.he hi hi'
      (hcl.inv.inj _ (pos_lt hn e i) _ (pos_lt hn e i') hio hio' hkey)
  · intro c hc
    constructor
    · rintro ⟨i, hi, rfl⟩
      have hia : i ≠ a := fun h => hnocc (h ▸ hc)
      exact ⟨i, hi, hia, (hne i hi hia).symm⟩
    · rintro ⟨i, hi, hia, rfl⟩
      exact ⟨i, hi, hne i hi hia⟩

/-- The search for the key taken out of cell `j` ends in an emptied cell
    between `a` and `j`. -/
theorem Reinserting.probe_back (hcl : Cluster L e a b t) (hre : Reinserting L e a b t u j)
    (haj : a < j) (hjb : j < b) {c : ε} (hc : L.isEmpty c = true) :
    ∃ i₀, a ≤ i₀ ∧ i₀ ≤ j ∧
      probe L (update u (pos L.size e j) c) (L.key (u (pos L.size e j)))
        = some (pos L.size e i₀) ∧
      off L.size e (L.home (L.key (u (pos L.size e j)))) ≤ i₀ ∧
      (∀ i, off L.size e (L.home (L.key (u (pos L.size e j)))) ≤ i → i < i₀ →
        Occ L u (pos L.size e i)) ∧
      (i₀ = j ∨ L.isEmpty (u (pos L.size e i₀)) = true) := by
  have hb := hcl.hb
  have hjn : j < L.size := by omega
  have hsame := hre.same j hjn (Or.inr (Nat.le_refl j))
  have hocct := hcl.full j haj hjb
  have hoccu : Occ L u (pos L.size e j) := by rw [Occ, hsame]; exact hocct
  have hlin := hcl.linear hjn hocct
  rw [← hsame] at hlin
  obtain ⟨hoj, hpath⟩ := hlin
  have hne : ∀ i < L.size, i ≠ j →
      update u (pos L.size e j) c (pos L.size e i) = u (pos L.size e i) := by
    intro i hi hij
    exact update_of_ne (fun h => hij (pos_inj hcl.he hi hjn h)) _ _
  have hempty : L.isEmpty (update u (pos L.size e j) c e) = true := by
    have h := hne (L.size - 1) (by omega) (by omega)
    rw [pos_last hcl.he] at h
    rw [h]
    have h' := hre.same (L.size - 1) (by omega) (Or.inr (by omega))
    rw [pos_last hcl.he] at h'
    rw [h', hcl.hempty]
  obtain ⟨i₀, hi₀, hle, hprobe, hpass, hstop⟩ :=
    probe_linear hcl.he hempty (L.key (u (pos L.size e j)))
  have hi₀j : i₀ ≤ j := by
    by_contra hgt
    have := (hpass j hoj (by omega)).1
    rw [Occ, update_self, hc] at this
    cases this
  have hend : i₀ = j ∨ L.isEmpty (u (pos L.size e i₀)) = true := by
    by_cases hij : i₀ = j
    · exact Or.inl hij
    · right
      rw [hne i₀ hi₀ hij] at hstop
      rcases hstop with h | h
      · exact h
      · cases hcell : L.isEmpty (u (pos L.size e i₀)) with
        | true => rfl
        | false => exact absurd (hre.inj i₀ hi₀ j hjn hcell hoccu h) hij
  refine ⟨i₀, ?_, hi₀j, hprobe, hle, ?_, hend⟩
  · -- below `a` the path of the key is untouched, so the search passes it
    by_contra hlt
    have hcell := hpath i₀ hle (by omega)
    rcases hend with h | h
    · omega
    · rw [Occ, ← hre.same i₀ hi₀ (Or.inl (by omega)), h] at hcell
      cases hcell
  · intro i h1 h2
    have := (hpass i h1 h2).1
    rwa [Occ, hne i (by omega) (by omega)] at this

/-- The table `w` is `u` with the entry of cell `j` moved to cell `i₀`. -/
structure Moved (L : Layout κ ε) (e : Nat) (u w : Nat → ε) (i₀ j : Nat) : Prop where
  target : w (pos L.size e i₀) = u (pos L.size e j)
  source : i₀ ≠ j → L.isEmpty (w (pos L.size e j)) = true
  other : ∀ i < L.size, i ≠ i₀ → i ≠ j → w (pos L.size e i) = u (pos L.size e i)

section moved
variable {w : Nat → ε} {i₀ i : Nat}

omit [DecidableEq κ] in
theorem moved_update (he : e < L.size) (hj : j < L.size) (hi₀ : i₀ < L.size) {c : ε}
    (hc : L.isEmpty c = true) :
    Moved L e u (update (update u (pos L.size e j) c) (pos L.size e i₀) (u (pos L.size e j)))
      i₀ j := by
  refine ⟨update_self _ _ _, ?_, ?_⟩
  · intro hne
    have hpos : pos L.size e j ≠ pos L.size e i₀ := fun h => hne (pos_inj he hj hi₀ h).symm
    rw [update_of_ne hpos, update_self, hc]
  · intro i hi h1 h2
    rw [update_of_ne (fun h => h1 (pos_inj he hi hi₀ h)),
      update_of_ne (fun h => h2 (pos_inj he hi hj h))]

omit [DecidableEq κ] in
/-- Where an entry of the new table was before. -/
theorem Moved.origin (h : Moved L e u w i₀ j) (hj : j < L.size) (hi : i < L.size)
    (hio : Occ L w (pos L.size e i)) :
    ∃ k < L.size, u (pos L.size e k) = w (pos L.size e i) ∧
      (i = i₀ ∧ k = j ∨ i ≠ i₀ ∧ i ≠ j ∧ k = i) := by
  by_cases h1 : i = i₀
  · exact ⟨j, hj, by rw [h1, h.target], Or.inl ⟨h1, rfl⟩⟩
  · have h2 : i ≠ j := by
      intro h2
      rw [Occ, h2, h.source (h2 ▸ Ne.symm h1)] at hio
      cases hio
    exact ⟨i, hi, (h.other i hi h1 h2).symm, Or.inr ⟨h1, h2, rfl⟩⟩

omit [DecidableEq κ] in
/-- An occupied cell stays so, except the one that was taken out. -/
theorem Moved.occ (h : Moved L e u w i₀ j) (hoccj : Occ L u (pos L.size e j)) (hi : i < L.size)
    (hij : i ≠ j) (hio : Occ L u (pos L.size e i)) : Occ L w (pos L.size e i) := by
  by_cases h1 : i = i₀
  · rw [Occ, h1, h.target]
    exact hoccj
  · rw [Occ, h.other i hi h1 hij]
    exact hio

omit [DecidableEq κ] in
/-- Moving an entry into an empty cell loses none. -/
theorem Moved.mem_iff (h : Moved L e u w i₀ j) (hj : j < L.size) (hi₀ : i₀ < L.size)
    (hend : i₀ = j ∨ L.isEmpty (u (pos L.size e i₀)) = true) {c : ε} (hc : L.isEmpty c = false) :
    (∃ i < L.size, w (pos L.size e i) = c) ↔ ∃ i < L.size, u (pos L.size e i) = c := by
  constructor
  · rintro ⟨i, hi, rfl⟩
    obtain ⟨k, hk, hkw, _⟩ := h.origin hj hi hc
    exact ⟨k, hk, hkw⟩
  · rintro ⟨i, hi, rfl⟩
    by_cases h1 : i = j
    · exact ⟨i₀, hi₀, by rw [h.target, h1]⟩
    · have h2 : i ≠ i₀ := by
        rintro rfl
        rcases hend with hij | hempty
        · exact h1 hij
        · rw [hempty] at hc
          cases hc
      exact ⟨i, hi, h.other i hi h2 h1⟩

end moved

omit [DecidableEq κ] in
/-- A path to a cell behind the cluster does not lead over a cell of the
    cluster: it would cross its end `b`. -/
theorem Reinserting.path_ne (hcl : Cluster L e a b t) (hre : Reinserting L e a b t u j)
    (hjb : j < b) {h₀ i i' : Nat} (hi : i < j ∨ b ≤ i) (hio : Occ L u (pos L.size e i))
    (hpath : ∀ k, h₀ ≤ k → k < i → Occ L u (pos L.size e k)) (hle : h₀ ≤ i') (hlt : i' < i) :
    i' ≠ j := by
  have hb := hcl.hb
  rintro rfl
  have hbi : b ≤ i := by omega
  have hoccb : Occ L u (pos L.size e b) := by
    rcases Nat.eq_or_lt_of_le hbi with rfl | hlt
    · exact hio
    · exact hpath b (by omega) hlt
  rw [Occ, hre.same b hb (Or.inr (by omega)), hcl.stop] at hoccb
  cases hoccb

/-- One pass of the re-insertion loop. -/
theorem Reinserting.step (hcl : Cluster L e a b t) (hre : Reinserting L e a b t u j)
    (haj : a < j) (hjb : j < b) {clear : ε → ε} (hclear : ∀ c, L.isEmpty (clear c) = true) :
    ∃ w, reinsertStep L clear (u, pos L.size e j) = some (.next (w, pos L.size e (j + 1))) ∧
      Reinserting L e a b t w (j + 1) := by
  have hb := hcl.hb
  have hjn : j < L.size := by omega
  obtain ⟨i₀, hai, hij, hprobe, hle, hpath, hend⟩ :=
    hre.probe_back hcl haj hjb (hclear (u (pos L.size e j)))
  have hi₀ : i₀ < L.size := by omega
  have hoccu : Occ L u (pos L.size e j) := by
    rw [Occ, hre.same j hjn (Or.inr (Nat.le_refl j))]
    exact hcl.full j haj hjb
  have hmv := moved_update (u := u) hcl.he hjn hi₀ (hclear (u (pos L.size e j)))
  generalize hw : update (update u (pos L.size e j) (clear (u (pos L.size e j))))
    (pos L.size e i₀) (u (pos L.size e j)) = w at hmv
  refine ⟨w, ?_, ?_, ?_, ?_, ?_⟩
  · unfold Occ at hoccu
    simp only [reinsertStep, hoccu, Bool.false_eq_true, if_false, hprobe, Option.map_some, hw,
      pos_add]
  · intro i hi h
    rw [hmv.other i hi (by omega) (by omega)]
    exact hre.same i hi (by omega)
  · intro i hi h hio
    obtain ⟨k, hk, hkw, ⟨rfl, rfl⟩ | ⟨h1, h2, rfl⟩⟩ := hmv.origin hjn hi hio
    · -- the re-inserted entry: the search walked its path
      rw [← hkw]
      refine ⟨hle, ?_⟩
      intro i' h3 h4
      exact hmv.occ hoccu (by omega) (by omega) (hpath i' h3 h4)
    · -- an entry that stayed: its path did not lead over `j`
      rw [Occ, ← hkw] at hio
      rw [← hkw]
      obtain ⟨h3, h4⟩ := hre.settled k hi (by omega) hio
      refine ⟨h3, ?_⟩
      intro i' h5 h6
      have hne := hre.path_ne hcl hjb (by omega) hio h4 h5 h6
      exact hmv.occ hoccu (by omega) hne (h4 i' h5 h6)
  · intro i hi i' hi' hio hio' hkey
    obtain ⟨k, hk, hkw, hkc⟩ := hmv.origin hjn hi hio
    obtain ⟨k', hk', hkw', hkc'⟩ := hmv.origin hjn hi' hio'
    rw [Occ, ← hkw] at hio
    rw [Occ, ← hkw'] at hio'
    have hkk := hre.inj k hk k' hk' hio hio' (by rw [hkw, hkw', hkey])
    omega
  · intro c hc
    rw [← hre.cells c hc]
    exact hmv.mem_iff hjn hi₀ hend hc

/-- The re-insertion loop runs to the end of the cluster. -/
theorem Reinserting.run (hcl : Cluster L e a b t) {clear : ε → ε}
    (hclear : ∀ c, L.isEmpty (clear c) = true) (hre : Reinserting L e a b t u j)
    (haj : a < j) (hjb : j ≤ b) {fuel : Nat} (hfuel : b - j < fuel) :
    ∃ w, loop (reinsertStep L clear) fuel (u, pos L.size e j) = some w ∧
      Reinserting L e a b t w b := by
  -- induction on the cells of the cluster still to be taken out
  obtain ⟨d, rfl⟩ := Nat.exists_eq_add_of_le hjb
  induction d generalizing u j fuel with
  | zero =>
    obtain ⟨fuel, rfl⟩ : ∃ f, fuel = f + 1 := ⟨fuel - 1, by omega⟩
    refine ⟨u, ?_, hre⟩
    apply loop_exit
    have hstop := hcl.stop
    rw [Nat.add_zero] at hstop
    have hsame := hre.same j (by have := hcl.hb; omega) (Or.inr (Nat.le_refl j))
    simp only [reinsertStep, hsame, hstop, if_true]
  | succ d ih =>
    obtain ⟨fuel, rfl⟩ : ∃ f, fuel = f + 1 := ⟨fuel - 1, by omega⟩
    obtain ⟨w, hstep, hre'⟩ := hre.step hcl haj (by omega) hclear
    rw [loop_next hstep]
    have hend : j + (d + 1) = j + 1 + d := by omega
    rw [hend] at hcl hre' ⊢
    exact ih (by omega) hcl hre' (by omega) (by omega)

omit [DecidableEq κ] in
/-- The cluster behind an occupied cell ends at the first empty cell. -/
theorem exists_cluster (hinv : Inv L t) (he : e < L.size) (hempty : L.isEmpty (t e) = true)
    (ha : a < L.size) (hocc : Occ L t (pos L.size e a)) : ∃ b, Cluster L e a b t := by
  classical
  have hlast : a ≠ L.size - 1 := by
    rintro rfl
    rw [pos_last he, Occ, hempty] at hocc
    cases hocc
  have hex : ∃ b, a < b ∧ L.isEmpty (t (pos L.size e b)) = true :=
    ⟨L.size - 1, by omega, by rw [pos_last he, hempty]⟩
  obtain ⟨hab, hstop⟩ := Nat.find_spec hex
  have hb : Nat.find hex ≤ L.size - 1 :=
    Nat.find_min' hex ⟨by omega, by rw [pos_last he, hempty]⟩
  refine ⟨Nat.find hex, hinv, he, hempty, hab, by omega, ?_, hstop⟩
  intro i h1 h2
  cases hc : L.isEmpty (t (pos L.size e i)) with
  | false => exact hc
  | true => exact absurd ⟨h1, hc⟩ (Nat.find_min hex h2)

omit [DecidableEq κ] in
/-- At the end of the cluster every key is in the cluster of its home again. -/
theorem Reinserting.inv (hcl : Cluster L e a b t) (hre : Reinserting L e a b t u b) : Inv L u := by
  have he := hcl.he
  have hn := size_pos he
  refine ⟨?_, ?_⟩
  · intro q hq hqo
    have hqp := pos_off he hq
    rw [← hqp] at hqo
    obtain ⟨h1, h2⟩ := hre.settled _ (off_lt hn e q) (by omega) hqo
    have hr := Reach.of_linear he (L.home_lt _) h1 h2
    rwa [hqp] at hr
  · intro q hq r hr hqo hro hkey
    have hqp := pos_off he hq
    have hrp := pos_off he hr
    rw [← hqp, ← hrp] at hkey ⊢
    rw [← hqp] at hqo
    rw [← hrp] at hro
    rw [hre.inj _ (off_lt hn e q) _ (off_lt hn e r) hqo hro hkey]

/-- ... and the table maps the keys it did, without that of cell `a`. -/
theorem Reinserting.maps (hcl : Cluster L e a b t) (hre : Reinserting L e a b t u j)
    (hocc : Occ L t (pos L.size e a)) {m : κ → Option ε} (hm : Maps L t m) :
    Maps L u (update m (L.key (t (pos L.size e a))) none) := by
  have he := hcl.he
  have hn := size_pos he
  have ha : a < L.size := Nat.lt_trans hcl.hab hcl.hb
  intro k c
  constructor
  · intro h
    by_cases hk : k = L.key (t (pos L.size e a))
    · subst hk; rw [update_self] at h; cases h
    · rw [update_of_ne hk, hm] at h
      obtain ⟨q, hq, rfl, hqo, hqk⟩ := h
      have hqa : off L.size e q ≠ a := by
        rintro rfl
        rw [pos_off he hq] at hk
        exact hk hqk.symm
      obtain ⟨i, hi, hui⟩ :=
        (hre.cells _ hqo).mpr ⟨_, off_lt hn e q, hqa, by rw [pos_off he hq]⟩
      exact ⟨_, pos_lt hn e i, hui, by rw [Occ, hui]; exact hqo, hqk⟩
  · rintro ⟨q, hq, rfl, hqo, hqk⟩
    obtain ⟨i, hi, hia, hti⟩ := (hre.cells _ hqo).mp ⟨_, off_lt hn e q, by rw [pos_off he hq]⟩
    have hto : Occ L t (pos L.size e i) := by rw [Occ, hti]; exact hqo
    have hk : k ≠ L.key (t (pos L.size e a)) := by
      intro hk
      rw [hk, ← hti] at hqk
      exact hia (pos_inj he hi ha
        (hcl.inv.inj _ (pos_lt hn e i) _ (pos_lt hn e a) hto hocc hqk))
    rw [update_of_ne hk, hm]
    exact ⟨_, pos_lt hn e i, hti, hto, hqk⟩

/-- **Deletion.** Emptying the cell of a key and re-inserting the cluster
    behind it ends, keeps the invariant, and erases that key from the map. -/
theorem reinsert_spec (hinv : Inv L t) (hne : HasEmpty L t) {p : Nat} (hp : p < L.size)
    (hocc : Occ L t p) {c₀ : ε} (hc₀ : L.isEmpty c₀ = true) {clear : ε → ε}
    (hclear : ∀ c, L.isEmpty (clear c) = true) :
    ∃ w, reinsert L clear (update t p c₀) ((p + 1) % L.size) = some w ∧
      Inv L w ∧ HasEmpty L w ∧
      ∀ m, Maps L t m → Maps L w (update m (L.key (t p)) none) := by
  obtain ⟨e, he, hempty⟩ := hne
  have hn := size_pos he
  -- `p` in linear coordinates, counted from the empty cell `e`
  obtain ⟨a, han, rfl⟩ : ∃ a < L.size, pos L.size e a = p :=
    ⟨off L.size e p, off_lt hn e p, pos_off he hp⟩
  obtain ⟨b, hcl⟩ := exists_cluster hinv he hempty han hocc
  have hab := hcl.hab
  have hb := hcl.hb
  obtain ⟨w, hloop, hre⟩ :=
    (Reinserting.start hcl hc₀).run hcl hclear (by omega) hab
      (show b - (a + 1) < L.size by omega)
  have hwe : L.isEmpty (w e) = true := by
    have h := hre.same (L.size - 1) (by omega) (Or.inr (by omega))
    rw [pos_last he] at h
    rw [h, hempty]
  refine ⟨w, ?_, hre.inv hcl, ⟨e, he, hwe⟩, fun m hm => hre.maps hcl hocc hm⟩
  rw [reinsert, pos_add]
  exact hloop

end

end ProbeTable
