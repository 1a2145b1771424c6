import OptionsEngine.OrderBook

/-! # The order index is a finite map

    `Represents t m` relates the open-addressed table to a map from ids to
    `(slot, side index)`.  While the table keeps an empty entry, `lookup`,
    `insert` and `remove` end and act as reading, updating and erasing `m`. -/

namespace OptionsEngine.OrderBook.OrderIndex

open Function ProbeTable

/-- The table entry under which `id` is stored. -/
def entryOf (m : OrderId → Option (Nat × UInt8)) (id : OrderId) : Option Entry :=
  (m id).map fun v => { key := id, slot := v.1, side := v.2 }

/-- The table holds exactly the entries of `m`, each in its cluster. -/
structure Represents (t : OrderIndex) (m : OrderId → Option (Nat × UInt8)) : Prop where
  inv : Inv layout t.table
  maps : Maps layout t.table (entryOf m)

variable {t : OrderIndex} {m : OrderId → Option (Nat × UInt8)}

theorem occ_iff (f : Nat → Entry) (p : Nat) : Occ layout f p ↔ (f p).slot ≠ kEmpty := by
  simp [Occ, layout]

theorem isEmpty_iff (e : Entry) : layout.isEmpty e = true ↔ e.slot = kEmpty := by
  simp [layout]

theorem represents_init : Represents init fun _ => none := by
  refine ⟨⟨?_, ?_⟩, ?_⟩
  · intro p _ hocc
    simp [occ_iff, init] at hocc
  · intro p _ q _ hocc
    simp [occ_iff, init] at hocc
  · intro k c
    simp [entryOf, occ_iff, init]

/-- What the search finds, in terms of `m`. -/
theorem Represents.probe (h : Represents t m) (hne : HasEmpty layout t.table) (id : OrderId) :
    ∃ p < layout.size, t.probe id = some p ∧ Reach layout t.table (layout.home id) p ∧
      (m id = none ∧ (t.table p).slot = kEmpty ∨
        ∃ v, m id = some v ∧ t.table p = { key := id, slot := v.1, side := v.2 } ∧
          (t.table p).slot ≠ kEmpty) := by
  obtain ⟨p, hp, hprobe, hreach, hcase⟩ := probe_spec h.inv hne id
  refine ⟨p, hp, hprobe, hreach, ?_⟩
  rcases hcase with ⟨hempty, hnone⟩ | ⟨hocc, hkey⟩
  · refine Or.inl ⟨?_, (isEmpty_iff _).mp hempty⟩
    cases hm : m id with
    | none => rfl
    | some v =>
      have hentry : entryOf m id = some { key := id, slot := v.1, side := v.2 } := by
        simp [entryOf, hm]
      obtain ⟨q, hq, hqe, hqo, _⟩ := (h.maps _ _).mp hentry
      have hqk : layout.key (t.table q) = id := by rw [hqe]; rfl
      exact absurd hqk (hnone q hq hqo)
  · right
    have hentry := (h.maps id (t.table p)).mpr ⟨p, hp, rfl, hocc, hkey⟩
    cases hm : m id with
    | none => simp [entryOf, hm] at hentry
    | some v =>
      have : t.table p = { key := id, slot := v.1, side := v.2 } := by
        simpa [entryOf, hm] using hentry.symm
      exact ⟨v, rfl, this, (occ_iff _ _).mp hocc⟩

theorem Represents.lookup (h : Represents t m) (hne : HasEmpty layout t.table) (id : OrderId) :
    t.lookup id = some (m id) := by
  obtain ⟨p, _, hprobe, _, hcase⟩ := h.probe hne id
  rcases hcase with ⟨hm, hempty⟩ | ⟨v, hm, htp, hocc⟩
  · simp [OrderIndex.lookup, hprobe, hempty, hm]
  · rw [OrderIndex.lookup, hprobe, Option.map_some, if_neg hocc, htp, hm]

/-- An occupied cell with the key of `id` is the one the search finds. -/
theorem Represents.unique (h : Represents t m) {p : Nat} {id : OrderId} (hp : p < layout.size)
    (hcase : m id = none ∧ (t.table p).slot = kEmpty ∨
      ∃ v, m id = some v ∧ t.table p = { key := id, slot := v.1, side := v.2 } ∧
        (t.table p).slot ≠ kEmpty) :
    ∀ q < layout.size, Occ layout t.table q → layout.key (t.table q) = id → q = p := by
  intro q hq hqo hqk
  have hentry := (h.maps id (t.table q)).mpr ⟨q, hq, rfl, hqo, hqk⟩
  rcases hcase with ⟨hm, _⟩ | ⟨v, hm, htp, hocc⟩
  · simp [entryOf, hm] at hentry
  · refine h.inv.inj q hq p hp hqo ((occ_iff _ _).mpr hocc) ?_
    rw [hqk, htp]
    rfl

theorem Represents.insert (h : Represents t m) (hne : HasEmpty layout t.table) (id : OrderId)
    {slot : Nat} (side : UInt8) (hslot : slot ≠ kEmpty) :
    ∃ t', t.insert id slot side = some (true, t') ∧
      Represents t' (update m id (some (slot, side))) := by
  obtain ⟨p, hp, hprobe, hreach, hcase⟩ := h.probe hne id
  have huniq := h.unique hp hcase
  have hkey : Occ layout t.table p → layout.key (t.table p) = id := by
    intro hocc
    rcases hcase with ⟨_, hempty⟩ | ⟨v, _, htp, _⟩
    · exact absurd hempty ((occ_iff _ _).mp hocc)
    · rw [htp]; rfl
  let c : Entry := { key := id, slot := slot, side := side }
  have hc : layout.isEmpty c = false := by simpa [layout, c] using hslot
  refine ⟨⟨update t.table p c⟩, ?_, ?_, ?_⟩
  -- the source's guard never fires: the search ends at an empty cell or at `id`
  · have hcond : ¬ ((t.table p).slot ≠ kEmpty ∧ (t.table p).key ≠ id) := by
      rintro ⟨h1, h2⟩
      exact h2 (hkey ((occ_iff _ _).mpr h1))
    rw [OrderIndex.insert, hprobe, Option.map_some, if_neg hcond]
  · exact insert_inv h.inv hp hc hreach huniq
  · have hmaps := insert_maps h.maps hp hc hkey huniq
    have hupd : entryOf (update m id (some (slot, side))) = update (entryOf m) id (some c) := by
      funext k
      by_cases hk : k = id
      · subst hk; simp [entryOf, c]
      · simp [entryOf, update_of_ne hk]
    rw [hupd]
    exact hmaps

theorem Represents.remove (h : Represents t m) (hne : HasEmpty layout t.table) (id : OrderId) :
    ∃ t', t.remove id = some ((m id).isSome, t') ∧ Represents t' (update m id none) := by
  obtain ⟨p, hp, hprobe, _, hcase⟩ := h.probe hne id
  rcases hcase with ⟨hm, hempty⟩ | ⟨v, hm, htp, hocc⟩
  -- not found: there is nothing to erase
  · have hsame : update m id none = m := by rw [← hm, update_eq_self]
    refine ⟨t, ?_, ?_⟩
    · rw [OrderIndex.remove, hprobe, Option.bind_some, if_pos hempty, hm]
      rfl
    · rw [hsame]
      exact h
  · have hcell : layout.isEmpty { t.table p with slot := kEmpty, key := 0 } = true := by
      simp [layout]
    have hclear : ∀ e : Entry, layout.isEmpty { e with slot := kEmpty } = true := by
      intro e; simp [layout]
    obtain ⟨w, hw, hinv, _, hmaps⟩ :=
      reinsert_spec h.inv hne hp ((occ_iff _ _).mpr hocc) hcell hclear
    have hkey : layout.key (t.table p) = id := by rw [htp]; rfl
    refine ⟨⟨w⟩, ?_, hinv, ?_⟩
    · rw [OrderIndex.remove, hprobe, Option.bind_some, if_neg hocc, hm]
      show Option.map _ (reinsert layout _ _ ((p + 1) % layout.size)) = _
      rw [hw]
      rfl
    · have hupd : entryOf (update m id none) = update (entryOf m) id none := by
        funext k
        by_cases hk : k = id
        · subst hk; simp [entryOf]
        · simp [entryOf, update_of_ne hk]
      have := hmaps _ h.maps
      rw [hkey] at this
      rw [hupd]
      exact this

/-- Ids that point to distinct slots of the pool leave an entry empty: the
    table is twice the size of the pool. -/
theorem Represents.hasEmpty (h : Represents t m)
    (hlt : ∀ id v, m id = some v → v.1 < kMaxOrders)
    (hinj : ∀ id id' v v', m id = some v → m id' = some v' → v.1 = v'.1 → id = id') :
    HasEmpty layout t.table := by
  have hval : ∀ p < layout.size, Occ layout t.table p →
      ∃ v, m (t.table p).key = some v ∧ v.1 = (t.table p).slot := by
    intro p hp hocc
    have hentry := (h.maps (t.table p).key (t.table p)).mpr ⟨p, hp, rfl, hocc, rfl⟩
    cases hm : m (t.table p).key with
    | none => simp [entryOf, hm] at hentry
    | some v =>
      have : t.table p = { key := (t.table p).key, slot := v.1, side := v.2 } := by
        simpa [entryOf, hm] using hentry.symm
      exact ⟨v, rfl, by rw [this]⟩
  -- a full table would give its cells distinct slots, more than the pool has
  apply hasEmpty_of_injOn (N := kMaxOrders) Entry.slot
  · decide
  · intro p hp hocc
    obtain ⟨v, hm, hv⟩ := hval p hp hocc
    rw [← hv]
    exact hlt _ v hm
  · intro p hp q hq hpo hqo hslot
    obtain ⟨v, hm, hv⟩ := hval p hp hpo
    obtain ⟨v', hm', hv'⟩ := hval q hq hqo
    exact h.inv.inj p hp q hq hpo hqo (hinj _ _ v v' hm hm' (by rw [hv, hv', hslot]))

end OptionsEngine.OrderBook.OrderIndex
