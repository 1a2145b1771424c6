import OptionsEngine.LevelBook

/-! # Lists of levels

    The small lemmas about the book of levels: the entries and slots of a list
    of levels, the priority order of prices, where a new entry goes, and the
    separation of slots (`Slotted`, `Apart`). -/

namespace OptionsEngine

open Function OrderBook

variable {a : LevelBook} {s : Side} {L R : List Level} {l : Level} {q : List Entry}

/-! ## Section 1: Entries and slots -/

theorem mem_slots {l : Level} {e : Entry} (he : e ∈ l.queue) : e.slot ∈ l.slots :=
  List.mem_map.mpr ⟨e, he, rfl⟩

theorem mem_slotsOf {ls : List Level} {x : Nat} :
    x ∈ slotsOf ls ↔ ∃ l ∈ ls, x ∈ l.slots := List.mem_flatMap

@[simp] theorem slotsOf_nil : slotsOf [] = [] := rfl

@[simp] theorem slotsOf_cons (l : Level) (ls : List Level) :
    slotsOf (l :: ls) = l.slots ++ slotsOf ls := rfl

@[simp] theorem slotsOf_append (L R : List Level) : slotsOf (L ++ R) = slotsOf L ++ slotsOf R := by
  simp [slotsOf]

@[simp] theorem entriesOf_nil : entriesOf [] = [] := rfl

@[simp] theorem entriesOf_cons (l : Level) (ls : List Level) :
    entriesOf (l :: ls) = l.queue ++ entriesOf ls := rfl

@[simp] theorem entriesOf_append (L R : List Level) :
    entriesOf (L ++ R) = entriesOf L ++ entriesOf R := by
  simp [entriesOf]

theorem slotsOf_eq (ls : List Level) : slotsOf ls = (entriesOf ls).map Entry.slot := by
  induction ls with
  | nil => rfl
  | cons l ls ih => simp [ih, Level.slots]

@[simp] theorem slots_mk (px : Price) (q : List Entry) :
    Level.slots ⟨px, q⟩ = q.map Entry.slot := rfl

@[simp] theorem entriesOf_keep (px : Price) (q : List Entry) : entriesOf (keep px q) = q := by
  by_cases h : q = [] <;> simp [keep, h]

@[simp] theorem slotsOf_keep (px : Price) (q : List Entry) :
    slotsOf (keep px q) = q.map Entry.slot := by
  rw [slotsOf_eq, entriesOf_keep]

@[simp] theorem total_mk (px : Price) (q : List Entry) :
    Level.total ⟨px, q⟩ = (q.map fun e => e.qty.toNat).sum := rfl

theorem total_middle (px : Price) (q₁ q₂ : List Entry) (e : Entry) :
    Level.total ⟨px, q₁ ++ e :: q₂⟩ = Level.total ⟨px, q₁ ++ q₂⟩ + e.qty.toNat := by
  simp only [total_mk, List.map_append, List.map_cons, List.sum_append_nat, List.sum_cons]
  omega

theorem split_entry {ls : List Level} {e : Entry} (he : e ∈ entriesOf ls) :
    ∃ L px q₁ q₂ R, ls = L ++ ⟨px, q₁ ++ e :: q₂⟩ :: R := by
  obtain ⟨l, hl, hel⟩ := List.mem_flatMap.mp he
  obtain ⟨L, R, rfl⟩ := List.append_of_mem hl
  obtain ⟨q₁, q₂, hq⟩ := List.append_of_mem hel
  exact ⟨L, l.price, q₁, q₂, R, by rw [← hq]⟩

@[simp] theorem levels_setLevels (a : LevelBook) (s : Side) (ls : List Level) :
    (a.setLevels s ls).levels s = ls := update_self _ _ _

@[simp] theorem levels_setLevels_opposite (a : LevelBook) (s : Side) (ls : List Level) :
    (a.setLevels s ls).levels s.opposite = a.levels s.opposite :=
  update_of_ne s.opposite_ne _ _

@[simp] theorem levels_drop (a : LevelBook) (s : Side) (ls : List Level) (id : OrderId)
    (slot : Nat) : (a.drop s ls id slot).levels s = ls := update_self _ _ _

@[simp] theorem levels_drop_opposite (a : LevelBook) (s : Side) (ls : List Level) (id : OrderId)
    (slot : Nat) : (a.drop s ls id slot).levels s.opposite = a.levels s.opposite :=
  update_of_ne s.opposite_ne _ _

@[simp] theorem levels_rest (a : LevelBook) (o : Order) (slot : Nat) (free : List Nat)
    (rem : Qty) : (a.rest o slot free rem).levels o.side =
      insertEntry o.side o.price (restingEntry o slot rem) (a.levels o.side) := update_self _ _ _

@[simp] theorem levels_rest_opposite (a : LevelBook) (o : Order) (slot : Nat) (free : List Nat)
    (rem : Qty) : (a.rest o slot free rem).levels o.side.opposite = a.levels o.side.opposite :=
  update_of_ne o.side.opposite_ne _ _

theorem free_empty : LevelBook.empty.free = List.range kMaxOrders := by
  simp only [LevelBook.empty]

/-! ## Section 2: Where an entry goes -/

theorem better_irrefl (s : Side) (p : Price) : ¬ better s p p := by
  cases s <;> simp [better]

theorem better_trans {s : Side} {p q r : Price} (h : better s p q) (h' : better s q r) :
    better s p r := by
  cases s with
  | Buy => exact Int.lt_trans h' h
  | Sell => exact Int.lt_trans h h'

theorem better_total {s : Side} {p q : Price} (h : p ≠ q) : better s p q ∨ better s q p := by
  cases s with
  | Buy => exact (Int.lt_or_gt_of_ne h).symm
  | Sell => exact Int.lt_or_gt_of_ne h

/-- Among sorted levels, those before the level of `p` have priority over it. -/
theorem better_of_sorted {s : Side} {L R : List Level} {l : Level}
    (h : (L ++ l :: R).Pairwise fun k k' => better s k.price k'.price) :
    ∀ k ∈ L, better s k.price l.price := by
  intro k hk
  exact (List.pairwise_append.mp h).2.2 k hk l (by simp)

/-- The entry joins the level of its price. -/
theorem insertEntry_existing {p : Price} {e : Entry} (hL : ∀ k ∈ L, better s k.price p) :
    insertEntry s p e (L ++ ⟨p, q⟩ :: R) = L ++ ⟨p, q ++ [e]⟩ :: R := by
  induction L with
  | nil => simp [insertEntry]
  | cons k L ih =>
    have hk := hL k (by simp)
    have hne : k.price ≠ p := fun heq => better_irrefl s p (heq ▸ hk)
    simp only [List.cons_append, insertEntry, if_neg hne, if_pos hk]
    rw [ih fun k' hk' => hL k' (by simp [hk'])]

/-- The entry opens a level between those before and those behind its price. -/
theorem insertEntry_new {p : Price} {e : Entry} (hL : ∀ k ∈ L, better s k.price p)
    (hR : ∀ k ∈ R.head?, better s p k.price) :
    insertEntry s p e (L ++ R) = L ++ ⟨p, [e]⟩ :: R := by
  induction L with
  | nil =>
    cases R with
    | nil => rfl
    | cons r R =>
      -- the first level behind `p` is neither `p` nor before it
      have hr : better s p r.price := hR r (by simp)
      have hne : r.price ≠ p := fun heq => better_irrefl s p (heq ▸ hr)
      have hnb : ¬ better s r.price p := fun h => better_irrefl s _ (better_trans hr h)
      simp [insertEntry, hne, hnb]
  | cons k L ih =>
    have hk := hL k (by simp)
    have hne : k.price ≠ p := fun heq => better_irrefl s p (heq ▸ hk)
    simp only [List.cons_append, insertEntry, if_neg hne, if_pos hk]
    rw [ih fun k' hk' => hL k' (by simp [hk'])]

/-- Sorted levels without price `p` split where a level of price `p` belongs. -/
theorem split_at_price {s : Side} {p : Price} {ls : List Level}
    (hsorted : ls.Pairwise fun k k' => better s k.price k'.price)
    (hnew : ∀ k ∈ ls, k.price ≠ p) :
    ∃ L R, ls = L ++ R ∧ (∀ k ∈ L, better s k.price p) ∧ ∀ k ∈ R.head?, better s p k.price := by
  induction ls with
  | nil => exact ⟨[], [], rfl, by simp, by simp⟩
  | cons k ls ih =>
    -- either `k` still comes before `p`, or `p` belongs in front of it
    rcases better_total (s := s) (hnew k (by simp)) with hk | hk
    · obtain ⟨L, R, rfl, hL, hR⟩ :=
        ih (List.pairwise_cons.mp hsorted).2 fun k' hk' => hnew k' (by simp [hk'])
      refine ⟨k :: L, R, rfl, ?_, hR⟩
      intro k' hk'
      rcases List.mem_cons.mp hk' with rfl | hk'
      · exact hk
      · exact hL k' hk'
    · exact ⟨[], k :: ls, rfl, by simp, by simpa using hk⟩

/-! ## Section 3: Separation -/

/-- Every slot is in one queue or on the free list, once. -/
def Slotted (a : LevelBook) : Prop :=
  (slotsOf (a.levels .Buy) ++ (slotsOf (a.levels .Sell) ++ a.free)).Perm (List.range kMaxOrders)

theorem Slotted.side {a : LevelBook} (h : Slotted a) (s : Side) :
    (slotsOf (a.levels s) ++ (slotsOf (a.levels s.opposite) ++ a.free)).Perm
      (List.range kMaxOrders) := by
  cases s with
  | Buy => exact h
  | Sell =>
    refine List.Perm.trans ?_ h
    rw [← List.append_assoc, ← List.append_assoc]
    exact List.Perm.append_right _ List.perm_append_comm

theorem Slotted.of_side {a : LevelBook} (s : Side)
    (h : (slotsOf (a.levels s) ++ (slotsOf (a.levels s.opposite) ++ a.free)).Perm
      (List.range kMaxOrders)) : Slotted a := by
  cases s with
  | Buy => exact h
  | Sell =>
    refine List.Perm.trans ?_ h
    rw [← List.append_assoc, ← List.append_assoc]
    exact List.Perm.append_right _ List.perm_append_comm

theorem Slotted.nodup {a : LevelBook} (h : Slotted a) (s : Side) :
    (slotsOf (a.levels s) ++ (slotsOf (a.levels s.opposite) ++ a.free)).Nodup :=
  (h.side s).nodup_iff.mpr List.nodup_range

theorem Slotted.lt {a : LevelBook} (h : Slotted a) (s : Side) {x : Nat}
    (hx : x ∈ slotsOf (a.levels s) ++ (slotsOf (a.levels s.opposite) ++ a.free)) :
    x < kMaxOrders :=
  List.mem_range.mp ((h.side s).mem_iff.mp hx)

/-- The slots of the level `l` are distinct and occur nowhere else. -/
structure Apart (a : LevelBook) (s : Side) (L : List Level) (l : Level) (R : List Level) :
    Prop where
  nodup : l.slots.Nodup
  left : ∀ x ∈ l.slots, x ∉ slotsOf L
  right : ∀ x ∈ l.slots, x ∉ slotsOf R
  other : ∀ x ∈ l.slots, x ∉ slotsOf (a.levels s.opposite)
  free : ∀ x ∈ l.slots, x ∉ a.free
  lt : ∀ x ∈ l.slots, x < kMaxOrders

theorem Slotted.apart (h : Slotted a) (hls : a.levels s = L ++ l :: R) : Apart a s L l R := by
  have hnd := h.nodup s
  have hlt := fun {x} => h.lt s (x := x)
  rw [hls, slotsOf_append, slotsOf_cons] at hnd hlt
  -- peel the one list of all slots: own side, other side with free list, then level by level
  obtain ⟨hown, _, hout⟩ := List.nodup_append.mp hnd
  obtain ⟨_, hlR, hLl⟩ := List.nodup_append.mp hown
  obtain ⟨hl, _, hsep⟩ := List.nodup_append.mp hlR
  refine ⟨hl, ?_, ?_, ?_, ?_, ?_⟩
  · exact fun x hx hL => hLl x hL x (by simp [hx]) rfl
  · exact fun x hx hR => hsep x hx x hR rfl
  · exact fun x hx ho => hout x (by simp [hx]) x (by simp [ho]) rfl
  · exact fun x hx hf => hout x (by simp [hx]) x (by simp [hf]) rfl
  · exact fun x hx => hlt (by simp [hx])

/-- In the middle of a queue: nobody else has the slot of `e`. -/
theorem Apart.notMem {px : Price} {q₁ q₂ : List Entry} {e : Entry}
    (h : Apart a s L ⟨px, q₁ ++ e :: q₂⟩ R) : e.slot ∉ (q₁ ++ q₂).map Entry.slot := by
  have hnd := h.nodup
  rw [slots_mk, List.map_append, List.map_cons] at hnd
  rw [List.map_append]
  exact (List.nodup_cons.mp (List.nodup_middle.mp hnd)).1

theorem Apart.slot_ne {px : Price} {q₁ q₂ : List Entry} {e e' : Entry}
    (h : Apart a s L ⟨px, q₁ ++ e :: q₂⟩ R) (he' : e' ∈ q₁ ++ q₂) : e'.slot ≠ e.slot :=
  fun heq => h.notMem (heq ▸ List.mem_map.mpr ⟨e', he', rfl⟩)

/-- Once the entry `e` has left its queue, the others are as far apart, and
    `e` is in no queue. -/
theorem Apart.without {px : Price} {q₁ q₂ : List Entry} {e : Entry}
    (h : Apart a s L ⟨px, q₁ ++ e :: q₂⟩ R) :
    Apart (a.setLevels s (L ++ ⟨px, q₁ ++ q₂⟩ :: R)) s L ⟨px, q₁ ++ q₂⟩ R ∧
      ∀ t, e.slot ∉ slotsOf ((a.setLevels s (L ++ ⟨px, q₁ ++ q₂⟩ :: R)).levels t) := by
  have hsub : (q₁ ++ q₂).Sublist (q₁ ++ e :: q₂) :=
    List.Sublist.append_left (List.sublist_cons_self e q₂) q₁
  have hmem : ∀ x ∈ (⟨px, q₁ ++ q₂⟩ : Level).slots, x ∈ (⟨px, q₁ ++ e :: q₂⟩ : Level).slots :=
    fun x hx => (hsub.map Entry.slot).subset hx
  have he : e.slot ∈ (⟨px, q₁ ++ e :: q₂⟩ : Level).slots := by simp
  refine ⟨⟨h.nodup.sublist (hsub.map _), fun x hx => h.left x (hmem x hx),
    fun x hx => h.right x (hmem x hx), ?_, fun x hx => h.free x (hmem x hx),
    fun x hx => h.lt x (hmem x hx)⟩, ?_⟩
  · intro x hx
    rw [levels_setLevels_opposite]
    exact h.other x (hmem x hx)
  · intro t
    rcases s.eq_or_opposite t with rfl | rfl
    · rw [levels_setLevels, slotsOf_append, slotsOf_cons, List.mem_append, List.mem_append]
      rintro (hm | hm | hm)
      · exact h.left _ he hm
      · exact h.notMem hm
      · exact h.right _ he hm
    · rw [levels_setLevels_opposite]
      exact h.other _ he

/-- A free slot is in no queue. -/
theorem Slotted.free_apart (h : Slotted a) {x : Nat} (hx : x ∈ a.free) (s : Side) :
    x ∉ slotsOf (a.levels s) := by
  intro hs
  obtain ⟨_, _, hout⟩ := List.nodup_append.mp (h.nodup s)
  exact hout x hs x (by simp [hx]) rfl

theorem Slotted.free_nodup (h : Slotted a) : a.free.Nodup := by
  obtain ⟨_, hrest, _⟩ := List.nodup_append.mp (h.nodup .Buy)
  exact (List.nodup_append.mp hrest).2.1

theorem Slotted.free_lt (h : Slotted a) {x : Nat} (hx : x ∈ a.free) : x < kMaxOrders :=
  h.lt .Buy (by simp [hx])

/-- A queued slot leaves the free list short of the whole pool. -/
theorem Slotted.free_length_lt (h : Slotted a) {x : Nat} (hx : x ∈ slotsOf (a.levels s)) :
    a.free.length < kMaxOrders := by
  have hlen := (h.side s).length_eq
  have hpos := List.length_pos_of_mem hx
  simp only [List.length_append, List.length_range] at hlen
  omega

/-- A queue is no longer than the pool. -/
theorem Apart.length_le (h : Apart a s L l R) : l.queue.length ≤ kMaxOrders := by
  have hsub : l.slots ⊆ List.range kMaxOrders := fun x hx => List.mem_range.mpr (h.lt x hx)
  have hlen := (h.nodup.subperm hsub).length_le
  simpa [Level.slots] using hlen

/-- Levels with the same slots are as well separated. -/
theorem Slotted.setLevels (h : Slotted a) {ls : List Level}
    (hls : slotsOf ls = slotsOf (a.levels s)) : Slotted (a.setLevels s ls) := by
  apply Slotted.of_side s
  have hside := h.side s
  rw [levels_setLevels, levels_setLevels_opposite, hls]
  exact hside

end OptionsEngine
