import OptionsEngine.LevelBook.Basic

/-! # The invariant of the book of levels

    Every change of the book is one of three edits: an entry leaves
    (`LevelBook.drop`), a queue is rearranged or re-quantified
    (`LevelBook.setLevels`), an entry is booked (`LevelBook.rest`).  Each of
    them keeps `WF`, so every fill does, and so does every call. -/

namespace OptionsEngine

open Function OrderBook

variable {a a' : LevelBook} {s : Side} {L R : List Level} {px : Price} {q q' q₁ q₂ : List Entry}
  {e : Entry}

/-! ## Section 1: The three edits -/

/-- To keep the invariant it is enough to keep it on the side that changes. -/
theorem WF.of_side (hw : WF a) (s : Side) (hopp : a'.levels s.opposite = a.levels s.opposite)
    (hsorted : (a'.levels s).Pairwise fun l l' => better s l.price l'.price)
    (hnonempty : ∀ l ∈ a'.levels s, l.queue ≠ [])
    (hpositive : ∀ e ∈ entriesOf (a'.levels s), e.qty ≠ 0)
    (hcapacity : (a'.levels s).length ≤ kMaxLevels)
    (hslots : (slotsOf (a'.levels s) ++ (slotsOf (a.levels s.opposite) ++ a'.free)).Perm
      (slotsOf (a.levels s) ++ (slotsOf (a.levels s.opposite) ++ a.free)))
    (hindexed : ∀ id slot t, a'.index id = some (slot, t) →
      ∃ e ∈ entriesOf (a'.levels t), e.slot = slot ∧ e.id = id) : WF a' where
  sorted := fun t => by
    rcases s.eq_or_opposite t with rfl | rfl
    · exact hsorted
    · rw [hopp]; exact hw.sorted _
  nonempty := fun t => by
    rcases s.eq_or_opposite t with rfl | rfl
    · exact hnonempty
    · rw [hopp]; exact hw.nonempty _
  positive := fun t => by
    rcases s.eq_or_opposite t with rfl | rfl
    · exact hpositive
    · rw [hopp]; exact hw.positive _
  capacity := fun t => by
    rcases s.eq_or_opposite t with rfl | rfl
    · exact hcapacity
    · rw [hopp]; exact hw.capacity _
  slots := by
    apply Slotted.of_side s
    rw [hopp]
    exact hslots.trans (Slotted.side hw.slots s)
  indexed := hindexed

/-- Leaving out a level, or emptying it, keeps the order of the prices. -/
theorem sorted_keep
    (h : (L ++ ⟨px, q⟩ :: R).Pairwise fun l l' => better s l.price l'.price) :
    (L ++ keep px q' ++ R).Pairwise fun l l' => better s l.price l'.price := by
  have hprices : ((L ++ ⟨px, q⟩ :: R).map Level.price).Pairwise (better s) := by
    rwa [List.pairwise_map]
  have hsub : ((L ++ keep px q' ++ R).map Level.price).Sublist
      ((L ++ ⟨px, q⟩ :: R).map Level.price) := by
    by_cases hq : q' = [] <;> simp [keep, hq]
  have := hprices.sublist hsub
  rwa [List.pairwise_map] at this

theorem length_keep_le (px : Price) (q : List Entry) : (keep px q).length ≤ 1 := by
  unfold keep
  split <;> simp

/-- An entry leaves the book. -/
theorem WF.drop (hw : WF a) (hls : a.levels s = L ++ ⟨px, q₁ ++ e :: q₂⟩ :: R) :
    WF (a.drop s (L ++ keep px (q₁ ++ q₂) ++ R) e.id e.slot) := by
  have hentries : entriesOf (a.levels s) = entriesOf L ++ (q₁ ++ e :: q₂ ++ entriesOf R) := by
    rw [hls]; simp
  have hentries' : entriesOf (L ++ keep px (q₁ ++ q₂) ++ R) =
      entriesOf L ++ (q₁ ++ q₂ ++ entriesOf R) := by
    simp
  have hsub : ∀ x ∈ entriesOf (L ++ keep px (q₁ ++ q₂) ++ R), x ∈ entriesOf (a.levels s) := by
    intro x hx
    rw [hentries'] at hx
    rw [hentries]
    simp only [List.mem_append, List.mem_cons] at hx ⊢
    tauto
  refine hw.of_side s (levels_drop_opposite _ _ _ _ _) ?_ ?_ ?_ ?_ ?_ ?_
  · have hsorted := hw.sorted s
    rw [hls] at hsorted
    rw [levels_drop]
    exact sorted_keep hsorted
  · rw [levels_drop]
    intro l hl
    simp only [List.mem_append] at hl
    rcases hl with (hl | hl) | hl
    · exact hw.nonempty s l (by rw [hls]; simp [hl])
    · unfold keep at hl
      split at hl
      · simp at hl
      · next hne => rw [List.mem_singleton.mp hl]; exact hne
    · exact hw.nonempty s l (by rw [hls]; simp [hl])
  · rw [levels_drop]
    exact fun x hx => hw.positive s x (hsub x hx)
  · have hcap := hw.capacity s
    have hk := length_keep_le px (q₁ ++ q₂)
    rw [hls] at hcap
    rw [levels_drop]
    simp only [List.length_append, List.length_cons] at hcap ⊢
    omega
  · -- the slot of `e` moves from its queue to the free list
    rw [levels_drop, slotsOf_eq, slotsOf_eq (a.levels s), hentries, hentries']
    simp only [List.map_append, List.map_cons, List.append_assoc]
    refine List.Perm.append_left _ (List.Perm.append_left _ ?_)
    show (_ ++ (_ ++ (_ ++ e.slot :: a.free))).Perm _
    rw [← List.append_assoc, ← List.append_assoc]
    refine List.perm_middle.trans ?_
    rw [List.append_assoc, List.append_assoc]
    exact List.Perm.refl _
  · intro id slot t hid
    have hne : id ≠ e.id := by
      intro heq
      rw [heq] at hid
      simp [LevelBook.drop] at hid
    have hold : a.index id = some (slot, t) := by
      simpa [LevelBook.drop, update_of_ne hne] using hid
    obtain ⟨x, hx, hxs, hxid⟩ := hw.indexed id slot t hold
    refine ⟨x, ?_, hxs, hxid⟩
    rcases s.eq_or_opposite t with rfl | rfl
    -- an id other than that of `e` is indexed to an entry that stays
    · have hxe : x ≠ e := fun heq => hne (by rw [← hxid, heq])
      rw [levels_drop, hentries']
      rw [hentries] at hx
      simp only [List.mem_append, List.mem_cons] at hx ⊢
      tauto
    · rw [levels_drop_opposite]; exact hx

/-- A queue is rearranged, or quantities in it change. -/
theorem WF.requeue (hw : WF a) (hls : a.levels s = L ++ ⟨px, q⟩ :: R)
    (hperm : (q'.map fun e => (e.slot, e.id)).Perm (q.map fun e => (e.slot, e.id)))
    (hpos : ∀ e ∈ q', e.qty ≠ 0) : WF (a.setLevels s (L ++ ⟨px, q'⟩ :: R)) := by
  have hslots : (q'.map Entry.slot).Perm (q.map Entry.slot) := by
    have := hperm.map Prod.fst
    simpa [List.map_map, Function.comp_def] using this
  refine hw.of_side s (levels_setLevels_opposite _ _ _) ?_ ?_ ?_ ?_ ?_ ?_
  · rw [levels_setLevels]
    have hsorted := hw.sorted s
    rw [hls] at hsorted
    have hprices : ((L ++ ⟨px, q⟩ :: R).map Level.price).Pairwise (better s) := by
      rwa [List.pairwise_map]
    rw [← List.pairwise_map (f := Level.price) (R := better s)]
    simpa using hprices
  · rw [levels_setLevels]
    intro l hl
    rcases List.mem_append.mp hl with hl | hl
    · exact hw.nonempty s l (by rw [hls]; simp [hl])
    · rcases List.mem_cons.mp hl with rfl | hl
      · have hq := hw.nonempty s ⟨px, q⟩ (by rw [hls]; simp)
        have hlen := hslots.length_eq
        simp only [List.length_map] at hlen
        intro hnil
        change q' = [] at hnil
        rw [hnil, List.length_nil] at hlen
        exact hq (List.length_eq_zero_iff.mp hlen.symm)
      · exact hw.nonempty s l (by rw [hls]; simp [hl])
  · rw [levels_setLevels]
    intro x hx
    simp only [entriesOf_append, entriesOf_cons, List.mem_append] at hx
    rcases hx with hx | hx | hx
    · exact hw.positive s x (by rw [hls]; simp [hx])
    · exact hpos x hx
    · exact hw.positive s x (by rw [hls]; simp [hx])
  · have hcap := hw.capacity s
    rw [hls] at hcap
    rw [levels_setLevels]
    simpa using hcap
  · rw [levels_setLevels, hls]
    simp only [slotsOf_append, slotsOf_cons, slots_mk, LevelBook.setLevels]
    exact List.Perm.append_right _ (List.Perm.append_left _ (List.Perm.append_right _ hslots))
  · intro id slot t hid
    obtain ⟨x, hx, hxs, hxid⟩ := hw.indexed id slot t hid
    rcases s.eq_or_opposite t with rfl | rfl
    · rw [levels_setLevels]
      rw [hls] at hx
      simp only [entriesOf_append, entriesOf_cons, List.mem_append] at hx ⊢
      rcases hx with hx | hx | hx
      · exact ⟨x, Or.inl hx, hxs, hxid⟩
      · -- the entry is still in the queue, perhaps with another quantity
        have hmem : (x.slot, x.id) ∈ q'.map fun e => (e.slot, e.id) :=
          hperm.mem_iff.mpr (List.mem_map.mpr ⟨x, hx, rfl⟩)
        obtain ⟨y, hy, hyx⟩ := List.mem_map.mp hmem
        have h1 : y.slot = x.slot := congrArg Prod.fst hyx
        have h2 : y.id = x.id := congrArg Prod.snd hyx
        exact ⟨y, Or.inr (Or.inl hy), h1.trans hxs, h2.trans hxid⟩
      · exact ⟨x, Or.inr (Or.inr hx), hxs, hxid⟩
    · rw [levels_setLevels_opposite]; exact ⟨x, hx, hxs, hxid⟩

/-- A quantity changes in place. -/
theorem WF.requantify (hw : WF a) (hls : a.levels s = L ++ ⟨px, q₁ ++ e :: q₂⟩ :: R) {n : Qty}
    (hn : n ≠ 0) : WF (a.setLevels s (L ++ ⟨px, q₁ ++ { e with qty := n } :: q₂⟩ :: R)) := by
  refine hw.requeue hls ?_ ?_
  · simp
  · intro x hx
    simp only [List.mem_append, List.mem_cons] at hx
    rcases hx with hx | rfl | hx
    · exact hw.positive s x (by rw [hls]; simp [hx])
    · exact hn
    · exact hw.positive s x (by rw [hls]; simp [hx])

/-! ## Section 2: Booking an entry -/

/-- The entry is booked in an existing level or in a new one. -/
theorem insertEntry_cases {ls : List Level} {p : Price}
    (hsorted : ls.Pairwise fun k k' => better s k.price k'.price) (e : Entry) :
    (∃ L q R, ls = L ++ ⟨p, q⟩ :: R ∧ insertEntry s p e ls = L ++ ⟨p, q ++ [e]⟩ :: R) ∨
    (∃ L R, ls = L ++ R ∧ (∀ k ∈ ls, k.price ≠ p) ∧ (∀ k ∈ L, better s k.price p) ∧
      (∀ k ∈ R.head?, better s p k.price) ∧ insertEntry s p e ls = L ++ ⟨p, [e]⟩ :: R) := by
  by_cases hex : ∃ k ∈ ls, k.price = p
  · obtain ⟨k, hk, rfl⟩ := hex
    obtain ⟨L, R, rfl⟩ := List.append_of_mem hk
    exact Or.inl ⟨L, k.queue, R, rfl, insertEntry_existing (better_of_sorted hsorted)⟩
  · have hnew : ∀ k ∈ ls, k.price ≠ p := fun k hk heq => hex ⟨k, hk, heq⟩
    obtain ⟨L, R, rfl, hL, hR⟩ := split_at_price hsorted hnew
    exact Or.inr ⟨L, R, rfl, hnew, hL, hR, insertEntry_new hL hR⟩

theorem entriesOf_insertEntry (s : Side) (p : Price) (e : Entry) (ls : List Level) :
    (entriesOf (insertEntry s p e ls)).Perm (e :: entriesOf ls) := by
  induction ls with
  | nil => exact List.Perm.refl _
  | cons l ls ih =>
    unfold insertEntry
    split
    · simp only [entriesOf_cons, List.append_assoc, List.singleton_append]
      exact List.perm_middle
    · split
      · simp only [entriesOf_cons]
        exact (List.Perm.append_left _ ih).trans List.perm_middle
      · exact List.Perm.refl _

theorem mem_insertEntry {p : Price} {x : Entry} {ls : List Level} :
    x ∈ entriesOf (insertEntry s p e ls) ↔ x = e ∨ x ∈ entriesOf ls := by
  rw [(entriesOf_insertEntry s p e ls).mem_iff, List.mem_cons]

/-- Behind the first level of a sorted side, prices only get worse. -/
theorem better_of_head {ls : List Level} {p : Price}
    (hsorted : ls.Pairwise fun k k' => better s k.price k'.price)
    (hhead : ∀ k ∈ ls.head?, better s p k.price) : ∀ k ∈ ls, better s p k.price := by
  cases ls with
  | nil => simp
  | cons l ls =>
    intro k hk
    have hl : better s p l.price := hhead l (by simp)
    rcases List.mem_cons.mp hk with rfl | hk
    · exact hl
    · exact better_trans hl ((List.pairwise_cons.mp hsorted).1 k hk)

theorem sorted_insertEntry {ls : List Level} {p : Price}
    (hsorted : ls.Pairwise fun k k' => better s k.price k'.price) (e : Entry) :
    (insertEntry s p e ls).Pairwise fun k k' => better s k.price k'.price := by
  rcases insertEntry_cases hsorted (p := p) e with
    ⟨L, q, R, rfl, hins⟩ | ⟨L, R, rfl, _, hL, hR, hins⟩
  · rw [hins, ← List.pairwise_map (f := Level.price) (R := better s)]
    rw [← List.pairwise_map (f := Level.price) (R := better s)] at hsorted
    simpa using hsorted
  · obtain ⟨hsL, hsR, hLR⟩ := List.pairwise_append.mp hsorted
    rw [hins, List.pairwise_append]
    refine ⟨hsL, List.pairwise_cons.mpr ⟨better_of_head hsR hR, hsR⟩, ?_⟩
    intro k hk k' hk'
    rcases List.mem_cons.mp hk' with rfl | hk'
    · exact hL k hk
    · exact hLR k hk k' hk'

theorem length_insertEntry_le (s : Side) (p : Price) (e : Entry) (ls : List Level) :
    (insertEntry s p e ls).length ≤ ls.length + 1 := by
  induction ls with
  | nil => simp [insertEntry]
  | cons l ls ih =>
    unfold insertEntry
    split
    · simp
    · split
      · simpa using ih
      · simp

/-- A level of the price means that no level is created. -/
theorem length_insertEntry_existing {ls : List Level} {p : Price}
    (hsorted : ls.Pairwise fun k k' => better s k.price k'.price)
    (hex : ∃ k ∈ ls, k.price = p) : (insertEntry s p e ls).length = ls.length := by
  rcases insertEntry_cases hsorted (p := p) e with ⟨L, q, R, rfl, hins⟩ | ⟨L, R, rfl, hnew, _, _, _⟩
  · rw [hins]; simp
  · obtain ⟨k, hk, hkp⟩ := hex
    exact absurd hkp (hnew k hk)

theorem nonempty_insertEntry {ls : List Level} {p : Price} (hne : ∀ l ∈ ls, l.queue ≠ []) :
    ∀ l ∈ insertEntry s p e ls, l.queue ≠ [] := by
  induction ls with
  | nil => simp [insertEntry]
  | cons k ls ih =>
    intro l hl
    have hk := hne k (by simp)
    have hls : ∀ l ∈ ls, l.queue ≠ [] := fun l hl => hne l (by simp [hl])
    unfold insertEntry at hl
    split at hl
    · rcases List.mem_cons.mp hl with rfl | hl
      · simp
      · exact hls l hl
    · split at hl
      · rcases List.mem_cons.mp hl with rfl | hl
        · exact hk
        · exact ih hls l hl
      · rcases List.mem_cons.mp hl with rfl | hl
        · simp
        · rcases List.mem_cons.mp hl with rfl | hl
          · exact hk
          · exact hls l hl

/-- A remainder is booked. -/
theorem WF.rest (hw : WF a) {o : Order} {slot : Nat} {free : List Nat} {rem : Qty}
    (hrem : rem ≠ 0)
    (hroom : (∃ l ∈ a.levels o.side, l.price = o.price) ∨
      (a.levels o.side).length < kMaxLevels)
    (hfree : a.free = slot :: free) : WF (a.rest o slot free rem) := by
  refine hw.of_side o.side (levels_rest_opposite _ _ _ _ _) ?_ ?_ ?_ ?_ ?_ ?_
  · rw [levels_rest]
    exact sorted_insertEntry (hw.sorted o.side) _
  · rw [levels_rest]
    exact nonempty_insertEntry (hw.nonempty o.side)
  · rw [levels_rest]
    intro x hx
    rcases mem_insertEntry.mp hx with rfl | hx
    · exact hrem
    · exact hw.positive o.side x hx
  · rw [levels_rest]
    -- only a new level counts against the capacity
    rcases hroom with hex | hlt
    · rw [length_insertEntry_existing (hw.sorted o.side) hex]
      exact hw.capacity o.side
    · have := length_insertEntry_le o.side o.price (restingEntry o slot rem) (a.levels o.side)
      omega
  · -- the slot moves from the free list into a queue
    have hperm := (entriesOf_insertEntry o.side o.price (restingEntry o slot rem)
      (a.levels o.side)).map Entry.slot
    rw [levels_rest, hfree, slotsOf_eq]
    show (_ ++ (_ ++ free)).Perm _
    refine (List.Perm.append_right _ hperm).trans ?_
    rw [List.map_cons, ← slotsOf_eq]
    show (slot :: (slotsOf (a.levels o.side) ++ (slotsOf (a.levels o.side.opposite) ++ free))).Perm _
    rw [← List.append_assoc, ← List.append_assoc]
    exact List.perm_middle.symm
  · intro id x t hid
    -- the new entry is indexed under its own id; this may overwrite an older entry of that id
    by_cases heq : id = o.id
    · subst heq
      have hv : some (slot, o.side) = some (x, t) := by
        simpa [LevelBook.rest] using hid
      obtain ⟨rfl, rfl⟩ : slot = x ∧ o.side = t := by simpa using hv
      rw [levels_rest]
      exact ⟨restingEntry o slot rem, mem_insertEntry.mpr (Or.inl rfl), rfl, rfl⟩
    · have hold : a.index id = some (x, t) := by
        simpa [LevelBook.rest, update_of_ne heq] using hid
      obtain ⟨y, hy, hys, hyid⟩ := hw.indexed id x t hold
      refine ⟨y, ?_, hys, hyid⟩
      rcases o.side.eq_or_opposite t with rfl | rfl
      · rw [levels_rest]; exact mem_insertEntry.mpr (Or.inr hy)
      · rw [levels_rest_opposite]; exact hy

/-! ## Section 3: Fills and calls -/

/-- A fill is one of the edits: the head leaves, or its quantity shrinks. -/
theorem take_cases (a : LevelBook) (s : Side) (px : Price) (e : Entry) (es : List Entry)
    (ls : List Level) (f : Qty) :
    (f = e.qty ∧ a.take s px e es ls f = a.drop s ([] ++ keep px ([] ++ es) ++ ls) e.id e.slot) ∨
    (f ≠ e.qty ∧ a.take s px e es ls f =
      a.setLevels s ([] ++ ⟨px, [] ++ { e with qty := e.qty - f } :: es⟩ :: ls)) := by
  unfold LevelBook.take
  split
  · next heq => exact Or.inl ⟨heq, rfl⟩
  · next hne => exact Or.inr ⟨hne, rfl⟩

theorem sub_min_ne_zero {rem qty : Qty} (h : min rem qty ≠ qty) : qty - min rem qty ≠ 0 := by
  intro hzero
  have hle : (min rem qty).toNat ≤ qty.toNat := by
    rw [UInt32.toNat_min]
    exact Nat.min_le_right _ _
  have hsub := UInt32.toNat_sub_of_le _ _ (UInt32.le_iff_toNat_le.mpr hle)
  rw [hzero] at hsub
  have heq : (min rem qty).toNat = qty.toNat := by
    change 0 = _ at hsub
    omega
  exact h (UInt32.toNat_inj.mp heq)

theorem WF.take {es : List Entry} {ls : List Level} (hw : WF a)
    (hls : a.levels s = ⟨px, e :: es⟩ :: ls) (rem : Qty) :
    WF (a.take s px e es ls (min rem e.qty)) := by
  have hls' : a.levels s = [] ++ ⟨px, [] ++ e :: es⟩ :: ls := hls
  rcases take_cases a s px e es ls (min rem e.qty) with ⟨_, htake⟩ | ⟨hne, htake⟩
  · rw [htake]
    exact hw.drop hls'
  · rw [htake]
    exact hw.requantify hls' (sub_min_ne_zero hne)

theorem Matching.wf {o : Order} {rem rem' : Qty} {takes : List Take} {walled : Bool}
    (h : Matching o s a rem takes a' rem' walled) (hw : WF a) : WF a' := by
  induction h with
  | filled a => exact hw
  | exhausted hrem hls => exact hw
  | price hrem hls hstop => exact hw
  | wall hrem hls hgo hwall => exact hw
  | take hrem hls hgo hwall hrest ih => exact ih (hw.take hls _)

/-- Matching leaves the own side of the aggressor alone. -/
theorem Matching.own_side {o : Order} {rem rem' : Qty} {takes : List Take} {walled : Bool}
    (h : Matching o s a rem takes a' rem' walled) :
    a'.levels s.opposite = a.levels s.opposite := by
  induction h with
  | filled a => rfl
  | exhausted hrem hls => rfl
  | price hrem hls hstop => rfl
  | wall hrem hls hgo hwall => rfl
  | @take a a' rem rem' px e es ls takes walled hrem hls hgo hwall hrest ih =>
    rw [ih]
    rcases take_cases a s px e es ls (min rem e.qty) with ⟨_, htake⟩ | ⟨_, htake⟩
    · rw [htake, levels_drop_opposite]
    · rw [htake, levels_setLevels_opposite]

/-- The fills of an added order come from one run of matching, and nothing else
    changes the other side. -/
theorem Step.matching {o : Order} {out : Outcome} {takes : List Take}
    (h : Step a (.add o) out takes a') :
    takes = [] ∨ ∃ a'' rem walled,
      Matching o o.side.opposite a o.qty_remaining takes a'' rem walled ∧
      a'.levels o.side.opposite = a''.levels o.side.opposite := by
  cases h with
  | fok_rejected htype hshort => exact .inl rfl
  | immediate himm hfok hm => exact .inr ⟨_, _, _, hm, rfl⟩
  | filled himm hm => exact .inr ⟨_, _, _, hm, rfl⟩
  | stp_walled himm hm hrem => exact .inr ⟨_, _, _, hm, rfl⟩
  | level_rejected himm hm hrem hnew hfull => exact .inr ⟨_, _, _, hm, rfl⟩
  | slot_rejected himm hm hrem hroom hfree => exact .inr ⟨_, _, _, hm, rfl⟩
  | rested himm hm hrem hroom hfree => exact .inr ⟨_, _, _, hm, levels_rest_opposite _ _ _ _ _⟩

/-- Every call keeps the invariant. -/
theorem Step.wf {op : Op} {out : Outcome} {takes : List Take} (h : Step a op out takes a')
    (hw : WF a) : WF a' := by
  cases h with
  | fok_rejected htype hshort => exact hw
  | immediate himm hfok hm => exact hm.wf hw
  | filled himm hm => exact hm.wf hw
  | stp_walled himm hm hrem => exact hm.wf hw
  | level_rejected himm hm hrem hnew hfull => exact hm.wf hw
  | slot_rejected himm hm hrem hroom hfree => exact hm.wf hw
  | rested himm hm hrem hroom hfree => exact (hm.wf hw).rest hrem hroom hfree
  | cancel_unknown hid => exact hw
  | cancelled hid heid hls =>
    subst heid
    exact hw.drop hls
  | modify_unknown hid => exact hw
  | @increased id new_qty s L R px q₁ q₂ e hid heid hls hqty =>
    refine hw.requeue hls ?_ ?_
    · -- the entry moves to the back
      simp only [List.map_append, List.map_cons, List.map_nil, List.append_assoc]
      refine List.Perm.append_left _ ?_
      exact List.perm_append_singleton _ _
    · intro x hx
      simp only [List.mem_append, List.mem_singleton] at hx
      rcases hx with (hx | hx) | rfl
      · exact hw.positive s x (by rw [hls]; simp [hx])
      · exact hw.positive s x (by rw [hls]; simp [hx])
      · intro hzero
        change new_qty = 0 at hzero
        rw [hzero] at hqty
        exact absurd hqty (by simp)
  | decreased hid heid hls hqty hnew => exact hw.requantify hls hnew
  | emptied hid heid hls =>
    subst heid
    exact hw.drop hls

theorem wf_empty : WF LevelBook.empty where
  sorted := fun _ => List.Pairwise.nil
  nonempty := fun _ l hl => absurd hl (List.not_mem_nil)
  positive := fun _ e he => absurd he (List.not_mem_nil)
  capacity := fun _ => Nat.zero_le _
  slots := by
    have hempty : ∀ s, slotsOf (LevelBook.empty.levels s) = [] := fun _ => rfl
    rw [hempty, hempty, List.nil_append, List.nil_append, LevelBook.empty]
  indexed := fun id slot s h => by simp [LevelBook.empty] at h

end OptionsEngine
