import OptionsEngine.MpmcQueue.Emptiness

/-! # What a full queue means, and what a thread alone achieves

    `try_push` returns false if the slot at the tail has not been released by
    the consumer of the turn before.

    * `Freed`: a slot that was read has been released.
    * `Written`: a position that was claimed is published or being written.
    * `full_iff`: a `try_push` returns false exactly if it looks at the tail
      while the pop of the position one turn earlier has not returned.
    * `full_is_real`: hence all places are claimed when no consumer is in the
      middle of a read, and all hold items when no producer is in the middle of
      a write, either.
    * `solo_returns`: nothing that a stopped thread leaves behind keeps another
      one in its loop. -/

namespace OptionsEngine

open Ring Loop

namespace Mpmc

variable {ι α : Type} {W : Nat} {C : Capacity} {c c' : Config ι α W} {t : ι}
  {item out : Item α W} {pos p : Nat} {pc : Pc α W}

/-! ## Section 1: Released slots and claimed positions -/

/-- What was read has been released, and its slot may have gone on since. -/
def Freed (C : Capacity) (c : Config ι α W) : Prop :=
  ∀ p ∈ c.delivered, p + C.size ≤ (c.slotAt C p).sequence

theorem freed_start (mem : Nat → Item α W) : Freed C (Config.start (ι := ι) mem) := by
  intro p hp
  cases hp

theorem sequence_store_le {slot : Slot (Item α W)}
    (hseq : (c.slotAt C pos).sequence ≤ slot.sequence) (p : Nat) :
    (c.slotAt C p).sequence ≤ ((c.store C pos slot).slotAt C p).sequence := by
  by_cases hmod : p % C.size = pos % C.size
  · have hsame : c.slotAt C p = c.slotAt C pos := by rw [Config.slotAt, hmod]; rfl
    rw [slotAt_store_self hmod, hsame]
    exact hseq
  · rw [slotAt_store_ne hmod]

/-- The sequence that a release stores. -/
theorem release_sequence (h : Inv C c) (hcalls : c.calls < 2 ^ 63)
    (hr : (c.pc t).reads = some pos) : size_t (pos + C.mask + 1) = pos + C.size := by
  have hlt := (h.of_reads hr).2
  have hcount := h.claims.counted.le
  have hord := h.history.ordered
  have hsize := C.size_le
  rw [Nat.add_assoc, C.mask_add_one]
  exact size_t_eq (by omega)

/-- A loop compares a sequence with a position as numbers. -/
theorem ptrdiff_sequence (h : Inv C c) (hsize : C.size ≤ 2 ^ 62) (hcalls : c.calls < 2 ^ 63)
    (p : Nat) : ptrdiff_t (c.slotAt C p).sequence = (c.slotAt C p).sequence := by
  have hlt := h.sequence_lt hcalls p
  exact if_pos (by omega)

theorem slots_and_mask (c : Config ι α W) (pos : Nat) :
    c.queue.slots (pos &&& C.mask) = c.slotAt C pos := by
  rw [C.and_mask]
  rfl

variable [DecidableEq ι]

/-- The sequence of a slot only grows. -/
theorem Move.sequence_le (h : Move C c t c') (hinv : Inv C c) (hcalls : c.calls < 2 ^ 63) (p : Nat) :
    (c.slotAt C p).sequence ≤ (c'.slotAt C p).sequence := by
  cases h with
  | quiet _ _ _ => exact Nat.le_refl _
  | claim_push _ => exact Nat.le_refl _
  | write _ _ =>
    apply sequence_store_le
    exact Nat.le_refl _
  -- From the position to the one after it ...
  | @publish _ pos _ hpc =>
    obtain ⟨hempty, hlt⟩ := hinv.of_writes (t := t) (p := pos) (by rw [hpc]; rfl)
    have hcount := hinv.claims.counted.le
    apply sequence_store_le
    rw [hempty]
    show pos ≤ size_t (pos + 1)
    rw [size_t_eq (by omega)]
    omega
  | claim_pop _ => exact Nat.le_refl _
  | read _ => exact Nat.le_refl _
  -- ... and on to the same slot one turn later.
  | @release _ pos _ hpc =>
    have hr : (c.pc t).reads = some pos := by rw [hpc]; rfl
    apply sequence_store_le
    rw [(hinv.of_reads hr).1]
    show pos + 1 ≤ size_t (pos + C.mask + 1)
    rw [release_sequence hinv hcalls hr]
    have := C.one_lt
    omega

theorem Freed.move (h : Freed C c) (hinv : Inv C c) (hcalls : c.calls < 2 ^ 63)
    (hmove : Move C c t c') : Freed C c' := by
  have hgrows := hmove.sequence_le hinv hcalls
  have hold : ∀ p ∈ c.delivered, p + C.size ≤ (c'.slotAt C p).sequence :=
    fun p hp => Nat.le_trans (h p hp) (hgrows p)
  cases hmove with
  | quiet _ _ _ => exact hold
  | claim_push _ => exact hold
  | write _ _ => exact hold
  | publish _ => exact hold
  | claim_pop _ => exact hold
  | read _ => exact hold
  | @release out pos _ hpc =>
    have hr : (c.pc t).reads = some pos := by rw [hpc]; rfl
    intro p hp
    change p ∈ (c.popped ++ [Record.mk t pos out]).map Record.pos at hp
    rw [List.map_append, List.mem_append] at hp
    rcases hp with hp | hp
    · exact hold p hp
    · obtain rfl : p = pos := by simpa using hp
      show p + C.size ≤ ((c.store C p _).slotAt C p).sequence
      rw [slotAt_store_self rfl]
      exact Nat.le_of_eq (release_sequence hinv hcalls hr).symm

/-- What was claimed is published or being written. -/
def Written (c : Config ι α W) : Prop :=
  ∀ p < c.queue.enqueue_pos, p ∈ c.published ∨ ∃ t, (c.pc t).writes = some p

omit [DecidableEq ι] in
theorem written_start (mem : Nat → Item α W) : Written (Config.start (ι := ι) mem) := by
  intro p hp
  cases hp

/-- The thread holds the claim that it held, or none before and none after. -/
theorem Written.update {enq : Nat} {f : ι → Pc α W} {published published' : List Nat}
    (h : ∀ p < enq, p ∈ published ∨ ∃ t, (f t).writes = some p)
    (hsub : ∀ p ∈ published, p ∈ published')
    (hold : ∀ p, (f t).writes = some p → p ∈ published' ∨ pc.writes = some p) :
    ∀ p < enq, p ∈ published' ∨ ∃ t', (Function.update f t pc t').writes = some p := by
  intro p hp
  rcases h p hp with hmem | ⟨t', hw⟩
  · exact .inl (hsub p hmem)
  · by_cases ht : t' = t
    · subst ht
      rcases hold p hw with hmem | hpc
      · exact .inl hmem
      · exact .inr ⟨t', by rw [Function.update_self]; exact hpc⟩
    · exact .inr ⟨t', by rw [Function.update_of_ne ht]; exact hw⟩

/-- A step without a claim. -/
theorem Written.goto (h : Written c) (hw : (c.pc t).writes = none) {k : Nat} :
    Written ({ c with calls := k }.goto t pc) := by
  refine Written.update (t := t) h (fun _ hp => hp) ?_
  intro p hp
  rw [hw] at hp
  cases hp

theorem Written.step (h : Written c) (hinv : Inv C c) (hcalls : c.calls < 2 ^ 63)
    (turn : Turn ι α W) : Written (c.step C turn) := by
  have hcount := hinv.claims.counted.le
  cases hpc : c.pc turn.thread with
  | idle =>
    simp only [Config.step, hpc]
    cases turn.call with
    | push item => exact h.goto (by rw [hpc]; rfl)
    | pop out => exact h.goto (by rw [hpc]; rfl)
  | push_top item pos =>
    have hw : (c.pc turn.thread).writes = none := by rw [hpc]; rfl
    simp only [Config.step, hpc]
    split
    · exact h.goto hw
    · split
      · exact h.goto hw
      · exact h.goto hw
  | push_cas item pos =>
    have hw : (c.pc turn.thread).writes = none := by rw [hpc]; rfl
    simp only [Config.step, hpc]
    split
    · next hclaim =>
      -- the new claim is being written from now on
      intro p hp
      change p < size_t (pos + 1) at hp
      rw [size_t_eq (by omega)] at hp
      by_cases heq : p = pos
      · subst heq
        exact .inr ⟨turn.thread, by
          show (Function.update c.pc turn.thread (.push_write item p 0) turn.thread).writes = _
          rw [Function.update_self]
          rfl⟩
      · exact h.goto hw (k := c.calls) p (by show p < c.queue.enqueue_pos; omega)
    · exact h.goto hw
  | push_reload item =>
    simp only [Config.step, hpc]
    exact h.goto (by rw [hpc]; rfl)
  | push_write item pos i =>
    simp only [Config.step, hpc]
    split
    · refine Written.update (t := turn.thread) (f := c.pc) h (fun _ hp => hp) ?_
      intro p hp
      rw [hpc] at hp
      exact .inr hp
    · refine Written.update (t := turn.thread) (f := c.pc) h ?_ ?_
      · intro p hp
        obtain ⟨r, hr, rfl⟩ := List.mem_map.mp hp
        exact List.mem_map.mpr ⟨r, List.mem_append_left _ hr, rfl⟩
      · intro p hp
        rw [hpc] at hp
        obtain rfl : pos = p := Option.some.inj hp
        left
        exact List.mem_map.mpr ⟨⟨turn.thread, pos, item⟩,
          List.mem_append_right _ (List.mem_singleton_self _), rfl⟩
  | pop_top out pos =>
    have hw : (c.pc turn.thread).writes = none := by rw [hpc]; rfl
    simp only [Config.step, hpc]
    split
    · exact h.goto hw
    · split
      · exact h.goto hw
      · exact h.goto hw
  | pop_cas out pos =>
    have hw : (c.pc turn.thread).writes = none := by rw [hpc]; rfl
    simp only [Config.step, hpc]
    split
    · exact h.goto hw (k := c.calls)
    · exact h.goto hw
  | pop_reload out =>
    simp only [Config.step, hpc]
    exact h.goto (by rw [hpc]; rfl)
  | pop_read out pos i =>
    have hw : (c.pc turn.thread).writes = none := by rw [hpc]; rfl
    simp only [Config.step, hpc]
    split
    · exact h.goto hw
    · exact h.goto hw (k := c.calls)

structure Released (C : Capacity) (c : Config ι α W) : Prop where
  inv : Inv C c
  freed : Freed C c
  written : Written c

theorem released_run (mem : Nat → Item α W) (schedule : List (Turn ι α W))
    (hcalls : ((Config.start mem).run C schedule).calls < 2 ^ 63) :
    Released C ((Config.start mem).run C schedule) :=
  foldl_keeps_below (fun c turn => (step_effect c turn).calls)
    (fun _ turn hlt h => Released.mk (h.inv.step hlt turn)
      (h.freed.move h.inv hlt (step_move _ turn)) (h.written.step h.inv hlt turn))
    schedule ⟨inv_start mem, freed_start mem, written_start mem⟩ hcalls

/-! ## Section 2: The load that finds no room -/

theorem push_idle_iff (h : Inv C c) (hsize : C.size ≤ 2 ^ 62) (hcalls : c.calls < 2 ^ 63)
    {turn : Turn ι α W} (hpc : c.pc turn.thread = .push_top item pos) :
    (c.step C turn).pc turn.thread = .idle ↔ (c.slotAt C pos).sequence < pos := by
  have hle : pos ≤ c.queue.enqueue_pos := by
    have hok := h.pc turn.thread
    rwa [hpc] at hok
  have hcount := h.claims.counted.le
  have hpos : ptrdiff_t pos = (pos : Int) := if_pos (by omega)
  simp only [Config.step, hpc, slots_and_mask, ptrdiff_sequence h hsize hcalls, hpos]
  split
  · simp only [Config.goto, Function.update_self, reduceCtorEq, false_iff]
    omega
  · split
    · simp only [Config.goto, Function.update_self, true_iff]
      omega
    · simp only [Config.goto, Function.update_self, reduceCtorEq, false_iff]
      omega

/-- A `try_push` returns false exactly if it looks at the tail while the pop of
    the position one turn earlier has not returned. -/
theorem full_iff (h : Released C c) (hsize : C.size ≤ 2 ^ 62) (hcalls : c.calls < 2 ^ 63)
    {turn : Turn ι α W} (hpc : c.pc turn.thread = .push_top item pos) :
    (c.step C turn).pc turn.thread = .idle ↔
      pos = c.queue.enqueue_pos ∧ ∃ p, c.queue.enqueue_pos = p + C.size ∧ p ∉ c.delivered := by
  have hle : pos ≤ c.queue.enqueue_pos := by
    have hok := h.inv.pc turn.thread
    rwa [hpc] at hok
  have hone := C.one_lt
  rw [push_idle_iff h.inv hsize hcalls hpc]
  obtain ⟨p, hmod, hok⟩ := h.inv.slot (pos % C.size) (Nat.mod_lt _ C.pos)
  have hsame : c.slotAt C p = c.slotAt C pos := by rw [Config.slotAt, hmod]; rfl
  have hreached := hok.reached
  have hcurrent := hok.current
  rw [← hsame]
  constructor
  · intro hlt
    -- the slot is at a position of an earlier turn, which can only be the last one
    have hturn : p + C.size ≤ pos := by
      rcases hok.phase with ⟨hseq, _⟩ | ⟨hseq, _, _⟩
      · exact Nat.ModEq.add_le_of_lt hmod (by omega)
      · exact Nat.ModEq.add_le_of_lt hmod (by omega)
    refine ⟨by omega, p, by omega, ?_⟩
    intro hdelivered
    have hfreed := h.freed p hdelivered
    rcases hok.phase with ⟨hseq, _⟩ | ⟨hseq, _, _⟩ <;> omega
  · rintro ⟨rfl, q, hq, hnot⟩
    rcases hok.phase with ⟨hseq, hdeq⟩ | ⟨hseq, hpub, _⟩
    · rw [hseq]
      by_contra hge
      -- the slot is empty at the tail, so the position before was claimed and read
      have hlt : q < c.queue.dequeue_pos := by omega
      rcases h.inv.claims.consumed q hlt with hdel | ⟨t', hr⟩
      · exact hnot hdel
      · have hwritten := (h.inv.of_reads hr).1
        have hslot : c.slotAt C q = c.slotAt C c.queue.enqueue_pos := by
          rw [hq, Config.slotAt, Config.slotAt, Nat.add_mod_right]
        rw [hslot, ← hsame, hseq] at hwritten
        omega
    · have hlt := h.inv.lt_of_published hpub
      have hturn : p + C.size ≤ c.queue.enqueue_pos := Nat.ModEq.add_le_of_lt hmod (by omega)
      omega

/-- Whatever the threads have done: a `try_push` returns false exactly if it looks
    at the tail while the pop of the position one turn earlier has not returned.
    If no consumer is in the middle of a read, the producers have then claimed as
    many positions ahead of the consumers as the ring has slots, and if no
    producer is in the middle of a write, all of these hold their items. -/
theorem full_is_real (C : Capacity) (mem : Nat → Item α W) (schedule : List (Turn ι α W))
    (hsize : C.size ≤ 2 ^ 62) (hcalls : ((Config.start mem).run C schedule).calls < 2 ^ 63)
    (turn : Turn ι α W) (item : Item α W) (pos : Nat)
    (hpc : ((Config.start mem).run C schedule).pc turn.thread = .push_top item pos) :
    let c := (Config.start mem).run C schedule
    ((c.step C turn).pc turn.thread = .idle ↔
      pos = c.queue.enqueue_pos ∧ ∃ p, c.queue.enqueue_pos = p + C.size ∧ p ∉ c.delivered) ∧
    ((c.step C turn).pc turn.thread = .idle → (∀ t, (c.pc t).reads = none) →
      c.queue.enqueue_pos = c.queue.dequeue_pos + C.size ∧
      ((∀ t, (c.pc t).writes = none) →
        ∀ p, c.queue.dequeue_pos ≤ p → p < c.queue.enqueue_pos → p ∈ c.published)) := by
  intro c
  have h : Released C c := released_run mem schedule hcalls
  have hfull := full_iff h hsize hcalls hpc
  refine ⟨hfull, ?_⟩
  intro hidle hreads
  obtain ⟨_, p, hp, hnot⟩ := hfull.mp hidle
  have hbounded := h.inv.bounded
  -- A position below the head is read out, or in the middle of being read.
  have hge : ¬ p < c.queue.dequeue_pos := by
    intro hlt
    rcases h.inv.claims.consumed p hlt with hdel | ⟨t, hr⟩
    · exact hnot hdel
    · rw [hreads t] at hr
      cases hr
  refine ⟨?_, ?_⟩
  · omega
  · intro hwrites p _ hlt
    rcases h.written p hlt with hpub | ⟨t, hw⟩
    · exact hpub
    · rw [hwrites t] at hw
      cases hw

def twoSlots : Capacity := ⟨2, by decide, by decide, by decide⟩

/-- A turn of the only thread there is. -/
def loneTurn : Turn Unit Nat 1 := ⟨(), .push (.replicate 1 7), false⟩

/-- Two whole pushes and the beginning of a third. -/
def thirdPush : Config Unit Nat 1 :=
  (Config.start fun _ => .replicate 1 0).run twoSlots (List.replicate 11 loneTurn)

/-- Two pushes fill a ring of two slots. -/
theorem full_after_two_pushes :
    (thirdPush.step twoSlots loneTurn).pc () = .idle ∧
      thirdPush.queue.enqueue_pos = thirdPush.queue.dequeue_pos + 2 ∧
      0 ∈ thirdPush.published ∧ 1 ∈ thirdPush.published := by
  obtain ⟨hiff, hfull⟩ := full_is_real twoSlots (fun _ => .replicate 1 0)
    (List.replicate 11 loneTurn) (by decide) (by decide +kernel) loneTurn (.replicate 1 7) 2 rfl
  have hidle := hiff.mpr ⟨rfl, 0, rfl, List.not_mem_nil⟩
  obtain ⟨hclaimed, hitems⟩ := hfull hidle fun _ => rfl
  exact ⟨hidle, hclaimed, hitems (fun _ => rfl) 0 (by decide +kernel) (by decide +kernel),
    hitems (fun _ => rfl) 1 (by decide +kernel) (by decide +kernel)⟩

/-! ## Section 3: A thread alone -/

/-- How many steps a thread needs to return if it is alone and no exchange fails
    spuriously. -/
def rank (enqueue_pos dequeue_pos : Nat) : Pc α W → Nat
  | .idle => 0
  | .push_write _ _ i | .pop_read _ _ i => W - i + 1
  | .push_cas _ pos => if pos = enqueue_pos then W + 2 else W + 4
  | .pop_cas _ pos => if pos = dequeue_pos then W + 2 else W + 4
  | .push_top _ pos => if pos = enqueue_pos then W + 3 else W + 5
  | .pop_top _ pos => if pos = dequeue_pos then W + 3 else W + 5
  | .push_reload _ | .pop_reload _ => W + 4

theorem rank_le (enq deq : Nat) (pc : Pc α W) : rank enq deq pc ≤ W + 5 := by
  cases pc with
  | idle => exact Nat.zero_le _
  | push_write item pos i | pop_read out pos i =>
    show W - i + 1 ≤ W + 5
    omega
  | push_cas item pos | pop_cas out pos =>
    simp only [rank]
    split <;> omega
  | push_top item pos | pop_top out pos =>
    simp only [rank]
    split <;> omega
  | push_reload item | pop_reload out => exact Nat.le_succ _

/-- The rank of a thread. -/
def Config.left (c : Config ι α W) (t : ι) : Nat :=
  rank c.queue.enqueue_pos c.queue.dequeue_pos (c.pc t)

/-- The thread has moved, and nothing shared has. -/
theorem left_goto (c : Config ι α W) (t : ι) (pc : Pc α W) :
    (c.goto t pc).left t = rank c.queue.enqueue_pos c.queue.dequeue_pos pc := by
  show rank _ _ (Function.update c.pc t pc t) = _
  rw [Function.update_self]
  rfl

omit [DecidableEq ι] in
/-- At the tail and at the head, no slot is ahead. -/
theorem sequence_at_ends (h : Inv C c) :
    (c.slotAt C c.queue.enqueue_pos).sequence ≤ c.queue.enqueue_pos ∧
      (c.slotAt C c.queue.dequeue_pos).sequence ≤ c.queue.dequeue_pos + 1 := by
  have hord := h.history.ordered
  have hone := C.one_lt
  -- A slot is at this position or at one of an earlier turn.
  have hbound : ∀ n, c.queue.dequeue_pos ≤ n →
      ∃ p ≤ n, (p = n ∨ p + C.size ≤ n) ∧ SlotOk C c p ∧ c.slotAt C p = c.slotAt C n := by
    intro n hn
    obtain ⟨p, hmod, hok⟩ := h.slot (n % C.size) (Nat.mod_lt _ C.pos)
    have hreached := hok.reached
    have hsame : c.slotAt C p = c.slotAt C n := by rw [Config.slotAt, hmod]; rfl
    rcases Nat.lt_trichotomy p n with hlt | heq | hgt
    · exact ⟨p, by omega, Or.inr (Nat.ModEq.add_le_of_lt hmod hlt), hok, hsame⟩
    · exact ⟨p, by omega, Or.inl heq, hok, hsame⟩
    · have hturn : n + C.size ≤ p := Nat.ModEq.add_le_of_lt hmod.symm hgt
      omega
  refine ⟨?_, ?_⟩
  · obtain ⟨p, _, hcase, hok, hsame⟩ := hbound _ hord
    rw [← hsame]
    rcases hok.phase with ⟨hseq, _⟩ | ⟨hseq, hpub, _⟩
    · omega
    · have hlt := h.lt_of_published hpub
      omega
  · obtain ⟨p, hle, _, hok, hsame⟩ := hbound _ (Nat.le_refl _)
    rw [← hsame]
    rcases hok.phase with ⟨hseq, _⟩ | ⟨hseq, _, _⟩ <;> omega

/-- A turn counts as one if it is an exchange that finds what it expects and
    fails all the same. -/
def Config.failure (c : Config ι α W) (turn : Turn ι α W) : Nat :=
  match c.pc turn.thread with
  | .push_cas _ pos => if pos = c.queue.enqueue_pos ∧ turn.spurious = true then 1 else 0
  | .pop_cas _ pos => if pos = c.queue.dequeue_pos ∧ turn.spurious = true then 1 else 0
  | _ => 0

omit [DecidableEq ι] in
theorem failure_eq_zero {turn : Turn ι α W} (h : turn.spurious = false) : c.failure turn = 0 := by
  unfold Config.failure
  split
  · rw [h, if_neg (by simp)]
  · rw [h, if_neg (by simp)]
  · rfl

/-- An exchange that finds what it expects fails only spuriously. -/
theorem spurious_of_fresh {n : Nat} {spurious : Bool} (hne : ¬ (n = pos ∧ spurious = false))
    (hfresh : pos = n) : spurious = true := by
  cases spurious with
  | true => rfl
  | false => exact absurd ⟨hfresh.symm, rfl⟩ hne

/-- A step of a thread brings its return closer, unless its exchange fails
    spuriously. -/
theorem rank_step (h : Inv C c) (hsize : C.size ≤ 2 ^ 62) (hcalls : c.calls < 2 ^ 63)
    (turn : Turn ι α W) (hpc : c.pc turn.thread ≠ .idle) :
    (c.step C turn).left turn.thread < c.left turn.thread + 2 * c.failure turn ∧
      (c.step C turn).calls = c.calls := by
  have hok := h.pc turn.thread
  have hcount := h.claims.counted.le
  have hord := h.history.ordered
  obtain ⟨htail, hhead⟩ := sequence_at_ends h
  have hleft : c.left turn.thread = rank c.queue.enqueue_pos c.queue.dequeue_pos
      (c.pc turn.thread) := rfl
  rw [hleft]
  -- A stale position costs one more load; alone, it is never stale twice.
  cases hat : c.pc turn.thread with
  | idle => exact absurd hat hpc
  | push_top item pos =>
    rw [hat] at hok
    have hle : pos ≤ c.queue.enqueue_pos := hok
    have hpos : ptrdiff_t pos = (pos : Int) := if_pos (by omega)
    simp only [Config.step, hat, slots_and_mask, ptrdiff_sequence h hsize hcalls, hpos]
    split
    · refine ⟨?_, rfl⟩
      rw [left_goto]
      simp only [rank]
      by_cases hfresh : pos = c.queue.enqueue_pos
      · rw [if_pos hfresh, if_pos hfresh]
        omega
      · rw [if_neg hfresh, if_neg hfresh]
        omega
    · split
      · refine ⟨?_, rfl⟩
        rw [left_goto]
        simp only [rank]
        split <;> omega
      · next hne hlt =>
        -- a slot ahead of the position: the position is not the tail
        have hstale : pos ≠ c.queue.enqueue_pos := by
          rintro rfl
          omega
        refine ⟨?_, rfl⟩
        rw [left_goto]
        simp only [rank, if_neg hstale]
        omega
  | push_cas item pos =>
    simp only [Config.step, hat]
    split
    · next heq =>
      refine ⟨?_, rfl⟩
      rw [left_goto]
      simp only [rank, heq.1, if_true]
      omega
    · next hne =>
      refine ⟨?_, rfl⟩
      rw [left_goto]
      simp only [rank, if_true]
      split
      · next hfresh =>
        have hfail : c.failure turn = 1 := by
          simp only [Config.failure, hat]
          exact if_pos ⟨hfresh, spurious_of_fresh hne hfresh⟩
        omega
      · omega
  | push_reload item =>
    simp only [Config.step, hat]
    refine ⟨?_, rfl⟩
    rw [left_goto]
    simp only [rank, if_true]
    omega
  | push_write item pos i =>
    simp only [Config.step, hat]
    split
    · refine ⟨?_, rfl⟩
      rw [left_goto]
      simp only [rank]
      omega
    · refine ⟨?_, rfl⟩
      rw [left_goto]
      simp only [rank]
      omega
  | pop_top out pos =>
    rw [hat] at hok
    have hle : pos ≤ c.queue.dequeue_pos := hok
    have hwrap : size_t (pos + 1) = pos + 1 := size_t_eq (by omega)
    have hpos : ptrdiff_t (pos + 1) = ((pos + 1 : Nat) : Int) := if_pos (by omega)
    simp only [Config.step, hat, slots_and_mask, ptrdiff_sequence h hsize hcalls, hwrap, hpos]
    split
    · refine ⟨?_, rfl⟩
      rw [left_goto]
      simp only [rank]
      by_cases hfresh : pos = c.queue.dequeue_pos
      · rw [if_pos hfresh, if_pos hfresh]
        omega
      · rw [if_neg hfresh, if_neg hfresh]
        omega
    · split
      · refine ⟨?_, rfl⟩
        rw [left_goto]
        simp only [rank]
        split <;> omega
      · next hne hlt =>
        have hstale : pos ≠ c.queue.dequeue_pos := by
          rintro rfl
          omega
        refine ⟨?_, rfl⟩
        rw [left_goto]
        simp only [rank, if_neg hstale]
        omega
  | pop_cas out pos =>
    simp only [Config.step, hat]
    split
    · next heq =>
      refine ⟨?_, rfl⟩
      rw [left_goto]
      simp only [rank, heq.1, if_true]
      omega
    · next hne =>
      refine ⟨?_, rfl⟩
      rw [left_goto]
      simp only [rank, if_true]
      split
      · next hfresh =>
        have hfail : c.failure turn = 1 := by
          simp only [Config.failure, hat]
          exact if_pos ⟨hfresh, spurious_of_fresh hne hfresh⟩
        omega
      · omega
  | pop_reload out =>
    simp only [Config.step, hat]
    refine ⟨?_, rfl⟩
    rw [left_goto]
    simp only [rank, if_true]
    omega
  | pop_read out pos i =>
    simp only [Config.step, hat]
    split
    · refine ⟨?_, rfl⟩
      rw [left_goto]
      simp only [rank]
      omega
    · refine ⟨?_, rfl⟩
      rw [left_goto]
      simp only [rank]
      omega

omit [DecidableEq ι] in
theorem left_eq_zero (h : c.left t = 0) : c.pc t = .idle := by
  unfold Config.left at h
  cases hpc : c.pc t with
  | idle => rfl
  | push_cas item pos | pop_cas out pos | push_top item pos | pop_top out pos =>
    rw [hpc] at h
    simp only [rank] at h
    split at h <;> omega
  | push_write item pos i | pop_read out pos i =>
    rw [hpc] at h
    cases h
  | push_reload item | pop_reload out =>
    rw [hpc] at h
    cases h

/-- How many exchanges fail spuriously in the turns to come. -/
def Config.failures (C : Capacity) (c : Config ι α W) : List (Turn ι α W) → Nat
  | [] => 0
  | turn :: turns => c.failure turn + (c.step C turn).failures C turns

/-- Alone, a thread returns within its rank and two steps for every spurious
    failure. -/
theorem solo_run (hsize : C.size ≤ 2 ^ 62) (t : ι) (turns : List (Turn ι α W)) :
    ∀ {c : Config ι α W}, Inv C c → c.calls < 2 ^ 63 → (∀ turn ∈ turns, turn.thread = t) →
      c.left t + 2 * c.failures C turns ≤ turns.length →
      ∃ own, own <+: turns ∧ own.length ≤ c.left t + 2 * c.failures C own ∧
        (c.run C own).pc t = .idle := by
  -- Induction on the turns: no step of the thread begins another call.
  induction turns with
  | nil =>
    intro c _ _ _ hlength
    exact ⟨[], List.prefix_refl _, Nat.zero_le _, left_eq_zero (Nat.le_zero.mp hlength)⟩
  | cons turn turns ih =>
    intro c h hcalls hown hlength
    by_cases hidle : c.pc t = .idle
    · exact ⟨[], List.nil_prefix, Nat.zero_le _, hidle⟩
    · obtain rfl : turn.thread = t := hown turn (List.mem_cons_self ..)
      obtain ⟨hlt, hsame⟩ := rank_step h hsize hcalls turn hidle
      rw [Config.failures, List.length_cons] at hlength
      obtain ⟨own, hprefix, hle, hend⟩ := ih (h.step hcalls turn) (by rw [hsame]; exact hcalls)
        (fun turn' hturn' => hown turn' (List.mem_cons_of_mem _ hturn')) (by omega)
      refine ⟨turn :: own, List.cons_prefix_cons.mpr ⟨rfl, hprefix⟩, ?_, hend⟩
      rw [Config.failures, List.length_cons]
      omega

/-- Whatever the threads have done: a thread that is in a call and has the next
    turns to itself, wherever the others stand still, returns after at most
    `W + 5` of them and two more for every spurious failure of its exchanges. -/
theorem solo_returns (C : Capacity) (mem : Nat → Item α W) (schedule : List (Turn ι α W))
    (hsize : C.size ≤ 2 ^ 62) (hcalls : ((Config.start mem).run C schedule).calls < 2 ^ 63)
    (t : ι) (hbusy : ((Config.start mem).run C schedule).pc t ≠ .idle)
    (turns : List (Turn ι α W)) (hown : ∀ turn ∈ turns, turn.thread = t)
    (hlength : W + 5 + 2 * ((Config.start mem).run C schedule).failures C turns ≤ turns.length) :
    ∃ own, own ≠ [] ∧ own <+: turns ∧
      own.length ≤ W + 5 + 2 * ((Config.start mem).run C schedule).failures C own ∧
      (((Config.start mem).run C schedule).run C own).pc t = .idle := by
  have hinv := (released_run mem schedule hcalls).inv
  have hleft : ((Config.start mem).run C schedule).left t ≤ W + 5 := rank_le _ _ _
  obtain ⟨own, hprefix, hle, hend⟩ := solo_run hsize t turns hinv hcalls hown (by omega)
  refine ⟨own, ?_, hprefix, by omega, hend⟩
  rintro rfl
  exact hbusy hend

/-- A consumer has stopped in the middle of its read.  A producer in its call
    goes on alone; its first exchange fails although nobody interferes. -/
theorem solo_beside_reader :
    let stopped := (Config.start fun _ => .replicate 1 0).run twoSlots
      (List.replicate 5 (pushTurn 0) ++ List.replicate 3 popTurn ++ [pushTurn 0])
    let turns : List (Turn Nat Nat 1) := pushTurn 0 :: { pushTurn 0 with spurious := true } ::
      List.replicate 6 (pushTurn 0)
    (stopped.pc 2).reads = some 0 ∧ stopped.failures twoSlots turns = 1 ∧
      ∃ own, own ≠ [] ∧ own <+: turns ∧ own.length ≤ 6 + 2 * stopped.failures twoSlots own ∧
        (stopped.run twoSlots own).pc 0 = .idle := by
  intro stopped turns
  have hbusy : stopped.pc 0 ≠ .idle := by
    intro hidle
    cases hidle
  have hfails : stopped.failures twoSlots turns = 1 := by decide +kernel
  refine ⟨rfl, hfails, ?_⟩
  exact solo_returns twoSlots (fun _ => .replicate 1 0) _ (by decide) (by decide +kernel) 0
    hbusy turns (by decide +kernel) (by decide +kernel)

end Mpmc

end OptionsEngine
