import Mathlib.Data.Finset.Card
import OptionsEngine.MpmcQueue

/-! # The sequence protocol of the multi-producer multi-consumer queue

    The slot of position `p` goes through the sequence numbers `p` (empty),
    `p + 1` (written) and `p + Capacity` (empty for the next turn).  `Inv` says
    where every slot and every thread stands:

    * `SlotOk`: a slot is empty for a position that consumers have not
      claimed, or holds the payload that was pushed at its position.
    * `PcOk`: what a thread may rely on at each of its program points, however
      stale the position it carries.
    * `History`: what the positions say about the claims made and the calls
      finished so far.
    * `Claims`: a claim has one owner; `Counted`: it is paid for by a call,
      which keeps the positions below `2 ^ 63` as long as the calls are.

    `Inv.step` takes `Inv` through a step: the two compare-and-swaps, the
    stores to a slot (`Inv.pc_stored` for all threads that only look on) and
    the steps that change nothing shared. -/

namespace OptionsEngine

open Ring

namespace Mpmc

variable {ι α : Type} {W : Nat} (C : Capacity)

/-! ## Section 1: The invariant -/

namespace Config

def slotAt (c : Config ι α W) (p : Nat) : Slot (Item α W) := c.queue.slots (p % C.size)

/-- The payloads by position. -/
def items (c : Config ι α W) : List (Item α W) := c.enqueued.map Prod.snd

/-- The positions of the `try_push` calls that returned true. -/
def published (c : Config ι α W) : List Nat := c.pushed.map Record.pos

/-- The positions of the `try_pop` calls that returned true. -/
def delivered (c : Config ι α W) : List Nat := c.popped.map Record.pos

end Config

/-- The slot of `p` belongs to `p`: neither to the position a turn earlier nor
    to the one a turn later. -/
structure SlotOk (c : Config ι α W) (p : Nat) : Prop where
  reached : p < c.queue.dequeue_pos + C.size
  current : c.queue.enqueue_pos ≤ p + C.size
  phase :
    ((c.slotAt C p).sequence = p ∧ c.queue.dequeue_pos ≤ p) ∨
    ((c.slotAt C p).sequence = p + 1 ∧ p ∈ c.published ∧
      c.items[p]? = some (c.slotAt C p).data)

/-- What a thread relies on. -/
def PcOk (c : Config ι α W) : Pc α W → Prop
  | .idle => True
  | .push_top _ pos => pos ≤ c.queue.enqueue_pos
  | .push_cas _ pos =>
    pos ≤ c.queue.enqueue_pos ∧
      (pos = c.queue.enqueue_pos → (c.slotAt C pos).sequence = pos)
  | .push_reload _ => True
  | .push_write item pos i =>
    c.items[pos]? = some item ∧ (c.slotAt C pos).sequence = pos ∧
      Agree (c.slotAt C pos).data item i ∧ pos ∉ c.published
  | .pop_top _ pos => pos ≤ c.queue.dequeue_pos
  | .pop_cas _ pos =>
    pos ≤ c.queue.dequeue_pos ∧
      (pos = c.queue.dequeue_pos → (c.slotAt C pos).sequence = pos + 1)
  | .pop_reload _ => True
  | .pop_read out pos i =>
    pos < c.queue.dequeue_pos ∧ (c.slotAt C pos).sequence = pos + 1 ∧
      (∃ item, c.items[pos]? = some item ∧ Agree out item i) ∧ pos ∉ c.delivered

/-- The thread is in a call that has not claimed a position. -/
def Pc.pending : Pc α W → Bool
  | .idle | .push_write _ _ _ | .pop_read _ _ _ => false
  | _ => true

/-- `claims` claims and the pending calls have each begun with a call of
    their own. -/
def Counted (pc : ι → Pc α W) (claims calls : Nat) : Prop :=
  ∃ A : Finset ι, (∀ t, (pc t).pending = true → t ∈ A) ∧ claims + A.card ≤ calls

/-- What the positions say about the claims and the finished calls. -/
structure History (enq deq : Nat) (enqueued : List (Nat × Item α W)) (dequeued : List Nat)
    (pushed popped : List (Record ι α W)) : Prop where
  enqueued_eq : enqueued.map Prod.fst = List.range enq
  dequeued_eq : dequeued = List.range deq
  ordered : deq ≤ enq
  pushed_item : ∀ r ∈ pushed, (enqueued.map Prod.snd)[r.pos]? = some r.item
  pushed_nodup : (pushed.map Record.pos).Nodup
  popped_item : ∀ r ∈ popped, (enqueued.map Prod.snd)[r.pos]? = some r.item ∧ r.pos < deq
  popped_nodup : (popped.map Record.pos).Nodup
  published : ∀ p < deq, p ∈ pushed.map Record.pos

/-- Who has claimed what: a claim has one owner, and a position that consumers
    have passed is delivered or being read. -/
structure Claims (f : ι → Pc α W) (deq : Nat) (delivered : List Nat) (claims calls : Nat) :
    Prop where
  writer : ∀ t t' p, (f t).writes = some p → (f t').writes = some p → t = t'
  reader : ∀ t t' p, (f t).reads = some p → (f t').reads = some p → t = t'
  consumed : ∀ p < deq, p ∈ delivered ∨ ∃ t, (f t).reads = some p
  counted : Counted f claims calls

structure Inv (c : Config ι α W) : Prop where
  history : History c.queue.enqueue_pos c.queue.dequeue_pos c.enqueued c.dequeued c.pushed c.popped
  claims : Claims c.pc c.queue.dequeue_pos c.delivered
    (c.queue.enqueue_pos + c.queue.dequeue_pos) c.calls
  bounded : c.queue.enqueue_pos ≤ c.queue.dequeue_pos + C.size
  slot : ∀ s < C.size, ∃ p, p % C.size = s ∧ SlotOk C c p
  pc : ∀ t, PcOk C c (c.pc t)

variable {C} {c c' : Config ι α W} {t : ι} {item out : Item α W} {pos p i : Nat} {pc : Pc α W}

theorem inv_start (mem : Nat → Item α W) : Inv C (Config.start (ι := ι) mem) where
  history := by
    constructor <;> simp [Config.start, MPMCQueue.fresh]
  claims :=
    { writer := by simp [Config.start, Pc.writes]
      reader := by simp [Config.start, Pc.reads]
      consumed := by simp [Config.start, MPMCQueue.fresh]
      counted := ⟨∅, by simp [Config.start, Pc.pending], by simp [Config.start, MPMCQueue.fresh]⟩ }
  bounded := Nat.zero_le _
  slot := by
    intro s hs
    refine ⟨s, Nat.mod_eq_of_lt hs, by simpa [Config.start, MPMCQueue.fresh] using hs, ?_, ?_⟩
    · exact Nat.zero_le _
    · left
      exact ⟨Nat.mod_eq_of_lt hs, Nat.zero_le _⟩
  pc := fun _ => trivial

/-! ## Section 2: Reading a slot -/

/-- A slot whose sequence is `p` is empty and waits for position `p`. -/
theorem Inv.slot_empty (h : Inv C c) (hseq : (c.slotAt C p).sequence = p) : SlotOk C c p := by
  obtain ⟨p', hmod, hok⟩ := h.slot (p % C.size) (Nat.mod_lt _ C.pos)
  have hsame : c.slotAt C p' = c.slotAt C p := by rw [Config.slotAt, hmod]; rfl
  rcases hok.phase with ⟨hp', _⟩ | ⟨hp', _, _⟩
  · rw [hsame, hseq] at hp'
    exact hp' ▸ hok
  · rw [hsame, hseq] at hp'
    exact absurd (hp' ▸ hmod).symm (succ_mod_ne C.one_lt p')

/-- A slot whose sequence is `p + 1` holds what was pushed at position `p`. -/
theorem Inv.slot_written (h : Inv C c) (hseq : (c.slotAt C p).sequence = p + 1) :
    SlotOk C c p ∧ p ∈ c.published ∧ c.items[p]? = some (c.slotAt C p).data := by
  obtain ⟨p', hmod, hok⟩ := h.slot (p % C.size) (Nat.mod_lt _ C.pos)
  have hsame : c.slotAt C p' = c.slotAt C p := by rw [Config.slotAt, hmod]; rfl
  rcases hok.phase with ⟨hp', _⟩ | ⟨hp', hpub, hitem⟩
  · rw [hsame, hseq] at hp'
    exact absurd (hp' ▸ hmod) (succ_mod_ne C.one_lt p)
  · rw [hsame, hseq] at hp'
    obtain rfl : p = p' := by omega
    exact ⟨hok, hpub, hitem⟩

theorem Inv.items_length (h : Inv C c) : c.items.length = c.queue.enqueue_pos := by
  have := congrArg List.length h.history.enqueued_eq
  simpa [Config.items] using this

theorem Inv.lt_enqueue_pos (h : Inv C c) (hitem : c.items[p]? = some item) :
    p < c.queue.enqueue_pos := by
  rw [← h.items_length]
  exact (List.getElem?_eq_some_iff.mp hitem).1

theorem Inv.lt_of_published (h : Inv C c) (hp : p ∈ c.published) : p < c.queue.enqueue_pos := by
  obtain ⟨r, hr, rfl⟩ := List.mem_map.mp hp
  exact h.lt_enqueue_pos (h.history.pushed_item r hr)

theorem Inv.lt_of_delivered (h : Inv C c) (hp : p ∈ c.delivered) : p < c.queue.dequeue_pos := by
  obtain ⟨r, hr, rfl⟩ := List.mem_map.mp hp
  exact (h.history.popped_item r hr).2

/-- The writer of `p` has its slot to itself. -/
theorem Inv.of_writes (h : Inv C c) (hw : (c.pc t).writes = some p) :
    (c.slotAt C p).sequence = p ∧ p < c.queue.enqueue_pos := by
  have hok := h.pc t
  cases hpc : c.pc t <;> rw [hpc] at hok hw <;> simp only [Pc.writes, Option.some.injEq, reduceCtorEq] at hw
  subst hw
  exact ⟨hok.2.1, h.lt_enqueue_pos hok.1⟩

theorem Inv.of_reads (h : Inv C c) (hr : (c.pc t).reads = some p) :
    (c.slotAt C p).sequence = p + 1 ∧ p < c.queue.dequeue_pos := by
  have hok := h.pc t
  cases hpc : c.pc t <;> rw [hpc] at hok hr <;> simp only [Pc.reads, Option.some.injEq, reduceCtorEq] at hr
  subst hr
  exact ⟨hok.2.1, hok.1⟩

/-! ## Section 3: Frames

    A thread watches at most one slot: the one it has claimed, or the one at
    the position it is about to claim.  No other thread stores to it. -/

/-- What a thread relies on survives the steps of others. -/
theorem PcOk.frame (h : PcOk C c pc)
    (henq : c.queue.enqueue_pos ≤ c'.queue.enqueue_pos)
    (hdeq : c.queue.dequeue_pos ≤ c'.queue.dequeue_pos)
    (hitems : ∀ (p : Nat) x, c.items[p]? = some x → c'.items[p]? = some x)
    (hempty : ∀ p, (c.slotAt C p).sequence = p → pc.writes = some p ∨ p = c.queue.enqueue_pos →
      c'.slotAt C p = c.slotAt C p)
    (hwritten : ∀ p, (c.slotAt C p).sequence = p + 1 →
      pc.reads = some p ∨ p = c.queue.dequeue_pos → c'.slotAt C p = c.slotAt C p)
    (hpublished : ∀ p, pc.writes = some p → p ∈ c'.published → p ∈ c.published)
    (hdelivered : ∀ p, pc.reads = some p → p ∈ c'.delivered → p ∈ c.delivered) :
    PcOk C c' pc := by
  cases pc with
  | idle => trivial
  | push_reload item => trivial
  | pop_reload out => trivial
  | push_top item pos => exact Nat.le_trans h henq
  | pop_top out pos => exact Nat.le_trans h hdeq
  | push_cas item pos =>
    obtain ⟨hle, hseq⟩ := h
    refine ⟨Nat.le_trans hle henq, fun heq => ?_⟩
    have hpos : pos = c.queue.enqueue_pos := by omega
    rw [hempty pos (hseq hpos) (.inr hpos)]
    exact hseq hpos
  | pop_cas out pos =>
    obtain ⟨hle, hseq⟩ := h
    refine ⟨Nat.le_trans hle hdeq, fun heq => ?_⟩
    have hpos : pos = c.queue.dequeue_pos := by omega
    rw [hwritten pos (hseq hpos) (.inr hpos)]
    exact hseq hpos
  | push_write item pos i =>
    obtain ⟨hitem, hseq, hagree, hnot⟩ := h
    have hslot := hempty pos hseq (.inl rfl)
    refine ⟨hitems _ _ hitem, ?_, ?_, mt (hpublished pos rfl) hnot⟩
    · rw [hslot]
      exact hseq
    · rw [hslot]
      exact hagree
  | pop_read out pos i =>
    obtain ⟨hlt, hseq, ⟨item, hitem, hagree⟩, hnot⟩ := h
    refine ⟨Nat.lt_of_lt_of_le hlt hdeq, ?_, ⟨item, hitems _ _ hitem, hagree⟩,
      mt (hdelivered pos rfl) hnot⟩
    rw [hwritten pos hseq (.inl rfl)]
    exact hseq

variable (C) in
/-- The slot of `pos` is none that a thread at `pc` watches. -/
structure Apart (c : Config ι α W) (pc : Pc α W) (pos : Nat) : Prop where
  empty : ∀ p, (c.slotAt C p).sequence = p → pc.writes = some p ∨ p = c.queue.enqueue_pos →
    p % C.size ≠ pos % C.size
  written : ∀ p, (c.slotAt C p).sequence = p + 1 → pc.reads = some p ∨ p = c.queue.dequeue_pos →
    p % C.size ≠ pos % C.size

/-- A store to the slot of a position that `t` writes meets no slot that
    another thread watches. -/
theorem Inv.apart_of_writes (h : Inv C c) (hw : (c.pc t).writes = some pos) {t' : ι}
    (ht : t' ≠ t) :
    Apart C c (c.pc t') pos := by
  obtain ⟨hseq, hlt⟩ := h.of_writes hw
  have hsame : ∀ p, p % C.size = pos % C.size → (c.slotAt C p).sequence = pos := by
    intro p hmod
    rw [Config.slotAt, hmod]
    exact hseq
  constructor
  · intro p hp hwatch hmod
    obtain rfl : p = pos := hp.symm.trans (hsame p hmod)
    rcases hwatch with hw' | heq
    · exact ht (h.claims.writer t' t p hw' hw)
    · omega
  · intro p hp _ hmod
    have heq : p + 1 = pos := hp.symm.trans (hsame p hmod)
    exact succ_mod_ne C.one_lt p (heq ▸ hmod.symm)

/-- The same for a position that `t` reads. -/
theorem Inv.apart_of_reads (h : Inv C c) (hr : (c.pc t).reads = some pos) {t' : ι}
    (ht : t' ≠ t) :
    Apart C c (c.pc t') pos := by
  obtain ⟨hseq, hlt⟩ := h.of_reads hr
  have hsame : ∀ p, p % C.size = pos % C.size → (c.slotAt C p).sequence = pos + 1 := by
    intro p hmod
    rw [Config.slotAt, hmod]
    exact hseq
  constructor
  · intro p hp _ hmod
    have heq : p = pos + 1 := hp.symm.trans (hsame p hmod)
    exact succ_mod_ne C.one_lt pos (heq ▸ hmod)
  · intro p hp hwatch hmod
    obtain rfl : p = pos := by
      have := hp.symm.trans (hsame p hmod)
      omega
    rcases hwatch with hr' | heq
    · exact ht (h.claims.reader t' t p hr' hr)
    · omega

/-- A pending call has been counted on top of the claims. -/
theorem Counted.lt {f : ι → Pc α W} {n k : Nat} (h : Counted f n k)
    (hold : (f t).pending = true) : n < k := by
  obtain ⟨A, hA, hle⟩ := h
  have := Finset.card_pos.mpr ⟨t, hA t hold⟩
  omega

theorem Counted.le {f : ι → Pc α W} {n k : Nat} (h : Counted f n k) : n ≤ k := by
  obtain ⟨A, _, hle⟩ := h
  omega

theorem eq_of_ptrdiff {a b : Nat} (ha : a < 2 ^ 64) (hb : b < 2 ^ 64)
    (h : ptrdiff_t a - ptrdiff_t b = 0) : a = b := by
  unfold ptrdiff_t at h
  split at h <;> split at h <;> omega

/-- No sequence number wraps; with a capacity of at most `2 ^ 62` none reaches
    the sign bit either, so that the difference the loops take is exact. -/
theorem Inv.sequence_lt (h : Inv C c) (hcalls : c.calls < 2 ^ 63) (p : Nat) :
    (c.slotAt C p).sequence < 2 ^ 62 + C.size := by
  obtain ⟨p', hmod, hok⟩ := h.slot (p % C.size) (Nat.mod_lt _ C.pos)
  have hsame : c.slotAt C p' = c.slotAt C p := by rw [Config.slotAt, hmod]; rfl
  -- a consumed position took a push and a pop
  have hreached := hok.reached
  have hcount := h.claims.counted.le
  have hord := h.history.ordered
  rw [← hsame]
  rcases hok.phase with ⟨hseq, _⟩ | ⟨hseq, _, _⟩ <;> omega

/-- Only one slot of the ring changes. -/
theorem slot_of_store (h : ∀ s < C.size, ∃ p, p % C.size = s ∧ SlotOk C c p)
    (henq : c'.queue.enqueue_pos = c.queue.enqueue_pos)
    (hdeq : c'.queue.dequeue_pos = c.queue.dequeue_pos) (hitems : c'.items = c.items)
    (hpublished : ∀ p ∈ c.published, p ∈ c'.published)
    (hother : ∀ p, p % C.size ≠ pos % C.size → c'.slotAt C p = c.slotAt C p)
    (hmod : p % C.size = pos % C.size) (hself : SlotOk C c' p) :
    ∀ s < C.size, ∃ p, p % C.size = s ∧ SlotOk C c' p := by
  intro s hs
  obtain ⟨p', hp', hok⟩ := h s hs
  by_cases hne : p' % C.size = pos % C.size
  · exact ⟨p, by omega, hself⟩
  · refine ⟨p', hp', ?_, ?_, ?_⟩
    · rw [hdeq]
      exact hok.reached
    · rw [henq]
      exact hok.current
    · rw [hother p' hne, hitems, hdeq]
      exact hok.phase.imp_right fun ⟨hseq, hpub, hitem⟩ => ⟨hseq, hpublished p' hpub, hitem⟩

theorem slotAt_store_self {slot : Slot (Item α W)} (hmod : p % C.size = pos % C.size) :
    (c.store C pos slot).slotAt C p = slot := by
  simp only [Config.slotAt, Config.store, C.and_mask, hmod, Function.update_self]

theorem slotAt_store_ne {slot : Slot (Item α W)} (hmod : p % C.size ≠ pos % C.size) :
    (c.store C pos slot).slotAt C p = c.slotAt C p := by
  simp only [Config.slotAt, Config.store, C.and_mask, Function.update_of_ne hmod]

variable [DecidableEq ι]

/-- A thread's new claim is its own if no other thread has it. -/
theorem unique_update {claims : Pc α W → Option Nat} {f : ι → Pc α W}
    (h : ∀ t t' p, claims (f t) = some p → claims (f t') = some p → t = t')
    (hnew : ∀ p, claims pc = some p → ∀ t', t' ≠ t → claims (f t') ≠ some p) :
    ∀ t₁ t₂ p, claims (Function.update f t pc t₁) = some p →
      claims (Function.update f t pc t₂) = some p → t₁ = t₂ := by
  intro t₁ t₂ p h₁ h₂
  by_cases ht₁ : t₁ = t <;> by_cases ht₂ : t₂ = t
  · rw [ht₁, ht₂]
  · rw [ht₁, Function.update_self] at h₁
    rw [Function.update_of_ne ht₂] at h₂
    exact absurd h₂ (hnew p h₁ t₂ ht₂)
  · rw [Function.update_of_ne ht₁] at h₁
    rw [ht₂, Function.update_self] at h₂
    exact absurd h₁ (hnew p h₂ t₁ ht₁)
  · rw [Function.update_of_ne ht₁] at h₁
    rw [Function.update_of_ne ht₂] at h₂
    exact h t₁ t₂ p h₁ h₂

/-- A position that its reader gives up has been delivered. -/
theorem consumed_update {f : ι → Pc α W} {n : Nat} {l l' : List Nat}
    (h : ∀ p < n, p ∈ l ∨ ∃ t, (f t).reads = some p) (hl : ∀ p ∈ l, p ∈ l')
    (hold : ∀ p, (f t).reads = some p → p ∈ l' ∨ pc.reads = some p) :
    ∀ p < n, p ∈ l' ∨ ∃ t', (Function.update f t pc t').reads = some p := by
  intro p hp
  rcases h p hp with hmem | ⟨t', ht'⟩
  · exact .inl (hl p hmem)
  · by_cases heq : t' = t
    · rw [heq] at ht'
      exact (hold p ht').imp_right fun hr => ⟨t, by rw [Function.update_self]; exact hr⟩
    · exact .inr ⟨t', by rw [Function.update_of_ne heq]; exact ht'⟩

theorem Counted.begin {f : ι → Pc α W} {n k : Nat} (h : Counted f n k) (t : ι) (pc : Pc α W) :
    Counted (Function.update f t pc) n (k + 1) := by
  obtain ⟨A, hA, hle⟩ := h
  refine ⟨insert t A, ?_, ?_⟩
  · intro t' ht'
    by_cases heq : t' = t
    · exact heq ▸ Finset.mem_insert_self t A
    · rw [Function.update_of_ne heq] at ht'
      exact Finset.mem_insert_of_mem (hA t' ht')
  · have := Finset.card_insert_le t A
    omega

theorem Counted.stay {f : ι → Pc α W} {n k : Nat} (h : Counted f n k)
    (hpc : pc.pending = true → (f t).pending = true) : Counted (Function.update f t pc) n k := by
  obtain ⟨A, hA, hle⟩ := h
  refine ⟨A, ?_, hle⟩
  intro t' ht'
  by_cases heq : t' = t
  · subst heq
    rw [Function.update_self] at ht'
    exact hA t' (hpc ht')
  · rw [Function.update_of_ne heq] at ht'
    exact hA t' ht'

/-- A pending call becomes a claim. -/
theorem Counted.claim {f : ι → Pc α W} {n k : Nat} (h : Counted f n k)
    (hold : (f t).pending = true) (hnew : pc.pending = false) :
    Counted (Function.update f t pc) (n + 1) k := by
  obtain ⟨A, hA, hle⟩ := h
  refine ⟨A.erase t, ?_, ?_⟩
  · intro t' ht'
    by_cases heq : t' = t
    · subst heq
      rw [Function.update_self, hnew] at ht'
      cases ht'
    · rw [Function.update_of_ne heq] at ht'
      exact Finset.mem_erase.mpr ⟨heq, hA t' ht'⟩
  · have := Finset.card_erase_add_one (hA t hold)
    omega

/-! ## Section 4: The lists of claims and finished calls -/

section history

omit [DecidableEq ι]

variable {enq deq : Nat} {enqueued : List (Nat × Item α W)} {dequeued : List Nat}
  {pushed popped : List (Record ι α W)}

/-- A later claim changes no payload. -/
theorem getElem?_map_snd_append {x : Item α W} (e : Nat × Item α W)
    (h : (enqueued.map Prod.snd)[p]? = some x) :
    ((enqueued ++ [e]).map Prod.snd)[p]? = some x := by
  rw [List.map_append, List.getElem?_append_left (List.getElem?_eq_some_iff.mp h).1]
  exact h

theorem History.enqueue (h : History enq deq enqueued dequeued pushed popped)
    (item : Item α W) :
    History (enq + 1) deq (enqueued ++ [(enq, item)]) dequeued pushed popped where
  enqueued_eq := by
    rw [List.map_append, h.enqueued_eq, List.range_succ]
    rfl
  dequeued_eq := h.dequeued_eq
  ordered := Nat.le_succ_of_le h.ordered
  pushed_item := fun r hr => getElem?_map_snd_append _ (h.pushed_item r hr)
  pushed_nodup := h.pushed_nodup
  popped_item := fun r hr =>
    ⟨getElem?_map_snd_append _ (h.popped_item r hr).1, (h.popped_item r hr).2⟩
  popped_nodup := h.popped_nodup
  published := h.published

theorem History.dequeue (h : History enq deq enqueued dequeued pushed popped) (hlt : deq < enq)
    (hpublished : deq ∈ pushed.map Record.pos) :
    History enq (deq + 1) enqueued (dequeued ++ [deq]) pushed popped where
  enqueued_eq := h.enqueued_eq
  dequeued_eq := by rw [h.dequeued_eq, List.range_succ]
  ordered := hlt
  pushed_item := h.pushed_item
  pushed_nodup := h.pushed_nodup
  popped_item := fun r hr => ⟨(h.popped_item r hr).1, Nat.lt_succ_of_lt (h.popped_item r hr).2⟩
  popped_nodup := h.popped_nodup
  published := by
    intro p hp
    rcases Nat.lt_succ_iff_lt_or_eq.mp hp with hp | rfl
    · exact h.published p hp
    · exact hpublished

theorem History.push (h : History enq deq enqueued dequeued pushed popped) (t : ι)
    (hitem : (enqueued.map Prod.snd)[pos]? = some item) (hnot : pos ∉ pushed.map Record.pos) :
    History enq deq enqueued dequeued (pushed ++ [⟨t, pos, item⟩]) popped where
  enqueued_eq := h.enqueued_eq
  dequeued_eq := h.dequeued_eq
  ordered := h.ordered
  pushed_item := by
    intro r hr
    rcases List.mem_append.mp hr with hr | hr
    · exact h.pushed_item r hr
    · obtain rfl := List.mem_singleton.mp hr
      exact hitem
  pushed_nodup := by
    rw [List.map_append]
    exact h.pushed_nodup.append (List.nodup_singleton _) (by simpa using hnot)
  popped_item := h.popped_item
  popped_nodup := h.popped_nodup
  published := by
    intro p hp
    rw [List.map_append]
    exact List.mem_append_left _ (h.published p hp)

theorem History.pop (h : History enq deq enqueued dequeued pushed popped) (t : ι)
    (hitem : (enqueued.map Prod.snd)[pos]? = some item) (hlt : pos < deq)
    (hnot : pos ∉ popped.map Record.pos) :
    History enq deq enqueued dequeued pushed (popped ++ [⟨t, pos, item⟩]) where
  enqueued_eq := h.enqueued_eq
  dequeued_eq := h.dequeued_eq
  ordered := h.ordered
  pushed_item := h.pushed_item
  pushed_nodup := h.pushed_nodup
  popped_item := by
    intro r hr
    rcases List.mem_append.mp hr with hr | hr
    · exact h.popped_item r hr
    · obtain rfl := List.mem_singleton.mp hr
      exact ⟨hitem, hlt⟩
  popped_nodup := by
    rw [List.map_append]
    exact h.popped_nodup.append (List.nodup_singleton _) (by simpa using hnot)
  published := h.published

end history

/-! ## Section 5: Steps -/

/-- A thread moves within its claim, or without one. -/
theorem Claims.same {f : ι → Pc α W} {deq n k : Nat} {delivered : List Nat}
    (h : Claims f deq delivered n k) {k' : Nat} (hw : pc.writes = (f t).writes)
    (hr : pc.reads = (f t).reads) (hcount : Counted (Function.update f t pc) n k') :
    Claims (Function.update f t pc) deq delivered n k' where
  writer := unique_update h.writer fun p hp t' ht hp' => ht (h.writer t' t p hp' (hw ▸ hp))
  reader := unique_update h.reader fun p hp t' ht hp' => ht (h.reader t' t p hp' (hr ▸ hp))
  consumed := consumed_update h.consumed (fun _ hp => hp) fun _ hp => .inr (hr ▸ hp)
  counted := hcount

/-- A step that stores to nothing shared and keeps its claim, or has none. -/
theorem Inv.goto (h : Inv C c) {calls : Nat} (hpc : PcOk C c pc)
    (hw : pc.writes = (c.pc t).writes) (hr : pc.reads = (c.pc t).reads)
    (hcount : Counted (Function.update c.pc t pc)
      (c.queue.enqueue_pos + c.queue.dequeue_pos) calls) :
    Inv C ({ c with calls := calls }.goto t pc) where
  history := h.history
  claims := h.claims.same hw hr hcount
  bounded := h.bounded
  slot := fun s hs => by
    obtain ⟨p, hp, hok⟩ := h.slot s hs
    exact ⟨p, hp, hok.reached, hok.current, hok.phase⟩
  pc := fun t' => by
    show PcOk C c (Function.update c.pc t pc t')
    by_cases ht : t' = t
    · rw [ht, Function.update_self]
      exact hpc
    · rw [Function.update_of_ne ht]
      exact h.pc t'

/-- A thread that has claimed nothing goes on, or gives up. -/
theorem Inv.stay (h : Inv C c) (hpending : (c.pc t).pending = true) (hpc : PcOk C c pc)
    (hw : pc.writes = none) (hr : pc.reads = none) : Inv C (c.goto t pc) := by
  have hnone : (c.pc t).writes = none ∧ (c.pc t).reads = none := by
    cases heq : c.pc t <;> rw [heq] at hpending <;> first | exact ⟨rfl, rfl⟩ | cases hpending
  exact h.goto hpc (hw.trans hnone.1.symm) (hr.trans hnone.2.symm)
    (h.claims.counted.stay fun _ => hpending)

/-- The configuration after `t` has stored to the slot of `pos`. -/
def Config.stored (C : Capacity) (c : Config ι α W) (t : ι) (pos : Nat)
    (slot : Slot (Item α W)) (pc : Pc α W) (pushed popped : List (Record ι α W)) :
    Config ι α W :=
  { c.store C pos slot with pushed := pushed, popped := popped }.goto t pc

/-- A store to a slot that the other threads do not watch. -/
theorem Inv.pc_stored (h : Inv C c) {slot : Slot (Item α W)}
    {pushed popped : List (Record ι α W)} (hapart : ∀ t', t' ≠ t → Apart C c (c.pc t') pos)
    (hpublished : ∀ t', t' ≠ t → ∀ p, (c.pc t').writes = some p → p ∈ pushed.map Record.pos →
      p ∈ c.published)
    (hdelivered : ∀ t', t' ≠ t → ∀ p, (c.pc t').reads = some p → p ∈ popped.map Record.pos →
      p ∈ c.delivered)
    (hself : PcOk C (c.stored C t pos slot pc pushed popped) pc) (t' : ι) :
    PcOk C (c.stored C t pos slot pc pushed popped)
      ((c.stored C t pos slot pc pushed popped).pc t') := by
  show PcOk C _ (Function.update c.pc t pc t')
  by_cases ht : t' = t
  · rw [ht, Function.update_self]
    exact hself
  · rw [Function.update_of_ne ht]
    exact (h.pc t').frame (Nat.le_refl _) (Nat.le_refl _) (fun _ _ hx => hx)
      (fun p hp hwatch => slotAt_store_ne ((hapart t' ht).empty p hp hwatch))
      (fun p hp hwatch => slotAt_store_ne ((hapart t' ht).written p hp hwatch))
      (hpublished t' ht) (hdelivered t' ht)

theorem size_t_eq {n : Nat} (h : n < 2 ^ 64) : size_t n = n := Nat.mod_eq_of_lt h

/-- The payload of a claimed slot is written word by word. -/
theorem Inv.write (h : Inv C c) (hpc : c.pc t = .push_write item pos i) (hi : i < W) :
    Inv C (c.stored C t pos { c.slotAt C pos with data := (c.slotAt C pos).data.set i item[i] }
      (.push_write item pos (i + 1)) c.pushed c.popped) := by
  have hw : (c.pc t).writes = some pos := by rw [hpc]; rfl
  have hok := h.pc t
  rw [hpc] at hok
  obtain ⟨hitem, hseq, hagree, hnot⟩ := hok
  have hempty := h.slot_empty hseq
  set slot : Slot (Item α W) :=
    { c.slotAt C pos with data := (c.slotAt C pos).data.set i item[i] } with hslot
  have hstore : (c.store C pos slot).slotAt C pos = slot := slotAt_store_self rfl
  have hseq' : ((c.store C pos slot).slotAt C pos).sequence = pos := by
    rw [hstore]
    exact hseq
  refine
    { history := h.history
      claims := h.claims.same (by rw [hpc]; rfl) (by rw [hpc]; rfl)
        (h.claims.counted.stay (by simp [Pc.pending]))
      bounded := h.bounded
      slot := ?_
      pc := h.pc_stored (fun t' ht => h.apart_of_writes hw ht) (fun _ _ _ _ hp => hp)
        (fun _ _ _ _ hp => hp) ⟨hitem, hseq', ?_, hnot⟩ }
  · refine slot_of_store h.slot rfl rfl rfl (fun _ hp => hp)
      (fun p hne => slotAt_store_ne hne) rfl ⟨hempty.reached, hempty.current, .inl ⟨hseq', ?_⟩⟩
    rcases hempty.phase with ⟨_, hle⟩ | ⟨hwritten, _, _⟩
    · exact hle
    · omega
  · show Agree ((c.store C pos slot).slotAt C pos).data item (i + 1)
    rw [hstore]
    exact hagree.set hi

/-- The store of the sequence publishes the payload. -/
theorem Inv.publish (h : Inv C c) (hcalls : c.calls < 2 ^ 63)
    (hpc : c.pc t = .push_write item pos i) (hi : ¬ i < W) :
    Inv C (c.stored C t pos { c.slotAt C pos with sequence := size_t (pos + 1) } .idle
      (c.pushed ++ [⟨t, pos, item⟩]) c.popped) := by
  have hw : (c.pc t).writes = some pos := by rw [hpc]; rfl
  have hok := h.pc t
  rw [hpc] at hok
  obtain ⟨hitem, hseq, hagree, hnot⟩ := hok
  have hempty := h.slot_empty hseq
  have hcount := h.claims.counted.le
  have hlt := h.lt_enqueue_pos hitem
  rw [size_t_eq (by omega)]
  set slot : Slot (Item α W) := { c.slotAt C pos with sequence := pos + 1 } with hslot
  have hstore : (c.store C pos slot).slotAt C pos = slot := slotAt_store_self rfl
  have hpublished : ∀ p, p ∈ (c.pushed ++ [Record.mk t pos item]).map Record.pos ↔
      p ∈ c.published ∨ p = pos := by
    intro p
    simp [Config.published]
  refine
    { history := h.history.push t hitem hnot
      claims :=
        { writer := unique_update h.claims.writer (by simp [Pc.writes])
          reader := unique_update h.claims.reader (by simp [Pc.reads])
          consumed := consumed_update h.claims.consumed (fun _ hp => hp)
            fun p (hp : (c.pc t).reads = some p) => by simp [hpc, Pc.reads] at hp
          counted := h.claims.counted.stay (by simp [Pc.pending]) }
      bounded := h.bounded
      slot := ?_
      pc := h.pc_stored (fun t' ht => h.apart_of_writes hw ht) ?_ (fun _ _ _ _ hp => hp) trivial }
  · refine slot_of_store h.slot rfl rfl rfl (fun p hp => (hpublished p).mpr (.inl hp))
      (fun p hne => slotAt_store_ne hne) rfl ⟨hempty.reached, hempty.current, .inr ⟨?_, ?_, ?_⟩⟩
    · show ((c.store C pos slot).slotAt C pos).sequence = pos + 1
      rw [hstore]
    · exact (hpublished pos).mpr (.inr rfl)
    · show c.items[pos]? = some ((c.store C pos slot).slotAt C pos).data
      rw [hstore, hitem, ← hagree.eq hi]
  · -- another writer has another position
    intro t' ht p hp hmem
    rcases (hpublished p).mp hmem with hold | rfl
    · exact hold
    · exact absurd (h.claims.writer t' t p hp hw) ht

/-- The store of the sequence gives the slot to the position a turn later. -/
theorem Inv.release (h : Inv C c) (hcalls : c.calls < 2 ^ 63)
    (hpc : c.pc t = .pop_read out pos i) (hi : ¬ i < W) :
    Inv C (c.stored C t pos { c.slotAt C pos with sequence := size_t (pos + C.mask + 1) } .idle
      c.pushed (c.popped ++ [⟨t, pos, out⟩])) := by
  have hr : (c.pc t).reads = some pos := by rw [hpc]; rfl
  have hok := h.pc t
  rw [hpc] at hok
  obtain ⟨hlt, hseq, ⟨item, hitem, hagree⟩, hnot⟩ := hok
  obtain rfl : out = item := hagree.eq hi
  have hcur := (h.slot_written hseq).1.current
  have hord := h.history.ordered
  have hcount := h.claims.counted.le
  have hsize := C.size_le
  rw [Nat.add_assoc, C.mask_add_one, size_t_eq (by omega)]
  set slot : Slot (Item α W) := { c.slotAt C pos with sequence := pos + C.size } with hslot
  have hmod : (pos + C.size) % C.size = pos % C.size := Nat.add_mod_right _ _
  have hstore : (c.store C pos slot).slotAt C (pos + C.size) = slot := slotAt_store_self hmod
  have hdelivered : ∀ p, p ∈ (c.popped ++ [Record.mk t pos out]).map Record.pos ↔
      p ∈ c.delivered ∨ p = pos := by
    intro p
    simp [Config.delivered]
  refine
    { history := h.history.pop t hitem hlt hnot
      claims :=
        { writer := unique_update h.claims.writer (by simp [Pc.writes])
          reader := unique_update h.claims.reader (by simp [Pc.reads])
          consumed := consumed_update h.claims.consumed
            (fun p hp => (hdelivered p).mpr (.inl hp)) ?_
          counted := h.claims.counted.stay (by simp [Pc.pending]) }
      bounded := h.bounded
      slot := ?_
      pc := h.pc_stored (fun t' ht => h.apart_of_reads hr ht) (fun _ _ _ _ hp => hp) ?_ trivial }
  · intro p (hp : (c.pc t).reads = some p)
    obtain rfl : pos = p := by simpa [hr] using hp
    exact .inl ((hdelivered pos).mpr (.inr rfl))
  · refine slot_of_store h.slot rfl rfl rfl (fun _ hp => hp)
      (fun p hne => slotAt_store_ne hne) hmod ⟨?_, ?_, .inl ⟨?_, ?_⟩⟩
    · show pos + C.size < c.queue.dequeue_pos + C.size
      omega
    · show c.queue.enqueue_pos ≤ pos + C.size + C.size
      omega
    · show ((c.store C pos slot).slotAt C (pos + C.size)).sequence = pos + C.size
      rw [hstore]
    · -- no producer has claimed the position a turn later, so no consumer has
      show c.queue.dequeue_pos ≤ pos + C.size
      omega
  · intro t' ht p hp hmem
    rcases (hdelivered p).mp hmem with hold | rfl
    · exact hold
    · exact absurd (h.claims.reader t' t p hp hr) ht

/-- The configuration after a producer's compare-and-swap. -/
def Config.claimedPush (c : Config ι α W) (t : ι) (item : Item α W) (pos : Nat) :
    Config ι α W :=
  { c with
    queue.enqueue_pos := pos + 1
    enqueued := c.enqueued ++ [(pos, item)] }.goto t (.push_write item pos 0)

/-- The configuration after a consumer's compare-and-swap. -/
def Config.claimedPop (c : Config ι α W) (t : ι) (out : Item α W) (pos : Nat) : Config ι α W :=
  { c with
    queue.dequeue_pos := pos + 1
    dequeued := c.dequeued ++ [pos] }.goto t (.pop_read out pos 0)

theorem Inv.slot_claimedPush (h : Inv C c) (hpos : c.queue.enqueue_pos = pos)
    (hseq : (c.slotAt C pos).sequence = pos) :
    ∀ s < C.size, ∃ p, p % C.size = s ∧ SlotOk C (c.claimedPush t item pos) p := by
  intro s hs
  obtain ⟨p, hp, hslot⟩ := h.slot s hs
  refine ⟨p, hp, hslot.reached, ?_, hslot.phase.imp_right fun ⟨hs, hpub, hx⟩ =>
    ⟨hs, hpub, getElem?_map_snd_append _ hx⟩⟩
  have hcur := hslot.current
  show pos + 1 ≤ p + C.size
  -- a slot a whole turn behind would show the sequence of `p`, not of `pos`
  by_contra hlt
  obtain rfl : pos = p + C.size := by omega
  have hsame : c.slotAt C (p + C.size) = c.slotAt C p := by
    rw [Config.slotAt, Nat.add_mod_right]
    rfl
  rw [hsame] at hseq
  have hone := C.one_lt
  rcases hslot.phase with ⟨hs, _⟩ | ⟨hs, _, _⟩ <;> omega

theorem Inv.slot_claimedPop (h : Inv C c) (hpos : c.queue.dequeue_pos = pos)
    (hseq : (c.slotAt C pos).sequence = pos + 1) :
    ∀ s < C.size, ∃ p, p % C.size = s ∧ SlotOk C (c.claimedPop t out pos) p := by
  intro s hs
  obtain ⟨p, hp, hslot⟩ := h.slot s hs
  have hreached := hslot.reached
  refine ⟨p, hp, ?_, hslot.current, ?_⟩
  · show p < pos + 1 + C.size
    omega
  · rcases hslot.phase with ⟨hempty, hle⟩ | hwritten
    · refine .inl ⟨hempty, ?_⟩
      show pos + 1 ≤ p
      -- the slot of `pos` is written, so it is not an empty one
      have hne : p ≠ pos := by
        rintro rfl
        omega
      omega
    · exact .inr hwritten

/-- A producer's compare-and-swap. -/
theorem Inv.claim_push (h : Inv C c) (hcalls : c.calls < 2 ^ 63)
    (hpc : c.pc t = .push_cas item pos) (hpos : c.queue.enqueue_pos = pos) :
    Inv C ({ c with
      queue.enqueue_pos := size_t (pos + 1)
      enqueued := c.enqueued ++ [(pos, item)] }.goto t (.push_write item pos 0)) := by
  have hok := h.pc t
  rw [hpc] at hok
  have hseq : (c.slotAt C pos).sequence = pos := hok.2 hpos.symm
  have hpending : (c.pc t).pending = true := by rw [hpc]; rfl
  have hreached := (h.slot_empty hseq).reached
  have hcount := h.claims.counted.lt hpending
  rw [size_t_eq (by omega)]
  show Inv C (c.claimedPush t item pos)
  have hlen : c.items.length = pos := by rw [h.items_length, hpos]
  refine
    { history := by
        have := h.history.enqueue item
        rwa [hpos] at this
      claims :=
        { writer := unique_update h.claims.writer ?_
          reader := unique_update h.claims.reader (by simp [Pc.reads])
          consumed := consumed_update h.claims.consumed (fun _ hp => hp)
            fun p (hp : (c.pc t).reads = some p) => by simp [hpc, Pc.reads] at hp
          counted := ?_ }
      bounded := by
        show pos + 1 ≤ c.queue.dequeue_pos + C.size
        omega
      slot := h.slot_claimedPush hpos hseq
      pc := ?_ }
  · intro p hp t' _ hp'
    obtain rfl : pos = p := by simpa [Pc.writes] using hp
    have := (h.of_writes hp').2
    omega
  · have hclaim : Counted (Function.update c.pc t (.push_write item pos 0))
        (c.queue.enqueue_pos + c.queue.dequeue_pos + 1) c.calls :=
      h.claims.counted.claim hpending rfl
    rwa [hpos, Nat.add_right_comm] at hclaim
  · intro t'
    show PcOk C _ (Function.update c.pc t (.push_write item pos 0) t')
    by_cases ht : t' = t
    · rw [ht, Function.update_self]
      refine ⟨?_, hseq, Agree.zero _ _, fun hmem => ?_⟩
      · show ((c.enqueued ++ [(pos, item)]).map Prod.snd)[pos]? = some item
        have hlen' : (c.enqueued.map Prod.snd).length = pos := hlen
        rw [List.map_append, List.getElem?_append_right (by omega), hlen']
        simp
      · have := h.lt_of_published hmem
        omega
    · rw [Function.update_of_ne ht]
      exact (h.pc t').frame (by show c.queue.enqueue_pos ≤ pos + 1; omega) (Nat.le_refl _)
        (fun _ _ hx => getElem?_map_snd_append _ hx) (fun _ _ _ => rfl) (fun _ _ _ => rfl)
        (fun _ _ hp => hp) (fun _ _ hp => hp)

/-- A consumer's compare-and-swap. -/
theorem Inv.claim_pop (h : Inv C c) (hcalls : c.calls < 2 ^ 63)
    (hpc : c.pc t = .pop_cas out pos) (hpos : c.queue.dequeue_pos = pos) :
    Inv C ({ c with
      queue.dequeue_pos := size_t (pos + 1)
      dequeued := c.dequeued ++ [pos] }.goto t (.pop_read out pos 0)) := by
  have hok := h.pc t
  rw [hpc] at hok
  have hseq : (c.slotAt C pos).sequence = pos + 1 := hok.2 hpos.symm
  obtain ⟨_, hpublished, hitem⟩ := h.slot_written hseq
  have hlt : pos < c.queue.enqueue_pos := h.lt_of_published hpublished
  have hpending : (c.pc t).pending = true := by rw [hpc]; rfl
  have hcount := h.claims.counted.lt hpending
  have hbounded := h.bounded
  rw [size_t_eq (by omega)]
  show Inv C (c.claimedPop t out pos)
  refine
    { history := by
        have := h.history.dequeue (by omega) (by rw [hpos]; exact hpublished)
        rwa [hpos] at this
      claims :=
        { writer := unique_update h.claims.writer (by simp [Pc.writes])
          reader := unique_update h.claims.reader ?_
          consumed := ?_
          counted := ?_ }
      bounded := by
        show c.queue.enqueue_pos ≤ pos + 1 + C.size
        omega
      slot := h.slot_claimedPop hpos hseq
      pc := ?_ }
  · intro p hp t' _ hp'
    obtain rfl : pos = p := by simpa [Pc.reads] using hp
    have := (h.of_reads hp').2
    omega
  · intro p (hp : p < pos + 1)
    rcases Nat.lt_succ_iff_lt_or_eq.mp hp with hp | rfl
    · exact consumed_update h.claims.consumed (fun _ hp => hp)
        (fun p hp => by simp [hpc, Pc.reads] at hp) p (by omega)
    · exact .inr ⟨t, by simp [Config.claimedPop, Config.goto, Pc.reads]⟩
  · have hclaim : Counted (Function.update c.pc t (.pop_read out pos 0))
        (c.queue.enqueue_pos + c.queue.dequeue_pos + 1) c.calls :=
      h.claims.counted.claim hpending rfl
    rwa [hpos] at hclaim
  · intro t'
    show PcOk C _ (Function.update c.pc t (.pop_read out pos 0) t')
    by_cases ht : t' = t
    · rw [ht, Function.update_self]
      refine ⟨Nat.lt_succ_self pos, hseq, ⟨_, hitem, Agree.zero _ _⟩, fun hmem => ?_⟩
      have := h.lt_of_delivered hmem
      omega
    · rw [Function.update_of_ne ht]
      exact (h.pc t').frame (Nat.le_refl _) (by show c.queue.dequeue_pos ≤ pos + 1; omega)
        (fun _ _ hx => hx) (fun _ _ _ => rfl) (fun _ _ _ => rfl) (fun _ _ hp => hp)
        (fun _ _ hp => hp)

/-- One step of a thread, by the point at which it stands. -/
theorem Inv.step (h : Inv C c) (hcalls : c.calls < 2 ^ 63) (turn : Turn ι α W) :
    Inv C (c.step C turn) := by
  obtain ⟨t, call, spurious⟩ := turn
  have hok := h.pc t
  have hcount := h.claims.counted.le
  have hord := h.history.ordered
  have hsize := C.size_le
  have hslotAt : ∀ pos, c.queue.slots (pos &&& C.mask) = c.slotAt C pos := by
    intro pos
    rw [C.and_mask]
    rfl
  cases hpc : c.pc t with
  | idle =>
    simp only [Config.step, hpc, Config.begin_call]
    cases call with
    | push item =>
      exact h.goto (Nat.le_refl _) (by rw [hpc]; rfl) (by rw [hpc]; rfl)
        (h.claims.counted.begin _ _)
    | pop out =>
      exact h.goto (Nat.le_refl _) (by rw [hpc]; rfl) (by rw [hpc]; rfl)
        (h.claims.counted.begin _ _)
  | push_top item pos =>
    rw [hpc] at hok
    have hle : pos ≤ c.queue.enqueue_pos := hok
    have hpending : (c.pc t).pending = true := by rw [hpc]; rfl
    simp only [Config.step, hpc, hslotAt]
    split
    · next hdiff =>
      have hlt := h.sequence_lt hcalls pos
      have hseq := eq_of_ptrdiff (by omega) (by omega) hdiff
      exact h.stay hpending ⟨hle, fun _ => hseq⟩ rfl rfl
    · split
      · exact h.stay hpending trivial rfl rfl
      · exact h.stay hpending trivial rfl rfl
  | push_cas item pos =>
    simp only [Config.step, hpc]
    split
    · next hclaim => exact h.claim_push hcalls hpc hclaim.1
    · exact h.stay (by rw [hpc]; rfl) (Nat.le_refl _) rfl rfl
  | push_reload item =>
    simp only [Config.step, hpc]
    exact h.stay (by rw [hpc]; rfl) (Nat.le_refl _) rfl rfl
  | push_write item pos i =>
    simp only [Config.step, hpc, hslotAt]
    split
    · next hi => exact h.write hpc hi
    · next hi => exact h.publish hcalls hpc hi
  | pop_top out pos =>
    rw [hpc] at hok
    have hle : pos ≤ c.queue.dequeue_pos := hok
    have hpending : (c.pc t).pending = true := by rw [hpc]; rfl
    have hwrap : size_t (pos + 1) = pos + 1 := size_t_eq (by omega)
    simp only [Config.step, hpc, hslotAt, hwrap]
    split
    · next hdiff =>
      have hlt := h.sequence_lt hcalls pos
      have hseq := eq_of_ptrdiff (by omega) (by omega) hdiff
      exact h.stay hpending ⟨hle, fun _ => hseq⟩ rfl rfl
    · split
      · exact h.stay hpending trivial rfl rfl
      · exact h.stay hpending trivial rfl rfl
  | pop_cas out pos =>
    simp only [Config.step, hpc]
    split
    · next hclaim => exact h.claim_pop hcalls hpc hclaim.1
    · exact h.stay (by rw [hpc]; rfl) (Nat.le_refl _) rfl rfl
  | pop_reload out =>
    simp only [Config.step, hpc]
    exact h.stay (by rw [hpc]; rfl) (Nat.le_refl _) rfl rfl
  | pop_read out pos i =>
    simp only [Config.step, hpc, hslotAt]
    split
    · next hi =>
      rw [hpc] at hok
      obtain ⟨hlt, hseq, ⟨item, hitem, hagree⟩, hnot⟩ := hok
      -- the word is one of the payload pushed at this position
      obtain rfl : item = (c.slotAt C pos).data := by
        have := (h.slot_written hseq).2.2
        rw [hitem] at this
        exact Option.some.inj this
      exact h.goto ⟨hlt, hseq, ⟨_, hitem, hagree.set hi⟩, hnot⟩ (by rw [hpc]; rfl)
        (by rw [hpc]; rfl) (h.claims.counted.stay (by simp [Pc.pending]))
    · next hi => exact h.release hcalls hpc hi

end Mpmc

end OptionsEngine
