import Mathlib.Data.List.Sort
import OptionsEngine.Framework.Loop
import OptionsEngine.MpmcQueue.Protocol

/-! # Delivery by the multi-producer multi-consumer queue

    * `step_move`: what one step can do.
    * `step_effect`: what it does to the two lists of finished calls and to the
      claims of the threads.
    * `Ordered`: the calls of one thread return in the order of their
      positions.
    * `mpmc_every_interleaving`: the guarantees of the queue under every
      schedule with fewer than `2 ^ 63` calls. -/

namespace OptionsEngine

open Ring Loop

namespace Mpmc

variable {ι α : Type} {W : Nat}

/-! ## Section 1: The effect of a step -/

/-- The records kept of one kind of call grow by a claim that `t` gives up. -/
def Grows (claims : Pc α W → Option Nat) (t : ι) (f f' : ι → Pc α W)
    (records records' : List (Record ι α W)) : Prop :=
  records' = records ∨
    ∃ pos item, claims (f t) = some pos ∧ claims (f' t) = none ∧
      records' = records ++ [⟨t, pos, item⟩]

structure Effect (c c' : Config ι α W) (t : ι) : Prop where
  calls : c.calls ≤ c'.calls
  pushed : Grows Pc.writes t c.pc c'.pc c.pushed c'.pushed
  popped : Grows Pc.reads t c.pc c'.pc c.popped c'.popped
  writes : ∀ t' p, (c'.pc t').writes = some p →
    (c.pc t').writes = some p ∨ p = c.queue.enqueue_pos
  reads : ∀ t' p, (c'.pc t').reads = some p →
    (c.pc t').reads = some p ∨ p = c.queue.dequeue_pos

variable [DecidableEq ι] {C : Capacity} {c c' : Config ι α W} {t : ι} {pc : Pc α W}

/-- The claims after a move are those before it and those of the new program
    point. -/
theorem claims_goto {claims : Pc α W → Option Nat} {f : ι → Pc α W} {n : Nat}
    (hnew : ∀ p, claims pc = some p → claims (f t) = some p ∨ p = n) :
    ∀ t' p, claims (Function.update f t pc t') = some p → claims (f t') = some p ∨ p = n := by
  intro t' p hp
  by_cases ht : t' = t
  · rw [ht, Function.update_self] at hp
    rw [ht]
    exact hnew p hp
  · rw [Function.update_of_ne ht] at hp
    exact .inl hp

/-- A move that finishes no call. -/
theorem Effect.goto (hcalls : c.calls ≤ c'.calls) (hpc : c'.pc = c.pc)
    (hpushed : c'.pushed = c.pushed) (hpopped : c'.popped = c.popped)
    (hw : ∀ p, pc.writes = some p → (c.pc t).writes = some p ∨ p = c.queue.enqueue_pos)
    (hr : ∀ p, pc.reads = some p → (c.pc t).reads = some p ∨ p = c.queue.dequeue_pos) :
    Effect c (c'.goto t pc) t where
  calls := hcalls
  pushed := .inl hpushed
  popped := .inl hpopped
  writes := by
    rw [Config.goto, hpc]
    exact claims_goto hw
  reads := by
    rw [Config.goto, hpc]
    exact claims_goto hr

/-- What a step of thread `t` can do. -/
inductive Move (C : Capacity) (c : Config ι α W) (t : ι) : Config ι α W → Prop where
  /-- A step without a claim: a load, a failed exchange, a call that begins or
      returns false. -/
  | quiet {calls : Nat} {pc : Pc α W} (hcalls : c.calls ≤ calls) (hw : pc.writes = none)
      (hr : pc.reads = none) : Move C c t ({ c with calls := calls }.goto t pc)
  | claim_push {item : Item α W} {pos : Nat} (hpos : c.queue.enqueue_pos = pos) :
      Move C c t ({ c with
        queue.enqueue_pos := size_t (pos + 1)
        enqueued := c.enqueued ++ [(pos, item)] }.goto t (.push_write item pos 0))
  | write {item : Item α W} {pos i : Nat} (hpc : c.pc t = .push_write item pos i) (hi : i < W) :
      Move C c t (c.stored C t pos
        { c.slotAt C pos with data := (c.slotAt C pos).data.set i item[i] }
        (.push_write item pos (i + 1)) c.pushed c.popped)
  | publish {item : Item α W} {pos i : Nat} (hpc : c.pc t = .push_write item pos i) :
      Move C c t (c.stored C t pos { c.slotAt C pos with sequence := size_t (pos + 1) } .idle
        (c.pushed ++ [⟨t, pos, item⟩]) c.popped)
  | claim_pop {out : Item α W} {pos : Nat} (hpos : c.queue.dequeue_pos = pos) :
      Move C c t ({ c with
        queue.dequeue_pos := size_t (pos + 1)
        dequeued := c.dequeued ++ [pos] }.goto t (.pop_read out pos 0))
  | read {out out' : Item α W} {pos i : Nat} (hpc : c.pc t = .pop_read out pos i) :
      Move C c t (c.goto t (.pop_read out' pos (i + 1)))
  | release {out : Item α W} {pos i : Nat} (hpc : c.pc t = .pop_read out pos i) :
      Move C c t (c.stored C t pos
        { c.slotAt C pos with sequence := size_t (pos + C.mask + 1) } .idle
        c.pushed (c.popped ++ [⟨t, pos, out⟩]))

theorem step_move (c : Config ι α W) (turn : Turn ι α W) :
    Move C c turn.thread (c.step C turn) := by
  obtain ⟨t, call, spurious⟩ := turn
  have hle : c.calls ≤ c.calls := Nat.le_refl _
  have hslotAt : ∀ pos, c.queue.slots (pos &&& C.mask) = c.slotAt C pos := by
    intro pos
    rw [C.and_mask]
    rfl
  cases hpc : c.pc t with
  | idle =>
    simp only [Config.step, hpc, Config.begin_call]
    cases call with
    | push item => exact .quiet (Nat.le_succ _) rfl rfl
    | pop out => exact .quiet (Nat.le_succ _) rfl rfl
  | push_top item pos =>
    simp only [Config.step, hpc]
    repeat' split
    all_goals exact .quiet hle rfl rfl
  | push_cas item pos =>
    simp only [Config.step, hpc]
    split
    · next hclaim => exact .claim_push hclaim.1
    · exact .quiet hle rfl rfl
  | push_reload item =>
    simp only [Config.step, hpc]
    exact .quiet hle rfl rfl
  | push_write item pos i =>
    simp only [Config.step, hpc, hslotAt]
    split
    · next hi => exact .write hpc hi
    · exact .publish hpc
  | pop_top out pos =>
    simp only [Config.step, hpc]
    repeat' split
    all_goals exact .quiet hle rfl rfl
  | pop_cas out pos =>
    simp only [Config.step, hpc]
    split
    · next hclaim => exact .claim_pop hclaim.1
    · exact .quiet hle rfl rfl
  | pop_reload out =>
    simp only [Config.step, hpc]
    exact .quiet hle rfl rfl
  | pop_read out pos i =>
    simp only [Config.step, hpc, hslotAt]
    split
    · exact .read hpc
    · exact .release hpc

theorem Move.effect (h : Move C c t c') : Effect c c' t := by
  have hle : c.calls ≤ c.calls := Nat.le_refl _
  cases h with
  | quiet hcalls hw hr =>
    exact Effect.goto hcalls rfl rfl rfl (by simp [hw]) (by simp [hr])
  | claim_push hpos =>
    exact Effect.goto hle rfl rfl rfl (by simp [Pc.writes, hpos]) (by simp [Pc.reads])
  | write hpc hi =>
    exact Effect.goto hle rfl rfl rfl (by simp [Pc.writes, hpc]) (by simp [Pc.reads])
  | @publish item pos i hpc =>
    exact
      { calls := hle
        pushed := .inr ⟨pos, item, by rw [hpc]; rfl,
          by simp [Config.stored, Config.goto, Pc.writes], rfl⟩
        popped := .inl rfl
        writes := claims_goto (by simp [Pc.writes])
        reads := claims_goto (by simp [Pc.reads]) }
  | claim_pop hpos =>
    exact Effect.goto hle rfl rfl rfl (by simp [Pc.writes]) (by simp [Pc.reads, hpos])
  | read hpc =>
    exact Effect.goto hle rfl rfl rfl (by simp [Pc.writes]) (by simp [Pc.reads, hpc])
  | @release out pos i hpc =>
    exact
      { calls := hle
        pushed := .inl rfl
        popped := .inr ⟨pos, out, by rw [hpc]; rfl,
          by simp [Config.stored, Config.goto, Pc.reads], rfl⟩
        writes := claims_goto (by simp [Pc.writes])
        reads := claims_goto (by simp [Pc.reads]) }

theorem step_effect (c : Config ι α W) (turn : Turn ι α W) :
    Effect c (c.step C turn) turn.thread :=
  (step_move c turn).effect

/-! ## Section 2: The order of one thread -/

/-- The calls of a thread have returned in the order of their positions, and
    the claim it holds comes after all of them. -/
structure Ordered (claims : Pc α W → Option Nat) (f : ι → Pc α W)
    (records : List (Record ι α W)) : Prop where
  sorted : records.Pairwise fun a b => a.thread = b.thread → a.pos < b.pos
  before : ∀ t p, claims (f t) = some p → ∀ r ∈ records, r.thread = t → r.pos < p

omit [DecidableEq ι] in
theorem Ordered.step {claims : Pc α W → Option Nat} {f f' : ι → Pc α W}
    {records records' : List (Record ι α W)} {top : Nat} (h : Ordered claims f records)
    (hbelow : ∀ r ∈ records, r.pos < top) (hgrows : Grows claims t f f' records records')
    (hclaims : ∀ t' p, claims (f' t') = some p → claims (f t') = some p ∨ p = top) :
    Ordered claims f' records' := by
  have hbefore : ∀ t' p, claims (f' t') = some p → ∀ r ∈ records, r.thread = t' → r.pos < p := by
    intro t' p hp r hr hrt
    rcases hclaims t' p hp with hold | rfl
    · exact h.before t' p hold r hr hrt
    · exact hbelow r hr
  rcases hgrows with rfl | ⟨pos, item, hold, hnone, rfl⟩
  · exact ⟨h.sorted, hbefore⟩
  · refine ⟨List.pairwise_append.mpr ⟨h.sorted, List.pairwise_singleton _ _, ?_⟩, ?_⟩
    · intro a ha b hb hab
      obtain rfl := List.mem_singleton.mp hb
      exact h.before t pos hold a ha hab
    · intro t' p hp r hr hrt
      rcases List.mem_append.mp hr with hr | hr
      · exact hbefore t' p hp r hr hrt
      · -- the thread that has just returned holds no claim
        obtain rfl := List.mem_singleton.mp hr
        obtain rfl : t = t' := hrt
        rw [hnone] at hp
        cases hp

structure Good (C : Capacity) (c : Config ι α W) : Prop where
  inv : Inv C c
  pushes : Ordered Pc.writes c.pc c.pushed
  pops : Ordered Pc.reads c.pc c.popped

theorem Good.step (h : Good C c) (hcalls : c.calls < 2 ^ 63) (turn : Turn ι α W) :
    Good C (c.step C turn) := by
  have heffect : Effect c (c.step C turn) turn.thread := step_effect c turn
  refine ⟨h.inv.step hcalls turn, ?_, ?_⟩
  · exact h.pushes.step (fun r hr => h.inv.lt_enqueue_pos (h.inv.history.pushed_item r hr))
      heffect.pushed heffect.writes
  · exact h.pops.step (fun r hr => (h.inv.history.popped_item r hr).2) heffect.popped heffect.reads

omit [DecidableEq ι] in
theorem good_start (mem : Nat → Item α W) : Good C (Config.start (ι := ι) mem) where
  inv := inv_start mem
  pushes := ⟨.nil, by simp [Config.start]⟩
  pops := ⟨.nil, by simp [Config.start]⟩

/-- As long as the calls stay below `2 ^ 63`, every schedule keeps `Good`. -/
theorem good_run (mem : Nat → Item α W) (schedule : List (Turn ι α W))
    (hcalls : ((Config.start mem).run C schedule).calls < 2 ^ 63) :
    Good C ((Config.start mem).run C schedule) :=
  foldl_keeps_below (fun c turn => (step_effect c turn).calls)
    (fun _ turn hlt h => Good.step h hlt turn) schedule (good_start mem) hcalls

/-! ## Section 3: Guarantees -/

section guarantees

omit [DecidableEq ι]

/-- Two threads that access one slot are one. -/
theorem Inv.exclusive (h : Inv C c) {t t' : ι} {slot : Nat} (ht : c.Accesses C t slot)
    (ht' : c.Accesses C t' slot) : t = t' := by
  obtain ⟨p, hp, hslot⟩ := ht
  obtain ⟨p', hp', hslot'⟩ := ht'
  rw [C.and_mask] at hslot hslot'
  have hmod : p % C.size = p' % C.size := hslot.trans hslot'.symm
  have hsame : c.slotAt C p = c.slotAt C p' := by rw [Config.slotAt, hmod]; rfl
  rcases hp with hw | hr <;> rcases hp' with hw' | hr'
  · have hseq := (h.of_writes hw).1
    have hseq' := (h.of_writes hw').1
    obtain rfl : p = p' := by rw [← hseq, hsame, hseq']
    exact h.claims.writer t t' p hw hw'
  · -- a slot that is written shows `p`, one that is read `p' + 1`
    have heq : p' + 1 = p := by rw [← (h.of_reads hr').1, ← hsame, (h.of_writes hw).1]
    exact absurd (heq ▸ hmod) (succ_mod_ne C.one_lt p')
  · have heq : p + 1 = p' := by rw [← (h.of_reads hr).1, hsame, (h.of_writes hw').1]
    exact absurd (heq ▸ hmod.symm) (succ_mod_ne C.one_lt p)
  · have hseq := (h.of_reads hr).1
    have hseq' := (h.of_reads hr').1
    obtain rfl : p = p' := by
      rw [hsame, hseq'] at hseq
      omega
    exact h.claims.reader t t' p hr hr'

theorem length_filter_pos_le {records : List (Record ι α W)} (h : (records.map Record.pos).Nodup)
    (p : Nat) : (records.filter fun r => r.pos = p).length ≤ 1 := by
  have hcount := List.nodup_iff_count_le_one.mp h p
  rw [List.count, List.countP_map] at hcount
  rw [← List.countP_eq_length_filter]
  exact hcount

theorem Inv.consumed_iff (h : Inv C c) (p : Nat) :
    c.Consumed p ↔ ∃ r, c.poppedAt p = [r] := by
  have hone : (c.poppedAt p).length ≤ 1 := length_filter_pos_le h.history.popped_nodup p
  constructor
  · rintro ⟨hlt, hreads⟩
    rcases h.claims.consumed p hlt with hmem | ⟨t, ht⟩
    · obtain ⟨r, hr, rfl⟩ := List.mem_map.mp hmem
      have hr' : r ∈ c.poppedAt r.pos := List.mem_filter.mpr ⟨hr, by simp⟩
      have hpos : 0 < (c.poppedAt r.pos).length := List.length_pos_of_mem hr'
      exact List.length_eq_one_iff.mp (by omega)
    · exact absurd ht (hreads t)
  · rintro ⟨r, hr⟩
    have hr' : r ∈ c.poppedAt p := by rw [hr]; simp
    obtain ⟨hmem, hpos⟩ := List.mem_filter.mp hr'
    obtain rfl : r.pos = p := by simpa using hpos
    refine ⟨(h.history.popped_item r hmem).2, fun t ht => ?_⟩
    have hok := h.pc t
    cases hpc : c.pc t <;> rw [hpc] at hok ht <;> simp only [Pc.reads, Option.some.injEq, reduceCtorEq] at ht
    subst ht
    exact hok.2.2.2 (List.mem_map_of_mem hmem)

/-- What a `try_pop` returned was pushed at the position it claimed. -/
theorem Inv.pushed_of_popped (h : Inv C c) {r : Record ι α W} (hr : r ∈ c.popped) :
    ∃ w ∈ c.pushed, w.pos = r.pos ∧ w.item = r.item := by
  obtain ⟨hitem, hlt⟩ := h.history.popped_item r hr
  obtain ⟨w, hw, hpos⟩ := List.mem_map.mp (h.history.published r.pos hlt)
  have hitem' := h.history.pushed_item w hw
  rw [hpos, hitem] at hitem'
  exact ⟨w, hw, hpos, (Option.some.inj hitem').symm⟩

/-- A push whose position has been consumed was popped by one call. -/
theorem Inv.popped_of_consumed (h : Inv C c) {w : Record ι α W} (hw : w ∈ c.pushed)
    (hcons : c.Consumed w.pos) : ∃ r, c.poppedAt w.pos = [r] ∧ r.item = w.item := by
  obtain ⟨r, hr⟩ := (h.consumed_iff w.pos).mp hcons
  have hr' : r ∈ c.poppedAt w.pos := by rw [hr]; simp
  obtain ⟨hmem, hpos⟩ := List.mem_filter.mp hr'
  have hitem := (h.history.popped_item r hmem).1
  rw [of_decide_eq_true hpos, h.history.pushed_item w hw] at hitem
  exact ⟨r, hr, (Option.some.inj hitem).symm⟩

end guarantees

theorem Ordered.pairwise_filter {claims : Pc α W → Option Nat} {f : ι → Pc α W}
    {records : List (Record ι α W)} (h : Ordered claims f records) (t : ι) :
    ((records.filter fun r => r.thread = t).map fun r => (r.pos, r.item)).Pairwise
      fun a b => a.1 < b.1 := by
  rw [List.pairwise_map]
  refine (h.sorted.sublist List.filter_sublist).imp_of_mem ?_
  intro a b ha hb hab
  have hta : a.thread = t := by simpa using (List.mem_filter.mp ha).2
  have htb : b.thread = t := by simpa using (List.mem_filter.mp hb).2
  exact hab (hta.trans htb.symm)

/-- What one consumer received of one producer, it received in the order in
    which the producer sent it. -/
theorem Good.in_order (h : Good C c) (t t' : ι) :
    ((c.receivedBy t').filter fun e => e.1 ∈ (c.sentBy t).map Prod.fst).Sublist (c.sentBy t) := by
  have hsent : (c.sentBy t).Pairwise fun a b => a.1 < b.1 := h.pushes.pairwise_filter t
  have hgot : ((c.receivedBy t').filter fun e => e.1 ∈ (c.sentBy t).map Prod.fst).Pairwise
      fun a b => a.1 < b.1 := (h.pops.pairwise_filter t').sublist List.filter_sublist
  have hsubset : ((c.receivedBy t').filter fun e => e.1 ∈ (c.sentBy t).map Prod.fst) ⊆
      c.sentBy t := by
    intro e he
    obtain ⟨hmem, hpos⟩ := List.mem_filter.mp he
    obtain ⟨r, hr, rfl⟩ := List.mem_map.mp hmem
    obtain ⟨e', he', heq⟩ := List.mem_map.mp (of_decide_eq_true hpos)
    obtain ⟨w, hw, rfl⟩ := List.mem_map.mp he'
    -- two payloads with one position are one payload
    have hitem := (h.inv.history.popped_item r (List.mem_of_mem_filter hr)).1
    have hitem' := h.inv.history.pushed_item w (List.mem_of_mem_filter hw)
    simp only at heq
    rw [heq, hitem] at hitem'
    rw [Option.some.inj hitem', ← heq]
    exact he'
  have : Std.Antisymm fun a b : Nat × Item α W => a.1 < b.1 :=
    ⟨fun a b hab hba => absurd hba (Nat.lt_asymm hab)⟩
  have : Std.Irrefl fun a b : Nat × Item α W => a.1 < b.1 := ⟨fun a => Nat.lt_irrefl a.1⟩
  exact List.sublist_of_subperm_of_pairwise (List.subperm_of_subset hgot.nodup hsubset) hgot hsent

/-- Whatever the threads, the schedule and the spurious failures, as long as
    fewer than `2 ^ 63` calls begin: a position is pushed once and popped at
    most once, and exactly once when it has been consumed; what is popped is
    what was pushed there; no two threads access one slot; both sides claim
    the positions `0, 1, 2, …` in this order, so that one consumer receives
    one producer's payloads in the order they were sent; and the distance of
    the two positions stays within the capacity. -/
theorem mpmc_every_interleaving (C : Capacity) (mem : Nat → Item α W)
    (schedule : List (Turn ι α W))
    (hcalls : ((Config.start mem).run C schedule).calls < 2 ^ 63) :
    let c := (Config.start mem).run C schedule
    (∀ p, (c.pushedAt p).length ≤ 1) ∧
    (∀ p, (c.poppedAt p).length ≤ 1) ∧
    (∀ p, c.Consumed p ↔ ∃ r, c.poppedAt p = [r]) ∧
    (∀ w ∈ c.pushed, c.Consumed w.pos → ∃ r, c.poppedAt w.pos = [r] ∧ r.item = w.item) ∧
    (∀ r ∈ c.popped, ∃ w ∈ c.pushed, w.pos = r.pos ∧ w.item = r.item) ∧
    (∀ t t' slot, c.Accesses C t slot → c.Accesses C t' slot → t = t') ∧
    c.enqueued.map Prod.fst = List.range c.queue.enqueue_pos ∧
    c.dequeued = List.range c.queue.dequeue_pos ∧
    (∀ t t', ((c.receivedBy t').filter fun e => e.1 ∈ (c.sentBy t).map Prod.fst).Sublist
      (c.sentBy t)) ∧
    c.queue.dequeue_pos ≤ c.queue.enqueue_pos ∧
    c.queue.enqueue_pos ≤ c.queue.dequeue_pos + C.size := by
  intro c
  have h : Good C c := good_run mem schedule hcalls
  exact
    ⟨length_filter_pos_le h.inv.history.pushed_nodup, length_filter_pos_le h.inv.history.popped_nodup,
      h.inv.consumed_iff, fun w hw hcons => h.inv.popped_of_consumed hw hcons,
      fun r hr => h.inv.pushed_of_popped hr,
      fun t t' slot ht ht' => h.inv.exclusive ht ht', h.inv.history.enqueued_eq, h.inv.history.dequeued_eq,
      h.in_order, h.inv.history.ordered, h.inv.bounded⟩

/-- One thread pushes, a second one pops, with a compare-and-swap that fails
    spuriously on either side. -/
def relay : List (Turn Bool Nat 1) :=
  let turn (t : Bool) (spurious : Bool) : Turn Bool Nat 1 :=
    ⟨t, if t then .push #v[7] else .pop #v[0], spurious⟩
  [turn true false, turn false false, turn true false, turn true true, turn true false,
    turn true false, turn true false, turn true false, turn false false, turn false true,
    turn false false, turn false false, turn false false, turn false false, turn false false]

theorem relay_delivers :
    let c := (Config.start fun _ => #v[0]).run ⟨2, by decide, by decide, by decide⟩ relay
    c.calls < 2 ^ 63 ∧ c.Consumed 0 ∧ (c.popped.map Record.item = [#v[7]]) ∧
      ∃ r, c.poppedAt 0 = [r] := by
  have hcons : ((Config.start fun _ => #v[0]).run ⟨2, by decide, by decide, by decide⟩
      relay).Consumed 0 := ⟨by decide +kernel, by decide +kernel⟩
  have h := mpmc_every_interleaving ⟨2, by decide, by decide, by decide⟩ (fun _ => #v[0]) relay
    (by decide +kernel)
  exact ⟨by decide +kernel, hcons, by decide +kernel, (h.2.2.1 0).mp hcons⟩

end Mpmc

end OptionsEngine
