import OptionsEngine.MpmcQueue.Delivery

/-! # What an empty queue means

    `try_pop` returns false if the item at the head is not published yet.  A
    producer that has claimed the head and is still writing hides what other
    producers have published behind it.

    * `head_of_empty`: a `try_pop` that returns false has looked at the head,
      and the head was not published.
    * `empty_is_real`: as long as no consumer looks at a head that has been
      overtaken, the queue is empty when a `try_pop` says so. -/

namespace OptionsEngine

open Ring Loop

namespace Mpmc

variable {ι α : Type} {W : Nat}

/-! ## Section 1: Waiting items -/

namespace Config

/-- A `try_push` has returned true and no consumer has claimed its position. -/
def Waiting (c : Config ι α W) : Prop := ∃ r ∈ c.pushed, r.pos ∉ c.dequeued

/-- The thread is about to load the sequence of the head, which a producer has
    claimed and not published, while a later position has been published. -/
def Overtaken (c : Config ι α W) (turn : Turn ι α W) : Prop :=
  (∃ out, c.pc turn.thread = .pop_top out c.queue.dequeue_pos) ∧
    c.queue.dequeue_pos ∉ c.published ∧ ∃ p ∈ c.published, c.queue.dequeue_pos < p

variable [DecidableEq ι]

/-- The turn begins a call of `try_pop`. -/
def BeginsPop (c : Config ι α W) (turn : Turn ι α W) : Prop :=
  c.pc turn.thread = .idle ∧ ∃ out, turn.call = .pop out

/-- The turn ends a call of `try_pop` that returns false. -/
def ReturnsEmpty (C : Capacity) (c : Config ι α W) (turn : Turn ι α W) : Prop :=
  (∃ out pos, c.pc turn.thread = .pop_top out pos) ∧ (c.step C turn).pc turn.thread = .idle

end Config

/-- What is published and not claimed by a consumer stands in its slot. -/
def Standing (C : Capacity) (c : Config ι α W) : Prop :=
  ∀ p ∈ c.published, c.queue.dequeue_pos ≤ p → (c.slotAt C p).sequence = p + 1

variable {C : Capacity} {c c' : Config ι α W} {t : ι} {item out : Item α W} {pos p i : Nat}

theorem standing_start (mem : Nat → Item α W) : Standing C (Config.start (ι := ι) mem) := by
  intro p hp
  cases hp

/-- A step that publishes nothing and stores no sequence. -/
theorem Standing.frame (h : Standing C c) (hpublished : c'.published = c.published)
    (hdeq : c.queue.dequeue_pos ≤ c'.queue.dequeue_pos)
    (hseq : ∀ p, (c'.slotAt C p).sequence = (c.slotAt C p).sequence) : Standing C c' := by
  intro p hp hle
  rw [hpublished] at hp
  rw [hseq]
  exact h p hp (Nat.le_trans hdeq hle)

variable [DecidableEq ι] {slot : Slot (Item α W)} {pc : Pc α W}
  {pushed popped : List (Record ι α W)}

/-- A store that leaves what stands in the slot, and publishes what it puts
    there. -/
theorem Standing.stored (h : Standing C c)
    (hpublished : ∀ p ∈ pushed.map Record.pos, p ∈ c.published ∨ p = pos ∧ slot.sequence = pos + 1)
    (hstands : ∀ p, (c.slotAt C p).sequence = p + 1 → c.queue.dequeue_pos ≤ p →
      p % C.size = pos % C.size → slot.sequence = p + 1) :
    Standing C (c.stored C t pos slot pc pushed popped) := by
  intro p hp hle
  show ((c.store C pos slot).slotAt C p).sequence = p + 1
  rcases hpublished p hp with hold | ⟨rfl, hseq⟩
  · have hseq := h p hold hle
    by_cases hmod : p % C.size = pos % C.size
    · rw [slotAt_store_self hmod]
      exact hstands p hseq hle hmod
    · rw [slotAt_store_ne hmod]
      exact hseq
  · rw [slotAt_store_self rfl]
    exact hseq

theorem Standing.write (h : Standing C c) (hi : i < W) :
    Standing C (c.stored C t pos { c.slotAt C pos with data := (c.slotAt C pos).data.set i item[i] }
      pc c.pushed c.popped) := by
  apply h.stored
  · exact fun p hp => Or.inl hp
  · intro p hseq _ hmod
    show (c.slotAt C pos).sequence = p + 1
    rw [Config.slotAt, ← hmod]
    exact hseq

theorem Standing.publish (h : Standing C c) (hinv : Inv C c) (hcalls : c.calls < 2 ^ 63)
    (hw : (c.pc t).writes = some pos) :
    Standing C (c.stored C t pos { c.slotAt C pos with sequence := size_t (pos + 1) } .idle
      (c.pushed ++ [⟨t, pos, item⟩]) c.popped) := by
  obtain ⟨hempty, hlt⟩ := hinv.of_writes hw
  have hcount := hinv.claims.counted.le
  have hwrap : size_t (pos + 1) = pos + 1 := size_t_eq (by omega)
  apply h.stored
  · intro p hp
    rw [List.map_append, List.mem_append, List.map_singleton, List.mem_singleton] at hp
    exact hp.imp id fun hpos => ⟨hpos, hwrap⟩
  · -- the slot is empty, so nothing stands there
    intro p hseq _ hmod
    have hsame : c.slotAt C p = c.slotAt C pos := by rw [Config.slotAt, hmod]; rfl
    rw [hsame, hempty] at hseq
    exact absurd (hseq ▸ hmod).symm (succ_mod_ne C.one_lt p)

theorem Standing.release (h : Standing C c) (hinv : Inv C c) (hr : (c.pc t).reads = some pos) :
    Standing C (c.stored C t pos slot pc c.pushed popped) := by
  obtain ⟨hwritten, hlt⟩ := hinv.of_reads hr
  apply h.stored
  · exact fun p hp => Or.inl hp
  · -- what stands in the slot is at the position that is read, which is claimed
    intro p hseq hle hmod
    have hsame : c.slotAt C p = c.slotAt C pos := by rw [Config.slotAt, hmod]; rfl
    rw [hsame, hwritten] at hseq
    omega

theorem Standing.move (h : Standing C c) (hinv : Inv C c) (hcalls : c.calls < 2 ^ 63)
    (hmove : Move C c t c') : Standing C c' := by
  cases hmove with
  | quiet _ _ _ => exact h.frame rfl (Nat.le_refl _) fun p => rfl
  | claim_push _ => exact h.frame rfl (Nat.le_refl _) fun p => rfl
  | write _ hi => exact h.write hi
  | publish hpc => exact h.publish hinv hcalls (by rw [hpc]; rfl)
  | @claim_pop _ pos hpos =>
    -- the head moves on
    have hcount := hinv.claims.counted.le
    refine h.frame rfl ?_ fun p => rfl
    show c.queue.dequeue_pos ≤ size_t (pos + 1)
    rw [size_t_eq (by omega)]
    omega
  | read _ => exact h.frame rfl (Nat.le_refl _) fun p => rfl
  | release hpc => exact h.release hinv (by rw [hpc]; rfl)

structure Kept (C : Capacity) (c : Config ι α W) : Prop where
  inv : Inv C c
  standing : Standing C c

/-- As long as the calls stay below `2 ^ 63`, every schedule keeps both. -/
theorem kept_run (mem : Nat → Item α W) (schedule : List (Turn ι α W))
    (hcalls : ((Config.start mem).run C schedule).calls < 2 ^ 63) :
    Kept C ((Config.start mem).run C schedule) :=
  foldl_keeps_below (fun c turn => (step_effect c turn).calls)
    (fun _ turn hlt h => Kept.mk (h.inv.step hlt turn)
      (h.standing.move h.inv hlt (step_move _ turn)))
    schedule ⟨inv_start mem, standing_start mem⟩ hcalls

/-! ## Section 2: The load that finds nothing -/

/-- A `try_pop` at `pos` returns false if the slot's sequence is not above it. -/
theorem step_idle_iff (h : Inv C c) (hsize : C.size ≤ 2 ^ 62) (hcalls : c.calls < 2 ^ 63)
    {turn : Turn ι α W}
    (hpc : c.pc turn.thread = .pop_top out pos) :
    (c.step C turn).pc turn.thread = .idle ↔ (c.slotAt C pos).sequence ≤ pos := by
  have hle : pos ≤ c.queue.dequeue_pos := by
    have hok := h.pc turn.thread
    rwa [hpc] at hok
  have hlt := h.sequence_lt hcalls pos
  have hcount := h.claims.counted.le
  have hord := h.history.ordered
  have hslot : c.queue.slots (pos &&& C.mask) = c.slotAt C pos := by
    rw [C.and_mask]
    rfl
  have hwrap : size_t (pos + 1) = pos + 1 := size_t_eq (by omega)
  have hseq : ptrdiff_t (c.slotAt C pos).sequence = (c.slotAt C pos).sequence := if_pos (by omega)
  have hpos : ptrdiff_t (pos + 1) = (pos + 1 : Nat) := if_pos (by omega)
  simp only [Config.step, hpc, hslot, hwrap, hseq, hpos]
  split
  · simp only [Config.goto, Function.update_self, reduceCtorEq, false_iff]
    omega
  · split
    · simp only [Config.goto, Function.update_self, true_iff]
      omega
    · simp only [Config.goto, Function.update_self, reduceCtorEq, false_iff]
      omega

/-- A `try_pop` that returns false has looked at the head, and the head was not
    published. -/
theorem head_of_empty (h : Kept C c) (hsize : C.size ≤ 2 ^ 62) (hcalls : c.calls < 2 ^ 63)
    {turn : Turn ι α W}
    (hpc : c.pc turn.thread = .pop_top out pos)
    (hidle : (c.step C turn).pc turn.thread = .idle) :
    pos = c.queue.dequeue_pos ∧ c.queue.dequeue_pos ∉ c.published := by
  have hseq := (step_idle_iff h.inv hsize hcalls hpc).mp hidle
  have hle : pos ≤ c.queue.dequeue_pos := by
    have hok := h.inv.pc turn.thread
    rwa [hpc] at hok
  have hord := h.inv.history.ordered
  obtain ⟨p, hmod, hok⟩ := h.inv.slot (pos % C.size) (Nat.mod_lt _ C.pos)
  have hsame : c.slotAt C p = c.slotAt C pos := by rw [Config.slotAt, hmod]; rfl
  rcases hok.phase with ⟨hp, hge⟩ | ⟨hp, _, _⟩
  · -- the slot is empty at the head
    rw [hsame] at hp
    have hpos : pos = c.queue.dequeue_pos := by omega
    refine ⟨hpos, fun hmem => ?_⟩
    have hwritten := h.standing _ hmem (Nat.le_refl _)
    rw [← hpos] at hwritten
    omega
  · -- the slot is written a turn earlier: no producer has claimed the head
    rw [hsame] at hp
    have hcurrent := hok.current
    have hturn : p + C.size ≤ pos := Nat.ModEq.add_le_of_lt hmod (by omega)
    refine ⟨by omega, fun hmem => ?_⟩
    have hlt := h.inv.lt_of_published hmem
    omega

omit [DecidableEq ι] in
theorem mem_dequeued_iff (h : Inv C c) : p ∈ c.dequeued ↔ p < c.queue.dequeue_pos := by
  rw [h.history.dequeued_eq, List.mem_range]

omit [DecidableEq ι] in
theorem waiting_iff (h : Inv C c) :
    c.Waiting ↔ ∃ p ∈ c.published, c.queue.dequeue_pos ≤ p := by
  unfold Config.Waiting Config.published
  simp only [List.mem_map, mem_dequeued_iff h, Nat.not_lt]
  constructor
  · rintro ⟨r, hr, hle⟩
    exact ⟨r.pos, ⟨r, hr, rfl⟩, hle⟩
  · rintro ⟨_, ⟨r, hr, rfl⟩, hle⟩
    exact ⟨r, hr, hle⟩

/-- A load finds nothing while an item waits exactly if it finds the head
    overtaken. -/
theorem empty_waiting_iff (h : Kept C c) (hsize : C.size ≤ 2 ^ 62) (hcalls : c.calls < 2 ^ 63)
    (turn : Turn ι α W) : c.ReturnsEmpty C turn ∧ c.Waiting ↔ c.Overtaken turn := by
  constructor
  · rintro ⟨⟨⟨out, pos, hpc⟩, hidle⟩, hwaiting⟩
    obtain ⟨rfl, hhead⟩ := head_of_empty h hsize hcalls hpc hidle
    obtain ⟨p, hp, hle⟩ := (waiting_iff h.inv).mp hwaiting
    have hne : p ≠ c.queue.dequeue_pos := fun heq => hhead (heq ▸ hp)
    exact ⟨⟨out, hpc⟩, hhead, p, hp, by omega⟩
  · rintro ⟨⟨out, hpc⟩, hhead, p, hp, hlt⟩
    have hp' := h.inv.lt_of_published hp
    have hwaiting : c.Waiting := (waiting_iff h.inv).mpr ⟨p, hp, Nat.le_of_lt hlt⟩
    -- the head is claimed, so its slot is at the head and empty
    have hseq : (c.slotAt C c.queue.dequeue_pos).sequence ≤ c.queue.dequeue_pos := by
      obtain ⟨q, hmod, hok⟩ := h.inv.slot (c.queue.dequeue_pos % C.size) (Nat.mod_lt _ C.pos)
      have hreached := hok.reached
      have hcurrent := hok.current
      obtain rfl : q = c.queue.dequeue_pos := by
        rcases Nat.le_total q c.queue.dequeue_pos with hle | hle
        · exact eq_of_mod_eq hle (by omega) hmod
        · exact (eq_of_mod_eq hle hreached hmod.symm).symm
      rcases hok.phase with ⟨hempty, _⟩ | ⟨_, hpub, _⟩
      · exact Nat.le_of_eq hempty
      · exact absurd hpub hhead
    exact ⟨⟨⟨out, _, hpc⟩, (step_idle_iff h.inv hsize hcalls hpc).mpr hseq⟩, hwaiting⟩

/-! ## Section 3: Runs -/

/-- The turns from `start` to `ret` are those of a run, after `before`, in which
    one thread makes a call of `try_pop` that returns false. -/
structure EmptyPop (C : Capacity) (mem : Nat → Item α W) (before : List (Turn ι α W))
    (start : Turn ι α W) (during : List (Turn ι α W)) (ret : Turn ι α W) : Prop where
  thread : ret.thread = start.thread
  begins : ((Config.start mem).run C before).BeginsPop start
  inside : ∀ d, d <+: during →
    ((Config.start mem).run C (before ++ start :: d)).pc start.thread ≠ .idle
  returns : ((Config.start mem).run C (before ++ start :: during)).ReturnsEmpty C ret

/-- At some instant from the start of the call to its return, no item waits. -/
def EmptyMeanwhile (C : Capacity) (mem : Nat → Item α W) (before : List (Turn ι α W))
    (start : Turn ι α W) (during : List (Turn ι α W)) (ret : Turn ι α W) : Prop :=
  ∃ d, d <+: start :: (during ++ [ret]) ∧ ¬ ((Config.start mem).run C (before ++ d)).Waiting

/-- Fewer calls have begun in a prefix of a schedule. -/
theorem calls_le_run (mem : Nat → Item α W) {past schedule : List (Turn ι α W)}
    (h : past <+: schedule) :
    ((Config.start mem).run C past).calls ≤ ((Config.start mem).run C schedule).calls := by
  obtain ⟨rest, rfl⟩ := h
  unfold Config.run
  rw [List.foldl_append]
  exact le_foldl (fun c turn => (step_effect c turn).calls) rest _

/-- Whatever the threads and the schedule: a load finds nothing while an item
    waits exactly if it finds the head overtaken, and as long as no load does,
    the queue has been empty at some instant of every `try_pop` that returns
    false. -/
theorem empty_is_real (C : Capacity) (mem : Nat → Item α W) (schedule : List (Turn ι α W))
    (hsize : C.size ≤ 2 ^ 62) (hcalls : ((Config.start mem).run C schedule).calls < 2 ^ 63) :
    (∀ past turn, past ++ [turn] <+: schedule →
      (((Config.start mem).run C past).ReturnsEmpty C turn ∧ ((Config.start mem).run C past).Waiting ↔
        ((Config.start mem).run C past).Overtaken turn)) ∧
    ((∀ past turn, past ++ [turn] <+: schedule →
        ¬ ((Config.start mem).run C past).Overtaken turn) →
      ∀ before start during ret, before ++ start :: (during ++ [ret]) <+: schedule →
        EmptyPop C mem before start during ret → EmptyMeanwhile C mem before start during ret) := by
  have hexact : ∀ past turn, past ++ [turn] <+: schedule →
      (((Config.start mem).run C past).ReturnsEmpty C turn ∧ ((Config.start mem).run C past).Waiting ↔
        ((Config.start mem).run C past).Overtaken turn) := by
    intro past turn h
    have hpast : past <+: schedule := (List.prefix_append past [turn]).trans h
    have hlt := Nat.lt_of_le_of_lt (calls_le_run mem hpast) hcalls
    exact empty_waiting_iff (kept_run mem past hlt) hsize hlt turn
  refine ⟨hexact, ?_⟩
  intro hnone before start during ret hprefix hpop
  -- the load that finds nothing is that instant
  have hret : (before ++ start :: during) ++ [ret] <+: schedule := by
    rwa [List.append_assoc, List.cons_append]
  refine ⟨start :: during, ?_, ?_⟩
  · rw [← List.cons_append]
    exact List.prefix_append _ _
  · exact fun hwaiting => hnone _ ret hret ((hexact _ ret hret).mp ⟨hpop.returns, hwaiting⟩)

/-- The instants of a call of two steps. -/
theorem prefix_pair {T : Type} {a b : T} {d : List T} (h : d <+: [a, b]) :
    d = [] ∨ d = [a] ∨ d = [a, b] := by
  rcases List.prefix_cons_iff.mp h with hnil | ⟨_, rfl, htail⟩
  · exact Or.inl hnil
  · rcases List.prefix_cons_iff.mp htail with rfl | ⟨_, rfl, hrest⟩
    · exact Or.inr (Or.inl rfl)
    · rw [List.prefix_nil.mp hrest]
      exact Or.inr (Or.inr rfl)

/-- A turn of a thread that pops. -/
def popTurn : Turn Nat Nat 1 := ⟨2, .pop (.replicate 1 0), false⟩

/-- A turn of one of two threads that push. -/
def pushTurn (t : Nat) : Turn Nat Nat 1 := ⟨t, .push (.replicate 1 7), false⟩

/-- Two producers claim one after the other and publish one after the other, and
    a consumer pops both items. -/
def emptied : List (Turn Nat Nat 1) :=
  List.replicate 3 (pushTurn 0) ++ List.replicate 3 (pushTurn 1) ++
    List.replicate 2 (pushTurn 0) ++ List.replicate 2 (pushTurn 1) ++ List.replicate 10 popTurn

/-- The next pop finds nothing, and the queue is empty. -/
theorem emptied_queue_empty :
    ((Config.start fun _ => .replicate 1 0).run ⟨2, by decide, by decide, by decide⟩
      emptied).popped.map Record.pos = [0, 1] ∧
    EmptyPop ⟨2, by decide, by decide, by decide⟩ (fun _ => .replicate 1 0) emptied popTurn [] popTurn ∧
      EmptyMeanwhile ⟨2, by decide, by decide, by decide⟩ (fun _ => .replicate 1 0) emptied popTurn []
        popTurn := by
  have hpop : EmptyPop ⟨2, by decide, by decide, by decide⟩ (fun _ => .replicate 1 0) emptied popTurn []
      popTurn := by
    refine ⟨rfl, ⟨rfl, _, rfl⟩, ?_, ⟨_, _, rfl⟩, rfl⟩
    intro d hd
    obtain rfl := List.prefix_nil.mp hd
    intro hidle
    cases hidle
  refine ⟨by decide +kernel, hpop, ?_⟩
  have h := empty_is_real ⟨2, by decide, by decide, by decide⟩ (fun _ => .replicate 1 0)
    (emptied ++ [popTurn, popTurn]) (by decide) (by decide +kernel)
  -- what is published was published in order
  have hordered : ∀ past ∈ (emptied ++ [popTurn, popTurn]).inits,
      let c := (Config.start fun _ => .replicate 1 0).run ⟨2, by decide, by decide, by decide⟩ past
      c.queue.dequeue_pos ∈ c.published ∨ ∀ p ∈ c.published, p ≤ c.queue.dequeue_pos := by
    decide +kernel
  refine h.2 ?_ emptied popTurn [] popTurn (List.prefix_refl _) hpop
  rintro past turn hpast ⟨_, hhead, p, hp, hlt⟩
  have hpast' := (List.prefix_append past [turn]).trans hpast
  rcases hordered past ((List.mem_inits _ _).mpr hpast') with hmem | hle
  · exact hhead hmem
  · exact absurd (hle p hp) (Nat.not_le.mpr hlt)

/-- A producer has claimed the first position and not yet written; another one
    has pushed at the second. -/
def overtaking : List (Turn Nat Nat 1) :=
  [pushTurn 0, pushTurn 0, pushTurn 0, pushTurn 1, pushTurn 1, pushTurn 1, pushTurn 1, pushTurn 1]

/-- A whole call of `try_pop` returns false, from before its start to after its
    return with an item waiting. -/
theorem overtaken_head_hides_item :
    EmptyPop ⟨2, by decide, by decide, by decide⟩ (fun _ => .replicate 1 0) overtaking popTurn [] popTurn ∧
      ¬ EmptyMeanwhile ⟨2, by decide, by decide, by decide⟩ (fun _ => .replicate 1 0) overtaking popTurn []
        popTurn := by
  constructor
  · refine ⟨rfl, ⟨rfl, _, rfl⟩, ?_, ⟨_, _, rfl⟩, rfl⟩
    intro d hd
    obtain rfl := List.prefix_nil.mp hd
    intro hidle
    cases hidle
  · rintro ⟨d, hd, hnone⟩
    apply hnone
    -- the record of the second producer, before the call, in it and after it
    rcases prefix_pair hd with rfl | rfl | rfl
    all_goals exact ⟨⟨1, 1, .replicate 1 7⟩, List.mem_singleton.mpr rfl, List.not_mem_nil⟩

end Mpmc

end OptionsEngine
