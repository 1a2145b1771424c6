import OptionsEngine.MultiSymbolEngine
import OptionsEngine.OrderBook.Observe

/-! # Where messages go, and where books are

    A symbol's book is in the shard of its ticker's hash, its messages go to
    the shard of its number.

    * `Ready`: what registrations establish and events keep: the symbols each
      shard knows, and which messages are in its queue.
    * `AllRouted`: in a run of events, every accepted message for a registered
      symbol is in the queue of a shard that knows it, and no shard drops one
      as unknown.
    * `routed_iff`: this holds in every run exactly if hash and number of each
      registered symbol select the same shard.
    * `heartbeat_goes_astray`: a registration with which it does not. -/

namespace OptionsEngine

open Ring MatchingEngine OrderBook

namespace MultiSymbolEngine

variable {N : ShardCount} {m m' : MultiSymbolEngine N} {regs : List (List UInt8 × SymbolId)}

/-! ## Section 1: Statement -/

/-- The messages in a shard's queue. -/
def queued (m : MultiSymbolEngine N) (i : Fin N.count) : List MarketDataMsg :=
  (m.shards i).queue.contents Shard.kQueueDepth

/-- An event does right by the messages for the symbols `ids`. -/
def Routed (ids : List SymbolId) (m : MultiSymbolEngine N) :
    Observed N → MultiSymbolEngine N → Prop
  | .submitted msg ok, m' => msg.symbol ∈ ids →
    ∃ i, (m.shards i).engine.Knows msg.symbol ∧
      if ok then m'.queued i = m.queued i ++ [msg]
      else (m.queued i).length = Shard.kQueueDepth.size - 1
  | .processed _ msg known, _ => msg.symbol ∈ ids → known = true
  | .idle _, _ => True

/-- Every event ends and does right by the messages for the symbols `ids`. -/
def AllRouted (ids : List SymbolId) : MultiSymbolEngine N → List (Event N) → Prop
  | _, [] => True
  | m, e :: es => ∃ obs m', m.step e = some (obs, m') ∧ Routed ids m obs m' ∧ AllRouted ids m' es

/-! ## Section 2: Registration -/

/-- A shard whose books are sound and whose queue holds messages that `submit`
    sends there. -/
structure ShardOk (N : ShardCount) (i : Fin N.count) (shard : Shard) : Prop where
  sound : shard.engine.Sound
  queue : ∃ n items, shard.queue.Holds Shard.kQueueDepth n items ∧
    ∀ msg ∈ items, N.index msg.symbol.toNat = i

structure Ready (m : MultiSymbolEngine N) (regs : List (List UInt8 × SymbolId)) : Prop where
  shard : ∀ i, ShardOk N i (m.shards i)
  knows : ∀ i id, (m.shards i).engine.Knows id ↔
    ∃ symbol, (symbol, id) ∈ regs ∧ N.index (fnv1a symbol).toNat = i

theorem ready_fresh (mem : Fin N.count → Shard) : (fresh mem).Ready [] where
  shard := fun i => ⟨sound_fresh _, 0, [], SPSCQueue.holds_fresh _, by simp⟩
  knows := by simp [fresh, MatchingEngine.fresh, Knows]

theorem Ready.register_symbol (h : m.Ready regs) {mem : OrderBook} {symbol : List UInt8}
    {id : SymbolId} (hok : (m.register_symbol mem symbol id).2 = true) :
    (m.register_symbol mem symbol id).1.Ready (regs ++ [(symbol, id)]) := by
  set i := N.index (fnv1a symbol).toNat with hi
  have hother : ∀ j, j ≠ i → (m.register_symbol mem symbol id).1.shards j = m.shards j :=
    fun j hj => set_shards_ne _ _ hj
  have hself : (m.register_symbol mem symbol id).1.shards i =
      { m.shards i with engine := ((m.shards i).engine.register_symbol mem id).1 } :=
    set_shards_self _ _ _
  constructor
  · intro j
    by_cases hj : j = i
    · rw [hj, hself]
      exact ⟨(h.shard i).sound.register_symbol mem id, (h.shard i).queue⟩
    · rw [hother j hj]
      exact h.shard j
  · intro j id'
    by_cases hj : j = i
    · rw [hj, hself]
      have hengine : ((m.shards i).engine.register_symbol mem id).2 = true := hok
      rw [register_symbol_knows hengine id', h.knows i id']
      constructor
      · rintro (⟨s, hs, hsi⟩ | rfl)
        · exact ⟨s, List.mem_append_left _ hs, hsi⟩
        · exact ⟨symbol, List.mem_append_right _ (List.mem_singleton_self _), rfl⟩
      · rintro ⟨s, hs, hsi⟩
        rcases List.mem_append.mp hs with hs | hs
        · exact .inl ⟨s, hs, hsi⟩
        · exact .inr (Prod.mk.inj (List.mem_singleton.mp hs)).2
    · rw [hother j hj, h.knows j id']
      constructor
      · rintro ⟨s, hs, hsj⟩
        exact ⟨s, List.mem_append_left _ hs, hsj⟩
      · rintro ⟨s, hs, hsj⟩
        rcases List.mem_append.mp hs with hs | hs
        · exact ⟨s, hs, hsj⟩
        · obtain ⟨rfl, rfl⟩ := Prod.mk.inj (List.mem_singleton.mp hs)
          exact absurd hsj.symm hj

theorem Ready.register_all {mem : SymbolId → OrderBook} (more : List (List UInt8 × SymbolId)) :
    ∀ {m : MultiSymbolEngine N} {regs : List (List UInt8 × SymbolId)}, m.Ready regs →
      m.register_all mem more = some m' → m'.Ready (regs ++ more) := by
  induction more with
  | nil =>
    intro m regs h heq
    obtain rfl := Option.some.inj heq
    rwa [List.append_nil]
  | cons reg more ih =>
    obtain ⟨symbol, id⟩ := reg
    intro m regs h heq
    unfold MultiSymbolEngine.register_all at heq
    split at heq
    · next m₁ hreg =>
      have hnext := h.register_symbol (show (m.register_symbol (mem id) symbol id).2 = true by
        rw [hreg])
      rw [hreg] at hnext
      rw [List.append_cons]
      exact ih hnext heq
    · cases heq

/-! ## Section 3: Events -/

theorem ShardOk.queued_eq {i : Fin N.count} {n : Nat} {items : List MarketDataMsg}
    (h : (m.shards i).queue.Holds Shard.kQueueDepth n items) : m.queued i = items :=
  h.contents_eq

/-- A shard is replaced by one with the same books. -/
theorem Ready.set (h : m.Ready regs) {i : Fin N.count} {shard : Shard} (hok : ShardOk N i shard)
    (hknows : ∀ id, shard.engine.Knows id ↔ (m.shards i).engine.Knows id) :
    (m.set i shard).Ready regs := by
  constructor
  · intro j
    by_cases hj : j = i
    · subst hj
      rw [set_shards_self]
      exact hok
    · rw [set_shards_ne _ _ hj]
      exact h.shard j
  · intro j id
    by_cases hj : j = i
    · subst hj
      rw [set_shards_self, hknows]
      exact h.knows j id
    · rw [set_shards_ne _ _ hj]
      exact h.knows j id

/-- `submit` appends to the queue of the shard of the symbol's number, or finds
    it full. -/
theorem Ready.submit (h : m.Ready regs) (msg : MarketDataMsg) :
    (m.submit msg).1.Ready regs ∧
    (∀ j, j ≠ N.index msg.symbol.toNat → (m.submit msg).1.queued j = m.queued j) ∧
    (if (m.submit msg).2 then
        (m.submit msg).1.queued (N.index msg.symbol.toNat) =
          m.queued (N.index msg.symbol.toNat) ++ [msg]
      else (m.queued (N.index msg.symbol.toNat)).length = Shard.kQueueDepth.size - 1) := by
  set i := N.index msg.symbol.toNat with hi
  obtain ⟨hsound, n, items, hholds, hitems⟩ := h.shard i
  have hpush := hholds.try_push msg
  split at hpush
  · next hfull =>
    have hsubmit : m.submit msg = (m.set i { m.shards i with
        msgs_dropped := (m.shards i).msgs_dropped + 1 }, false) := by
      simp only [MultiSymbolEngine.submit, ← hi, hpush]
    rw [hsubmit]
    refine ⟨h.set ⟨hsound, n, items, hholds, hitems⟩ fun _ => .rfl, ?_, ?_⟩
    · intro j hj
      rw [queued, set_shards_ne _ _ hj]
      rfl
    · rw [if_neg Bool.false_ne_true, ShardOk.queued_eq hholds]
      exact hfull
  · next hroom =>
    obtain ⟨q, hq, hholds'⟩ := hpush
    have hsubmit : m.submit msg = (m.set i { m.shards i with queue := q }, true) := by
      simp only [MultiSymbolEngine.submit, ← hi, hq]
    rw [hsubmit]
    refine ⟨h.set ⟨hsound, n, items ++ [msg], hholds', ?_⟩ fun _ => .rfl, ?_, ?_⟩
    · intro msg' hmsg'
      rcases List.mem_append.mp hmsg' with hmem | hmem
      · exact hitems msg' hmem
      · rw [List.mem_singleton.mp hmem, hi]
    · intro j hj
      rw [queued, set_shards_ne _ _ hj]
      rfl
    · rw [if_pos rfl, ShardOk.queued_eq hholds, queued, set_shards_self]
      exact hholds'.contents_eq

/-- A pass of a shard's loop ends; a message it takes was sent there, and is
    dropped exactly if the shard does not know its symbol. -/
theorem Ready.poll (h : m.Ready regs) (i : Fin N.count) (running : Bool) :
    ∃ obs m', m.poll i running = some (obs, m') ∧ m'.Ready regs ∧
      (obs = .idle i ∨ ∃ msg known, obs = .processed i msg known ∧
        N.index msg.symbol.toNat = i ∧ (known = true ↔ (m.shards i).engine.Knows msg.symbol)) := by
  obtain ⟨hsound, n, items, hholds, hitems⟩ := h.shard i
  cases items with
  | nil =>
    refine ⟨.idle i, m, ?_, h, .inl rfl⟩
    simp only [MultiSymbolEngine.poll, hholds.try_pop_nil]
  | cons msg items =>
    obtain ⟨q, hq, hholds'⟩ := hholds.try_pop_cons
    obtain ⟨p, hp, hknown, hsound', hsame⟩ := hsound.process_message msg
    refine ⟨.processed i msg p.known, _, by simp only [MultiSymbolEngine.poll, hq, hp]; rfl, ?_,
      .inr ⟨msg, p.known, rfl, hitems msg List.mem_cons_self, hknown⟩⟩
    exact h.set ⟨hsound', n + 1, items, hholds',
      fun msg' hmsg' => hitems msg' (List.mem_cons_of_mem _ hmsg')⟩ hsame

/-- If hash and number of every registered symbol select the same shard, every
    event does right. -/
theorem Ready.all_routed (hagree : ∀ symbol id, (symbol, id) ∈ regs →
      N.index (fnv1a symbol).toNat = N.index id.toNat) (events : List (Event N)) :
    ∀ {m : MultiSymbolEngine N}, m.Ready regs → AllRouted (regs.map Prod.snd) m events := by
  induction events with
  | nil => exact fun _ => trivial
  | cons event events ih =>
    intro m h
    have hholder : ∀ id ∈ regs.map Prod.snd, (m.shards (N.index id.toNat)).engine.Knows id := by
      intro id hid
      obtain ⟨⟨symbol, _⟩, hmem, rfl⟩ := List.mem_map.mp hid
      exact (h.knows _ _).mpr ⟨symbol, hmem, hagree symbol _ hmem⟩
    cases event with
    | submit msg =>
      obtain ⟨hready, _, hqueue⟩ := h.submit msg
      exact ⟨_, _, rfl, fun hid => ⟨_, hholder _ hid, hqueue⟩, ih hready⟩
    | poll i running =>
      obtain ⟨obs, m', hpoll, hready, hobs⟩ := h.poll i running
      refine ⟨obs, m', hpoll, ?_, ih hready⟩
      rcases hobs with rfl | ⟨msg, known, rfl, hmsg, hknown⟩
      · trivial
      · intro hid
        have := hholder _ hid
        rw [hmsg] at this
        exact hknown.mpr this

/-! ## Section 4: Routing agrees with registration -/

/-- A message without effect on any book. -/
def heartbeat (id : SymbolId) : MarketDataMsg :=
  ⟨0, 0, 0, 0, id, .Buy, .Heartbeat, .Limit⟩

/-- Registration leaves the queues alone. -/
theorem queued_register_all {mem : SymbolId → OrderBook} (regs : List (List UInt8 × SymbolId)) :
    ∀ {m : MultiSymbolEngine N}, m.register_all mem regs = some m' →
      ∀ i, m'.queued i = m.queued i := by
  induction regs with
  | nil =>
    intro m heq i
    obtain rfl := Option.some.inj heq
    rfl
  | cons reg regs ih =>
    obtain ⟨symbol, id⟩ := reg
    intro m heq i
    unfold MultiSymbolEngine.register_all at heq
    split at heq
    · next m₁ hreg =>
      obtain rfl : (m.register_symbol (mem id) symbol id).1 = m₁ := by rw [hreg]
      rw [ih heq i, queued, queued]
      by_cases hi : i = N.index (fnv1a symbol).toNat
      · rw [hi, MultiSymbolEngine.register_symbol, set_shards_self]
      · rw [MultiSymbolEngine.register_symbol, set_shards_ne _ _ hi]
    · cases heq

/-- A shard to which the message for a registered symbol is sent knows it. -/
theorem Ready.agree_of_routed (h : m.Ready regs) (hempty : ∀ i, m.queued i = []) (hdistinct : (regs.map Prod.snd).Nodup)
    {symbol : List UInt8} {id : SymbolId} (hreg : (symbol, id) ∈ regs)
    (hrouted : AllRouted (regs.map Prod.snd) m [.submit (heartbeat id)]) :
    N.index (fnv1a symbol).toNat = N.index id.toNat := by
  obtain ⟨obs, m', hstep, hobs, _⟩ := hrouted
  obtain ⟨rfl, rfl⟩ := Prod.mk.inj (Option.some.inj hstep)
  obtain ⟨i, hknows, hqueue⟩ := hobs (List.mem_map_of_mem hreg)
  obtain ⟨_, hother, _⟩ := h.submit (heartbeat id)
  -- the only shard that knows the symbol is that of its ticker
  obtain ⟨symbol', hreg', hi⟩ := (h.knows i id).mp hknows
  obtain rfl : symbol' = symbol := by
    have := List.inj_on_of_nodup_map hdistinct hreg' hreg rfl
    exact (Prod.mk.inj this).1
  rw [hi]
  -- and the only queue that changes is that of its number
  by_contra hne
  split at hqueue
  · rw [hother i hne, hempty i] at hqueue
    simp at hqueue
  · rw [hempty i] at hqueue
    simp [Shard.kQueueDepth] at hqueue

/-- In every run of the shards that begins with the registrations `regs`, all
    of which succeed, every message for a registered symbol goes to the queue of a
    shard that holds its book and none is dropped as unknown; this is so
    exactly if, for each registration, the hash of the ticker and the number of
    the symbol select the same shard. -/
theorem routed_iff (mem : Fin N.count → Shard) (books : SymbolId → OrderBook)
    (regs : List (List UInt8 × SymbolId)) (m : MultiSymbolEngine N)
    (hregs : (fresh mem).register_all books regs = some m)
    (hdistinct : (regs.map Prod.snd).Nodup) :
    (∀ events, AllRouted (regs.map Prod.snd) m events) ↔
      ∀ symbol id, (symbol, id) ∈ regs → N.index (fnv1a symbol).toNat = N.index id.toNat := by
  have hready : m.Ready regs := (ready_fresh mem).register_all regs hregs
  constructor
  · intro hall symbol id hreg
    have hempty : ∀ i, m.queued i = [] := by
      intro i
      rw [queued_register_all regs hregs i]
      exact (SPSCQueue.holds_fresh _).contents_eq
    exact hready.agree_of_routed hempty hdistinct hreg (hall _)
  · intro hagree events
    exact hready.all_routed hagree events

/-! ### Two registrations with four shards -/

def fourShards : ShardCount := ⟨4, by decide, by decide⟩

/-- Shards in memory that was zeroed. -/
def zeroedShards (_ : Fin fourShards.count) : Shard :=
  let msgs : SPSCQueue MarketDataMsg := .fresh fun _ => heartbeat 0
  ⟨⟨msgs, .fresh fun _ => ⟨0, 0, 0, 0, 0, 0, .Buy, .New⟩, fun _ => none, 0, 0, 0⟩, msgs, 0, 0⟩

/-- The ticker `AAPL`. -/
def aapl : List UInt8 := [65, 65, 80, 76]

/-- The ticker `SPY`. -/
def spy : List UInt8 := [83, 80, 89]

/-- The engine after one registration. -/
def registered (symbol : List UInt8) (id : SymbolId) : MultiSymbolEngine fourShards :=
  ((fresh zeroedShards).register_symbol zeroed symbol id).1

/-- `SPY` as symbol 1 is looked for where it is registered. -/
theorem routed_spy :
    (fresh zeroedShards).register_all (fun _ => zeroed) [(spy, 1)] = some (registered spy 1) ∧
      ∀ events, AllRouted [1] (registered spy 1) events := by
  have hregs : (fresh zeroedShards).register_all (fun _ => zeroed) [(spy, 1)] =
      some (registered spy 1) := rfl
  refine ⟨hregs, (routed_iff zeroedShards _ [(spy, 1)] _ hregs (by decide)).mpr ?_⟩
  intro symbol id hreg
  obtain ⟨rfl, rfl⟩ := Prod.mk.inj (List.mem_singleton.mp hreg)
  decide

/-- `AAPL` as symbol 0 is registered with the shard 3.  A message for symbol 0
    is accepted for the shard 0, which drops it. -/
theorem heartbeat_goes_astray :
    (fresh zeroedShards).register_all (fun _ => zeroed) [(aapl, 0)] = some (registered aapl 0) ∧
      ((registered aapl 0).submit (heartbeat 0)).2 = true ∧
      (((registered aapl 0).submit (heartbeat 0)).1.poll ⟨0, by decide⟩ true).map Prod.fst =
        some (.processed ⟨0, by decide⟩ (heartbeat 0) false) ∧
      ¬ ∀ events, AllRouted [0] (registered aapl 0) events := by
  have hregs : (fresh zeroedShards).register_all (fun _ => zeroed) [(aapl, 0)] =
      some (registered aapl 0) := rfl
  refine ⟨hregs, by decide +kernel, by decide +kernel, ?_⟩
  intro hall
  have hready : (registered aapl 0).Ready [(aapl, 0)] :=
    (ready_fresh zeroedShards).register_all _ hregs
  have hempty : ∀ i, (registered aapl 0).queued i = [] := by
    intro i
    rw [queued_register_all _ hregs i]
    exact (SPSCQueue.holds_fresh _).contents_eq
  have hagree := hready.agree_of_routed hempty (by decide) (List.mem_singleton_self _) (hall _)
  revert hagree
  decide

end MultiSymbolEngine

end OptionsEngine
