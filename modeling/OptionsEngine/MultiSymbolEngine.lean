import OptionsEngine.MatchingEngine

/-! # The sharded engine (`core/multi_symbol_engine.hpp`)

    A fixed number of shards, each with a matching engine and a queue of its
    own.  The class is written against operations that its members do not
    have; `push`, `pop` and `on_message` are read as `try_push`, `try_pop` and
    `process_message`.

    `register_symbol` finds the shard of a symbol by the hash of its ticker,
    `submit` the shard of a message by the number of its symbol.  `Event`s
    interleave the feed thread's calls of `submit` with the passes of the
    shard threads through their loop; threads, affinities and statistics for
    display are left out. -/

namespace OptionsEngine

open Ring

/-- `N_SHARDS`, a power of two as the class asserts it. -/
structure ShardCount where
  count : Nat
  pos : 0 < count
  pow_two : count &&& (count - 1) = 0

/-- `key & (N_SHARDS - 1)`. -/
def ShardCount.index (N : ShardCount) (key : Nat) : Fin N.count :=
  ⟨key &&& (N.count - 1), Nat.lt_of_le_of_lt Nat.and_le_right (Nat.sub_lt N.pos Nat.one_pos)⟩

/-- FNV-1a hash of a ticker's characters. -/
def fnv1a (s : List UInt8) : UInt32 :=
  s.foldl (fun h c => (h ^^^ c.toUInt32) * 16777619) 2166136261

structure Shard where
  engine : MatchingEngine
  queue : SPSCQueue MarketDataMsg
  msgs_processed : UInt64
  msgs_dropped : UInt64

def Shard.kQueueDepth : Capacity := ⟨65536, one_lt_depth, pow_two_depth, depth_fits⟩

structure MultiSymbolEngine (N : ShardCount) where
  shards : Fin N.count → Shard

/-- A call of the feed thread, or a pass of a shard's thread through its loop,
    before or after `stop`. -/
inductive Event (N : ShardCount) where
  | submit (msg : MarketDataMsg)
  | poll (i : Fin N.count) (running : Bool)

/-- What can be seen of an event. -/
inductive Observed (N : ShardCount) where
  | submitted (msg : MarketDataMsg) (ok : Bool)
  /-- A shard took a message from its queue; `known` is false if its engine
      dropped it because it has no book for the symbol. -/
  | processed (i : Fin N.count) (msg : MarketDataMsg) (known : Bool)
  | idle (i : Fin N.count)
  deriving DecidableEq

namespace MultiSymbolEngine

variable {N : ShardCount}

/-- The constructor, over the memory it finds. -/
def fresh (mem : Fin N.count → Shard) : MultiSymbolEngine N where
  shards := fun i => ⟨.fresh (mem i).engine, .fresh (mem i).queue.buffer, 0, 0⟩

def set (m : MultiSymbolEngine N) (i : Fin N.count) (shard : Shard) : MultiSymbolEngine N :=
  ⟨Function.update m.shards i shard⟩

@[simp] theorem set_shards_self (m : MultiSymbolEngine N) (i : Fin N.count) (shard : Shard) :
    (m.set i shard).shards i = shard := Function.update_self _ _ _

theorem set_shards_ne (m : MultiSymbolEngine N) {i j : Fin N.count} (shard : Shard) (h : j ≠ i) :
    (m.set i shard).shards j = m.shards j := Function.update_of_ne h _ _

def register_symbol (m : MultiSymbolEngine N) (mem : OrderBook) (symbol : List UInt8)
    (id : SymbolId) : MultiSymbolEngine N × Bool :=
  -- by the hash of the ticker
  let shard_idx := N.index (fnv1a symbol).toNat
  let shard := m.shards shard_idx
  let (engine, ok) := shard.engine.register_symbol mem id
  (m.set shard_idx { shard with engine := engine }, ok)

def submit (m : MultiSymbolEngine N) (msg : MarketDataMsg) : MultiSymbolEngine N × Bool :=
  -- by the number of the symbol
  let shard_idx := N.index msg.symbol.toNat
  let shard := m.shards shard_idx
  match shard.queue.try_push Shard.kQueueDepth msg with
  | (queue, true) => (m.set shard_idx { shard with queue := queue }, true)
  | (_, false) => (m.set shard_idx { shard with msgs_dropped := shard.msgs_dropped + 1 }, false)

/-- One pass of `shard_loop`; the messages drained after `stop` are not
    counted. -/
def poll (m : MultiSymbolEngine N) (i : Fin N.count) (running : Bool) :
    Option (Observed N × MultiSymbolEngine N) :=
  let shard := m.shards i
  match shard.queue.try_pop Shard.kQueueDepth with
  | (_, none) => some (.idle i, m)
  | (queue, some msg) =>
    (shard.engine.process_message msg).map fun p =>
      (.processed i msg p.known, m.set i
        { shard with
          queue := queue
          engine := p.engine
          msgs_processed := if running then shard.msgs_processed + 1 else shard.msgs_processed })

def step (m : MultiSymbolEngine N) : Event N → Option (Observed N × MultiSymbolEngine N)
  | .submit msg => some (.submitted msg (m.submit msg).2, (m.submit msg).1)
  | .poll i running => m.poll i running

/-- Registrations one after the other, all of which return true. -/
def register_all (m : MultiSymbolEngine N) (mem : SymbolId → OrderBook) :
    List (List UInt8 × SymbolId) → Option (MultiSymbolEngine N)
  | [] => some m
  | (symbol, id) :: regs =>
    match m.register_symbol (mem id) symbol id with
    | (m', true) => m'.register_all mem regs
    | (_, false) => none

end MultiSymbolEngine

end OptionsEngine
