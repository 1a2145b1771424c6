import OptionsEngine.OrderBook
import OptionsEngine.Replay

/-! # The deterministic replay harness (`tools/replay_trace.cpp`)

    `record` makes up a stream of events, runs it through an order book, and
    writes the stream and the fills to two files of 32-byte records.  `replay`
    reads the stream back, runs it through an order book of its own, and
    compares the fills with the recorded ones byte by byte.

    The generator `rng` is given by the numbers it yields.  A record has bytes
    that belong to none of its fields: those of a fill are zeroed before the
    fields are set, those of an event hold what the memory held.  The engine
    asks of a side only whether it is `Buy`. -/

namespace OptionsEngine.ReplayTrace

open File Memory OrderBook

/-! ## Records: natural alignment, on a little-endian host -/

/-- `sizeof(TraceEvent)` and `sizeof(TraceFill)`. -/
def recordSize : Nat := 32

structure TraceEvent where
  /-- 0 = Add, 1 = Cancel, 2 = Modify. -/
  kind : UInt8
  side : UInt8
  type : UInt8
  id : UInt64
  price : Int64
  /-- Add: the quantity.  Modify: the new quantity. -/
  qty : UInt32
  account_id : UInt32
  deriving DecidableEq, Repr

namespace TraceEvent

def zero : TraceEvent := ⟨0, 0, 0, 0, 0, 0, 0⟩

/-- Behind `_pad` stand four bytes of padding. -/
def fields (e : TraceEvent) (padding : UInt32) : List Field :=
  [.B e.kind, .B e.side, .B e.type, .B 0, .I padding, .Q e.id, .Q e.price.toUInt64, .I e.qty,
    .I e.account_id]

def load (s : Span) : TraceEvent where
  kind := .ofNat (s.le 0 1)
  side := .ofNat (s.le 1 1)
  type := .ofNat (s.le 2 1)
  id := .ofNat (s.le 8 8)
  price := (UInt64.ofNat (s.le 16 8)).toInt64
  qty := .ofNat (s.le 24 4)
  account_id := .ofNat (s.le 28 4)

end TraceEvent

structure TraceFill where
  aggr_id : UInt64
  passive_id : UInt64
  price : Int64
  qty : UInt32
  deriving DecidableEq, Repr

def TraceFill.fields (f : TraceFill) : List Field :=
  [.Q f.aggr_id, .Q f.passive_id, .Q f.price.toUInt64, .I f.qty, .x, .x, .x, .x]

/-! ## Running a stream -/

def sym : SymbolId := 1

/-- The callback: what it pushes to `out_fills`. -/
def on_match (r : ExecutionReport) : Option TraceFill :=
  if r.exec_type = .Fill ∨ r.exec_type = .PartialFill then
    some ⟨r.order_id, r.contra_order_id, .ofInt r.exec_price, r.exec_qty⟩
  else none

/-- The call made for an event. -/
def TraceEvent.call (e : TraceEvent) : Op :=
  if e.kind = 0 then
    .add { id := e.id, price := e.price.toInt, qty := e.qty, qty_remaining := e.qty,
           symbol := sym, side := if e.side = 0 then .Buy else .Sell, type := ⟨e.type⟩,
           account_id := e.account_id }
  else if e.kind = 1 then .cancel e.id
  else .modify e.id e.qty

/-- The fills of a stream, run through a book set up in the memory `mem`. -/
def run (mem : OrderBook) (stream : List TraceEvent) : Option (List TraceFill) :=
  ((fresh mem sym).run (stream.map TraceEvent.call)).map fun (rs, _) =>
    (rs.flatMap Response.reports).filterMap on_match

/-! ## Recording -/

/-- The locals of the loop in `cmd_record`. -/
structure Recorder where
  /-- How many numbers the generator has yielded. -/
  draws : Nat
  live : List UInt64
  next_id : UInt64
  deriving DecidableEq, Repr

/-- `to_price(100.0)`. -/
def midPrice : Int := 100000000

variable (rng : Nat → UInt64)

/-- Limit, Market, IOC or FOK. -/
def drawnType (t : UInt64) : UInt8 :=
  if t < 80 then 0 else if t < 88 then 1 else if t < 95 then 2 else 3

/-- A pass that adds an order; the account is drawn only if it gets one. -/
def next_add (g : Recorder) : TraceEvent × Recorder :=
  let type := drawnType (rng (g.draws + 4) % 100)
  let tracked := rng (g.draws + 5) % 100 < 30
  ({ kind := 0
     side := if rng (g.draws + 1) &&& 1 = 1 then 0 else 1
     type := type
     id := g.next_id
     price := .ofInt (midPrice + (((rng (g.draws + 2) % 41).toNat : Int) - 20) * 10000)
     qty := (1 + rng (g.draws + 3) % 500).toUInt32
     account_id := if tracked then (1 + rng (g.draws + 6) % 8).toUInt32 else 0 },
    { draws := if tracked then g.draws + 7 else g.draws + 6
      live := if type = 0 then g.live ++ [g.next_id] else g.live
      next_id := g.next_id + 1 })

/-- One pass of the loop. -/
def next_event (g : Recorder) : TraceEvent × Recorder :=
  let roll := rng g.draws % 100
  if roll < 70 ∨ g.live = [] then next_add rng g
  else
    let id := g.live.getD ((rng (g.draws + 1)).toNat % g.live.length) 0
    if roll < 90 then ({ TraceEvent.zero with kind := 1, id := id }, { g with draws := g.draws + 2 })
    else
      ({ TraceEvent.zero with kind := 2, id := id, qty := (rng (g.draws + 2) % 800).toUInt32 },
        { g with draws := g.draws + 3 })

/-- The loop. -/
def events : Nat → Recorder → List TraceEvent
  | 0, _ => []
  | n + 1, g =>
    let (e, g') := next_event rng g
    e :: events n g'

/-- The stream of `cmd_record`. -/
def generate (num_events : UInt64) : List TraceEvent := events rng num_events.toNat ⟨0, [], 1⟩

/-- The bytes of a stream in memory; `padding i` is found behind `_pad` of
    event `i`. -/
def streamBytes (padding : Nat → UInt32) (stream : List TraceEvent) : List UInt8 :=
  (stream.zipIdx.map fun (e, i) => pack (e.fields (padding i))).flatten

def fillBytes (fills : List TraceFill) : List UInt8 :=
  (fills.map fun f => pack f.fields).flatten

/-- The files that a stream and its fills are written to; none if one of them
    cannot be written. -/
def write_files (mem : OrderBook) (padding : Nat → UInt32) (stream : List TraceEvent) :
    Option (List UInt8 × List UInt8) := do
  let fills ← run mem stream
  let tf ← Stream.openWrite.fwrite (streamBytes padding stream)
  let ff ← Stream.openWrite.fwrite (fillBytes fills)
  some (tf.bytes, ff.bytes)

def cmd_record (num_events : UInt64) (mem : OrderBook) (padding : Nat → UInt32) :
    Option (List UInt8 × List UInt8) := write_files mem padding (generate rng num_events)

/-! ## Replaying -/

/-- The first `n` records of a file. -/
def records : Nat → List UInt8 → List (List UInt8)
  | 0, _ => []
  | n + 1, bytes => bytes.take recordSize :: records n (bytes.drop recordSize)

/-- A file read into a vector of records, with what is said if it is missing,
    if it does not consist of records, and if it cannot be read. -/
def read_records (missing odd short : String) (file : Option (List UInt8)) :
    Except String (List (List UInt8)) :=
  match file with
  | none => .error missing
  | some bytes =>
    if bytes.length % recordSize ≠ 0 then .error odd
    else
      match (Stream.openRead bytes).fread (bytes.length / recordSize * recordSize) with
      | none => .error short
      | some (block, _) => .ok (records (bytes.length / recordSize) block)

def read_trace : Option (List UInt8) → Except String (List TraceEvent) := fun file =>
  (read_records "could not open trace file for reading"
    "trace file size is not a multiple of record size" "short read on trace file" file).map
      (List.map fun block => TraceEvent.load (spanOf block))

/-- The recorded fills stay bytes: `memcmp` compares the padding too. -/
def read_fills : Option (List UInt8) → Except String (List (List UInt8)) :=
  read_records "could not open companion .fills file for reading"
    "fills file size is not a multiple of record size" "short read on fills file"

/-- What `cmd_replay` prints. -/
inductive Result where
  | error (msg : String)
  | PASS (events fills : Nat)
  /-- The divergence is looked for if the sizes agree. -/
  | FAIL (events expected actual : Nat) (divergence : Option Nat)
  deriving DecidableEq, Repr

/-- The exit code. -/
def Result.code : Result → Nat
  | .PASS _ _ => 0
  | .error _ | .FAIL _ _ _ _ => 1

/-- The comparison of the two fill sequences. -/
def compare (events : Nat) (actual expected : List (List UInt8)) : Result :=
  let same_size := actual.length = expected.length
  if same_size ∧ actual.flatten = expected.flatten then .PASS events actual.length
  else
    .FAIL events expected.length actual.length
      (if same_size then (List.range actual.length).find? fun i => actual.getD i [] ≠ expected.getD i []
       else none)

/-- The files are those found under the two names. -/
def cmd_replay (mem : OrderBook) (trace fills : Option (List UInt8)) : Option Result :=
  match read_trace trace with
  | .error msg => some (.error msg)
  | .ok stream =>
    match read_fills fills with
    | .error msg => some (.error msg)
    | .ok expected =>
      (run mem stream).map fun actual =>
        compare stream.length (actual.map fun f => pack f.fields) expected

end OptionsEngine.ReplayTrace
