import OptionsEngine.OrderBook.Symmetry
import OptionsEngine.RefBook.DriverPasses
import OptionsEngine.Replay.RoundTrip
import OptionsEngine.ReplayTrace

/-! # A recorded trace replays

    The two processes share the files and nothing else: the memory that the
    order books are set up in, and the padding of the event records, are what
    they are.

    * `run_eq`: the fills of a stream do not depend on the memory.
    * `recorded_replays`: what was recorded passes, and no other fills file
      does; where one has another byte, the first fill concerned is named.
    * `recorded_fills_reference`: the fills recorded are those of the reference
      model of the differential test, which has no limit on levels: the prices
      of the generator are on the grid of that test. -/

namespace OptionsEngine.ReplayTrace

open File Memory OrderBook
open DifferentialTest (OnGrid gridPrice_onGrid length_levels_le)

variable {stream : List TraceEvent} {n : Nat} {bytes : List UInt8} {blocks : List (List UInt8)}

/-! ## Section 1: Records -/

theorem length_event (e : TraceEvent) (padding : UInt32) :
    (pack (e.fields padding)).length = recordSize := by
  rw [length_pack]
  rfl

theorem length_fill (f : TraceFill) : (pack f.fields).length = recordSize := by
  rw [length_pack]
  rfl

/-- The padding is not read. -/
theorem load_event (e : TraceEvent) (padding : UInt32) :
    TraceEvent.load (spanOf (pack (e.fields padding))) = e := by
  have h : (spanOf (pack (e.fields padding))).Shows 0 (pack (e.fields padding)) :=
    Span.shows_ofBytes _ _
  simp only [TraceEvent.fields, shows_pack_cons, Field.width] at h
  obtain ⟨hkind, hside, htype, _, _, hid, hprice, hqty, haccount, _⟩ := h
  simp only [TraceEvent.fields, TraceEvent.load, load_B hkind, load_B hside, load_B htype,
    load_Q hid, load_Q hprice, load_I hqty, load_I haccount, Int64.toInt64_toUInt64]

theorem length_flatten (h : ∀ block ∈ blocks, block.length = recordSize) :
    blocks.flatten.length = blocks.length * recordSize := by
  rw [List.length_flatten, List.map_congr_left h, List.map_const', List.sum_replicate_nat]

theorem records_flatten (h : ∀ block ∈ blocks, block.length = recordSize) :
    records blocks.length blocks.flatten = blocks := by
  induction blocks with
  | nil => rfl
  | cons block blocks ih =>
    have hlen := h block List.mem_cons_self
    rw [List.length_cons, List.flatten_cons, records, ← hlen, List.take_left, List.drop_left,
      ih fun b hb => h b (List.mem_cons_of_mem _ hb)]

theorem length_records (n : Nat) (bytes : List UInt8) : (records n bytes).length = n := by
  induction n generalizing bytes with
  | zero => rfl
  | succ n ih => rw [records, List.length_cons, ih]

theorem flatten_records (h : bytes.length = n * recordSize) : (records n bytes).flatten = bytes := by
  induction n generalizing bytes with
  | zero =>
    rw [Nat.zero_mul] at h
    rw [records, List.length_eq_zero_iff.mp h]
    rfl
  | succ n ih =>
    have hdrop : (bytes.drop recordSize).length = n * recordSize := by
      rw [List.length_drop, h, Nat.succ_mul, Nat.add_sub_cancel]
    rw [records, List.flatten_cons, ih hdrop, List.take_append_drop]

theorem length_of_mem_records (h : bytes.length = n * recordSize) :
    ∀ block ∈ records n bytes, block.length = recordSize := by
  induction n generalizing bytes with
  | zero => simp [records]
  | succ n ih =>
    have hdrop : (bytes.drop recordSize).length = n * recordSize := by
      rw [List.length_drop, h, Nat.succ_mul, Nat.add_sub_cancel]
    intro block hblock
    rcases List.mem_cons.mp hblock with rfl | hblock
    · rw [List.length_take, h, Nat.succ_mul]
      omega
    · exact ih hdrop block hblock

/-- A file of whole records is read in full. -/
theorem read_records_ok (missing odd short : String) (h : bytes.length = n * recordSize) :
    read_records missing odd short (some bytes) = .ok (records n bytes) := by
  have hmod : bytes.length % recordSize = 0 := by rw [h, Nat.mul_mod_left]
  have hdiv : bytes.length / recordSize = n := by
    rw [h]
    exact Nat.mul_div_cancel n (by decide)
  unfold read_records
  simp only [hmod, hdiv]
  have hread : (Stream.openRead bytes).fread (n * recordSize) =
      some (bytes, ⟨bytes, n * recordSize⟩) := by
    unfold Stream.fread Stream.openRead
    rw [Nat.zero_add, if_pos (Nat.le_of_eq h.symm), List.drop_zero, ← h, List.take_length]
  rw [hread]
  simp

/-- Only a file of whole records is read. -/
theorem read_records_error (missing odd short : String) (file : Option (List UInt8))
    (h : ∀ bytes n, file = some bytes → bytes.length ≠ n * recordSize) :
    ∃ msg, read_records missing odd short file = .error msg := by
  cases file with
  | none => exact ⟨missing, rfl⟩
  | some bytes =>
    have hmod : bytes.length % recordSize ≠ 0 := by
      intro hzero
      exact h bytes (bytes.length / recordSize) rfl (Nat.div_mul_cancel (Nat.dvd_of_mod_eq_zero hzero)).symm
    refine ⟨odd, ?_⟩
    unfold read_records
    simp only
    rw [if_pos hmod]

/-! ## Section 2: Running a stream -/

/-- The fills of a stream, whatever the memory of the book. -/
theorem run_eq (stream : List TraceEvent) : ∃ fills, ∀ mem, run mem stream = some fills := by
  have hany : ∀ mem, ∃ fills, run mem stream = some fills ∧ run zeroed stream = some fills := by
    intro mem
    -- Two fresh books, related slot by slot, answer alike whatever was in their memory.
    obtain ⟨rs, b, rs', b', _, hrun, hrun', hall, _⟩ :=
      Relabel.refl.run_fresh mem zeroed sym (stream.map TraceEvent.call)
    have hreports : rs'.flatMap Response.reports = rs.flatMap Response.reports := by
      rw [List.flatMap_def, List.flatMap_def]
      congr 1
      clear hrun hrun'
      induction hall with
      | nil => rfl
      | cons hans _ ih => rw [List.map_cons, List.map_cons, ih, hans.reports, Relabel.map_refl_report]
    rw [Relabel.map_refl_op] at hrun'
    refine ⟨(rs.flatMap Response.reports).filterMap on_match, ?_, ?_⟩
    · rw [run, hrun, Option.map_some]
    · rw [run, hrun', Option.map_some, ← hreports]
  obtain ⟨fills, _, hfills⟩ := hany zeroed
  refine ⟨fills, ?_⟩
  intro mem
  obtain ⟨fills', hmem, hzero⟩ := hany mem
  rw [hmem, ← hzero, hfills]

/-! ## Section 3: The comparison -/

theorem compare_self (n : Nat) (blocks : List (List UInt8)) :
    compare n blocks blocks = .PASS n blocks.length := by
  simp [compare]

/-- Different sequences of fills differ in their bytes. -/
theorem compare_ne {actual expected : List (List UInt8)}
    (hactual : ∀ block ∈ actual, block.length = recordSize)
    (hexpected : ∀ block ∈ expected, block.length = recordSize) (hne : actual ≠ expected) (n : Nat) :
    compare n actual expected =
      .FAIL n expected.length actual.length
        (if actual.length = expected.length then
          (List.range actual.length).find? fun i => actual.getD i [] ≠ expected.getD i []
         else none) := by
  have hdiff : ¬ (actual.length = expected.length ∧ actual.flatten = expected.flatten) := by
    intro h
    apply hne
    rw [← records_flatten hactual, ← records_flatten hexpected, h.1, h.2]
  unfold compare
  simp only
  rw [if_neg hdiff]

/-- Two sequences of one length differ at a first place. -/
theorem find_divergence {actual expected : List (List UInt8)}
    (hlen : actual.length = expected.length) (hne : actual ≠ expected) :
    ∃ i < actual.length, ((List.range actual.length).find? fun i =>
        actual.getD i [] ≠ expected.getD i []) = some i ∧
      actual.getD i [] ≠ expected.getD i [] ∧ ∀ j < i, actual.getD j [] = expected.getD j [] := by
  cases hfind : (List.range actual.length).find? fun i => actual.getD i [] ≠ expected.getD i [] with
  -- A search that finds nothing has compared every pair.
  | none =>
    exfalso
    apply hne
    apply List.ext_getElem hlen
    intro i hi hi'
    have hsame := List.find?_eq_none.mp hfind i (List.mem_range.mpr hi)
    simpa [hi, hi'] using hsame
  | some i =>
    obtain ⟨hi, hmem, hbefore⟩ := List.find?_range_eq_some.mp hfind
    refine ⟨i, List.mem_range.mp hmem, rfl, by simpa using hi, ?_⟩
    intro j hj
    simpa using hbefore j hj

/-- The bytes of record `i`. -/
def recordAt (bytes : List UInt8) (i : Nat) : List UInt8 :=
  (bytes.drop (i * recordSize)).take recordSize

theorem getD_records {i : Nat} (hi : i < n) : (records n bytes).getD i [] = recordAt bytes i := by
  induction n generalizing bytes i with
  | zero => omega
  | succ n ih =>
    cases i with
    | zero => simp [records, recordAt]
    | succ i =>
      rw [records, List.getD_cons_succ, ih (by omega), recordAt, recordAt, List.drop_drop,
        Nat.succ_mul, Nat.add_comm]

/-! ## Section 4: Recording and replaying -/

variable {mem : OrderBook} {padding : Nat → UInt32} {trace fills : List UInt8}

/-- What is in the files. -/
theorem write_files_eq (h : write_files mem padding stream = some (trace, fills)) :
    ∃ fs, run mem stream = some fs ∧ trace = streamBytes padding stream ∧ fills = fillBytes fs := by
  unfold write_files at h
  obtain ⟨fs, hrun, h⟩ := Option.bind_eq_some_iff.mp h
  obtain ⟨tf, htf, h⟩ := Option.bind_eq_some_iff.mp h
  obtain ⟨ff, hff, h⟩ := Option.bind_eq_some_iff.mp h
  obtain ⟨rfl, rfl⟩ := Prod.mk.inj (Option.some.inj h)
  have hwritten : ∀ {block : List UInt8} {f : Stream},
      Stream.openWrite.fwrite block = some f → f.bytes = block := by
    intro block f hf
    unfold Stream.openWrite at hf
    rw [Stream.fwrite_end (show 0 = ([] : List UInt8).length from rfl)] at hf
    by_cases hfits : 0 + block.length ≤ maxOffset
    · rw [if_pos hfits] at hf
      rw [← Option.some.inj hf]
      rfl
    · rw [if_neg hfits] at hf
      cases hf
  exact ⟨fs, hrun, hwritten htf, hwritten hff⟩

theorem read_trace_stream (padding : Nat → UInt32) (stream : List TraceEvent) :
    read_trace (some (streamBytes padding stream)) = .ok stream := by
  let blocks := stream.zipIdx.map fun p => pack (p.1.fields (padding p.2))
  have hblocks : ∀ block ∈ blocks, block.length = recordSize := by
    intro block hblock
    obtain ⟨p, _, rfl⟩ := List.mem_map.mp hblock
    exact length_event p.1 (padding p.2)
  have hlen : (streamBytes padding stream).length = blocks.length * recordSize :=
    length_flatten hblocks
  unfold read_trace
  rw [read_records_ok _ _ _ hlen]
  show Except.ok ((records blocks.length blocks.flatten).map _) = _
  rw [records_flatten hblocks, List.map_map]
  congr 1
  calc stream.zipIdx.map ((fun block => TraceEvent.load (spanOf block)) ∘
        fun p => pack (p.1.fields (padding p.2)))
      = stream.zipIdx.map Prod.fst := List.map_congr_left fun p _ => load_event p.1 (padding p.2)
    _ = stream := List.zipIdx_map_fst 0 stream

theorem length_of_mem_fills (fs : List TraceFill) :
    ∀ block ∈ fs.map fun f => pack f.fields, block.length = recordSize := by
  intro block hblock
  obtain ⟨f, _, rfl⟩ := List.mem_map.mp hblock
  exact length_fill f

theorem length_fillBytes (fs : List TraceFill) :
    (fillBytes fs).length = fs.length * recordSize := by
  have hlen := length_flatten (length_of_mem_fills fs)
  rwa [List.length_map] at hlen

theorem records_fillBytes (fs : List TraceFill) :
    records fs.length (fillBytes fs) = fs.map fun f => pack f.fields := by
  have h := records_flatten (length_of_mem_fills fs)
  rwa [List.length_map] at h

/-- A replay of a recorded stream compares its fills with those found. -/
theorem cmd_replay_eq {fs : List TraceFill} (hrun : run mem stream = some fs)
    (padding : Nat → UInt32) (h : bytes.length = n * recordSize) :
    cmd_replay mem (some (streamBytes padding stream)) (some bytes) =
      some (compare stream.length (records fs.length (fillBytes fs)) (records n bytes)) := by
  unfold cmd_replay
  rw [read_trace_stream]
  unfold read_fills
  rw [read_records_ok _ _ _ h]
  simp only [hrun, Option.map_some, records_fillBytes]

/-- A recorded stream replays, in any other process, with the recorded fills
    and no others; the first fill that is not as recorded is named. -/
theorem recorded_replays (mem mem' : OrderBook) (padding : Nat → UInt32)
    (stream : List TraceEvent) (trace fills : List UInt8)
    (h : write_files mem padding stream = some (trace, fills)) :
    cmd_replay mem' (some trace) (some fills) =
        some (.PASS stream.length (fills.length / recordSize)) ∧
      (∀ file, file ≠ some fills →
        ∃ result, cmd_replay mem' (some trace) file = some result ∧ result.code = 1) ∧
      ∀ other, other.length = fills.length → other ≠ fills →
        ∃ i, cmd_replay mem' (some trace) (some other) =
            some (.FAIL stream.length (fills.length / recordSize) (fills.length / recordSize)
              (some i)) ∧
          recordAt other i ≠ recordAt fills i ∧ ∀ j < i, recordAt other j = recordAt fills j := by
  obtain ⟨fs, hrun, rfl, rfl⟩ := write_files_eq h
  obtain ⟨fs', hany⟩ := run_eq stream
  obtain rfl : fs' = fs := Option.some.inj ((hany mem).symm.trans hrun)
  have hlen := length_fillBytes fs'
  have hcount : (fillBytes fs').length / recordSize = fs'.length := by
    rw [hlen]
    exact Nat.mul_div_cancel _ (by decide)
  have hactual := length_of_mem_records hlen
  have hsize := length_records fs'.length (fillBytes fs')
  rw [hcount]
  -- another file of whole records holds other records
  have hdiffer : ∀ {other : List UInt8} {n : Nat}, other.length = n * recordSize →
      other ≠ fillBytes fs' → records fs'.length (fillBytes fs') ≠ records n other := by
    intro other n hother hne heq
    apply hne
    rw [← flatten_records hother, ← heq, flatten_records hlen]
  refine ⟨?_, ?_, ?_⟩
  · rw [cmd_replay_eq (hany mem') padding hlen, compare_self, hsize]
  · intro file hfile
    -- A file of whole records is compared; any other is refused when it is read.
    by_cases hwhole : ∃ other n, file = some other ∧ other.length = n * recordSize
    · obtain ⟨other, n, rfl, hother⟩ := hwhole
      have hne : other ≠ fillBytes fs' := fun heq => hfile (congrArg some heq)
      refine ⟨_, cmd_replay_eq (hany mem') padding hother, ?_⟩
      rw [compare_ne hactual (length_of_mem_records hother) (hdiffer hother hne)]
      rfl
    · obtain ⟨msg, hmsg⟩ := read_records_error "could not open companion .fills file for reading"
        "fills file size is not a multiple of record size" "short read on fills file"
        file fun other n hsome hother => hwhole ⟨other, n, hsome, hother⟩
      refine ⟨.error msg, ?_, rfl⟩
      unfold cmd_replay read_fills
      rw [read_trace_stream, hmsg]
  · intro other hother hne
    rw [hlen] at hother
    have hne' := hdiffer hother hne
    have hsame : (records fs'.length (fillBytes fs')).length = (records fs'.length other).length := by
      rw [length_records, length_records]
    obtain ⟨i, hi, hfind, hat, hbefore⟩ := find_divergence hsame hne'
    rw [hsize] at hi
    refine ⟨i, ?_, ?_, ?_⟩
    · rw [cmd_replay_eq (hany mem') padding hother,
        compare_ne hactual (length_of_mem_records hother) hne', if_pos hsame, hfind, length_records,
        length_records]
    · rw [getD_records hi, getD_records hi] at hat
      exact hat.symm
    · intro j hj
      have hsamej := hbefore j hj
      rw [getD_records (Nat.lt_trans hj hi), getD_records (Nat.lt_trans hj hi)] at hsamej
      exact hsamej.symm

/-- A sell and a buy that takes part of it. -/
theorem recorded_sell_and_buy :
    ∃ trace fills,
      write_files zeroed (fun _ => 7) [⟨0, 1, 0, 1, 100, 5, 0⟩, ⟨0, 0, 0, 2, 100, 3, 0⟩] =
        some (trace, fills) ∧
      cmd_replay zeroed (some trace) (some fills) =
        some (.PASS 2 (fills.length / recordSize)) := by
  have hwritten : (write_files zeroed (fun _ => 7)
      [⟨0, 1, 0, 1, 100, 5, 0⟩, ⟨0, 0, 0, 2, 100, 3, 0⟩]).isSome = true := by decide +kernel
  obtain ⟨⟨trace, fills⟩, h⟩ := Option.isSome_iff_exists.mp hwritten
  exact ⟨trace, fills, h, (recorded_replays zeroed zeroed _ _ trace fills h).1⟩

/-! ## Section 5: The stream of the generator -/

/-- The orders added by a sequence of calls. -/
def addedOrders (ops : List Op) : List Order :=
  ops.filterMap fun
    | .add o => some o
    | _ => none

theorem addedOrders_cons (op : Op) (ops : List Op) :
    addedOrders (op :: ops) = addedOrders [op] ++ addedOrders ops := by
  cases op <;> rfl

theorem addedOrders_add (o : Order) : addedOrders [.add o] = [o] := rfl

/-- Calls that add listed orders under new ids are admissible. -/
theorem meets_admissible (ops : List Op) :
    ∀ {b : OrderBook} {a : LevelBook}, Rep b a → WF a →
      (∀ o ∈ addedOrders ops, o.qty = o.qty_remaining ∧ o.type.Listed ∧ Absent a o.id) →
      ((addedOrders ops).map Order.id).Nodup → b.Meets Admissible ops := by
  -- Induction on the calls: an id stays absent until the call that adds it.
  induction ops with
  | nil => exact fun _ _ _ _ => trivial
  | cons op ops ih =>
    intro b a hrep hw hnew hnodup
    rw [addedOrders_cons] at hnew hnodup
    rw [List.map_append, List.nodup_append] at hnodup
    obtain ⟨_, hnodup', hdisjoint⟩ := hnodup
    obtain ⟨r, b', a', takes, happly, hstep, hrep', hw', _⟩ := hrep.apply hw op
    refine ⟨?_, ?_⟩
    · cases op with
      | add o =>
        obtain ⟨hqty, hlisted, habsent⟩ := hnew o (by simp [addedOrders_add])
        exact ⟨hqty, hlisted, (hrep.absent_iff hw o.id).mp habsent⟩
      | cancel id => trivial
      | modify id new_qty => trivial
    · rw [happly]
      refine ih hrep' hw' ?_ hnodup'
      intro o ho
      obtain ⟨hqty, hlisted, habsent⟩ := hnew o (List.mem_append_right _ ho)
      refine ⟨hqty, hlisted, (hstep.absent hw habsent ?_).1⟩
      intro o' hop _
      subst hop
      exact hdisjoint o'.id (by simp [addedOrders_add]) o.id (List.mem_map_of_mem ho)

variable (rng : Nat → UInt64)

/-- The generator draws types and prices as the differential test does. -/
theorem drawnType_listed (t : UInt64) : OrderType.Listed ⟨drawnType t⟩ := by
  have hsame : (⟨drawnType t⟩ : OrderType) = DifferentialTest.drawnType t := by
    unfold drawnType DifferentialTest.drawnType
    split_ifs <;> rfl
  rw [hsame]
  exact DifferentialTest.drawnType_listed t

/-- What every order of the generator is like. -/
def Drawn (o : Order) : Prop := o.qty = o.qty_remaining ∧ o.type.Listed ∧ OnGrid o.price

theorem drawnPrice_onGrid (n : UInt64) :
    OnGrid (Int64.ofInt (midPrice + (((n % 41).toNat : Int) - 20) * 10000)).toInt := by
  have hn : (n % 41).toNat < 41 := by
    rw [UInt64.toNat_mod]
    exact Nat.mod_lt _ (by decide)
  rw [Int64.toInt_ofInt_of_le (by unfold midPrice; omega) (by unfold midPrice; omega)]
  exact gridPrice_onGrid n

/-- A pass adds an order under the next id, or it adds none. -/
theorem next_event_cases (g : Recorder) :
    (∃ o, (next_event rng g).1.call = .add o ∧ o.id = g.next_id ∧ Drawn o ∧
        (next_event rng g).2.next_id = g.next_id + 1) ∨
      addedOrders [(next_event rng g).1.call] = [] ∧
        (next_event rng g).2.next_id = g.next_id := by
  unfold next_event
  by_cases hadd : rng g.draws % 100 < 70 ∨ g.live = []
  · left
    simp only [hadd]
    exact ⟨_, if_pos rfl, rfl, ⟨rfl, drawnType_listed _, drawnPrice_onGrid _⟩, rfl⟩
  · right
    simp only [hadd]
    by_cases hcancel : rng g.draws % 100 < 90
    · simp only [hcancel]
      exact ⟨rfl, rfl⟩
    · simp only [hcancel]
      exact ⟨rfl, rfl⟩

/-- The added orders are drawn, and carry the ids from `next_id` on. -/
theorem events_orders (n : Nat) :
    ∀ g : Recorder, g.next_id.toNat + n ≤ UInt64.size →
      (∀ o ∈ addedOrders ((events rng n g).map TraceEvent.call),
        Drawn o ∧ g.next_id.toNat ≤ o.id.toNat) ∧
      ((addedOrders ((events rng n g).map TraceEvent.call)).map Order.id).Nodup := by
  induction n with
  | zero => exact fun _ _ => ⟨fun _ ho => absurd ho List.not_mem_nil, .nil⟩
  | succ n ih =>
    intro g hfew
    rw [events, List.map_cons, addedOrders_cons]
    rcases next_event_cases rng g with ⟨o, hcall, hid, hdrawn, hnext⟩ | ⟨hcall, hnext⟩
    · -- the next id does not wrap while there are events to come
      cases n with
      | zero =>
        rw [hcall, addedOrders_add, events]
        refine ⟨?_, by simp [addedOrders]⟩
        intro o' ho'
        obtain rfl : o' = o := by simpa [addedOrders] using ho'
        exact ⟨hdrawn, Nat.le_of_eq (by rw [hid])⟩
      | succ n =>
        have hsize : UInt64.size = 2 ^ 64 := rfl
        have hsucc : (g.next_id + 1).toNat = g.next_id.toNat + 1 := by
          rw [UInt64.toNat_add]
          show (g.next_id.toNat + 1) % 2 ^ 64 = _
          omega
        obtain ⟨hrest, hnodup⟩ := ih (next_event rng g).2 (by rw [hnext, hsucc]; omega)
        rw [hnext, hsucc] at hrest
        rw [hcall, addedOrders_add]
        refine ⟨?_, ?_⟩
        · intro o' ho'
          rcases List.mem_cons.mp ho' with rfl | ho'
          · exact ⟨hdrawn, Nat.le_of_eq (by rw [hid])⟩
          · obtain ⟨hdrawn', hle⟩ := hrest o' ho'
            exact ⟨hdrawn', by omega⟩
        · refine List.nodup_cons.mpr ⟨?_, hnodup⟩
          intro hmem
          obtain ⟨o', ho', heq⟩ := List.mem_map.mp hmem
          have hle := (hrest o' ho').2
          rw [heq, hid] at hle
          omega
    · obtain ⟨hrest, hnodup⟩ := ih (next_event rng g).2 (by rw [hnext]; omega)
      rw [hnext] at hrest
      rw [hcall]
      exact ⟨hrest, hnodup⟩

/-! ## Section 6: The reference model -/

/-- A call of the reference model of the test: its fills and the book after. -/
def refCall (r : RefBook) : Op → List Fill × RefBook
  | .add o => (r.add o kMaxOrders RefBook.unlimited).2
  | .cancel id => ([], (r.cancel id).2)
  | .modify id nq => ([], (r.modify id nq).2)

def refFills (r : RefBook) : List Op → List Fill
  | [] => []
  | op :: ops =>
    let (fills, r') := refCall r op
    fills ++ refFills r' ops

/-- A fill of the reference model as a record. -/
def traceFill (f : Fill) : TraceFill := ⟨f.aggr, f.passive, .ofInt f.px, f.qty⟩

/-- The reference model makes the fills of a step that stays on the grid. -/
theorem refCall_step {a a' : LevelBook} {r : RefBook} {op : Op} {out : Outcome} {takes : List Take}
    (h : RefSim a r) (hw : WF a) (he : Exact a) (hok : RefOk op) (hstep : Step a op out takes a')
    (hw' : WF a') (hpriced : Priced OnGrid a') :
    ∃ r', refCall r op = (fillsOf op takes, r') ∧ RefSim a' r' := by
  cases op with
  | add o =>
    -- forty-one prices: the order book never runs out of levels
    have hlevels : (a'.levels o.side).length < kMaxLevels :=
      Nat.lt_of_le_of_lt (length_levels_le hw' hpriced o.side) (by decide)
    obtain ⟨res, r', hadd, hsim, _⟩ := h.added hw hok.1 hok.2 hstep hlevels
    exact ⟨r', congrArg Prod.snd hadd, hsim⟩
  | cancel id =>
    obtain ⟨r', hcancel, hsim⟩ := h.cancel_step hw he hstep
    exact ⟨r', congrArg (fun x => ([], Prod.snd x)) hcancel, hsim⟩
  | modify id nq =>
    obtain ⟨r', hmodify, hsim⟩ := h.modify_step hw he hstep
    exact ⟨r', congrArg (fun x => ([], Prod.snd x)) hmodify, hsim⟩

/-- The fills of a run of the order book are those of the reference model. -/
theorem run_fills (ops : List Op) :
    ∀ {b b' : OrderBook} {a : LevelBook} {r : RefBook} {rs : List Response},
      Rep b a → WF a → Exact a → Priced OnGrid a → RefSim a r → b.Meets Admissible ops →
      (∀ o ∈ addedOrders ops, OnGrid o.price) → b.run ops = some (rs, b') →
      (rs.flatMap Response.reports).map ExecutionReport.toFill = refFills r ops := by
  -- Induction on the calls: both books go on showing one book of levels.
  induction ops with
  | nil =>
    intro b b' a r rs _ _ _ _ _ _ _ hrun
    obtain ⟨rfl, rfl⟩ : [] = rs ∧ b = b' := by simpa [OrderBook.run] using hrun
    rfl
  | cons op ops ih =>
    intro b b' a r rs hrep hw he hpriced hsim hmeets hgrid hrun
    obtain ⟨hadm, hrest⟩ := hmeets
    rw [addedOrders_cons] at hgrid
    obtain ⟨resp, b₁, a₁, takes, happly, hstep, hrep₁, hw₁, hevs, _⟩ := hrep.apply hw op
    rw [happly] at hrest
    have he₁ := hstep.exact hw he (hrep.newId hw hadm.freshAdd)
    have hpriced₁ : Priced OnGrid a₁ := by
      refine hstep.priced hw hpriced ?_
      intro o hop _
      subst hop
      exact hgrid o (by simp [addedOrders_add])
    obtain ⟨r₁, hcall, hsim₁⟩ := refCall_step hsim hw he hadm.refOk hstep hw₁ hpriced₁
    rw [OrderBook.run, happly, Option.bind_some] at hrun
    obtain ⟨⟨rs', b₂⟩, hrun', heq⟩ := Option.map_eq_some_iff.mp hrun
    obtain ⟨rfl, rfl⟩ : resp :: rs' = rs ∧ b₂ = b' := by simpa using heq
    have htail := ih hrep₁ hw₁ he₁ hpriced₁ hsim₁ hrest
      (fun o ho => hgrid o (List.mem_append_right _ ho)) hrun'
    rw [List.flatMap_cons, List.map_append, htail, refFills, hcall]
    exact congrArg (· ++ refFills r₁ ops) (fills_eq hevs)

/-- Every report is one of a fill, so the callback records each of them. -/
theorem filterMap_on_match {rs : List Response} {calls : List Call}
    (h : List.Forall₂ (ResponseOf sym) rs calls) :
    (rs.flatMap Response.reports).filterMap on_match =
      ((rs.flatMap Response.reports).map ExecutionReport.toFill).map traceFill := by
  rw [List.map_map, ← List.filterMap_eq_map]
  apply List.filterMap_congr
  intro rpt hrpt
  obtain ⟨r, hr, hrpt⟩ := List.mem_flatMap.mp hrpt
  obtain ⟨c, _, hof⟩ := forall₂_mem_left h r hr
  obtain ⟨o, t, _, _, rfl⟩ := hof.events.report hrpt
  apply if_pos
  by_cases hleaves : t.leaves = 0
  · exact Or.inl (if_pos hleaves)
  · exact Or.inr (if_neg hleaves)

/-- What is recorded, for any numbers of the generator, are the fills of the
    reference model: `record` finds them, and where it writes its two files they
    hold the stream and these fills. -/
theorem recorded_fills_reference (rng : Nat → UInt64) (num_events : UInt64) (mem : OrderBook)
    (padding : Nat → UInt32) :
    let stream := generate rng num_events
    let fills := (refFills .empty (stream.map TraceEvent.call)).map traceFill
    run mem stream = some fills ∧
      ∀ files ∈ cmd_record rng num_events mem padding,
        files = (streamBytes padding stream, fillBytes fills) := by
  intro stream fills
  have hfew : (1 : UInt64).toNat + num_events.toNat ≤ UInt64.size := by
    have := num_events.toNat_lt
    show 1 + num_events.toNat ≤ 2 ^ 64
    omega
  obtain ⟨horders, hnodup⟩ := events_orders rng num_events.toNat ⟨0, [], 1⟩ hfew
  have hmeets : (fresh mem sym).Meets Admissible (stream.map TraceEvent.call) := by
    apply meets_admissible _ (rep_fresh mem sym) wf_empty _ hnodup
    intro o ho
    obtain ⟨⟨hqty, hlisted, _⟩, _⟩ := horders o ho
    exact ⟨hqty, hlisted, fun _ e he => absurd he List.not_mem_nil⟩
  obtain ⟨rs, b, calls, a, hrun, _, _, hall, _⟩ :=
    run_refines mem sym (stream.map TraceEvent.call)
  have hfills := run_fills _ (rep_fresh mem sym) wf_empty exact_empty
    (fun _ _ hl => absurd hl List.not_mem_nil) refSim_empty hmeets
    (fun o ho => (horders o ho).1.2.2) hrun
  have hrecorded : run mem stream = some fills := by
    rw [run, hrun, Option.map_some]
    refine congrArg some ((filterMap_on_match hall).trans ?_)
    rw [hfills]
  refine ⟨hrecorded, ?_⟩
  rintro ⟨tf, ff⟩ hfiles
  obtain ⟨fs, hrun', htf, hff⟩ := write_files_eq hfiles
  obtain rfl : fills = fs := Option.some.inj (hrecorded.symm.trans hrun')
  rw [htf, hff]

/-- A sell and a buy are drawn; the files are written, and hold their fill. -/
theorem recorded_fill_of_two :
    let rng : Nat → UInt64 := fun n => if n = 8 then 1 else if n = 12 then 50 else 0
    ∃ files, cmd_record rng 2 zeroed (fun _ => 7) = some files ∧
      files.2 = fillBytes [⟨2, 1, 99800000, 1⟩] := by
  intro rng
  have hwritten : (cmd_record rng 2 zeroed fun _ => 7).isSome = true := by decide +kernel
  obtain ⟨files, h⟩ := Option.isSome_iff_exists.mp hwritten
  obtain ⟨_, hfiles⟩ := recorded_fills_reference rng 2 zeroed fun _ => 7
  have hfills : (refFills .empty ((generate rng 2).map TraceEvent.call)).map traceFill =
      [⟨2, 1, 99800000, 1⟩] := by decide +kernel
  refine ⟨files, h, ?_⟩
  rw [hfiles files h, hfills]

end OptionsEngine.ReplayTrace
