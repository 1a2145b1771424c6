import OptionsEngine.MatchingEngine.Pipeline
import OptionsEngine.RefBook.Equivalence

/-! # The engine and its threads refine a plain one

    `RefEngine` is what the matching engine is for: one reference book per
    symbol, and messages one after the other, without threads, queues, slots or
    tables.  Like the engine's, its books have room for `kMaxLevels` prices a
    side, which those of the differential test do not limit.

    * `EngineSim`: the relation between the books of the two.
    * `EngineSim.process`: one message keeps it, and has the same fills.
    * `refines_reference`: at every moment of every interleaving the books are
      those of the plain engine, but for one in the middle of a fill, and the
      consumer has received its fills, in their order, less those that a full
      queue dropped. -/

namespace OptionsEngine

open Function Loop MatchingEngine OrderBook

/-! ## Section 1: The plain engine -/

structure RefEngine where
  books : SymbolId → Option RefBook
  /-- The next synthetic order id. -/
  next_order_id : UInt64

/-- A report, by its symbol and as the reference model records it. -/
def ExecutionReport.tagged (x : ExecutionReport) : SymbolId × Fill := (x.symbol, x.toFill)

namespace RefEngine

/-- An engine with so many symbols and nothing in their books. -/
def registered (ids : List SymbolId) : RefEngine :=
  ⟨fun id => if id ∈ ids ∧ id.toNat < kMaxSymbols then some .empty else none, 1⟩

/-- The book that a message is for and what it asks of it. -/
def call (r : RefEngine) (msg : MarketDataMsg) : Option (RefBook × Op) :=
  match r.books msg.symbol, op_of r.next_order_id msg with
  | some book, some op => some (book, op)
  | _, _ => none

def process (r : RefEngine) (msg : MarketDataMsg) : List (SymbolId × Fill) × RefEngine :=
  match r.call msg with
  | none => ([], r)
  | some (book, op) =>
    let (_, fills, book') := book.apply op
    (fills.map fun x => (msg.symbol, x),
      ⟨update r.books msg.symbol (some book'), next_of r.next_order_id msg⟩)

def process_all : RefEngine → List MarketDataMsg → List (SymbolId × Fill) × RefEngine
  | r, [] => ([], r)
  | r, msg :: msgs =>
    ((r.process msg).1 ++ ((r.process msg).2.process_all msgs).1,
      ((r.process msg).2.process_all msgs).2)

/-- A new order is of a documented type, under an id that no order in the book
    has. -/
def New (book : RefBook) : Op → Prop
  | .add o => o.type.Listed ∧ ∀ s, RefBook.find_order o.id (book.side s) = none
  | _ => True

def Admits (r : RefEngine) (msg : MarketDataMsg) : Prop :=
  match r.call msg with
  | none => True
  | some (book, op) => New book op

/-- Every message is one that the engine admits when its turn comes. -/
def AdmitsAll : RefEngine → List MarketDataMsg → Prop
  | _, [] => True
  | r, msg :: msgs => r.Admits msg ∧ (r.process msg).2.AdmitsAll msgs

end RefEngine

/-! ## Section 2: The relation -/

/-- An order book and a reference book of one symbol. -/
structure BookSim (id : SymbolId) (book : OrderBook) (r : RefBook) : Prop where
  levels : ∃ a, Rep book a ∧ WF a ∧ Exact a ∧ RefSim a r
  symbol : book.symbol = id

structure EngineSim (e : MatchingEngine) (r : RefEngine) : Prop where
  next : e.next_order_id = r.next_order_id
  bounded : ∀ id, (r.books id).isSome → id.toNat < kMaxSymbols
  books : ∀ id, Option.Rel (BookSim id) (e.books id) (r.books id)

theorem bookSim_fresh (mem : OrderBook) (id : SymbolId) :
    BookSim id (OrderBook.fresh mem id) .empty :=
  ⟨⟨.empty, rep_fresh mem id, wf_empty, exact_empty, refSim_empty⟩, rfl⟩

variable {e : MatchingEngine} {r : RefEngine} {msg : MarketDataMsg}

/-- What a reference book does not find does not rest in the book. -/
theorem RefSim.absent {a : LevelBook} {rb : RefBook} {id : OrderId} (h : RefSim a rb) (hw : WF a)
    (he : Exact a) (hnone : ∀ s, RefBook.find_order id (rb.side s) = none) : Absent a id := by
  intro s e hmem heq
  -- An entry that rests would be found by the scan of the plain book.
  obtain ⟨L, px, q₁, q₂, R, hls⟩ := split_entry hmem
  obtain ⟨hsome, _⟩ := he.find_order hw hls
  rw [← h.sides s, heq, hnone s] at hsome
  cases hsome

theorem RefSim.newId {a : LevelBook} {rb : RefBook} {op : Op} (h : RefSim a rb) (hw : WF a)
    (he : Exact a) (hnew : RefEngine.New rb op) : NewId a op := by
  intro o hop _
  subst hop
  exact h.absent hw he hnew.2

theorem RefEngine.New.refOk {rb : RefBook} {next : UInt64} {op : Op} (hnew : RefEngine.New rb op)
    (hop : op_of next msg = some op) : RefOk op := by
  cases op with
  | add o =>
    refine ⟨?_, hnew.1⟩
    -- Only a new order makes an `add`, and its quantity is all still open.
    unfold op_of at hop
    split at hop
    · cases hop
      rfl
    · split at hop
      · cases hop
      · split at hop <;> cases hop
  | cancel id => trivial
  | modify id n => trivial

/-- The reports of a call carry the symbol of its book. -/
theorem map_tagged_eq {id : SymbolId} {op : Op} {evs : List MatchEvent} {takes : List Take}
    (h : EventsOf id op evs takes) :
    (evs.map MatchEvent.report).map ExecutionReport.tagged =
      (fillsOf op takes).map fun x => (id, x) := by
  have hsymbol : ∀ rpt ∈ evs.map MatchEvent.report, rpt.tagged = (id, rpt.toFill) := by
    intro rpt hrpt
    obtain ⟨o, t, _, _, rfl⟩ := h.report hrpt
    rfl
  rw [List.map_congr_left hsymbol, ← fills_eq h, List.map_map (g := fun x => (id, x))]
  rfl

/-- One call, made on both books. -/
theorem BookSim.apply {id : SymbolId} {book : OrderBook} {rb : RefBook} {op : Op}
    (h : BookSim id book rb) (hok : RefOk op) (hnew : RefEngine.New rb op) :
    ∃ resp, book.apply op = some resp ∧
      resp.1.reports.map ExecutionReport.tagged = (rb.apply op).2.1.map (fun x => (id, x)) ∧
      BookSim id resp.2 (rb.apply op).2.2 := by
  obtain ⟨⟨a, hrep, hw, he, hsim⟩, rfl⟩ := h
  obtain ⟨resp, book', a', takes, happly, hstep, hrep', hw', hevs, hsym⟩ := hrep.apply hw op
  obtain ⟨rb', hr, hsim'⟩ := hsim.step hw he hok hstep
  -- The id is new, so every entry stays the one its id is indexed to.
  have he' := hstep.exact hw he (hsim.newId hw he hnew)
  rw [hr]
  exact ⟨(resp, book'), happly, map_tagged_eq hevs, ⟨a', hrep', hw', he', hsim'⟩, hsym⟩

/-! ## Section 3: Messages -/

theorem EngineSim.update (h : EngineSim e r) {symbol : SymbolId} {book : OrderBook} {rb : RefBook}
    {e' : MatchingEngine} {next : UInt64} (hknown : symbol.toNat < kMaxSymbols)
    (hbook : BookSim symbol book rb) (hnext : e'.next_order_id = next)
    (hbooks : e'.books = update e.books symbol (some book)) :
    EngineSim e' ⟨update r.books symbol (some rb), next⟩ := by
  refine ⟨hnext, ?_, ?_⟩
  · intro id hid
    change (Function.update r.books symbol (some rb) id).isSome = true at hid
    by_cases hs : id = symbol
    · rw [hs]
      exact hknown
    · rw [update_of_ne hs] at hid
      exact h.bounded id hid
  · intro id
    show Option.Rel (BookSim id) (e'.books id) (Function.update r.books symbol (some rb) id)
    rw [hbooks]
    by_cases hs : id = symbol
    · subst hs
      rw [update_self, update_self]
      exact .some hbook
    · rw [update_of_ne hs, update_of_ne hs]
      exact h.books id

/-- A message that makes no call of the plain engine changes nothing. -/
theorem EngineSim.process_none (h : EngineSim e r) (hcall : r.call msg = none) :
    ∃ known, e.process_message msg = some ⟨known, [], e⟩ := by
  have hbook := h.books msg.symbol
  rw [RefEngine.call] at hcall
  unfold MatchingEngine.process_message
  split
  · exact ⟨false, rfl⟩
  -- No book on either side, or a message whose type the engine ignores.
  · cases hrb : r.books msg.symbol with
    | none =>
      rw [hrb] at hbook
      cases hb : e.books msg.symbol with
      | none => exact ⟨false, rfl⟩
      | some book =>
        rw [hb] at hbook
        cases hbook
    | some rb =>
      rw [hrb] at hbook hcall
      cases hop : op_of r.next_order_id msg with
      | none =>
        cases hb : e.books msg.symbol with
        | none => exact ⟨false, rfl⟩
        | some book =>
          refine ⟨true, ?_⟩
          simp only [dispatch_eq, h.next, hop]
      | some op =>
        rw [hop] at hcall
        cases hcall

/-- One message, processed by both engines. -/
theorem EngineSim.process (h : EngineSim e r) (hadmits : r.Admits msg) :
    ∃ p, e.process_message msg = some p ∧
      p.reports.map ExecutionReport.tagged = (r.process msg).1 ∧
      EngineSim p.engine (r.process msg).2 := by
  rw [RefEngine.Admits] at hadmits
  rw [RefEngine.process]
  cases hcall : r.call msg with
  | none =>
    obtain ⟨known, hp⟩ := h.process_none hcall
    exact ⟨_, hp, rfl, h⟩
  | some call =>
    obtain ⟨rb, op⟩ := call
    rw [hcall] at hadmits
    obtain ⟨hrb, hop⟩ : r.books msg.symbol = some rb ∧ op_of r.next_order_id msg = some op := by
      unfold RefEngine.call at hcall
      split at hcall
      · next hrb hop =>
        cases hcall
        exact ⟨hrb, hop⟩
      · cases hcall
    -- The plain engine has a book only for ids that pass the bounds check.
    have hknown := h.bounded msg.symbol (by rw [hrb]; rfl)
    have hbook := h.books msg.symbol
    rw [hrb] at hbook
    cases hb : e.books msg.symbol with
    | none =>
      rw [hb] at hbook
      cases hbook
    | some book =>
      rw [hb] at hbook
      cases hbook with
      | some hsim =>
        obtain ⟨resp, happly, hfills, hsim'⟩ := hsim.apply (hadmits.refOk hop) hadmits
        rw [← h.next] at hop
        refine ⟨_, process_message_eq hknown hb hop happly, hfills, ?_⟩
        apply h.update hknown hsim'
        · rw [finish_next, h.next]
        · rw [finish_books]

/-- Messages one after the other, processed by both engines. -/
theorem EngineSim.process_all (msgs : List MarketDataMsg) :
    ∀ {e : MatchingEngine} {r : RefEngine}, EngineSim e r → r.AdmitsAll msgs →
      ∃ reports e', e.process_all msgs = some (reports, e') ∧
        reports.map ExecutionReport.tagged = (r.process_all msgs).1 ∧
        EngineSim e' (r.process_all msgs).2 := by
  induction msgs with
  | nil =>
    intro e r h _
    exact ⟨[], e, rfl, rfl, h⟩
  | cons msg msgs ih =>
    intro e r h hadmits
    obtain ⟨p, hp, hfills, hsim⟩ := h.process hadmits.1
    obtain ⟨reports, e', hrun, hfills', hsim'⟩ := ih hsim hadmits.2
    refine ⟨p.reports ++ reports, e', ?_, ?_, hsim'⟩
    · have hstep : e.process msg = some (p.reports, p.engine) := by
        rw [MatchingEngine.process, hp, Option.map_some]
      rw [MatchingEngine.process_all, Keyed.run, hstep, Option.bind_some]
      have hrest : Keyed.run MatchingEngine.process p.engine msgs = some (reports, e') := hrun
      rw [hrest, Option.map_some]
    · rw [List.map_append, hfills, hfills']
      rfl

theorem registered_append_same {ids : List SymbolId} {id : SymbolId}
    (h : id.toNat < kMaxSymbols → id ∈ ids) :
    RefEngine.registered (ids ++ [id]) = RefEngine.registered ids := by
  have hiff : ∀ x : SymbolId, (x ∈ ids ++ [id] ∧ x.toNat < kMaxSymbols) ↔
      (x ∈ ids ∧ x.toNat < kMaxSymbols) := by
    intro x
    rw [List.mem_append, List.mem_singleton]
    constructor
    · intro ⟨hx, hlt⟩
      rcases hx with hx | rfl
      · exact ⟨hx, hlt⟩
      · exact ⟨h hlt, hlt⟩
    · intro ⟨hx, hlt⟩
      exact ⟨.inl hx, hlt⟩
  simp only [RefEngine.registered, hiff]

theorem registered_append_new {ids : List SymbolId} {id : SymbolId}
    (hlt : id.toNat < kMaxSymbols) :
    RefEngine.registered (ids ++ [id]) =
      ⟨Function.update (RefEngine.registered ids).books id (some .empty), 1⟩ := by
  have hbooks : (RefEngine.registered (ids ++ [id])).books =
      Function.update (RefEngine.registered ids).books id (some .empty) := by
    funext x
    by_cases hx : x = id
    · subst hx
      rw [update_self]
      exact if_pos ⟨List.mem_append_right _ (List.mem_singleton_self x), hlt⟩
    · rw [update_of_ne hx]
      simp [RefEngine.registered, hx]
  exact congrArg (fun books => RefEngine.mk books 1) hbooks

/-- The engine after its registrations. -/
theorem engineSim_registered (mem : MatchingEngine) (books : SymbolId → OrderBook)
    (ids : List SymbolId) :
    EngineSim (register_symbols mem books ids) (RefEngine.registered ids) := by
  induction ids using List.reverseRecOn with
  | nil =>
    refine ⟨rfl, ?_, ?_⟩
    · intro id hid
      simp [RefEngine.registered] at hid
    · intro id
      exact .none
  | append_singleton ids id ih =>
    have hstep : register_symbols mem books (ids ++ [id]) =
        ((register_symbols mem books ids).register_symbol (books id) id).1 := by
      rw [register_symbols, List.foldl_append]
      rfl
    rw [hstep, MatchingEngine.register_symbol]
    have hbook := ih.books id
    split
    -- Out of range: both engines refuse the id.
    · next hge =>
      rw [registered_append_same fun hlt => absurd hge (Nat.not_le.mpr hlt)]
      exact ih
    · next hlt =>
      split
      · next hsome =>
        -- the symbol was registered before
        have hmem : id ∈ ids := by
          by_contra hnot
          have hnone : (RefEngine.registered ids).books id = none := if_neg fun hc => hnot hc.1
          rw [hnone] at hbook
          cases hb : (register_symbols mem books ids).books id with
          | none => rw [hb] at hsome; cases hsome
          | some book => rw [hb] at hbook; cases hbook
        rw [registered_append_same fun _ => hmem]
        exact ih
      · rw [registered_append_new (Nat.not_le.mp hlt)]
        exact ih.update (Nat.not_le.mp hlt) (bookSim_fresh (books id) id) ih.next rfl

/-- What two books of one symbol show. -/
theorem BookSim.levelsOf_eq {id : SymbolId} {book : OrderBook} {rb : RefBook}
    (h : BookSim id book rb) : book.levelsOf = rb.side := by
  obtain ⟨a, hrep, hw, _, hsim⟩ := h.levels
  funext s
  rw [hrep.levelsOf_eq hw, hsim.sides]

theorem map_levelsOf_eq {id : SymbolId} {x : Option OrderBook} {y : Option RefBook}
    (h : Option.Rel (BookSim id) x y) : x.map levelsOf = y.map RefBook.side := by
  cases h with
  | none => rfl
  | some h => exact congrArg some h.levelsOf_eq

/-! ## Section 4: Every interleaving -/

namespace Pipeline

open Worker (Layout oneWord)

variable {α β : Type} {W V : Nat}

/-- Whatever the interleaving, if the messages taken up so far are ones that the
    plain engine admits: the reports passed on and those still pending are its
    fills, every book of which no report is pending shows the levels and queues
    of its book, and the consumer has received its fills in their order, without
    a gap if the outbound queue was never full. -/
theorem refines_reference (Lin : Layout MarketDataMsg α W) (Lout : Layout ExecutionReport β V)
    (inmem : Nat → Ring.Item α W) (outmem : Nat → Ring.Item β V) (msg : Ring.Item α W)
    (mem : MatchingEngine) (books : SymbolId → OrderBook) (ids : List SymbolId)
    (schedule : List (Turn β V))
    (hadmits : (RefEngine.registered ids).AdmitsAll
      (pipeline Lin Lout inmem outmem msg mem books ids schedule).processed) :
    let c := pipeline Lin Lout inmem outmem msg mem books ids schedule
    let plain := (RefEngine.registered ids).process_all c.processed
    (c.emitted ++ c.pending.map MatchEvent.report).map ExecutionReport.tagged = plain.1 ∧
    (∀ id, (∀ ev ∈ c.pending, ev.report.symbol ≠ id) →
      (c.engine.books id).map levelsOf = (plain.2.books id).map RefBook.side) ∧
    ((c.received Lout).map ExecutionReport.tagged).Sublist plain.1 ∧
    ((∀ moment, moment <+: schedule →
        ¬ (pipeline Lin Lout inmem outmem msg mem books ids moment).Full Lout) →
      (c.received Lout).map ExecutionReport.tagged <+: plain.1) := by
  intro c plain
  obtain ⟨items, held, h⟩ := consistent_pipeline Lin Lout inmem outmem msg mem books ids schedule
  obtain ⟨e, hrun, halike⟩ := h.books
  obtain ⟨reports, e', hrun', hfills, hsim⟩ :=
    (engineSim_registered mem books ids).process_all c.processed hadmits
  -- Both runs are of the same messages from the same engine.
  obtain ⟨rfl, rfl⟩ : c.emitted ++ c.pending.map MatchEvent.report = reports ∧ e = e' := by
    have heq := Option.some.inj (hrun.symm.trans hrun')
    exact Prod.mk.inj heq
  have hreceived : c.received Lout <+: c.queued Lout := by
    rw [h.queued_eq]
    exact List.prefix_append _ _
  refine ⟨hfills, ?_, ?_, ?_⟩
  · intro id hid
    have hbook : c.engine.books id = c.after id := h.books_eq hid
    rw [hbook, show c.after = e.books from halike.books]
    exact map_levelsOf_eq (hsim.books id)
  · rw [← hfills]
    apply List.Sublist.map
    exact (hreceived.sublist.trans h.queued_sublist).trans (List.sublist_append_left _ _)
  · intro hroom
    rw [← hfills]
    apply List.IsPrefix.map
    rcases kept_or_full Lin Lout inmem outmem msg mem books ids schedule with
      hkept | ⟨moment, hmoment, hfull⟩
    · have hqueued : c.queued Lout = c.emitted := h.queued_sublist.eq_of_length hkept
      rw [hqueued] at hreceived
      exact hreceived.trans (List.prefix_append _ _)
    · exact absurd hfull (hroom moment hmoment)

/-- A sell and a buy are submitted, processed and reported; the consumer has not
    polled yet. -/
theorem refines_sell_and_buy :
    let sell := new_order .Limit 20 0 .Sell 100 100
    let buy := new_order .Limit 21 0 .Buy 100 100
    let schedule : List (Turn ExecutionReport 1) :=
      List.replicate 4 (.submit sell) ++ List.replicate 4 (.submit buy) ++ List.replicate 18 .loop
    let c := pipeline (oneWord _) (oneWord _) (fun _ => .replicate 1 sell)
      (fun _ => .replicate 1 ⟨0, 0, 0, 0, 0, 0, .Buy, .New⟩) (.replicate 1 sell) zeroed
      (fun _ => OrderBook.zeroed) [0] schedule
    c.processed = [sell, buy] ∧
      (c.emitted ++ c.pending.map MatchEvent.report).map ExecutionReport.tagged =
        [(0, ⟨21, 20, 100, 100⟩)] := by
  intro sell buy schedule c
  have hprocessed : c.processed = [sell, buy] := by decide +kernel
  have hadmits : (RefEngine.registered [0]).AdmitsAll c.processed := by
    rw [hprocessed]
    refine ⟨⟨.inl rfl, ?_⟩, ⟨.inl rfl, ?_⟩, trivial⟩
    · intro s
      cases s <;> rfl
    · intro s
      cases s <;> rfl
  obtain ⟨hfills, _⟩ := refines_reference _ _ _ _ _ _ _ _ schedule hadmits
  refine ⟨hprocessed, hfills.trans ?_⟩
  show ((RefEngine.registered [0]).process_all c.processed).1 = _
  rw [hprocessed]
  decide +kernel

end Pipeline

end OptionsEngine
