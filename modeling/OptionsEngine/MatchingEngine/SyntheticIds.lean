import OptionsEngine.MatchingEngine.Isolation
import OptionsEngine.OrderBook.Undo

/-! # Synthetic ids

    A new order without an id is given the next value of a counter.  The
    counter is shared by all symbols, starts at 1 and does not look at the ids
    that clients choose.

    * `Traced`: the counter is one more than the ids it has given, and what
      rests in a book is there under the id of an earlier message.
    * `synthetic_ids_fresh`: as long as no client chooses an id that the
      counter gives, ids are unique in every book.
    * `synthetic_id_taken`: if one does, two resting orders share an id. -/

namespace OptionsEngine

open OrderBook

namespace MatchingEngine

variable {e e' : MatchingEngine} {msg : MarketDataMsg} {msgs before after : List MarketDataMsg}

/-! ## Section 1: Statement -/

/-- The ids that clients have chosen for their new orders. -/
def chosen (msgs : List MarketDataMsg) : List OrderId :=
  (msgs.filter fun msg => msg.msg_type = .NewOrder ∧ msg.order_id ≠ 0).map MarketDataMsg.order_id

/-- A new order that the counter gives an id to. -/
def NeedsId (e : MatchingEngine) (msg : MarketDataMsg) : Prop :=
  e.Knows msg.symbol ∧ msg.msg_type = .NewOrder ∧ msg.order_id = 0

instance (e : MatchingEngine) (id : SymbolId) : Decidable (e.Knows id) :=
  inferInstanceAs (Decidable (_ ∧ _))

instance (e : MatchingEngine) (msg : MarketDataMsg) : Decidable (e.NeedsId msg) :=
  inferInstanceAs (Decidable (_ ∧ _))

/-- How many ids the counter has given. -/
def given (e : MatchingEngine) (msgs : List MarketDataMsg) : Nat :=
  msgs.countP fun msg => e.NeedsId msg

/-- A new order of this symbol that may rest. -/
structure MayRest (symbol : SymbolId) (msg : MarketDataMsg) : Prop where
  new_order : msg.msg_type = .NewOrder
  symbol : msg.symbol = symbol
  type : ¬ Immediate (order_of msg msg.order_id)

/-- The counter does not come round, and no client has an order rest in a
    symbol under the id that the counter gives to an order of that symbol: the
    `n`-th order without an id is given `n`. -/
structure NoClash (e : MatchingEngine) (msgs : List MarketDataMsg) : Prop where
  few : e.given msgs ≤ UInt64.size
  apart : ∀ before msg after, msgs = before ++ msg :: after → e.NeedsId msg →
    ∀ other ∈ msgs, MayRest msg.symbol other → other.order_id ≠ 0 →
      other.order_id ≠ .ofNat (e.given before + 1)

/-- In the books of `e` ids are unique, and the id that `msg` would be given is
    new to the book it goes to. -/
structure FreshFor (e : MatchingEngine) (msg : MarketDataMsg) : Prop where
  unique : ∀ id book, e.books id = some book → book.UniqueIds
  synthetic : msg.msg_type = .NewOrder → msg.order_id = 0 →
    ∀ book, e.books msg.symbol = some book → ¬ book.Carries e.next_order_id

/-! ## Section 2: Where ids come from -/

/-- The id of a new order that comes after `before`. -/
def idAfter (e : MatchingEngine) (before : List MarketDataMsg) (msg : MarketDataMsg) : OrderId :=
  if msg.order_id ≠ 0 then msg.order_id else .ofNat (e.given before + 1)

/-- The id came with an earlier message, for an order of `symbol` that may
    rest. -/
def CameWith (e : MatchingEngine) (before : List MarketDataMsg) (symbol : SymbolId)
    (id : OrderId) : Prop :=
  ∃ pre msg post, before = pre ++ msg :: post ∧ MayRest symbol msg ∧ e.Knows symbol ∧
    id = e.idAfter pre msg

/-- What is known after the messages `before`, of which `e₀` was the first
    engine. -/
structure Traced (e₀ e : MatchingEngine) (before : List MarketDataMsg) : Prop where
  next : e.next_order_id = .ofNat (e₀.given before + 1)
  knows : ∀ id, e.Knows id ↔ e₀.Knows id
  books : ∀ id book, e.books id = some book → ∃ a, Rep book a ∧ WF a ∧ Exact a ∧
    ∀ s, ∀ x ∈ entriesOf (a.levels s), e₀.CameWith before id x.id

variable {e₀ : MatchingEngine}

theorem given_append (e : MatchingEngine) (before after : List MarketDataMsg) :
    e.given (before ++ after) = e.given before + e.given after :=
  List.countP_append

theorem given_cons_of_needs (h : e.NeedsId msg) (after : List MarketDataMsg) :
    e.given (msg :: after) = e.given after + 1 := by
  unfold given
  rw [List.countP_cons_of_pos (by simpa using h)]

theorem given_of_not_needs (h : ¬ e.NeedsId msg) : e.given [msg] = 0 := by
  simp [given, h]

/-- Two numbers of the counter that are less than a turn apart. -/
theorem ofNat_ne {m n : Nat} (hlt : m < n) (hfew : n < UInt64.size) :
    UInt64.ofNat (m + 1) ≠ .ofNat (n + 1) := by
  intro heq
  have hnat := congrArg UInt64.toNat heq
  simp only [UInt64.toNat_ofNat'] at hnat
  unfold UInt64.size at hfew
  omega

/-- Chosen ids differ, so an id is chosen by one message only. -/
theorem chosen_ne {m : MarketDataMsg} (hdistinct : (chosen (before ++ msg :: after)).Nodup)
    (hm : m ∈ before) (hnew : m.msg_type = .NewOrder) (hid : m.order_id ≠ 0)
    (hnew' : msg.msg_type = .NewOrder) (hid' : msg.order_id ≠ 0) : m.order_id ≠ msg.order_id := by
  unfold chosen at hdistinct
  rw [List.filter_append, List.filter_cons_of_pos (by simp [hnew', hid']), List.map_append,
    List.map_cons] at hdistinct
  have hmem : m.order_id ∈ (before.filter fun msg => msg.msg_type = .NewOrder ∧
      msg.order_id ≠ 0).map MarketDataMsg.order_id :=
    List.mem_map.mpr ⟨m, List.mem_filter.mpr ⟨hm, by simp [hnew, hid]⟩, rfl⟩
  exact (List.nodup_append.mp hdistinct).2.2 _ hmem _ (by simp)

/-- Where ids do not clash, an earlier id is not that of a message that asks
    for one or may rest. -/
theorem CameWith.ne {id : OrderId} (h : e.CameWith before msg.symbol id)
    (hdistinct : (chosen (before ++ msg :: after)).Nodup)
    (hclash : e.NoClash (before ++ msg :: after)) (hnew : msg.msg_type = .NewOrder)
    (hmay : msg.order_id = 0 ∨ ¬ Immediate (order_of msg msg.order_id)) :
    id ≠ e.idAfter before msg := by
  obtain ⟨pre, m, post, rfl, hm, hk, rfl⟩ := h
  have hmem : m ∈ pre ++ m :: post := by simp
  have hneeds : msg.order_id = 0 → e.NeedsId msg := fun h0 => ⟨hk, hnew, h0⟩
  have hneeds' : m.order_id = 0 → e.NeedsId m := fun h0 => ⟨by rw [hm.symbol]; exact hk, hm.new_order, h0⟩
  unfold idAfter
  by_cases hm0 : m.order_id = 0
  · rw [if_neg (not_not.mpr hm0)]
    by_cases h0 : msg.order_id = 0
    · -- both from the counter, which has moved on
      rw [if_neg (not_not.mpr h0)]
      have hfew := hclash.few
      rw [given_append, given_cons_of_needs (hneeds h0)] at hfew
      have hpassed := given_append e pre (m :: post)
      rw [given_cons_of_needs (hneeds' hm0)] at hpassed
      exact ofNat_ne (by omega) (by omega)
    · rw [if_pos h0]
      have hsplit : pre ++ m :: post ++ msg :: after = pre ++ m :: (post ++ msg :: after) := by simp
      have hrest : MayRest m.symbol msg := ⟨hnew, hm.symbol.symm, hmay.resolve_left h0⟩
      exact (hclash.apart pre m _ hsplit (hneeds' hm0) msg (by simp) hrest h0).symm
  · rw [if_pos hm0]
    by_cases h0 : msg.order_id = 0
    · rw [if_neg (not_not.mpr h0)]
      exact hclash.apart _ msg after rfl (hneeds h0) m (by simp) hm hm0
    · rw [if_pos h0]
      exact chosen_ne hdistinct hmem hm.new_order hm0 hnew h0

theorem CameWith.later {id : OrderId} {symbol : SymbolId} (h : e.CameWith before symbol id)
    (msg : MarketDataMsg) : e.CameWith (before ++ [msg]) symbol id := by
  obtain ⟨pre, m, post, rfl, hm, hk, hid⟩ := h
  exact ⟨pre, m, post ++ [msg], by simp, hm, hk, hid⟩

/-! ## Section 3: One message -/

/-- A message makes one call on the book of its symbol, or it leaves the engine
    as it is and asks for no id. -/
theorem Sound.process_cases (h : e.Sound) (msg : MarketDataMsg) :
    ∃ p, e.process_message msg = some p ∧
      (p.engine = e ∧ ¬ e.NeedsId msg ∨
        ∃ book op r, e.Knows msg.symbol ∧ e.books msg.symbol = some book ∧
          op_of e.next_order_id msg = some op ∧ book.apply op = some r ∧
          p.engine.books = Function.update e.books msg.symbol (some r.2) ∧
          p.engine.next_order_id = next_of e.next_order_id msg) := by
  obtain ⟨p, hp, hknown, _, _⟩ := h.process_message msg
  refine ⟨p, hp, ?_⟩
  rcases process_message_cases hp with ⟨_, heq⟩ | ⟨book, op, r, hbook, hop, happly, rfl⟩
  · refine Or.inl ⟨heq, ?_⟩
    -- a message that asks for an id moves the counter
    rintro ⟨⟨hlt, hsome⟩, hnew, h0⟩
    obtain ⟨book, hbook⟩ := Option.isSome_iff_exists.mp hsome
    have hop : op_of e.next_order_id msg = some (.add (order_of msg e.next_order_id)) := by
      simp [op_of, hnew, h0]
    obtain ⟨a, hrep, hw⟩ := h msg.symbol book hbook
    obtain ⟨r, book', _, _, happly, _⟩ := hrep.apply hw (.add (order_of msg e.next_order_id))
    have hp' := process_message_eq hlt hbook hop happly
    obtain rfl : p = _ := Option.some.inj (hp.symm.trans hp')
    have hnext := congrArg next_order_id heq
    rw [finish_next, next_of, if_pos ⟨hnew, h0⟩] at hnext
    simp at hnext
  · refine Or.inr ⟨book, op, r, hknown.mp rfl, hbook, hop, happly, finish_books _ _ _, ?_⟩
    rw [finish_next]

theorem Traced.sound (h : Traced e₀ e before) : e.Sound := by
  intro id book hbook
  obtain ⟨a, hrep, hw, _⟩ := h.books id book hbook
  exact ⟨a, hrep, hw⟩

/-- The id that a new order comes with, or is given. -/
theorem Traced.id_eq (h : Traced e₀ e before) (msg : MarketDataMsg) :
    (if msg.order_id ≠ 0 then msg.order_id else e.next_order_id) = e₀.idAfter before msg := by
  rw [h.next]
  rfl

/-- The order of a message is in the book of its symbol under the id it came
    with. -/
theorem Traced.op_add (h : Traced e₀ e before) {o : Order}
    (hop : op_of e.next_order_id msg = some (.add o)) :
    msg.msg_type = .NewOrder ∧ o.id = e₀.idAfter before msg ∧
      (Immediate o ↔ Immediate (order_of msg msg.order_id)) := by
  unfold op_of at hop
  split at hop
  · next hnew =>
    obtain rfl : order_of msg _ = o := Op.add.inj (Option.some.inj hop)
    exact ⟨hnew, h.id_eq msg, Iff.rfl⟩
  · split at hop
    · cases hop
    · split at hop
      · cases hop
      · cases hop

/-- What rests is not under the id of the next message. -/
theorem Traced.absent {a : LevelBook} (hdistinct : (chosen (before ++ msg :: after)).Nodup)
    (hclash : e₀.NoClash (before ++ msg :: after)) (hnew : msg.msg_type = .NewOrder)
    (hmay : msg.order_id = 0 ∨ ¬ Immediate (order_of msg msg.order_id))
    (hcame : ∀ s, ∀ x ∈ entriesOf (a.levels s), e₀.CameWith before msg.symbol x.id) :
    Absent a (e₀.idAfter before msg) :=
  fun s x hx => (hcame s x hx).ne hdistinct hclash hnew hmay

/-- The id of an entry after a call was there before, or came with the call. -/
theorem Traced.came_step {a a' : LevelBook} {op : Op} {out : Outcome} {takes : List Take}
    (h : Traced e₀ e before) (hknows : e.Knows msg.symbol)
    (hop : op_of e.next_order_id msg = some op) (hstep : Step a op out takes a') (hw : WF a)
    (hcame : ∀ s, ∀ x ∈ entriesOf (a.levels s), e₀.CameWith before msg.symbol x.id) :
    ∀ s, ∀ x ∈ entriesOf (a'.levels s), e₀.CameWith (before ++ [msg]) msg.symbol x.id := by
  intro s x hx
  by_contra hnone
  have habs : Absent a x.id := by
    intro t y hy hid
    rw [← hid] at hnone
    exact hnone ((hcame t y hy).later msg)
  refine (hstep.absent hw habs ?_).1 s x hx rfl
  rintro o rfl himm hid
  obtain ⟨hnew, hafter, himm'⟩ := h.op_add hop
  refine hnone ⟨before, msg, [], rfl, ⟨hnew, rfl, fun hc => himm (himm'.mpr hc)⟩,
    (h.knows _).mp hknows, ?_⟩
  rw [← hid, hafter]

theorem Traced.next_step (h : Traced e₀ e before) (hknows : e.Knows msg.symbol) :
    next_of e.next_order_id msg = .ofNat (e₀.given (before ++ [msg]) + 1) := by
  have hiff : e₀.NeedsId msg ↔ msg.msg_type = .NewOrder ∧ msg.order_id = 0 := by
    unfold NeedsId
    simp [(h.knows _).mp hknows]
  unfold next_of
  rw [given_append, h.next]
  split
  · next hasks =>
    rw [given_cons_of_needs (hiff.mpr hasks)]
    exact (UInt64.ofNat_add _ 1).symm
  · next hno =>
    rw [given_of_not_needs (fun hc => hno (hiff.mp hc)), Nat.add_zero]

theorem Traced.step (h : Traced e₀ e before)
    (hdistinct : (chosen (before ++ msg :: after)).Nodup)
    (hclash : e₀.NoClash (before ++ msg :: after)) :
    ∃ p, e.process_message msg = some p ∧ Traced e₀ p.engine (before ++ [msg]) := by
  obtain ⟨p, hp, hcases⟩ := h.sound.process_cases msg
  obtain ⟨_, _, hknows⟩ := h.sound.processed hp
  refine ⟨p, hp, ?_, fun id => (hknows id).trans (h.knows id), ?_⟩
  · rcases hcases with ⟨heq, hno⟩ | ⟨_, _, _, hk, _, _, _, _, hnext⟩
    · have hno' : ¬ e₀.NeedsId msg := fun hc => hno ⟨(h.knows _).mpr hc.1, hc.2⟩
      rw [heq, given_append, given_of_not_needs hno']
      exact h.next
    · rw [hnext]
      exact h.next_step hk
  · intro id b hb
    rcases hcases with ⟨heq, _⟩ | ⟨book, op, r, hk, hbook, hop, happly, hbooks, _⟩
    · rw [heq] at hb
      obtain ⟨a, hrep, hw, he, hcame⟩ := h.books id b hb
      exact ⟨a, hrep, hw, he, fun s x hx => (hcame s x hx).later msg⟩
    · rw [hbooks] at hb
      by_cases hid : id = msg.symbol
      · subst hid
        obtain rfl : r.2 = b := by simpa using hb
        obtain ⟨a, hrep, hw, he, hcame⟩ := h.books _ book hbook
        obtain ⟨r', book', a', takes, happly', hstep, hrep', hw', _⟩ := hrep.apply hw op
        obtain rfl : r = (r', book') := Option.some.inj (happly.symm.trans happly')
        refine ⟨a', hrep', hw', hstep.exact hw he ?_, h.came_step hk hop hstep hw hcame⟩
        rintro o rfl himm
        obtain ⟨hnew, hafter, himm'⟩ := h.op_add hop
        rw [hafter]
        exact Traced.absent hdistinct hclash hnew (Or.inr fun hc => himm (himm'.mpr hc)) hcame
      · rw [Function.update_of_ne hid] at hb
        obtain ⟨a, hrep, hw, he, hcame⟩ := h.books id b hb
        exact ⟨a, hrep, hw, he, fun s x hx => (hcame s x hx).later msg⟩

/-! ## Section 4: Runs -/

theorem Traced.run (later after : List MarketDataMsg) :
    ∀ {e : MatchingEngine} {before : List MarketDataMsg}, Traced e₀ e before →
      (chosen (before ++ later ++ after)).Nodup → e₀.NoClash (before ++ later ++ after) →
      ∃ reports e', e.process_all later = some (reports, e') ∧ Traced e₀ e' (before ++ later) := by
  induction later with
  | nil =>
    intro e before h _ _
    exact ⟨[], e, rfl, by rwa [List.append_nil]⟩
  | cons msg later ih =>
    intro e before h hdistinct hclash
    have hone : before ++ msg :: later ++ after = before ++ msg :: (later ++ after) := by simp
    have hsplit : before ++ msg :: later ++ after = before ++ [msg] ++ later ++ after := by simp
    obtain ⟨p, hp, h₁⟩ := h.step (hone ▸ hdistinct) (hone ▸ hclash)
    obtain ⟨reports, e', hrun, h'⟩ := ih h₁ (hsplit ▸ hdistinct) (hsplit ▸ hclash)
    have hstep : machine.step e msg = some (p.reports, p.engine) := by
      simp only [machine, process, hp, Option.map_some]
    refine ⟨p.reports ++ reports, e', Keyed.run_cons hstep hrun, ?_⟩
    rwa [List.append_assoc] at h'

theorem Traced.unique (h : Traced e₀ e before) (id : SymbolId) (book : OrderBook)
    (hbook : e.books id = some book) : book.UniqueIds := by
  obtain ⟨a, hrep, hw, he, _⟩ := h.books id book hbook
  exact he.uniqueIds hrep hw

theorem Traced.freshFor (h : Traced e₀ e before)
    (hdistinct : (chosen (before ++ msg :: after)).Nodup)
    (hclash : e₀.NoClash (before ++ msg :: after)) : FreshFor e msg := by
  refine ⟨h.unique, ?_⟩
  intro hnew h0 book hbook
  obtain ⟨a, hrep, hw, _, hcame⟩ := h.books _ book hbook
  have habs := Traced.absent hdistinct hclash hnew (Or.inl h0) hcame
  rw [← h.id_eq msg, if_neg (not_not.mpr h0)] at habs
  exact (hrep.absent_iff hw _).mp habs

/-- An engine that has seen no message. -/
structure Blank (e : MatchingEngine) : Prop where
  next : e.next_order_id = 1
  books : ∀ id book, e.books id = some book → Rep book .empty

theorem Blank.register_symbol (h : e.Blank) (mem : OrderBook) (id : SymbolId) :
    (e.register_symbol mem id).1.Blank := by
  unfold MatchingEngine.register_symbol
  split
  · exact h
  · split
    · exact h
    · refine ⟨h.next, ?_⟩
      intro id' book hbook
      by_cases heq : id' = id
      · subst heq
        obtain rfl : OrderBook.fresh mem id' = book := by simpa using hbook
        exact rep_fresh mem id'
      · simp only [Function.update_of_ne heq] at hbook
        exact h.books id' book hbook

theorem traced_register_symbols (mem : MatchingEngine) (books : SymbolId → OrderBook)
    (ids : List SymbolId) :
    Traced (register_symbols mem books ids) (register_symbols mem books ids) [] := by
  have hblank : (register_symbols mem books ids).Blank :=
    Loop.foldl_keeps (fun e id h => h.register_symbol (books id) id)
      (⟨rfl, fun _ _ h => by cases h⟩ : (fresh mem).Blank) ids
  refine ⟨hblank.next, fun _ => .rfl, ?_⟩
  intro id book hbook
  exact ⟨.empty, hblank.books id book hbook, wf_empty, exact_empty,
    fun _ x hx => absurd hx List.not_mem_nil⟩

/-- Whatever symbols are registered: if clients choose different ids, and none
    that the counter gives, then before every message the ids in every book are
    unique, and the id that the message may be given is new. -/
theorem synthetic_ids_fresh (mem : MatchingEngine) (books : SymbolId → OrderBook)
    (ids : List SymbolId) (msgs : List MarketDataMsg) (hdistinct : (chosen msgs).Nodup)
    (hclash : (register_symbols mem books ids).NoClash msgs) :
    let e := register_symbols mem books ids
    (∀ before msg after, msgs = before ++ msg :: after →
      ∃ reports e', e.process_all before = some (reports, e') ∧ FreshFor e' msg) ∧
    ∃ reports e', e.process_all msgs = some (reports, e') ∧
      ∀ id book, e'.books id = some book → book.UniqueIds := by
  intro e
  have hstart : Traced e e [] := traced_register_symbols mem books ids
  refine ⟨?_, ?_⟩
  · rintro before msg after rfl
    obtain ⟨reports, e', hrun, h⟩ := hstart.run before (msg :: after) hdistinct hclash
    exact ⟨reports, e', hrun, h.freshFor hdistinct hclash⟩
  · have hall : [] ++ msgs ++ [] = msgs := by simp
    obtain ⟨reports, e', hrun, h⟩ := hstart.run msgs []
      (by rw [hall]; exact hdistinct) (by rw [hall]; exact hclash)
    exact ⟨reports, e', hrun, h.unique⟩

/-- Clients that choose ids above the counter do not clash with it. -/
theorem noClash_of_above (hfew : e.given msgs < UInt64.size)
    (habove : ∀ other ∈ msgs, other.order_id ≠ 0 → e.given msgs < other.order_id.toNat) :
    e.NoClash msgs := by
  refine ⟨Nat.le_of_lt hfew, ?_⟩
  rintro before msg after rfl hneeds other hother _ hid heq
  have hlow := habove other hother hid
  rw [given_append, given_cons_of_needs hneeds] at hfew hlow
  rw [heq, UInt64.toNat_ofNat'] at hlow
  have hmod := Nat.mod_le (e.given before + 1) (2 ^ 64)
  omega

/-- A client that counts from 20, and an order without an id. -/
theorem synthetic_ids_fresh_above :
    let e := register_symbols zeroed (fun _ => OrderBook.zeroed) [0]
    let msgs := [new_order .Limit 20 0 .Sell 100 5, new_order .Limit 0 0 .Sell 101 5,
      new_order .Limit 21 0 .Sell 102 5]
    ∃ reports e', e.process_all msgs = some (reports, e') ∧
      ∀ id book, e'.books id = some book → book.UniqueIds := by
  intro e msgs
  have hclash : e.NoClash msgs := noClash_of_above (by decide +kernel) (by decide +kernel)
  exact (synthetic_ids_fresh zeroed (fun _ => OrderBook.zeroed) [0] msgs (by decide) hclash).2

/-- The id 1 is chosen for an order that rests; the order without an id is
    given it, too. -/
theorem synthetic_id_taken :
    let e := register_symbols zeroed (fun _ => OrderBook.zeroed) [0]
    let first := new_order .Limit 1 0 .Sell 100 5
    let second := new_order .Limit 0 0 .Sell 101 5
    (chosen [first, second]).Nodup ∧
      (∃ reports e', e.process_all [first] = some (reports, e') ∧ ¬ FreshFor e' second) ∧
      ∃ reports e' book, e.process_all [first, second] = some (reports, e') ∧
        e'.books 0 = some book ∧ ¬ book.UniqueIds := by
  intro e first second
  have hrun : ((e.process_all [first]).bind fun x => (x.2.books 0).map fun book =>
      decide (book.Carries x.2.next_order_id)) = some true := by
    decide +kernel
  have hrun' : ((e.process_all [first, second]).bind fun x => (x.2.books 0).map fun book =>
      decide book.UniqueIds) = some false := by
    decide +kernel
  refine ⟨by decide, ?_, ?_⟩
  · obtain ⟨⟨reports, e'⟩, hfirst, hmap⟩ := Option.bind_eq_some_iff.mp hrun
    obtain ⟨book, hbook, hcarries⟩ := Option.map_eq_some_iff.mp hmap
    refine ⟨reports, e', hfirst, ?_⟩
    intro hfresh
    exact hfresh.synthetic rfl rfl book hbook (of_decide_eq_true hcarries)
  · obtain ⟨⟨reports, e'⟩, hboth, hmap⟩ := Option.bind_eq_some_iff.mp hrun'
    obtain ⟨book, hbook, hshared⟩ := Option.map_eq_some_iff.mp hmap
    exact ⟨reports, e', book, hboth, hbook, of_decide_eq_false hshared⟩

end MatchingEngine

end OptionsEngine
