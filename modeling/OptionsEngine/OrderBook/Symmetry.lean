import OptionsEngine.LevelBook.Relabel
import OptionsEngine.OrderBook.Observe

/-! # Relabelled runs of the order book

    Two books, set up in memories of their own, are driven side by side: one
    by a sequence of calls, one by the same calls relabelled.  They stay
    relabellings of each other (`Relabel.run`), slot by slot.

    With the relabelling that changes nothing, the memory that the constructor
    was given is seen to play no part (`Relabel.refl`); with the one that
    exchanges the sides, that the code for bids and the code for asks, which
    compare prices by hand in both directions, do the same (`Relabel.mirror`). -/

namespace OptionsEngine

open Function LiveArray OrderBook

namespace Relabel

/-! ## Section 1: Relabellings -/

/-- Nothing is changed. -/
def refl : Relabel where
  side := fun s => s
  side_opposite := fun _ => rfl
  price := fun p => p
  better_iff := fun _ _ _ => Iff.rfl
  id := Equiv.refl OrderId
  account := fun x => x
  account_injective := fun _ _ h => h
  account_zero := rfl

/-- The sides are exchanged.  Turning a price `p` into `-1 - p`, its bitwise
    complement, turns their order around and stays within 64 bits. -/
def mirror : Relabel where
  side := Side.opposite
  side_opposite := fun _ => rfl
  price := fun p => -1 - p
  better_iff := by
    intro s p q
    cases s with
    | Buy => exact Int.sub_lt_sub_left_iff
    | Sell => exact Int.sub_lt_sub_left_iff
  id := Equiv.refl OrderId
  account := fun x => x
  account_injective := fun _ _ h => h
  account_zero := rfl

@[simp] theorem refl_op (op : Op) : refl.op op = op := by
  cases op <;> rfl

@[simp] theorem refl_report (rpt : ExecutionReport) : refl.report rpt = rpt := rfl

theorem map_refl_op (ops : List Op) : ops.map refl.op = ops := by
  rw [List.map_congr_left fun op _ => refl_op op, List.map_id']

theorem map_refl_report (rpts : List ExecutionReport) : rpts.map refl.report = rpts := by
  rw [List.map_congr_left fun rpt _ => refl_report rpt, List.map_id']

/-! ## Section 2: What is seen of a book -/

variable (φ : Relabel)

def priceLevel (l : PriceLevel) : PriceLevel := { l with price := φ.price l.price }

/-- One slot holds the relabelled order of the other. -/
structure SlotAlike (p p' : SlotPool) (x : Nat) : Prop where
  id : p'.ids x = φ.id (p.ids x)
  account : p'.accounts x = φ.account (p.accounts x)
  price : p'.prices x = φ.price (p.prices x)
  qty : p'.qtys x = p.qtys x

/-- What `b'` shows is what `b` shows, relabelled. -/
structure Alike (b b' : OrderBook) : Prop where
  depth : ∀ s size, depth (b'.side (φ.side s)) size = (depth (b.side s) size).map φ.priceLevel
  resting : ∀ s, b'.resting (φ.side s) = b.resting s
  freeList : b'.freeList = b.freeList
  slots : ∀ s, ∀ x ∈ b.resting s, φ.SlotAlike b.slots b'.slots x

/-- A response and the response to the relabelled call. -/
structure Answers (r r' : Response) : Prop where
  outcome : r'.outcome = r.outcome
  reports : r'.reports = r.reports.map φ.report

variable {φ} {b b' : OrderBook} {a : LevelBook} {s : Side}

/-- The depth of a side, read off its levels. -/
theorem depth_eq (h : Rep b a) (s : Side) (size : Nat) :
    depth (b.side s) size = ((a.levels s).take size).map fun l =>
      ⟨l.price, l.row.qty, l.row.count, l.row.head⟩ := by
  let f : Nat → PriceLevel := fun i => ⟨(b.side s).prices i, (b.side s).qtys i,
    (b.side s).order_counts i, (b.side s).head_idxs i⟩
  have hall := h.map_levels (s := s) f
    (fun l => ⟨l.price, l.row.qty, l.row.count, l.row.head⟩) (by
      intro L l R hls
      obtain ⟨hprice, hqty, hcount, hhead, _⟩ := (h.row hls).cells
      simp only [f, hprice, hqty, hcount, hhead]
      rfl)
  show (List.range (min size (b.side s).count)).map f = _
  rw [List.map_take, ← hall, ← List.map_take, List.take_range]

theorem alike (h : Rep b a) (hw : WF a) (h' : Rep b' (φ.book a)) (hw' : WF (φ.book a)) :
    φ.Alike b b' where
  depth := by
    intro s size
    rw [depth_eq h, depth_eq h', levels_book, ← List.map_take, List.map_map, List.map_map]
    apply List.map_congr_left
    intro l _
    simp [level, entry, Level.row, priceLevel, Level.slots, Level.total, comp_def]
  resting := by
    intro s
    rw [h.resting_eq hw, h'.resting_eq hw', levels_book]
    unfold slotsOf
    rw [List.flatMap_map]
    congr 1
    funext l
    simp [level, Level.slots, entry, comp_def]
  freeList := by
    rw [h.freeList_eq hw, h'.freeList_eq hw']
    rfl
  slots := by
    intro s x hx
    obtain ⟨e, he, rfl⟩ := (h.mem_resting hw).mp hx
    obtain ⟨l, hl, hel, hst⟩ := h.stored he
    have hst' : Stored b'.slots (φ.price l.price) (φ.entry e) := by
      have hl' : φ.level l ∈ (φ.book a).levels (φ.side s) := by
        rw [levels_book]
        exact List.mem_map_of_mem hl
      exact (h'.queues _ _ hl').stored _ (List.mem_map_of_mem hel)
    refine ⟨?_, ?_, ?_, ?_⟩
    · rw [hst.id]
      exact hst'.id
    · rw [hst.account]
      exact hst'.account
    · rw [hst.price]
      exact hst'.price
    · rw [hst.qty]
      exact hst'.qty

/-! ## Section 3: Runs side by side -/

theorem reports_eq {symbol : SymbolId} {op : Op} {evs evs' : List MatchEvent} {takes : List Take}
    (h : EventsOf symbol op evs takes) (h' : EventsOf symbol (φ.op op) evs' (takes.map φ.take)) :
    evs'.map MatchEvent.report = (evs.map MatchEvent.report).map φ.report := by
  cases op with
  | add o =>
    rw [map_report_eq h, map_report_eq h', List.map_map, List.map_map]
    rfl
  | cancel id => rw [h.1, h'.1]; rfl
  | modify id new_qty => rw [h.1, h'.1]; rfl

/-- One call, made on both books. -/
theorem apply (h : Rep b a) (hw : WF a) (h' : Rep b' (φ.book a)) (hw' : WF (φ.book a))
    (hsym : b'.symbol = b.symbol) (op : Op) :
    ∃ r c r' c' a', b.apply op = some (r, c) ∧ b'.apply (φ.op op) = some (r', c') ∧
      φ.Answers r r' ∧ Rep c a' ∧ WF a' ∧ Rep c' (φ.book a') ∧ WF (φ.book a') ∧
      c'.symbol = c.symbol := by
  obtain ⟨r, c, a', takes, happly, hstep, hrep, hwf, hevs, hc⟩ := h.apply hw op
  obtain ⟨r', c', a'', takes', happly', hstep', hrep', hwf', hevs', hc'⟩ := h'.apply hw' (φ.op op)
  -- the relabelled step is one the second book can make, and it can make one only
  obtain ⟨hout, rfl, rfl⟩ := Step.determined hw' hstep' (step hstep)
  rw [hsym] at hevs'
  exact ⟨r, c, r', c', a', happly, happly', ⟨hout, reports_eq hevs hevs'⟩, hrep, hwf, hrep', hwf',
    by rw [hc, hc', hsym]⟩

theorem run (ops : List Op) :
    ∀ {b b' : OrderBook} {a : LevelBook}, Rep b a → WF a → Rep b' (φ.book a) → WF (φ.book a) →
      b'.symbol = b.symbol →
      ∃ rs c rs' c' a', b.run ops = some (rs, c) ∧ b'.run (ops.map φ.op) = some (rs', c') ∧
        List.Forall₂ φ.Answers rs rs' ∧ Rep c a' ∧ WF a' ∧ Rep c' (φ.book a') ∧ WF (φ.book a') := by
  induction ops with
  | nil =>
    intro b b' a h hw h' hw' _
    exact ⟨[], b, [], b', a, rfl, rfl, .nil, h, hw, h', hw'⟩
  | cons op ops ih =>
    intro b b' a h hw h' hw' hsym
    obtain ⟨r, b₁, r', b₁', a₁, happly, happly', hans, h₁, hw₁, h₁', hw₁', hsym₁⟩ :=
      apply h hw h' hw' hsym op
    obtain ⟨rs, c, rs', c', a', hrun, hrun', hall, hend⟩ := ih h₁ hw₁ h₁' hw₁' hsym₁
    exact ⟨r :: rs, c, r' :: rs', c', a', run_cons happly hrun, run_cons happly' hrun',
      .cons hans hall, hend⟩

/-- Two books of one symbol, from their constructors on. -/
theorem run_fresh (φ : Relabel) (mem mem' : OrderBook) (symbol : SymbolId) (ops : List Op) :
    ∃ rs c rs' c' a, (fresh mem symbol).run ops = some (rs, c) ∧
      (fresh mem' symbol).run (ops.map φ.op) = some (rs', c') ∧
      List.Forall₂ φ.Answers rs rs' ∧ Rep c a ∧ WF a ∧ Rep c' (φ.book a) ∧ WF (φ.book a) := by
  have h' : Rep (fresh mem' symbol) (φ.book .empty) := by
    rw [book_empty]
    exact rep_fresh mem' symbol
  have hw' : WF (φ.book .empty) := by
    rw [book_empty]
    exact wf_empty
  exact run ops (rep_fresh mem symbol) wf_empty h' hw' rfl

end Relabel

/-- Relabelled calls get the same answers, name the relabelled orders in their
    reports, and leave the relabelled book, in the same slots, whatever the two
    constructors found in memory. -/
theorem relabelled_run (φ : Relabel) (mem mem' : OrderBook) (symbol : SymbolId) (ops : List Op) :
    ∃ rs b rs' b', (fresh mem symbol).run ops = some (rs, b) ∧
      (fresh mem' symbol).run (ops.map φ.op) = some (rs', b') ∧
      List.Forall₂ φ.Answers rs rs' ∧ φ.Alike b b' := by
  obtain ⟨rs, b, rs', b', a, hrun, hrun', hall, hrep, hw, hrep', hw'⟩ :=
    φ.run_fresh mem mem' symbol ops
  exact ⟨rs, b, rs', b', hrun, hrun', hall, Relabel.alike hrep hw hrep' hw'⟩

-- in the mirror a sale at 100 is a purchase at -101
example : Relabel.mirror.op (.add (sell 7 100 5)) = .add (buy 7 (-101) 5) := rfl

end OptionsEngine
