import OptionsEngine.ExecutionLayer
import OptionsEngine.SpscQueue.Worker

/-! # The thread of the execution layer (`ExecutionLayer::run_loop` and `stop`)

    `run_loop` calls `poll(512)` until it is stopped, and once more with the
    largest `int` to drain the queue.  Whoever pushes reports, the thread and
    the caller of `stop` are interleaved step by step.

    `booked_before_stop`: at every moment the layer is what a sequence of
    reports makes of it that were pushed first; when `stop` has returned, that
    sequence has everything that was pushed before the call.  Unlike the engine
    thread, this one counts what it drains. -/

namespace OptionsEngine

open Ring

namespace ExecutionLayer

/-! ## Section 1: Model -/

/-- The layer, and the calls `fill_cb_(rpt, pos)` it has made. -/
abbrev Booked := ExecutionLayer × List (ExecutionReport × Position)

/-- `process_report`, with its call of the fill callback. -/
def book (s : Booked) (rpt : ExecutionReport) : Booked :=
  ((s.1.process_report rpt).1, s.2 ++ (s.1.process_report rpt).2)

/-- `run_loop`: `poll(512)` while the flag is set, `poll(INT32_MAX)` after. -/
def run_loop : Worker.Program ExecutionReport Booked where
  handle := fun _ => book
  limit := fun
    | .polling => some 512
    | .draining => some 2147483647

/-- The calls of the fill callback for a sequence of reports: each comes with
    the position of its symbol after the report. -/
def fill_calls (l : ExecutionLayer) : List ExecutionReport → List (ExecutionReport × Position)
  | [] => []
  | rpt :: rs =>
    let l' := (l.process_report rpt).1
    (if l.fill_cb then [(rpt, l'.position rpt.symbol)] else []) ++ l'.fill_calls rs

variable {α : Type} {W : Nat}

/-- The thread from its start, with a layer `l` as it is then. -/
def thread (L : Worker.Layout ExecutionReport α W) (mem : Nat → Item α W) (out : Item α W)
    (l : ExecutionLayer) (schedule : List (Worker.Turn ExecutionReport)) :
    Worker.Config ExecutionReport Booked α W :=
  (Worker.Config.start mem out (l, [])).run run_loop L kQueueDepth schedule

/-! ## Section 2: Booking -/

theorem foldl_book (rs : List ExecutionReport) :
    ∀ (l : ExecutionLayer) (calls : List (ExecutionReport × Position)),
      rs.foldl book (l, calls) = (l.run rs, calls ++ l.fill_calls rs) := by
  induction rs with
  | nil =>
    intro l calls
    simp [run, fill_calls]
  | cons rpt rs ih =>
    intro l calls
    have hcall : (l.process_report rpt).2 =
        if l.fill_cb then [(rpt, (l.process_report rpt).1.position rpt.symbol)] else [] := by
      rw [position_process_report_self]
      rfl
    rw [List.foldl_cons, book, ih, fill_calls, hcall, List.append_assoc]
    rfl

theorem stat_fills_run (rs : List ExecutionReport) :
    ∀ l : ExecutionLayer, (l.run rs).stat_fills = l.stat_fills + .ofNat rs.length := by
  induction rs with
  | nil =>
    intro l
    show l.stat_fills = l.stat_fills + 0
    rw [UInt64.add_zero]
  | cons rpt rs ih =>
    intro l
    have hrest := ih (l.process_report rpt).1
    show ((l.process_report rpt).1.run rs).stat_fills = _
    rw [hrest, List.length_cons, UInt64.ofNat_add, UInt64.add_comm (.ofNat rs.length),
      ← UInt64.add_assoc]
    rfl

/-- The two phases book alike. -/
theorem outcome_eq (l : ExecutionLayer) (polled drained : List ExecutionReport) :
    Worker.outcome run_loop (l, []) polled drained =
      (l.run (polled ++ drained), l.fill_calls (polled ++ drained)) := by
  show drained.foldl book (polled.foldl book (l, [])) = _
  rw [← List.foldl_append, foldl_book, List.nil_append]

/-- A queue of `1 << 16` places is empty long before the last `poll` is over. -/
theorem drains_all : run_loop.DrainsAll kQueueDepth := by
  intro count hreached
  have hle : 2147483647 ≤ count := hreached
  show 65535 ≤ count
  omega

/-! ## Section 3: Every interleaving -/

/-- Let `stop` be called after `before`.  Whatever happens then, the layer has
    booked and counted the first reports that were pushed, with one call of the
    fill callback each; if `stop` has returned, all that were pushed before the
    call are among them; and it returns if the thread gets enough turns. -/
theorem booked_before_stop (L : Worker.Layout ExecutionReport α W) (mem : Nat → Item α W)
    (out : Item α W) (l : ExecutionLayer) (before after : List (Worker.Turn ExecutionReport))
    (hidle : (thread L mem out l before).stop = .idle) :
    let c := thread L mem out l (before ++ .stop :: after)
    (∃ reports, reports <+: c.accepted L ∧ c.state = (l.run reports, l.fill_calls reports) ∧
      c.state.1.stat_fills = l.stat_fills + .ofNat reports.length ∧
      (c.stop = .returned → (thread L mem out l before).accepted L <+: reports)) ∧
    ∃ n, (thread L mem out l
      (before ++ .stop :: after ++ (List.replicate n .work ++ [.stop]))).stop = .returned := by
  intro c
  obtain ⟨items, h⟩ : Worker.Consistent run_loop L kQueueDepth (l, []) c :=
    Worker.consistent_run mem out (l, []) _
  obtain ⟨haccepted, hstate⟩ := h.results
  rw [outcome_eq] at hstate
  constructor
  · refine ⟨c.handled, ⟨_, haccepted.symm⟩, hstate, ?_, ?_⟩
    · rw [hstate]
      exact stat_fills_run _ l
    · intro hreturned
      exact Worker.handled_before_stop drains_all mem out (l, []) before (.stop :: after) hidle
        hreturned
  · -- the flag is cleared, and stays so
    have hstop : c.stop ≠ .idle := Worker.stop_after_call mem out (l, []) before after
    obtain ⟨n, hreturned⟩ := Worker.stop_returns h hstop
    refine ⟨n, ?_⟩
    show ((Worker.Config.start mem out (l, [])).run run_loop L kQueueDepth _).stop = _
    rw [Worker.run_append]
    exact hreturned

/-- A buy of 10 at 100. -/
def bought : ExecutionReport := ⟨2, 1, 100, 10, 0, 7, .Buy, .Fill⟩

/-- The report is pushed, `stop` is called, and only then does the thread run. -/
theorem drained_report_booked :
    let before : List (Worker.Turn ExecutionReport) := List.replicate 4 (.push bought)
    let after : List (Worker.Turn ExecutionReport) := List.replicate 8 .work ++ [.stop]
    let l := fresh (.fresh fun _ => bought)
    let c := thread (Worker.oneWord _) (fun _ => .replicate 1 bought) (.replicate 1 bought) l
      (before ++ .stop :: after)
    c.stop = .returned ∧ c.state.1.stat_fills = 1 ∧ (c.state.1.position 7).net_qty = 10 := by
  intro before after l c
  have hreturned : c.stop = .returned := by decide +kernel
  obtain ⟨⟨reports, hprefix, hstate, hfills, hall⟩, _⟩ := booked_before_stop (Worker.oneWord _)
    (fun _ => .replicate 1 bought) (.replicate 1 bought) l before after (by decide +kernel)
  have hone : c.accepted (Worker.oneWord _) = [bought] := by decide +kernel
  have hpushed : (thread (Worker.oneWord _) (fun _ => .replicate 1 bought) (.replicate 1 bought) l
      before).accepted (Worker.oneWord _) = [bought] := by decide +kernel
  -- between what was pushed before the call and all that was pushed
  have hreports : reports = [bought] := by
    rw [hone] at hprefix
    have hfirst := hall hreturned
    rw [hpushed] at hfirst
    exact hprefix.eq_of_length (Nat.le_antisymm hprefix.length_le hfirst.length_le)
  subst hreports
  refine ⟨hreturned, by rw [hfills]; rfl, ?_⟩
  rw [hstate]
  decide +kernel

end ExecutionLayer

end OptionsEngine
