import Mathlib.Logic.Function.Basic
import Mathlib.Order.RelClasses

/-! # Bounded loops

    A `while` loop whose body may itself diverge, run with a bound on the
    number of iterations:

    * `LoopStep`: what one pass through the body decides, to go round again
      with a new state or to leave with a result.
    * `loop body fuel s`: at most `fuel` passes from `s`; `none` stands for a
      loop (or an inner loop of its body) that has not left by then.
    * The unfolding rules `loop_exit` and `loop_next`, one per decision.
    * `Ends`: the loop leaves with a result, whatever the bound beyond some
      point; a bounded run that leaves shows it (`ends_of_loop`).

    And the run of a system whose steps are taken in a given order, a fold of
    its step function over the schedule:

    * `foldl_keeps`: what every step keeps, every run keeps.
    * `foldl_keeps_below`: the same for steps that keep it only below some
      bound of a measure that never falls.
    * `foldl_prod`: two systems under one schedule run side by side.
    * `exists_crossing`: a run that ends differently changes in some step.
    * `foldl_prefixes_iff`: what a step keeps exactly under some condition, a
      run keeps throughout exactly if all its steps meet the condition.
    * `foldl_reaches`: where some turns always lower a rank, some run comes to
      an end; `foldl_reaches_alone` is the case of one turn over and over.
-/

namespace Loop

/-- The decision of one pass through a loop body. -/
inductive LoopStep (σ ρ : Type _) where
  /-- Go round again from a new state. -/
  | next (s : σ)
  /-- Leave the loop with a result. -/
  | exit (r : ρ)

/-- Run `body` from `s` for at most `fuel` passes. -/
def loop {σ ρ : Type _} (body : σ → Option (LoopStep σ ρ)) : Nat → σ → Option ρ
  | 0, _ => none
  | fuel + 1, s =>
    match body s with
    | none => none
    | some (.exit r) => some r
    | some (.next s') => loop body fuel s'

variable {σ ρ : Type _} {body : σ → Option (LoopStep σ ρ)} {s s' : σ} {r : ρ}

theorem loop_exit (h : body s = some (.exit r)) (fuel : Nat) :
    loop body (fuel + 1) s = some r := by
  simp [loop, h]

theorem loop_next (h : body s = some (.next s')) (fuel : Nat) :
    loop body (fuel + 1) s = loop body fuel s' := by
  simp [loop, h]

/-- The loop from `s` leaves with `r`. -/
def Ends (body : σ → Option (LoopStep σ ρ)) (s : σ) (r : ρ) : Prop :=
  ∃ n, ∀ fuel ≥ n, loop body fuel s = some r

/-- A loop that has left does not depend on the bound. -/
theorem loop_le (n : Nat) :
    ∀ {s : σ} {fuel : Nat}, loop body n s = some r → n ≤ fuel → loop body fuel s = some r := by
  induction n with
  | zero => exact fun h => by cases h
  | succ n ih =>
    intro s fuel h hle
    obtain ⟨fuel, rfl⟩ : ∃ k, fuel = k + 1 := ⟨fuel - 1, by omega⟩
    unfold loop at h ⊢
    cases hpass : body s with
    | none => simp [hpass] at h
    | some d =>
      cases d with
      | exit r' => simpa [hpass] using h
      | next s' =>
        simp only [hpass] at h ⊢
        exact ih h (by omega)

theorem ends_of_loop {n : Nat} (h : loop body n s = some r) : Ends body s r :=
  ⟨n, fun _ hle => loop_le n h hle⟩

/-! ## Schedules -/

section schedule

variable {ι : Type _} {step : σ → ι → σ} {Keeps : σ → Prop}

theorem foldl_keeps (hstep : ∀ s i, Keeps s → Keeps (step s i)) (h : Keeps s)
    (schedule : List ι) : Keeps (schedule.foldl step s) :=
  List.foldlRecOn schedule step h fun s h i _ => hstep s i h

/-- Two systems under one schedule. -/
theorem foldl_prod {τ : Type _} {step' : τ → ι → τ} (schedule : List ι) :
    ∀ (s : σ) (t : τ), schedule.foldl (fun p i => (step p.1 i, step' p.2 i)) (s, t) =
      (schedule.foldl step s, schedule.foldl step' t) := by
  induction schedule with
  | nil => exact fun s t => rfl
  | cons i schedule ih => exact fun s t => ih (step s i) (step' t i)

theorem le_foldl {measure : σ → Nat} (hmono : ∀ s i, measure s ≤ measure (step s i))
    (schedule : List ι) : ∀ s, measure s ≤ measure (schedule.foldl step s) := by
  induction schedule with
  | nil => exact fun s => Nat.le_refl _
  | cons i schedule ih => exact fun s => Nat.le_trans (hmono s i) (ih (step s i))

theorem foldl_keeps_below {measure : σ → Nat} {bound : Nat}
    (hmono : ∀ s i, measure s ≤ measure (step s i))
    (hstep : ∀ s i, measure s < bound → Keeps s → Keeps (step s i)) (schedule : List ι) :
    ∀ {s}, Keeps s → measure (schedule.foldl step s) < bound →
      Keeps (schedule.foldl step s) := by
  induction schedule with
  | nil => exact fun h _ => h
  | cons i schedule ih =>
    intro s h hlt
    -- the bound holds at the end, hence already here
    have hnow := Nat.lt_of_le_of_lt (le_foldl hmono (i :: schedule) s) hlt
    exact ih (hstep s i hnow h) hlt

/-- What does not hold at the start and does at the end comes about in some
    step. -/
theorem exists_crossing (schedule : List ι) :
    ∀ {s}, ¬ Keeps s → Keeps (schedule.foldl step s) →
      ∃ before i after, schedule = before ++ i :: after ∧ ¬ Keeps (before.foldl step s) ∧
        Keeps (step (before.foldl step s) i) := by
  induction schedule with
  | nil => exact fun h hend => absurd hend h
  | cons i schedule ih =>
    intro s h hend
    by_cases hnow : Keeps (step s i)
    · exact ⟨[], i, schedule, rfl, h, hnow⟩
    · obtain ⟨before, j, after, rfl, hbefore, hafter⟩ := ih hnow hend
      exact ⟨i :: before, j, after, rfl, hbefore, hafter⟩

/-- `Always` is kept by every step, and `Keeps` by those that are `Good`. -/
theorem foldl_prefixes_iff {Always : σ → Prop} {Good : σ → ι → Prop}
    (halways : ∀ s i, Always s → Always (step s i))
    (hstep : ∀ s i, Always s → Keeps s → (Keeps (step s i) ↔ Good s i)) (schedule : List ι) :
    ∀ {s}, Always s → Keeps s →
      ((∀ n, Keeps ((schedule.take n).foldl step s)) ↔
        ∀ before i after, schedule = before ++ i :: after → Good (before.foldl step s) i) := by
  induction schedule with
  | nil =>
    intro s _ h
    constructor
    · intro _ before i after heq
      simp at heq
    · intro _ n
      simpa using h
  | cons i schedule ih =>
    intro s ha h
    constructor
    · intro hall
      have hkeeps : Keeps (step s i) := by simpa using hall 1
      intro before j after heq
      rcases List.cons_eq_append_iff.mp heq with ⟨rfl, hcons⟩ | ⟨before', rfl, hrest⟩
      · obtain ⟨rfl, -⟩ := List.cons.inj hcons
        exact (hstep s _ ha h).mp hkeeps
      · refine (ih (halways s i ha) hkeeps).mp ?_ before' j after hrest
        intro n
        simpa using hall (n + 1)
    · intro hgood n
      have hkeeps : Keeps (step s i) := (hstep s i ha h).mpr (hgood [] i schedule rfl)
      cases n with
      | zero => exact h
      | succ n =>
        refine (ih (halways s i ha) hkeeps).mpr ?_ n
        rintro before j after rfl
        exact hgood (i :: before) j after rfl

/-- `Ranked m s`: the state is one that can go on, with `m` left to do.  If
    allowed turns lead from each such state to one with less to do, unless it is
    done, they lead to one that is done. -/
theorem foldl_reaches {μ : Type _} [LT μ] [WellFoundedLT μ] {Allowed : ι → Prop}
    {Ranked : μ → σ → Prop} {Done : σ → Prop}
    (hstep : ∀ m s, Ranked m s → ¬ Done s →
      ∃ turns : List ι, (∀ i ∈ turns, Allowed i) ∧ ∃ m' < m, Ranked m' (turns.foldl step s)) (m : μ) :
    ∀ {s}, Ranked m s →
      ∃ turns : List ι, (∀ i ∈ turns, Allowed i) ∧ (∃ m', Ranked m' (turns.foldl step s)) ∧
        Done (turns.foldl step s) := by
  induction m using WellFoundedLT.induction with
  | ind m ih =>
    intro s h
    by_cases hdone : Done s
    · exact ⟨[], fun i hi => (List.not_mem_nil hi).elim, ⟨m, h⟩, hdone⟩
    · obtain ⟨first, hfirst, m', hlt, h'⟩ := hstep m s h hdone
      obtain ⟨rest, hrest, hend⟩ := ih m' hlt h'
      refine ⟨first ++ rest, ?_, ?_⟩
      · intro i hi
        rcases List.mem_append.mp hi with hi | hi
        · exact hfirst i hi
        · exact hrest i hi
      · rw [List.foldl_append]
        exact hend

theorem foldl_reaches_alone {μ : Type _} [LT μ] [WellFoundedLT μ] {i : ι}
    {Ranked : μ → σ → Prop} {Done : σ → Prop}
    (hstep : ∀ m s, Ranked m s → ¬ Done s → ∃ m' < m, Ranked m' (step s i)) {m : μ}
    (h : Ranked m s) :
    ∃ n, (∃ m', Ranked m' ((List.replicate n i).foldl step s)) ∧
      Done ((List.replicate n i).foldl step s) := by
  have hone : ∀ m s, Ranked m s → ¬ Done s → ∃ turns : List ι, (∀ j ∈ turns, j = i) ∧
      ∃ m' < m, Ranked m' (turns.foldl step s) := by
    intro m s h hlive
    exact ⟨[i], fun j hj => List.mem_singleton.mp hj, hstep m s h hlive⟩
  obtain ⟨turns, hturns, hend⟩ := foldl_reaches hone m h
  rw [List.eq_replicate_of_mem hturns] at hend
  exact ⟨turns.length, hend⟩

end schedule

end Loop
