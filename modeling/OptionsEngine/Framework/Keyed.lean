import Mathlib.Data.List.Basic

/-! # Machines with keyed inputs

    A machine whose state has one component per key.  An input carries the key
    of the one component it reads and writes, and the outputs it produces
    carry that key too (`Isolated`).

    * `Isolated.run_filter`: what a run shows of a key is the run of that key's
      inputs alone.
    * `Isolated.run_reorder`: hence the order of inputs matters key by key
      only. -/

namespace Keyed

variable {S I O K V : Type}

/-- Inputs one after the other, with all outputs in order. -/
def run (step : S → I → Option (List O × S)) : S → List I → Option (List O × S)
  | s, [] => some ([], s)
  | s, i :: is => (step s i).bind fun r => (run step r.2 is).map fun r' => (r.1 ++ r'.1, r'.2)

theorem run_append {step : S → I → Option (List O × S)} {s' : S} (js : List I) (is : List I) :
    ∀ {s : S} {out : List O}, run step s is = some (out, s') →
      run step s (is ++ js) = (run step s' js).map fun r => (out ++ r.1, r.2) := by
  induction is with
  | nil =>
    intro s out h
    obtain ⟨rfl, rfl⟩ := Prod.mk.inj (Option.some.inj h)
    simp
  | cons i is ih =>
    intro s out h
    obtain ⟨r, hstep, hrest⟩ := Option.bind_eq_some_iff.mp h
    obtain ⟨r', hrun, heq⟩ := Option.map_eq_some_iff.mp hrest
    obtain ⟨rfl, rfl⟩ := Prod.mk.inj heq
    rw [List.cons_append, run, hstep, Option.bind_some, ih hrun, Option.map_map]
    simp [Function.comp_def]

/-- A step with its keys, and the component of each key. -/
structure Machine (S I O K V : Type) where
  step : S → I → Option (List O × S)
  inKey : I → K
  outKey : O → K
  view : S → K → V

/-- In states with `Inv` and on inputs with `Ok`, a step ends, changes only the
    component of its key, and depends on no other. -/
structure Isolated (M : Machine S I O K V) (Inv : S → Prop) (Ok : I → Prop) : Prop where
  ends : ∀ {s i}, Inv s → Ok i → ∃ out s', M.step s i = some (out, s') ∧ Inv s'
  labels : ∀ {s i out s'}, Inv s → M.step s i = some (out, s') → ∀ o ∈ out, M.outKey o = M.inKey i
  frame : ∀ {s i out s' k}, M.step s i = some (out, s') → k ≠ M.inKey i → M.view s' k = M.view s k
  agree : ∀ {s t i out out' s' t'}, Ok i → M.view s (M.inKey i) = M.view t (M.inKey i) →
    M.step s i = some (out, s') → M.step t i = some (out', t') →
    out = out' ∧ M.view s' (M.inKey i) = M.view t' (M.inKey i)

variable {M : Machine S I O K V} {Inv : S → Prop} {Ok : I → Prop} {s t : S} {k : K}

theorem run_cons {i : I} {is : List I} {out out' : List O} {s' s'' : S}
    (hstep : M.step s i = some (out, s')) (hrun : run M.step s' is = some (out', s'')) :
    run M.step s (i :: is) = some (out ++ out', s'') := by
  simp only [run, hstep, Option.bind_some, hrun, Option.map_some]

theorem Isolated.run_ends (h : Isolated M Inv Ok) (is : List I) :
    ∀ {s : S}, Inv s → (∀ i ∈ is, Ok i) → ∃ out s', run M.step s is = some (out, s') ∧ Inv s' := by
  induction is with
  | nil => exact fun hs _ => ⟨[], _, rfl, hs⟩
  | cons i is ih =>
    intro s hs hok
    obtain ⟨out, s', hstep, hs'⟩ := h.ends hs (hok i (by simp))
    obtain ⟨out', s'', hrun, hs''⟩ := ih hs' fun j hj => hok j (by simp [hj])
    exact ⟨out ++ out', s'', run_cons hstep hrun, hs''⟩

variable [DecidableEq K]

/-- Inputs of one key. -/
def Machine.inputs (M : Machine S I O K V) (k : K) (is : List I) : List I :=
  is.filter fun i => M.inKey i = k

/-- Outputs of one key. -/
def Machine.outputs (M : Machine S I O K V) (k : K) (os : List O) : List O :=
  os.filter fun o => M.outKey o = k

/-- What a run from `s` shows of the key `k` is what the inputs of that key do
    from any `t` with the same component. -/
theorem Isolated.run_filter (h : Isolated M Inv Ok) (is : List I) :
    ∀ {s t : S}, Inv s → Inv t → (∀ i ∈ is, Ok i) → M.view s k = M.view t k →
      ∃ out s' out' t', run M.step s is = some (out, s') ∧
        run M.step t (M.inputs k is) = some (out', t') ∧ M.outputs k out = out' ∧
        M.view s' k = M.view t' k := by
  induction is with
  | nil => exact fun _ _ _ hview => ⟨[], _, [], _, rfl, rfl, rfl, hview⟩
  | cons i is ih =>
    intro s t hs ht hok hview
    have hoki : Ok i := hok i (by simp)
    have hoks : ∀ j ∈ is, Ok j := fun j hj => hok j (by simp [hj])
    obtain ⟨out, s₁, hstep, hs₁⟩ := h.ends hs hoki
    have hlabels := h.labels hs hstep
    by_cases hk : M.inKey i = k
    · -- both runs take the step, from the same component
      subst hk
      obtain ⟨out', t₁, hstep', ht₁⟩ := h.ends ht hoki
      obtain ⟨rfl, hview₁⟩ := h.agree hoki hview hstep hstep'
      obtain ⟨rest, s', rest', t', hrun, hrun', hrest, hview'⟩ := ih hs₁ ht₁ hoks hview₁
      refine ⟨out ++ rest, s', out ++ rest', t', run_cons hstep hrun, ?_, ?_, hview'⟩
      · rw [Machine.inputs, List.filter_cons_of_pos (by simp)]
        exact run_cons hstep' hrun'
      · rw [Machine.outputs, List.filter_append, List.filter_eq_self.mpr (by simpa using hlabels)]
        rw [← hrest, Machine.outputs]
    · -- only the full run takes it, and it neither shows nor changes `k`
      have hview₁ : M.view s₁ k = M.view t k := (h.frame hstep (Ne.symm hk)).trans hview
      obtain ⟨rest, s', rest', t', hrun, hrun', hrest, hview'⟩ := ih hs₁ ht hoks hview₁
      refine ⟨out ++ rest, s', rest', t', run_cons hstep hrun, ?_, ?_, hview'⟩
      · rw [Machine.inputs, List.filter_cons_of_neg (by simpa using hk)]
        exact hrun'
      · have hnone : out.filter (fun o => M.outKey o = k) = [] := by
          refine List.filter_eq_nil_iff.mpr fun o ho => ?_
          rw [hlabels o ho]
          simpa using hk
        rw [Machine.outputs, List.filter_append, hnone, List.nil_append]
        exact hrest

/-- Runs of the same inputs, key by key, show the same of every key. -/
theorem Isolated.run_reorder (h : Isolated M Inv Ok) {is js : List I} (hs : Inv s)
    (his : ∀ i ∈ is, Ok i) (hjs : ∀ j ∈ js, Ok j) (hsame : ∀ k, M.inputs k is = M.inputs k js) :
    ∃ out s' out' s'', run M.step s is = some (out, s') ∧ run M.step s js = some (out', s'') ∧
      ∀ k, M.outputs k out = M.outputs k out' ∧ M.view s' k = M.view s'' k := by
  obtain ⟨out, s', hrun, _⟩ := h.run_ends is hs his
  obtain ⟨out', s'', hrun', _⟩ := h.run_ends js hs hjs
  refine ⟨out, s', out', s'', hrun, hrun', fun k => ?_⟩
  obtain ⟨o₁, s₁, p₁, t₁, h₁, g₁, hout₁, hview₁⟩ := h.run_filter (k := k) is hs hs his rfl
  obtain ⟨o₂, s₂, p₂, t₂, h₂, g₂, hout₂, hview₂⟩ := h.run_filter (k := k) js hs hs hjs rfl
  rw [hrun] at h₁
  rw [hrun'] at h₂
  rw [hsame, g₂] at g₁
  cases h₁
  cases h₂
  cases g₁
  exact ⟨hout₁.trans hout₂.symm, hview₁.trans hview₂.symm⟩

end Keyed
