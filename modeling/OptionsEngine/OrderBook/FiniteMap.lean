import Mathlib.Data.List.Dedup
import OptionsEngine.OrderBook.Index

/-! # Runs of the order index

    `insert`, `remove` and `lookup` called in any order on a table set up by
    `init`.  The reference is the history itself: an id is stored with the
    value of its latest insertion, unless it was removed after that (`latest`).
    As long as no more ids are stored than the pool has slots, every call ends
    and answers as the history says (`index_is_finite_map`).

    Slots are those of the pool; `add_order` inserts none when it gets the
    null index, which the table uses to mark its empty entries. -/

namespace OptionsEngine.OrderBook

open Function ProbeTable

/-! ## Section 1: Model -/

/-- A call on the index. -/
inductive IndexOp where
  | insert (id : OrderId) (slot : Nat) (side : UInt8)
  | remove (id : OrderId)
  | lookup (id : OrderId)

/-- What a call on the index returns. -/
inductive IndexAnswer where
  | inserted (ok : Bool)
  | removed (found : Bool)
  | found (value : Option (Nat × UInt8))
  deriving DecidableEq

namespace IndexOp

def id : IndexOp → OrderId
  | .insert id _ _ => id
  | .remove id => id
  | .lookup id => id

/-- The slot of an insertion is a 32-bit index other than the null index. -/
def Valid : IndexOp → Prop
  | .insert _ slot _ => slot < OrderIndex.kEmpty
  | _ => True

instance (op : IndexOp) : Decidable op.Valid :=
  match op with
  | .insert _ slot _ => inferInstanceAs (Decidable (slot < OrderIndex.kEmpty))
  | .remove _ => .isTrue trivial
  | .lookup _ => .isTrue trivial

end IndexOp

namespace OrderIndex

def apply (t : OrderIndex) : IndexOp → Option (IndexAnswer × OrderIndex)
  | .insert id slot side => (t.insert id slot side).map fun (ok, t') => (.inserted ok, t')
  | .remove id => (t.remove id).map fun (found, t') => (.removed found, t')
  | .lookup id => (t.lookup id).map fun value => (.found value, t)

def run (t : OrderIndex) : List IndexOp → Option (List IndexAnswer × OrderIndex)
  | [] => some ([], t)
  | op :: ops =>
    (t.apply op).bind fun (r, t') => (t'.run ops).map fun (rs, t'') => (r :: rs, t'')

end OrderIndex

/-! ## Section 2: The reference

    Histories are read backwards, the latest call first. -/

/-- The value of the latest insertion of `id`, if it was not removed after. -/
def latest (id : OrderId) : List IndexOp → Option (Nat × UInt8)
  | [] => none
  | .insert k slot side :: past => if k = id then some (slot, side) else latest id past
  | .remove k :: past => if k = id then none else latest id past
  | .lookup _ :: past => latest id past

/-- The distinct ids stored after a history. -/
def storedIds (past : List IndexOp) : List OrderId :=
  (past.map IndexOp.id).dedup.filter fun id => (latest id past).isSome

/-- What a call should return after a history. -/
def answer (past : List IndexOp) : IndexOp → IndexAnswer
  | .insert _ _ _ => .inserted true
  | .remove id => .removed (latest id past).isSome
  | .lookup id => .found (latest id past)

def answers (past : List IndexOp) : List IndexOp → List IndexAnswer
  | [] => []
  | op :: ops => answer past op :: answers (op :: past) ops

theorem mem_ids_of_latest {id : OrderId} {past : List IndexOp} (h : (latest id past).isSome) :
    id ∈ past.map IndexOp.id := by
  induction past with
  | nil => simp [latest] at h
  | cons op past ih =>
    rw [List.map_cons, List.mem_cons]
    by_cases hid : id = op.id
    · exact Or.inl hid
    · right
      apply ih
      cases op with
      | insert k slot side =>
        have hk : ¬ k = id := fun hk => hid hk.symm
        simpa only [latest, if_neg hk] using h
      | remove k =>
        have hk : ¬ k = id := fun hk => hid hk.symm
        simpa only [latest, if_neg hk] using h
      | lookup k => exact h

theorem mem_storedIds {id : OrderId} {past : List IndexOp} :
    id ∈ storedIds past ↔ (latest id past).isSome := by
  unfold storedIds
  rw [List.mem_filter, List.mem_dedup]
  exact ⟨fun h => h.2, fun h => ⟨mem_ids_of_latest h, h⟩⟩

/-! ## Section 3: The table follows the history -/

namespace OrderIndex

variable {t : OrderIndex} {past : List IndexOp}

/-- A table twice the size of the pool has an entry left. -/
theorem Represents.hasEmpty_of_stored (h : Represents t fun id => latest id past)
    (hstored : (storedIds past).length ≤ kMaxOrders) : HasEmpty layout t.table := by
  have hmem : ∀ p < layout.size, Occ layout t.table p → (t.table p).key ∈ storedIds past := by
    intro p hp hocc
    have hentry := (h.maps (t.table p).key (t.table p)).mpr ⟨p, hp, rfl, hocc, rfl⟩
    rw [mem_storedIds]
    cases hm : latest (t.table p).key past with
    | none => simp [entryOf, hm] at hentry
    | some v => rfl
  -- distinct cells hold distinct ids, numbered by their place among the stored ones
  apply hasEmpty_of_injOn (N := kMaxOrders) fun e => (storedIds past).idxOf e.key
  · decide
  · intro p hp hocc
    exact Nat.lt_of_lt_of_le (List.idxOf_lt_length_of_mem (hmem p hp hocc)) hstored
  · intro p hp q hq hpo hqo heq
    exact h.inv.inj p hp q hq hpo hqo ((List.idxOf_inj (hmem p hp hpo)).mp heq)

/-- One call, on a table that holds what the history says. -/
theorem Represents.apply (h : Represents t fun id => latest id past)
    (hstored : (storedIds past).length ≤ kMaxOrders) (op : IndexOp) (hop : op.Valid) :
    ∃ t', t.apply op = some (answer past op, t') ∧
      Represents t' fun id => latest id (op :: past) := by
  have hne := h.hasEmpty_of_stored hstored
  cases op with
  | insert id slot side =>
    obtain ⟨t', ht', hrep⟩ := h.insert hne id side (Nat.ne_of_lt hop)
    refine ⟨t', by rw [OrderIndex.apply, ht', Option.map_some]; rfl, ?_⟩
    convert hrep using 2 with k
    by_cases hk : k = id
    · subst hk; simp [latest]
    · rw [update_of_ne hk, latest, if_neg fun hc => hk hc.symm]
  | remove id =>
    obtain ⟨t', ht', hrep⟩ := h.remove hne id
    refine ⟨t', by rw [OrderIndex.apply, ht', Option.map_some]; rfl, ?_⟩
    convert hrep using 2 with k
    by_cases hk : k = id
    · subst hk; simp [latest]
    · rw [update_of_ne hk, latest, if_neg fun hc => hk hc.symm]
  | lookup id =>
    refine ⟨t, ?_, h⟩
    rw [OrderIndex.apply, h.lookup hne id, Option.map_some]
    rfl

theorem Represents.run (ops : List IndexOp) :
    ∀ {t : OrderIndex} {past : List IndexOp}, (Represents t fun id => latest id past) →
      (∀ op ∈ ops, op.Valid) →
      (∀ k ≤ ops.length, (storedIds ((ops.take k).reverse ++ past)).length ≤ kMaxOrders) →
      ∃ t', t.run ops = some (answers past ops, t') ∧
        Represents t' fun id => latest id (ops.reverse ++ past) := by
  induction ops with
  | nil =>
    intro t past h _ _
    exact ⟨t, rfl, h⟩
  | cons op ops ih =>
    intro t past h hvalid hstored
    obtain ⟨t₁, happly, h₁⟩ := h.apply (hstored 0 (Nat.zero_le _)) op (hvalid op (by simp))
    have hstored₁ : ∀ k ≤ ops.length,
        (storedIds ((ops.take k).reverse ++ op :: past)).length ≤ kMaxOrders := by
      intro k hk
      have := hstored (k + 1) (Nat.succ_le_succ hk)
      simpa using this
    obtain ⟨t', hrun, h'⟩ := ih h₁ (fun x hx => hvalid x (by simp [hx])) hstored₁
    refine ⟨t', ?_, by simpa using h'⟩
    simp only [OrderIndex.run, happly, Option.bind_some, hrun, Option.map_some, answers]

end OrderIndex

/-- From `init`, while at most `kMaxOrders` ids are stored, every sequence of
    calls ends, insertions succeed, removals and lookups answer as the history
    says, and so does a lookup of any id afterwards. -/
theorem index_is_finite_map (ops : List IndexOp) (hvalid : ∀ op ∈ ops, op.Valid)
    (hstored : ∀ k ≤ ops.length, (storedIds (ops.take k).reverse).length ≤ kMaxOrders) :
    ∃ t, OrderIndex.init.run ops = some (answers [] ops, t) ∧
      ∀ id, t.lookup id = some (latest id ops.reverse) := by
  have hstart : OrderIndex.Represents OrderIndex.init fun id => latest id [] :=
    OrderIndex.represents_init
  obtain ⟨t, hrun, h⟩ := OrderIndex.Represents.run ops hstart hvalid (by simpa using hstored)
  rw [List.append_nil] at h
  have hall := hstored ops.length (Nat.le_refl _)
  rw [List.take_length] at hall
  exact ⟨t, hrun, h.lookup (h.hasEmpty_of_stored hall)⟩

/-- The ids 0 and 1 have the same home; removing the first moves the second
    there. -/
theorem index_colliding_ids :
    let ops : List IndexOp := [.insert 0 5 0, .insert 1 6 1, .remove 0, .remove 0]
    OrderIndex.hash 0 = OrderIndex.hash 1 ∧
    ∃ t, OrderIndex.init.run ops =
        some ([.inserted true, .inserted true, .removed true, .removed false], t) ∧
      t.lookup 0 = some none ∧ t.lookup 1 = some (some (6, 1)) := by
  intro ops
  refine ⟨by decide, ?_⟩
  obtain ⟨t, hrun, hlookup⟩ := index_is_finite_map ops (by decide) (by decide +kernel)
  exact ⟨t, hrun, hlookup 0, hlookup 1⟩

end OptionsEngine.OrderBook
