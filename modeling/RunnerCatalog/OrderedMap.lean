/-
  Maps that remember the order in which their keys arrived.

  Schemas are written by people, and completion lists show scopes and commands in the order
  in which the schema names them.  So the maps of this library are lists of entries: a new key
  goes to the end, and a key that is there already keeps its place and takes the new value.
  No key occurs twice, and the type says so (`OrderedMap.nodup`); two maps are equal exactly
  when they list the same entries in the same order.

  The view of a map is `get?`, and each operation has one lemma that says what it does to the
  view (`get?_insert`, `get?_erase`, `get?_filter`, `get?_insertAll_of_mem` and its companion),
  and one for the keys (`keys_insert`).
-/

namespace RunnerCatalog

/-! ## Entry lists -/

/-- The first value stored under `k`. -/
def lookupEntry {κ α : Type} [DecidableEq κ] (k : κ) : List (κ × α) → Option α
  | [] => none
  | e :: r => if e.1 = k then some e.2 else lookupEntry k r

/-- Replace the value under `k` where it stands, or add `k` at the end. -/
def putEntry {κ α : Type} [DecidableEq κ] (k : κ) (v : α) : List (κ × α) → List (κ × α)
  | [] => [(k, v)]
  | e :: r => if e.1 = k then (k, v) :: r else e :: putEntry k v r

theorem keys_putEntry {κ α : Type} [DecidableEq κ] (k : κ) (v : α) (l : List (κ × α)) :
    (putEntry k v l).map Prod.fst =
      if k ∈ l.map Prod.fst then l.map Prod.fst else l.map Prod.fst ++ [k] := by
  induction l with
  | nil => rfl
  | cons e r ih =>
    by_cases h : e.1 = k
    · simp [putEntry, h]
    · have h' : ¬ k = e.1 := fun hk => h hk.symm
      by_cases hm : k ∈ r.map Prod.fst
      · rw [if_pos hm] at ih
        have hm' : k ∈ (e :: r).map Prod.fst := List.mem_cons_of_mem _ hm
        rw [if_pos hm']
        simp only [putEntry, if_neg h, List.map_cons, ih]
      · rw [if_neg hm] at ih
        have hm' : k ∉ (e :: r).map Prod.fst := by
          rw [List.map_cons, List.mem_cons]
          rintro (hk | hk)
          · exact h' hk
          · exact hm hk
        rw [if_neg hm']
        simp only [putEntry, if_neg h, List.map_cons, ih, List.cons_append]

theorem nodup_keys_putEntry {κ α : Type} [DecidableEq κ] (k : κ) (v : α) {l : List (κ × α)}
    (h : (l.map Prod.fst).Nodup) : ((putEntry k v l).map Prod.fst).Nodup := by
  rw [keys_putEntry]
  split
  · exact h
  · next hk =>
    rw [List.nodup_append]
    refine ⟨h, by simp, ?_⟩
    intro a ha b hb hab
    rw [List.mem_singleton] at hb
    exact hk (hb ▸ hab ▸ ha)

theorem lookupEntry_putEntry {κ α : Type} [DecidableEq κ] (k : κ) (v : α) (l : List (κ × α))
    (k' : κ) :
    lookupEntry k' (putEntry k v l) = if k = k' then some v else lookupEntry k' l := by
  induction l with
  | nil => simp [putEntry, lookupEntry]
  | cons e r ih =>
    by_cases h : e.1 = k
    · by_cases hk : k = k' <;> simp [putEntry, lookupEntry, h, hk]
    · by_cases he : e.1 = k'
      · have hk : ¬ k = k' := fun hk => h (he.trans hk.symm)
        simp only [putEntry, if_neg h, lookupEntry, if_pos he, if_neg hk]
      · simp [putEntry, lookupEntry, h, he, ih]

theorem lookupEntry_eq_none {κ α : Type} [DecidableEq κ] {k : κ} {l : List (κ × α)}
    (h : k ∉ l.map Prod.fst) : lookupEntry k l = none := by
  induction l with
  | nil => rfl
  | cons e r ih =>
    rw [List.map_cons, List.mem_cons, not_or] at h
    rw [lookupEntry, if_neg (fun he => h.1 he.symm), ih h.2]

/-! ## The type -/

/-- A finite map that lists its entries in the order in which their keys were first added. -/
structure OrderedMap (κ α : Type) where
  /-- The entries, oldest key first. -/
  entries : List (κ × α)
  /-- No key occurs twice. -/
  nodup : (entries.map Prod.fst).Nodup

namespace OrderedMap

variable {κ α : Type}

instance [DecidableEq κ] [DecidableEq α] : DecidableEq (OrderedMap κ α) := fun a b =>
  if h : a.entries = b.entries then
    isTrue (by cases a; cases b; cases h; rfl)
  else
    isFalse (fun hab => h (hab ▸ rfl))

@[ext]
theorem ext {a b : OrderedMap κ α} (h : a.entries = b.entries) : a = b := by
  cases a; cases b; cases h; rfl

/-- The map with no entry. -/
def empty : OrderedMap κ α := ⟨[], List.nodup_nil⟩

instance : Inhabited (OrderedMap κ α) := ⟨empty⟩

/-- The keys, oldest first. -/
def keys (m : OrderedMap κ α) : List κ := m.entries.map Prod.fst

/-- The values, in the order of their keys. -/
def values (m : OrderedMap κ α) : List α := m.entries.map Prod.snd

/-- The number of entries. -/
def size (m : OrderedMap κ α) : Nat := m.entries.length

theorem length_keys (m : OrderedMap κ α) : m.keys.length = m.size := List.length_map ..

variable [DecidableEq κ]

/-- The value under `k`. -/
def get? (m : OrderedMap κ α) (k : κ) : Option α := lookupEntry k m.entries

/-- Whether `k` has a value. -/
def contains (m : OrderedMap κ α) (k : κ) : Bool := (m.get? k).isSome

/-- Set the value under `k`: in place if `k` is known, at the end otherwise. -/
def insert (m : OrderedMap κ α) (k : κ) (v : α) : OrderedMap κ α :=
  ⟨putEntry k v m.entries, nodup_keys_putEntry k v m.nodup⟩

/-- Keep the entries that satisfy `p`. -/
def filter (m : OrderedMap κ α) (p : κ → α → Bool) : OrderedMap κ α :=
  ⟨m.entries.filter (fun e => p e.1 e.2),
    m.nodup.sublist (List.filter_sublist.map Prod.fst)⟩

/-- Remove the entry under `k`. -/
def erase (m : OrderedMap κ α) (k : κ) : OrderedMap κ α :=
  m.filter (fun k' _ => decide (k' ≠ k))

/-- Add the entries of a list from left to right; a later value of a key replaces an earlier
    one in its place. -/
def insertAll (m : OrderedMap κ α) (l : List (κ × α)) : OrderedMap κ α :=
  l.foldl (fun m e => m.insert e.1 e.2) m

/-- The map that a list of entries describes. -/
def ofList (l : List (κ × α)) : OrderedMap κ α := empty.insertAll l

/-- Lay the entries of `upper` over those of `lower`. -/
def override (lower upper : OrderedMap κ α) : OrderedMap κ α := lower.insertAll upper.entries

/-! ## The view -/

@[simp]
theorem get?_empty (k : κ) : (empty : OrderedMap κ α).get? k = none := rfl

@[simp]
theorem get?_insert (m : OrderedMap κ α) (k : κ) (v : α) (k' : κ) :
    (m.insert k v).get? k' = if k = k' then some v else m.get? k' :=
  lookupEntry_putEntry k v m.entries k'

theorem keys_insert (m : OrderedMap κ α) (k : κ) (v : α) :
    (m.insert k v).keys = if k ∈ m.keys then m.keys else m.keys ++ [k] :=
  keys_putEntry k v m.entries

theorem lookupEntry_filter (p : κ → α → Bool) (k : κ) {l : List (κ × α)}
    (h : (l.map Prod.fst).Nodup) :
    lookupEntry k (l.filter fun e => p e.1 e.2) = (lookupEntry k l).filter (p k) := by
  induction l with
  | nil => rfl
  | cons e r ih =>
    rw [List.map_cons, List.nodup_cons] at h
    have hr := ih h.2
    rw [List.filter_cons]
    by_cases he : e.1 = k
    · have hk : lookupEntry k r = none := lookupEntry_eq_none (he ▸ h.1)
      rw [he]
      cases hp : p k e.2
      · rw [if_neg (by simp), hr, hk]
        simp [lookupEntry, Option.filter, he, hp]
      · rw [if_pos rfl]
        simp [lookupEntry, Option.filter, he, hp]
    · cases hp : p e.1 e.2
      · rw [if_neg (by simp), hr]
        simp only [lookupEntry, if_neg he]
      · rw [if_pos rfl]
        simp only [lookupEntry, if_neg he, hr]

theorem get?_filter (m : OrderedMap κ α) (p : κ → α → Bool) (k : κ) :
    (m.filter p).get? k = (m.get? k).filter (p k) :=
  lookupEntry_filter p k m.nodup

theorem get?_erase (m : OrderedMap κ α) (k k' : κ) :
    (m.erase k).get? k' = if k' = k then none else m.get? k' := by
  rw [erase, get?_filter]
  by_cases h : k' = k <;> cases m.get? k' <;> simp [h]

theorem mem_of_lookupEntry {k : κ} {v : α} {l : List (κ × α)} (h : lookupEntry k l = some v) :
    (k, v) ∈ l := by
  induction l with
  | nil => cases h
  | cons e r ih =>
    by_cases he : e.1 = k
    · simp only [lookupEntry, if_pos he, Option.some.injEq] at h
      rw [← he, ← h]
      exact List.mem_cons_self
    · simp only [lookupEntry, if_neg he] at h
      exact List.mem_cons_of_mem _ (ih h)

theorem mem_values_of_get? {m : OrderedMap κ α} {k : κ} {v : α} (h : m.get? k = some v) :
    v ∈ m.values :=
  List.mem_map_of_mem (mem_of_lookupEntry h)

theorem lookupEntry_of_mem {k : κ} {v : α} {l : List (κ × α)} (hl : (l.map Prod.fst).Nodup)
    (h : (k, v) ∈ l) : lookupEntry k l = some v := by
  induction l with
  | nil => cases h
  | cons e r ih =>
    rw [List.map_cons, List.nodup_cons] at hl
    rcases List.mem_cons.mp h with rfl | h
    · rw [lookupEntry, if_pos rfl]
    · have hne : e.1 ≠ k := fun he => hl.1 (he ▸ List.mem_map_of_mem h)
      rw [lookupEntry, if_neg hne, ih hl.2 h]

/-- The view and the list of entries say the same. -/
theorem get?_eq_some_iff {m : OrderedMap κ α} {k : κ} {v : α} :
    m.get? k = some v ↔ (k, v) ∈ m.entries :=
  ⟨mem_of_lookupEntry, lookupEntry_of_mem m.nodup⟩

theorem get?_eq_none_iff {m : OrderedMap κ α} {k : κ} : m.get? k = none ↔ k ∉ m.keys := by
  constructor
  · intro h hk
    obtain ⟨e, he, rfl⟩ := List.mem_map.mp hk
    have hv : m.get? e.1 = some e.2 := get?_eq_some_iff.mpr he
    rw [h] at hv
    cases hv
  · intro h
    exact lookupEntry_eq_none h

theorem mem_keys_of_get? {m : OrderedMap κ α} {k : κ} {v : α} (h : m.get? k = some v) :
    k ∈ m.keys :=
  List.mem_map_of_mem (get?_eq_some_iff.mp h)

/-! ## Adding several entries -/

theorem insertAll_append (m : OrderedMap κ α) (l l' : List (κ × α)) :
    m.insertAll (l ++ l') = (m.insertAll l).insertAll l' :=
  List.foldl_append

theorem get?_insertAll_of_notMem (m : OrderedMap κ α) {l : List (κ × α)} {k : κ}
    (h : k ∉ l.map Prod.fst) : (m.insertAll l).get? k = m.get? k := by
  induction l generalizing m with
  | nil => rfl
  | cons e r ih =>
    rw [List.map_cons, List.mem_cons, not_or] at h
    show ((m.insert e.1 e.2).insertAll r).get? k = m.get? k
    rw [ih _ h.2, get?_insert, if_neg (fun he => h.1 he.symm)]

theorem get?_insertAll_of_mem (m : OrderedMap κ α) {l : List (κ × α)} {k : κ} {v : α}
    (hl : (l.map Prod.fst).Nodup) (h : (k, v) ∈ l) : (m.insertAll l).get? k = some v := by
  induction l generalizing m with
  | nil => cases h
  | cons e r ih =>
    rw [List.map_cons, List.nodup_cons] at hl
    show ((m.insert e.1 e.2).insertAll r).get? k = some v
    rcases List.mem_cons.mp h with rfl | h
    · rw [get?_insertAll_of_notMem _ hl.1, get?_insert, if_pos rfl]
    · exact ih _ hl.2 h

end OrderedMap

end RunnerCatalog
