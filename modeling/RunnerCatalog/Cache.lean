/-
  The runners that are known so far.

  The cache has one entry for each runner that was asked for: the runner itself, or the
  knowledge that it has no document.  Runners in the cache are linked: each names the one that
  it extends.  `Cache.walkInto` follows these links and tells whether they lead into a given
  list of runners.
-/
import RunnerCatalog.Notice
import RunnerCatalog.Runner

namespace RunnerCatalog

/-- What is known about a runner. -/
inductive Entry
  /-- The runner. -/
  | loaded (runner : Runner)
  /-- There is no document for it. -/
  | missing
  deriving DecidableEq

/-- What is known so far, by name. -/
abbrev Cache := OrderedMap String Entry

/-- The result of an operation on a cache: its value, the cache afterwards, and what happened
    on the way. -/
structure Answer (α : Type) where
  value : α
  cache : Cache
  trace : List Event

/-- The runner of an entry. -/
def Entry.runner? : Entry → Option Runner
  | loaded r => some r
  | missing => none

namespace Cache

/-- The runner known by a name. -/
def loaded? (cache : Cache) (id : String) : Option Runner := (cache.get? id).bind Entry.runner?

/-- The link from a known runner to the one that it extends. -/
def link? (cache : Cache) (id : String) : Option String := (cache.loaded? id).bind Runner.parent

/-- Store a runner under its name. -/
def store (cache : Cache) (r : Runner) : Cache := cache.insert r.name (.loaded r)

/-- Store runners from left to right. -/
def storeAll (cache : Cache) (rs : List Runner) : Cache := rs.foldl store cache

/-- The names of the known runners that satisfy `p`, in the order of the cache. -/
def idsWhere (cache : Cache) (p : String → Runner → Bool) : List String :=
  cache.entries.filterMap fun e =>
    match e.2 with
    | .loaded r => if p e.1 r then some e.1 else none
    | .missing => none

/-- The names of the runners that are known to have no document. -/
def missingIds (cache : Cache) : List String :=
  cache.entries.filterMap fun e =>
    match e.2 with
    | .loaded _ => none
    | .missing => some e.1

/-- The names of the known runners, sorted. -/
def runnerIds (cache : Cache) : List String :=
  (cache.idsWhere fun _ _ => true).mergeSort (fun a b => !decide (b < a))

/-! ## The view -/

theorem loaded?_eq_some_iff {cache : Cache} {id : String} {r : Runner} :
    cache.loaded? id = some r ↔ cache.get? id = some (.loaded r) := by
  rw [loaded?, Option.bind_eq_some_iff]
  constructor
  · rintro ⟨e, he, hr⟩
    cases e with
    | loaded s => cases hr; exact he
    | missing => cases hr
  · intro h
    exact ⟨.loaded r, h, rfl⟩

/-- A name has one runner at most. -/
theorem loaded_inj {cache : Cache} {id : String} {r s : Runner}
    (hr : cache.get? id = some (.loaded r)) (hs : cache.get? id = some (.loaded s)) : r = s := by
  injection hr.symm.trans hs with hsome
  injection hsome

/-- A name with an entry is known. -/
theorem known_of_get? {cache : Cache} {id : String} {e : Entry} (h : cache.get? id = some e) :
    cache.get? id ≠ none :=
  Option.ne_none_iff_exists'.mpr ⟨e, h⟩

theorem link?_eq_some_iff {cache : Cache} {id parent : String} :
    cache.link? id = some parent ↔
      ∃ r, cache.get? id = some (.loaded r) ∧ r.parent = some parent := by
  rw [link?, Option.bind_eq_some_iff]
  simp only [loaded?_eq_some_iff]

theorem link?_of_get? {cache : Cache} {id : String} {r : Runner}
    (h : cache.get? id = some (.loaded r)) : cache.link? id = r.parent := by
  rw [link?, loaded?_eq_some_iff.mpr h, Option.bind_some]

theorem link?_of_missing {cache : Cache} {id : String} (h : cache.get? id = some .missing) :
    cache.link? id = none := by
  rw [link?, loaded?, h]
  rfl

theorem link?_of_none {cache : Cache} {id : String} (h : cache.get? id = none) :
    cache.link? id = none := by
  rw [link?, loaded?, h]
  rfl

/-- Where links end: at a name that is not known, has no document, or extends nothing. -/
theorem link?_eq_none_iff {cache : Cache} {id : String} :
    cache.link? id = none ↔ cache.get? id = none ∨ cache.get? id = some .missing ∨
      ∃ r, cache.get? id = some (.loaded r) ∧ r.parent = none := by
  cases h : cache.get? id with
  | none => exact iff_of_true (link?_of_none h) (.inl rfl)
  | some e =>
    cases e with
    | missing => exact iff_of_true (link?_of_missing h) (.inr (.inl rfl))
    | loaded r =>
      rw [link?_of_get? h]
      constructor
      · intro hp
        exact .inr (.inr ⟨r, rfl, hp⟩)
      · rintro (hnone | hmissing | ⟨s, hs, hp⟩)
        · cases hnone
        · cases hmissing
        · cases hs
          exact hp

/-- Who has a link is known. -/
theorem mem_keys_of_link? {cache : Cache} {id : String} (h : cache.link? id ≠ none) :
    id ∈ cache.keys := by
  obtain ⟨parent, hp⟩ := Option.ne_none_iff_exists'.mp h
  obtain ⟨r, hr, -⟩ := link?_eq_some_iff.mp hp
  exact OrderedMap.mem_keys_of_get? hr

/-- The link of a name depends on its entry alone. -/
theorem link?_congr {cache cache' : Cache} {id : String} (h : cache'.get? id = cache.get? id) :
    cache'.link? id = cache.link? id := by
  rw [link?, link?, loaded?, loaded?, h]

theorem mem_idsWhere {cache : Cache} {p : String → Runner → Bool} {id : String} :
    id ∈ cache.idsWhere p ↔ ∃ r, cache.get? id = some (.loaded r) ∧ p id r = true := by
  rw [idsWhere, List.mem_filterMap]
  constructor
  · rintro ⟨⟨k, e⟩, he, h⟩
    cases e with
    | loaded r =>
      obtain ⟨hp, rfl⟩ : p k r = true ∧ k = id := by
        simpa only [Option.ite_none_right_eq_some, Option.some.injEq] using h
      exact ⟨r, OrderedMap.get?_eq_some_iff.mpr he, hp⟩
    | missing => cases h
  · rintro ⟨r, hr, hp⟩
    exact ⟨(id, .loaded r), OrderedMap.get?_eq_some_iff.mp hr, if_pos hp⟩

theorem mem_missingIds {cache : Cache} {id : String} :
    id ∈ cache.missingIds ↔ cache.get? id = some .missing := by
  rw [missingIds, List.mem_filterMap]
  constructor
  · rintro ⟨⟨k, e⟩, he, h⟩
    cases e with
    | loaded r => cases h
    | missing =>
      obtain rfl : k = id := Option.some.inj h
      exact OrderedMap.get?_eq_some_iff.mpr he
  · intro h
    exact ⟨(id, .missing), OrderedMap.get?_eq_some_iff.mp h, rfl⟩

/-- Names that are picked from the cache come once each. -/
theorem nodup_filterMap_entries (cache : Cache) {f : String × Entry → Option String}
    (hf : ∀ e id, f e = some id → e.1 = id) : (cache.entries.filterMap f).Nodup := by
  have hsub : ∀ l : List (String × Entry), (l.filterMap f).Sublist (l.map Prod.fst) := by
    intro l
    induction l with
    | nil => exact List.Sublist.slnil
    | cons e r ih =>
      cases h : f e with
      | none => rw [List.filterMap_cons_none h]; exact ih.cons _
      | some id =>
        rw [List.filterMap_cons_some h, List.map_cons, hf e id h]
        exact ih.cons_cons _
  exact cache.nodup.sublist (hsub cache.entries)

theorem nodup_idsWhere (cache : Cache) (p : String → Runner → Bool) :
    (cache.idsWhere p).Nodup := by
  refine nodup_filterMap_entries cache ?_
  rintro ⟨k, e⟩ id h
  cases e with
  | loaded r =>
    simp only [Option.ite_none_right_eq_some, Option.some.injEq] at h
    exact h.2
  | missing => cases h

/-! ## Following links -/

/-- Follow links from `id` for at most `steps` steps, until a member of `chain` is reached.
    The answer is the walk, from `id` to that member. -/
def walkWithin (cache : Cache) (chain : List String) : Nat → String → Option (List String)
  | 0, id => if id ∈ chain then some [id] else none
  | steps + 1, id =>
    if id ∈ chain then some [id]
    else
      match cache.link? id with
      | none => none
      | some next => (walkWithin cache chain steps next).map (id :: ·)

/-- Follow links from `id` until a member of `chain` is reached.  A walk that gets there at
    all gets there within as many steps as the cache has entries: a longer one would pass
    the same runner twice. -/
def walkInto (cache : Cache) (chain : List String) (id : String) : Option (List String) :=
  cache.walkWithin chain cache.size id

end Cache

end RunnerCatalog
