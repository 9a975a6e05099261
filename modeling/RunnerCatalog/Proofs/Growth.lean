/-
  What a climb adds to the cache.

  1. **Which names** - a climb from `id` adds `id` itself and names that documents extend
     (`Ascent.added_mem`), all of them on the way from `id` (`Ascent.reaches_of_new`).

  2. **How many** - it adds nothing if `id` is known already, and otherwise no more names than
     there are texts, and one (`Ascent.size_settle`).

  3. **Under which name** - runners stay under their own names (`Cache.Filed`).
-/
import RunnerCatalog.Proofs.Settle

namespace RunnerCatalog

open Links

/-- Own runners extend names that texts of the source have. -/
theorem Source.parent_mem_parents {source : Source} {id parent : String} {r : Runner}
    (h : source.own? id = some r) (hp : r.parent = some parent) : parent ∈ source.parents := by
  unfold own? at h
  split at h
  · next d hl =>
    split at h
    · next s hs =>
      cases h
      exact (load_eq_ok hs).2.2.2 parent hp
    · cases h
      cases hp
  · cases h

/-- Every runner is known under its own name. -/
def Cache.Filed (cache : Cache) : Prop := ∀ id r, cache.get? id = some (.loaded r) → r.name = id

theorem Cache.filed_empty : Cache.Filed OrderedMap.empty := fun _ _ h => nomatch h

namespace Ascent

variable {source : Source} {cache : Cache} {start : List Runner} {id : String}
  {fresh : List Runner} {c : Climb}

theorem filed (h : Ascent source cache start id fresh c) (hc : cache.Filed) :
    (c.settle cache).Filed := by
  intro k r hk
  rcases c.touched cache k with ⟨s, hs, rfl⟩ | ⟨e, he⟩ | hsame
  · rw [h.get?_linked hs] at hk
    cases hk
    rfl
  · rw [h.get?_learned he] at hk
    cases hk
    obtain ⟨-, -, -, ⟨hm, -⟩ | ⟨d, hd, -⟩⟩ := h.of_mem_learned he
    · cases hm
    · cases hd
      rfl
  · exact hc k r (hsame.symm.trans hk)

/-! ## New names -/

/-- What is added was loaded on the way, or something was learned about it. -/
theorem added_of_new (h : Ascent source cache start id fresh c)
    (hstart : ∀ r ∈ start, cache.get? r.name ≠ none) {k : String} (hk : cache.get? k = none)
    (hk' : (c.settle cache).get? k ≠ none) :
    k ∈ c.learned.map Prod.fst ++ fresh.map Runner.name := by
  by_contra hadded
  rw [List.mem_append, not_or] at hadded
  refine hk' ((c.get?_untouched hadded.1 (fun hw => ?_)).trans hk)
  rw [h.waiting_eq, List.map_append, List.mem_append] at hw
  obtain ⟨r, hr, rfl⟩ := List.mem_map.mp (hw.resolve_left hadded.2)
  exact hstart r hr hk

/-- Of the names that are added, `id` is the first. -/
theorem id_of_added (h : Ascent source cache start id fresh c) {k : String}
    (hk : k ∈ c.learned.map Prod.fst ++ fresh.map Runner.name) :
    cache.get? id = none ∧ (c.settle cache).get? id ≠ none ∧
      Reaches (c.settle cache).link? id k := by
  cases hfresh : fresh.getLast? with
  | none =>
    obtain rfl := List.getLast?_eq_none_iff.mp hfresh
    rw [List.map_nil, List.append_nil] at hk
    obtain ⟨⟨k, e⟩, he, rfl⟩ := List.mem_map.mp hk
    obtain ⟨hnone, hsought, -, -⟩ := h.of_mem_learned he
    obtain rfl := h.stay rfl k hsought
    exact ⟨hnone, Cache.known_of_get? (h.get?_learned he), .refl⟩
  | some r =>
    obtain rfl := h.first r hfresh
    obtain ⟨upper, rfl⟩ := List.getLast?_eq_some_iff.mp hfresh
    have hw : r ∈ c.waiting := by
      rw [h.waiting_eq]
      simp
    obtain ⟨s, -, -, hget⟩ := h.get?_waiting hw
    refine ⟨(h.own r (by simp)).2, Cache.known_of_get? hget, ?_⟩
    rcases List.mem_append.mp hk with hk | hk
    · obtain ⟨⟨k, e⟩, he, rfl⟩ := List.mem_map.mp hk
      exact (h.leadsTo_sought (h.of_mem_learned he).2.1 hw).to_reflTransGen
    · obtain ⟨u, hu, rfl⟩ := List.mem_map.mp hk
      rcases List.mem_append.mp hu with hu | hu
      · have hpair := h.pairwise_leadsTo
        rw [h.waiting_eq, List.append_assoc, List.singleton_append, List.pairwise_append] at hpair
        exact (hpair.2.2 u hu r List.mem_cons_self).to_reflTransGen
      · obtain rfl := List.mem_singleton.mp hu
        exact .refl

/-- **New names are on the way** from the name that was asked for. -/
theorem reaches_of_new (h : Ascent source cache start id fresh c)
    (hstart : ∀ r ∈ start, cache.get? r.name ≠ none) {k : String} (hk : cache.get? k = none)
    (hk' : (c.settle cache).get? k ≠ none) : Reaches (c.settle cache).link? id k :=
  (h.id_of_added (h.added_of_new hstart hk hk')).2.2

/-- All added names but `id` are extended by some text. -/
theorem added_mem (h : Ascent source cache start id fresh c) {k : String}
    (hk : k ∈ c.learned.map Prod.fst ++ fresh.map Runner.name) : k ∈ id :: source.parents := by
  rcases List.mem_append.mp hk with hk | hk
  · obtain ⟨⟨k, e⟩, he, rfl⟩ := List.mem_map.mp hk
    have hsought := (h.of_mem_learned he).2.1
    cases hf : fresh with
    | nil => exact h.stay hf k hsought ▸ List.mem_cons_self
    | cons r rest =>
      rw [Climb.sought, h.waiting_eq, hf] at hsought
      have hown := h.own r (hf ▸ List.mem_cons_self)
      exact List.mem_cons_of_mem _ (Source.parent_mem_parents hown.1 hsought)
  · obtain ⟨r, hr, rfl⟩ := List.mem_map.mp hk
    obtain ⟨upper, lower, rfl⟩ := List.append_of_mem hr
    cases lower with
    | nil => exact h.first r (by simp) ▸ List.mem_cons_self
    | cons b lower =>
      have hchain := h.chain
      rw [h.waiting_eq, List.append_assoc] at hchain
      have hext : b.parent = some r.name := (List.isChain_append_cons_cons.mp hchain).2.1
      have hown := h.own b (by simp)
      exact List.mem_cons_of_mem _ (Source.parent_mem_parents hown.1 hext)

/-! ## Size -/

/-- **Growth**: the cache gets larger only if `id` was unknown and is known afterwards, and then
    by a bounded number of entries. -/
theorem size_settle (h : Ascent source cache start id fresh c)
    (hstart : ∀ r ∈ start, cache.get? r.name ≠ none) :
    (c.settle cache).size ≤ cache.size ∨
      cache.get? id = none ∧ (c.settle cache).get? id ≠ none ∧
        (c.settle cache).size ≤ cache.size + source.texts.length + 1 := by
  have hkeys : (c.settle cache).keys ⊆
      cache.keys ++ (c.learned.map Prod.fst ++ fresh.map Runner.name) := by
    intro k hk
    by_cases hk₀ : k ∈ cache.keys
    · exact List.mem_append_left _ hk₀
    · have hnone := OrderedMap.get?_eq_none_iff.mpr hk₀
      refine List.mem_append_right _ (h.added_of_new hstart hnone ?_)
      exact fun hnone => OrderedMap.get?_eq_none_iff.mp hnone hk
  have hsize := (List.Nodup.subperm (c.settle cache).nodup hkeys).length_le
  have hadded : (c.learned.map Prod.fst ++ fresh.map Runner.name).Nodup := by
    have hall := h.nodup_entries
    rw [Climb.keys_entries, h.waiting_eq, List.map_append, ← List.append_assoc] at hall
    exact (List.nodup_append.mp hall).1
  have hle := (hadded.subperm (fun k hk => h.added_mem hk)).length_le
  have htexts := source.length_parents_le
  rw [List.length_append] at hsize
  change (c.settle cache).keys.length ≤ _ at hsize
  rw [OrderedMap.length_keys, OrderedMap.length_keys] at hsize
  rw [List.length_cons] at hle
  cases hl : c.learned.map Prod.fst ++ fresh.map Runner.name with
  | nil =>
    rw [hl, List.length_nil] at hsize
    exact .inl hsize
  | cons k rest =>
    obtain ⟨hnone, hknown, -⟩ := h.id_of_added (hl ▸ List.mem_cons_self (a := k))
    exact .inr ⟨hnone, hknown, by omega⟩

end Ascent

end RunnerCatalog
