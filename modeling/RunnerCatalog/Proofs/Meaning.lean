/-
  What a runner means.

  The meaning of a runner is read off the documents alone: the runners that extend each other,
  from the runner itself up to the last one (`Source.Chain`), laid over each other from the top
  down (`layered`).

  1. **Chains** - a chain is finite, so no name occurs twice in it, and a runner has one if and
     only if its way comes to no cycle (`Source.exists_chain_iff`).

  2. **Layers** - a command of a layered runner is that of the nearest member of the chain that
     declares it (`lookup_layered`).

  3. **Cached runners** - in a coherent cache that is faithful to the documents, runners with a
     chain have its layers, and runners on a cycle have what they declare
     (`Cache.scopes_of_chain`, `Cache.scopes_of_cycle`).
-/
import RunnerCatalog.Proofs.Faithful

namespace RunnerCatalog

open Links

/-! ## Chains -/

namespace Source

/-- The runners from `id` upwards, each as its own document has it: the last one extends nothing,
    or a name without a document. -/
inductive Chain (source : Source) : String → List Runner → Prop
  | last {id : String} {r : Runner} (hr : source.own? id = some r) (hp : r.parent = none) :
      Chain source id [r]
  | orphan {id parent : String} {r : Runner} (hr : source.own? id = some r)
      (hp : r.parent = some parent) (hnone : source.own? parent = none) : Chain source id [r]
  | extend {id parent : String} {r : Runner} {above : List Runner}
      (hr : source.own? id = some r) (hp : r.parent = some parent)
      (habove : Chain source parent above) : Chain source id (r :: above)

variable {source : Source} {id : String} {rs : List Runner}

/-- A chain begins with the runner itself. -/
theorem Chain.own? (h : source.Chain id rs) : ∃ r above, rs = r :: above ∧
    source.own? id = some r := by
  cases h with
  | last hr => exact ⟨_, _, rfl, hr⟩
  | orphan hr => exact ⟨_, _, rfl, hr⟩
  | extend hr => exact ⟨_, _, rfl, hr⟩

theorem Chain.not_entersCycle (h : source.Chain id rs) : ¬ EntersCycle source.link? id := by
  induction h with
  | last hr hp => exact not_entersCycle_of_none ((link?_of_own? hr).trans hp)
  | orphan hr hp hnone =>
    rw [entersCycle_iff_step ((link?_of_own? hr).trans hp)]
    exact not_entersCycle_of_none (link?_of_none hnone)
  | extend hr hp _ ih =>
    rw [entersCycle_iff_step ((link?_of_own? hr).trans hp)]
    exact ih

/-- A climb from scratch finds the chain, since its steps end. -/
theorem exists_chain_of_ascends {waiting : List Runner} {c : Climb} {r : Runner}
    (h : Ascends source OrderedMap.empty waiting id c) (hr : source.own? id = some r)
    (hwait : ∀ w ∈ waiting, LeadsTo source.link? w.name id)
    (henters : ¬ EntersCycle source.link? id) : ∃ rs, source.Chain id rs := by
  induction h generalizing r with
  | @cycle waiting id walk hw =>
    -- nothing is cached, so the walk is at its end where it begins
    obtain ⟨z, hz, hreach⟩ :=
      (Cache.walkInto_isSome_iff _ _ _).mp (Option.isSome_of_eq_some hw)
    obtain rfl := hreach.eq_of_none rfl
    obtain ⟨w, hw, hname⟩ := List.mem_map.mp (mem_chainOf.mp hz)
    have hcycle := hwait w hw
    rw [hname] at hcycle
    exact absurd (OnCycle.entersCycle hcycle) henters
  | known hw hq => cases hq
  | missing hw hm => cases hm
  | failed hw hn hl =>
    obtain ⟨-, -, d, hd, -⟩ := own?_eq_some hr
    rw [hl] at hd
    cases hd
  | absent hw hn hl =>
    rw [own?_of_absent hl] at hr
    cases hr
  | unusable hw hn hl hload =>
    rw [own?_of_unusable hl hload] at hr
    cases hr
    exact ⟨_, .last (own?_of_unusable hl hload) rfl⟩
  | base hw hn hl hload hp => exact ⟨_, .last (own?_of_load hl hload) hp⟩
  | @step waiting id parent d s c hw hn hl hload hp _ ih =>
    have hs := own?_of_load hl hload
    have hlink : source.link? id = some parent := (link?_of_own? hs).trans hp
    cases hq : source.own? parent with
    | none => exact ⟨_, .orphan hs hp hq⟩
    | some q =>
      have hlead : ∀ w ∈ s :: waiting, LeadsTo source.link? w.name parent := by
        intro w hmem
        rcases List.mem_cons.mp hmem with rfl | hmem
        · rw [(load_eq_ok hload).1]
          exact .single hlink
        · exact (hwait w hmem).tail hlink
      obtain ⟨rs, hrs⟩ := ih hq hlead (fun h => henters ((entersCycle_iff_step hlink).mpr h))
      exact ⟨_, .extend hs hp hrs⟩

/-- **Chains exist** where there is a document and no cycle. -/
theorem exists_chain_iff :
    (∃ rs, source.Chain id rs) ↔ source.own? id ≠ none ∧ ¬ EntersCycle source.link? id := by
  constructor
  · rintro ⟨rs, h⟩
    obtain ⟨r, above, -, hr⟩ := h.own?
    exact ⟨Option.ne_none_iff_exists'.mpr ⟨r, hr⟩, h.not_entersCycle⟩
  · rintro ⟨hown, henters⟩
    obtain ⟨r, hr⟩ := Option.ne_none_iff_exists'.mp hown
    exact exists_chain_of_ascends (climb_ascends source OrderedMap.empty [] id) hr
      (fun w hw => absurd hw List.not_mem_nil) henters

end Source

/-! ## Layers -/

/-- What runners declare, laid over each other: the last one of the list is at the bottom. -/
def layered (rs : List Runner) : ScopeMap :=
  (rs.map Runner.declared).reverse.foldl mergeScopes OrderedMap.empty

theorem layered_cons (r : Runner) (rs : List Runner) :
    layered (r :: rs) = mergeScopes (layered rs) r.declared := by
  rw [layered, List.map_cons, List.reverse_cons, List.foldl_append]
  rfl

theorem layered_singleton (r : Runner) : layered [r] = r.declared :=
  (layered_cons r []).trans (mergeScopes_empty_left r.declared)

/-- The nearest runner that declares a command decides. -/
theorem lookup_layered (rs : List Runner) (scope key : String) :
    (layered rs).lookup scope key = rs.findSome? fun r => r.declared.lookup scope key := by
  induction rs with
  | nil => rfl
  | cons r rs ih =>
    rw [layered_cons, lookup_mergeScopes, ih, List.findSome?_cons]
    cases r.declared.lookup scope key <;> rfl

/-! ## Cached runners -/

namespace Cache

variable {source : Source} {cache : Cache} {id : String} {r : Runner}

/-- A cached runner with a chain has the layers of its chain. -/
theorem scopes_of_chain (hf : cache.Faithful source) (hc : cache.Coherent) {rs : List Runner}
    (h : source.Chain id rs) (hr : cache.get? id = some (.loaded r)) : r.scopes = layered rs := by
  have henters : ¬ EntersCycle cache.link? id :=
    fun henters => h.not_entersCycle (hf.entersCycle henters)
  induction h generalizing r with
  | last hown hp =>
    obtain rfl := Option.some.inj (hown.symm.trans (hf.own? hr))
    rw [layered_singleton]
    exact (hc _ r hr).base hp
  | @orphan id parent s hown hp hnone =>
    obtain rfl := Option.some.inj (hown.symm.trans (hf.own? hr))
    obtain ⟨e, he⟩ := (hc id r hr).known parent hp
    have hbare := (hf parent e he).trans hnone
    rw [layered_singleton]
    cases e with
    | loaded q => cases hbare
    | missing => exact (hc id r hr).orphan parent hp he
  | @extend id parent s above hown hp habove ih =>
    obtain rfl := Option.some.inj (hown.symm.trans (hf.own? hr))
    obtain ⟨e, he⟩ := (hc id r hr).known parent hp
    obtain ⟨q, rest, -, hq⟩ := habove.own?
    have hbare := (hf parent e he).trans hq
    cases e with
    | missing => cases hbare
    | loaded t =>
      have hlink : cache.link? id = some parent := (link?_of_get? hr).trans hp
      have ht := ih he (fun h => henters ((entersCycle_iff_step hlink).mpr h))
      rw [layered_cons, (hc id r hr).merged parent t hp henters he, ht]
      rfl

/-- A cached runner on a cycle of the documents has what it declares. -/
theorem scopes_of_cycle (hf : cache.Faithful source) (hc : cache.Coherent)
    (h : OnCycle source.link? id) (hr : cache.get? id = some (.loaded r)) :
    r.scopes = r.declared := by
  have hknown := (coherentUpTo_nil_iff.mpr ⟨hf.filed, hc⟩).known
  have hsame := hf.sameFrom hknown (known_of_get? hr)
  exact (hc id r hr).cycle ((onCycle_congr hsame).mp h)

end Cache

/-- **The meaning of a runner** that is asked for when nothing is known yet.  With a chain, it is
    as its document says, with the scopes of the chain laid over each other, so that the nearest
    member that declares a command decides; on a cycle, it has what its document declares. -/
theorem resolve_meaning (source : Source) (hsource : source.Searchable) (id : String) :
    (∀ rs, source.Chain id rs → ∃ r own, rs.head? = some own ∧
      (Cache.resolve source OrderedMap.empty id).value = some r ∧ r.detach = own ∧
        r.scopes = layered rs ∧
        ∀ scope name, r.command? scope name =
          rs.findSome? fun s => s.declared.lookup scope (Text.uppercase name)) ∧
    (OnCycle source.link? id → ∃ r own, source.own? id = some own ∧
      (Cache.resolve source OrderedMap.empty id).value = some r ∧ r.scopes = own.declared ∧
        r.parent = own.parent ∧ r.document = own.document) := by
  have hf := (Cache.faithful_empty source).resolve id
  have hc := (Cache.coherentUpTo_nil_iff.mp
    (Cache.coherentUpTo_empty.resolve hsource id)).2
  have hvalue := (Cache.faithful_empty source).resolve_value hsource id
  constructor
  · intro rs hchain
    obtain ⟨own, above, rfl, hown⟩ := hchain.own?
    obtain ⟨r, hr, hdetach⟩ := Option.map_eq_some_iff.mp (hvalue.trans hown)
    have hscopes := Cache.scopes_of_chain hf hc hchain (Cache.resolve_value_eq_some.mp hr)
    refine ⟨r, own, rfl, hr, hdetach, hscopes, fun scope name => ?_⟩
    rw [← lookup_layered, ← hscopes]
    rfl
  · intro hcycle
    obtain ⟨own, hown⟩ : ∃ own, source.own? id = some own := by
      refine Option.ne_none_iff_exists'.mp (fun hnone => ?_)
      exact not_leadsTo_of_none (Source.link?_of_none hnone) hcycle
    obtain ⟨r, hr, hdetach⟩ := Option.map_eq_some_iff.mp (hvalue.trans hown)
    subst hdetach
    have hscopes := Cache.scopes_of_cycle hf hc hcycle (Cache.resolve_value_eq_some.mp hr)
    exact ⟨r, r.detach, hown, hr, hscopes, rfl, rfl⟩

/-- A chain of two. -/
theorem resolve_meaning_pair :
    let shelf : Shelf := ⟨OrderedMap.ofList [
      ("a", "\x7b\"commands\": \x7b\"GO\": \x7b\x7d\x7d\x7d"),
      ("b", "\x7b\"extends\": \"a\", \"commands\": \x7b\"STOP\": \x7b\x7d\x7d\x7d")], []⟩
    ∃ rs r, shelf.source.Chain "b" rs ∧
      (Cache.resolve shelf.source OrderedMap.empty "b").value = some r ∧ r.scopes = layered rs := by
  intro shelf
  have hb : shelf.source.link? "b" = some "a" := by decide +kernel
  have ha : shelf.source.link? "a" = none := by decide +kernel
  have henters : ¬ EntersCycle shelf.source.link? "b" := by
    rw [entersCycle_iff_step hb]
    exact not_entersCycle_of_none ha
  have hown : shelf.source.own? "b" ≠ none := by decide +kernel
  obtain ⟨rs, hrs⟩ := Source.exists_chain_iff.mpr ⟨hown, henters⟩
  obtain ⟨r, -, -, hr, -, hscopes, -⟩ :=
    (resolve_meaning shelf.source (Shelf.searchable rfl) "b").1 rs hrs
  exact ⟨rs, r, hrs, hr, hscopes⟩

end RunnerCatalog
