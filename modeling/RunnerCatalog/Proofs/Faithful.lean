/-
  Caches that say what the documents say.

  A cache is faithful to a source if each entry agrees with the document of its name, inheritance
  apart (`Cache.Faithful`).  Asking for runners and linking them again keeps a cache faithful to a
  source that does not change.

  1. **Links** - known names link to what their documents say, and as far as something is known
     about everybody who is extended, the way from a known name is the same in both
     (`Faithful.sameFrom`).

  2. **Answers** - if no search fails, a request for a runner ends with something known about it
     (`Cache.resolve_known`), which is what its document says (`Faithful.resolve_value`).
-/
import RunnerCatalog.Proofs.Coherence

namespace RunnerCatalog

open Links

/-! ## Agreement with the documents -/

namespace Cache

/-- Each entry agrees with the document of its name, inheritance apart. -/
def Faithful (source : Source) (cache : Cache) : Prop :=
  ∀ id e, cache.get? id = some e → e.bare = source.own? id

theorem faithful_empty (source : Source) : Faithful source OrderedMap.empty :=
  fun _ _ h => nomatch h

end Cache

namespace Cache.Faithful

variable {source : Source} {cache : Cache} {id : String}

theorem own? (h : cache.Faithful source) {r : Runner} (hr : cache.get? id = some (.loaded r)) :
    source.own? id = some r.detach :=
  (h id _ hr).symm

theorem filed (h : cache.Faithful source) : cache.Filed := by
  intro k r hr
  exact (Source.own?_eq_some (h.own? hr)).1

theorem link? (h : cache.Faithful source) (hid : cache.get? id ≠ none) :
    cache.link? id = source.link? id := by
  obtain ⟨e, he⟩ := Option.ne_none_iff_exists'.mp hid
  cases e with
  | loaded r =>
    rw [link?_of_get? he, Source.link?_of_own? (h.own? he)]
    rfl
  | missing => rw [link?_of_missing he, Source.link?_of_none (h id _ he).symm]

theorem link?_of_some (h : cache.Faithful source) {parent : String}
    (hp : cache.link? id = some parent) : source.link? id = some parent := by
  obtain ⟨r, hr, -⟩ := link?_eq_some_iff.mp hp
  rw [← h.link? (known_of_get? hr), hp]

/-- Ways into cycles are as the documents say. -/
theorem entersCycle (h : cache.Faithful source) (henters : EntersCycle cache.link? id) :
    EntersCycle source.link? id := by
  obtain ⟨z, hz, hcycle⟩ := henters
  refine ⟨z, hz.mono (fun _ _ => h.link?_of_some), ?_⟩
  exact LeadsTo.mono (fun _ _ => h.link?_of_some) hcycle

/-- From a known name on, links are as the documents say. -/
theorem sameFrom (h : cache.Faithful source) (hknown : cache.KnownUpTo [])
    (hid : cache.get? id ≠ none) : SameFrom cache.link? source.link? id := by
  intro z hz
  refine (h.link? (fun hnone => ?_)).symm
  obtain ⟨hmem, -⟩ := hknown.hanging hz hid hnone
  cases hmem

/-- Forgetting keeps a cache faithful. -/
theorem filter (h : cache.Faithful source) (p : String → Entry → Bool) :
    Faithful source (cache.filter p) := by
  intro k e he
  rw [OrderedMap.get?_filter, Option.filter_eq_some_iff] at he
  exact h k e he.1

end Cache.Faithful

/-! ## Requests keep a cache faithful -/

/-- A climb on behalf of runners that are as their documents say keeps a cache faithful; what was
    cached about these runners does not matter.  `target` has the same documents, but it may find
    more of them. -/
theorem Ascent.faithful {source target : Source} {cache : Cache} {start : List Runner}
    {id : String} {fresh : List Runner} {c : Climb} (h : Ascent source cache start id fresh c)
    (htarget : ∀ k found, source.locate k = .ok found → target.own? k = source.own? k)
    (hf : ∀ k e, cache.get? k = some e → k ∉ start.map Runner.name → e.bare = target.own? k)
    (hstart : ∀ r ∈ start, target.own? r.name = some r.detach) :
    (c.settle cache).Faithful target := by
  have hwait : ∀ w ∈ c.waiting, target.own? w.name = some w.detach := by
    intro w hw
    rw [h.waiting_eq] at hw
    rcases List.mem_append.mp hw with hw | hw
    · obtain ⟨hown, -⟩ := h.own w hw
      obtain ⟨-, hdetach, d, hl, -⟩ := Source.own?_eq_some hown
      rw [htarget w.name _ hl, hown, hdetach]
    · exact hstart w hw
  intro k e he
  by_cases hmem : k ∈ c.waiting.map Runner.name
  · obtain ⟨w, hw, rfl⟩ := List.mem_map.mp hmem
    obtain ⟨r, -, hrw, hget⟩ := h.get?_waiting hw
    rw [hget] at he
    cases he
    rw [hwait w hw, ← hrw]
    rfl
  by_cases hl : k ∈ c.learned.map Prod.fst
  · obtain ⟨⟨k, e'⟩, he', rfl⟩ := List.mem_map.mp hl
    rw [h.get?_learned he'] at he
    cases he
    obtain ⟨-, -, -, ⟨rfl, habsent⟩ | ⟨d, rfl, hown⟩⟩ := h.of_mem_learned he'
    · exact ((htarget k _ habsent).trans (Source.own?_of_absent habsent)).symm
    · obtain ⟨-, -, d', hlocated, -⟩ := Source.own?_eq_some hown
      exact ((htarget k _ hlocated).trans hown).symm
  · rw [c.get?_untouched hl hmem] at he
    exact hf k e he (fun hk => hmem (h.name_mem_waiting hk))

namespace Cache

variable {source : Source} {cache : Cache}

/-- A runner that is linked again as its document says makes its own entry faithful. -/
theorem faithful_relink {r : Runner}
    (hf : ∀ k e, cache.get? k = some e → k ≠ r.name → e.bare = source.own? k)
    (hr : source.own? r.name = some r.detach) : (relink source cache r).cache.Faithful source := by
  obtain ⟨fresh, ha⟩ := exists_ascent_ofRelink source cache r
  rw [relink_cache]
  refine ha.faithful (fun _ _ _ => rfl) (fun k e he hk => hf k e he (fun heq => hk ?_))
    (fun s hs => ?_)
  · rw [heq]
    exact List.mem_singleton_self _
  · obtain rfl := List.mem_singleton.mp hs
    exact hr

theorem Faithful.resolve (h : cache.Faithful source) (id : String) :
    (resolve source cache id).cache.Faithful source := by
  obtain ⟨fresh, ha⟩ := exists_ascent source cache (awaits_nil id)
  exact ha.faithful (fun _ _ _ => rfl) (fun k e he _ => h k e he)
    (fun r hr => absurd hr List.not_mem_nil)

theorem Faithful.of_refreshing (h : cache.Faithful source) {root : String} {done : List String}
    {now : Cache} {trace : List Event} (hrun : Refreshing source cache root done now trace) :
    now.Faithful source := by
  induction hrun with
  | start => exact h
  | next _ _ hr _ _ ih => exact faithful_relink (fun k e he _ => ih k e he) (ih.own? hr)

theorem Faithful.refresh (order : Order) (h : cache.Faithful source) (root : String) :
    (refresh order source cache root).cache.Faithful source :=
  h.of_refreshing (refresh_run order source h.filed root).1

theorem Faithful.refreshAll (order : Order) (h : cache.Faithful source) (ids : List String) :
    (refreshAll order source ids cache).cache.Faithful source := by
  induction ids generalizing cache with
  | nil => exact h
  | cons id ids ih => exact ih (h.refresh order id)

theorem Faithful.forgetMissing (order : Order) (h : cache.Faithful source) :
    (forgetMissing order source cache).cache.Faithful source :=
  (h.filter _).refreshAll order _

/-! ## Answers -/

/-- If no search fails, something is known about a runner that was asked for. -/
theorem resolve_known (hsource : source.Searchable) (cache : Cache) (id : String) :
    ∃ e, (Cache.resolve source cache id).cache.get? id = some e := by
  obtain ⟨fresh, h⟩ := exists_ascent source cache (awaits_nil id)
  show ∃ e, ((climb source cache [] id).settle cache).get? id = some e
  have hwait := h.waiting_eq
  rw [List.append_nil] at hwait
  cases hfresh : fresh.getLast? with
  | some r =>
    obtain rfl := h.first r hfresh
    obtain ⟨s, -, -, hget⟩ := h.get?_waiting (hwait ▸ List.mem_of_getLast? hfresh)
    exact ⟨_, hget⟩
  | none =>
    -- nobody was loaded, so the climb ended where it began
    obtain rfl := List.getLast?_eq_none_iff.mp hfresh
    refine h.known_sought hsource ?_
    rw [Climb.sought, hwait]

/-- **Answers are faithful**: a runner that is asked for is as its document says, inheritance
    apart, and there is none only if it has no document. -/
theorem Faithful.resolve_value (h : cache.Faithful source) (hsource : source.Searchable)
    (id : String) :
    ((Cache.resolve source cache id).value).map Runner.detach = source.own? id := by
  obtain ⟨e, he⟩ := resolve_known hsource cache id
  have hvalue : (Cache.resolve source cache id).value = e.runner? := by
    show (Cache.resolve source cache id).cache.loaded? id = e.runner?
    rw [loaded?, he, Option.bind_some]
  rw [hvalue]
  exact (h.resolve id) id e he

theorem resolve_value_eq_some {id : String} {r : Runner} :
    (Cache.resolve source cache id).value = some r ↔
      (Cache.resolve source cache id).cache.get? id = some (.loaded r) :=
  loaded?_eq_some_iff

end Cache

end RunnerCatalog
