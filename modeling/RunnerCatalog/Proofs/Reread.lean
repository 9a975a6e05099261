/-
  How far a changed document reaches.

  When a document changes, one runner is read from it again: the first one in the order of the
  cache that was loaded from it.  Two names may have one document, because paths that are written
  differently may name the same one; so there may be others.

  1. **Names** - after all turns, whatever fails in them, runners are known under their own
     names (`Cache.filed_after`).

  2. **New entries** - whoever becomes known while a runner is linked again is as the document of
     its own name says (`Cache.relink_new_own?`).  A refresh takes nothing away and adds only such
     entries (`Cache.Grown`).

  3. **Old entries** - of those, only the one that is read again says something else than
     before (`Cache.invalidate_own?`).

  4. **The reach** - so the change reaches every runner that was loaded from the document if and
     only if the others were up to date already (`invalidate_reaches_iff`).
-/
import RunnerCatalog.Proofs.Upkeep
import RunnerCatalog.Workspace

namespace RunnerCatalog

open Links

/-! ## Names -/

namespace Cache

variable {source : Source} {cache : Cache}

theorem Filed.refresh (order : Order) (source : Source) (h : cache.Filed) (root : String) :
    (refresh order source cache root).cache.Filed :=
  (refresh_run order source h root).1.filed h

theorem Filed.refreshAll (order : Order) (source : Source) (h : cache.Filed)
    (ids : List String) : (refreshAll order source ids cache).cache.Filed := by
  induction ids generalizing cache with
  | nil => exact h
  | cons id ids ih => exact ih (h.refresh order source id)

theorem Filed.reread (source : Source) (h : cache.Filed) (id : String) (d : DocumentId) :
    (reread source cache id d).cache.Filed := by
  rw [reread_cache]
  exact relink_filed h

theorem Filed.invalidate (order : Order) (source : Source) (h : cache.Filed) (d : DocumentId) :
    (invalidate order source cache d).cache.Filed := by
  unfold Cache.invalidate
  split
  · exact h
  · exact (h.reread source _ d).refresh order source _

theorem Filed.filter (h : cache.Filed) (p : String → Entry → Bool) :
    Filed (cache.filter p) := by
  intro id r hr
  rw [OrderedMap.get?_filter, Option.filter_eq_some_iff] at hr
  exact h id r hr.1

theorem Filed.turn (h : cache.Filed) (turn : Turn) : (turn.apply cache).Filed := by
  unfold Turn.apply
  split
  · next id _ =>
    obtain ⟨fresh, ha⟩ := exists_ascent turn.source cache (awaits_nil id)
    exact ha.filed h
  · next d _ => exact h.invalidate turn.order turn.source d
  · exact (h.filter _).refreshAll turn.order turn.source _
  · exact filed_empty

/-- Runners stay under their own names, whatever is asked and whatever fails. -/
theorem filed_after (turns : List Turn) : (after turns).Filed :=
  after_induction filed_empty (fun turn _ _ h => h.turn turn)

end Cache

/-! ## New entries -/

namespace Cache

/-- The runner of a name with nothing inherited, if it is known. -/
def own? (cache : Cache) (id : String) : Option Runner := (cache.loaded? id).map Runner.detach

variable {source : Source} {cache cache' : Cache} {id : String} {d : DocumentId}

theorem own?_of_get? {e : Entry} (h : cache.get? id = some e) : cache.own? id = e.bare := by
  rw [own?, loaded?, h]
  rfl

theorem own?_eq_some_iff {s : Runner} :
    cache.own? id = some s ↔ ∃ r, cache.get? id = some (.loaded r) ∧ r.detach = s := by
  rw [own?, Option.map_eq_some_iff]
  simp only [loaded?_eq_some_iff]

theorem own?_congr (h : cache'.get? id = cache.get? id) : cache'.own? id = cache.own? id := by
  rw [own?, own?, loaded?, loaded?, h]

/-- Who is known, is known with its own document. -/
theorem own?_of_bare {e e' : Entry} (h : cache.get? id = some e) (h' : cache'.get? id = some e')
    (hb : e'.bare = e.bare) : cache'.own? id = cache.own? id := by
  rw [own?_of_get? h, own?_of_get? h', hb]

end Cache

/-- Whoever becomes known in a climb is as the document of its own name says. -/
theorem Ascent.new_own? {source : Source} {cache : Cache} {start : List Runner} {id : String}
    {fresh : List Runner} {c : Climb} (h : Ascent source cache start id fresh c)
    (hstart : ∀ r ∈ start, cache.get? r.name ≠ none) {k : String} (hk : cache.get? k = none)
    (hk' : (c.settle cache).get? k ≠ none) : (c.settle cache).own? k = source.own? k := by
  rcases List.mem_append.mp (h.added_of_new hstart hk hk') with hl | hf
  · obtain ⟨⟨k, e⟩, he, rfl⟩ := List.mem_map.mp hl
    rw [Cache.own?_of_get? (h.get?_learned he)]
    obtain ⟨-, -, -, ⟨rfl, habsent⟩ | ⟨d, rfl, hown⟩⟩ := h.of_mem_learned he
    · exact (Source.own?_of_absent habsent).symm
    · exact hown.symm
  · obtain ⟨w, hw, rfl⟩ := List.mem_map.mp hf
    have hown := (h.own w hw).1
    have hwait : w ∈ c.waiting := by
      rw [h.waiting_eq]
      exact List.mem_append_left _ hw
    obtain ⟨r, -, hrw, hget⟩ := h.get?_waiting hwait
    rw [hown, Cache.own?_eq_some_iff]
    exact ⟨r, hget, hrw.trans (Source.own?_eq_some hown).2.1⟩

namespace Cache

variable {source : Source} {cache : Cache} {r : Runner} {k : String}

/-- Whoever becomes known when a known runner is linked again is as its document says. -/
theorem relink_new_own? (source : Source) (hr : cache.get? r.name ≠ none)
    (hk : cache.get? k = none) (hk' : (relink source cache r).cache.get? k ≠ none) :
    (relink source cache r).cache.own? k = source.own? k := by
  obtain ⟨fresh, ha⟩ := exists_ascent_ofRelink source cache r
  rw [relink_cache] at hk' ⊢
  refine ha.new_own? (fun s hs => ?_) hk hk'
  obtain rfl := List.mem_singleton.mp hs
  exact hr

/-- The runner itself is cached with its own document, and other entries stay. -/
theorem relink_own? (source : Source) (cache : Cache) (r : Runner) :
    (relink source cache r).cache.own? r.name = some r.detach ∧
      ∀ k e, cache.get? k = some e → k ≠ r.name →
        (relink source cache r).cache.get? k = some e := by
  obtain ⟨fresh, ha⟩ := exists_ascent_ofRelink source cache r
  rw [relink_cache]
  obtain ⟨s, -, hsr, hget⟩ := ha.get?_waiting (ha.mem_waiting (List.mem_singleton_self r))
  refine ⟨own?_eq_some_iff.mpr ⟨s, hget, hsr⟩, fun k e he hk => ha.kept he (fun hmem => hk ?_)⟩
  exact List.mem_singleton.mp hmem

end Cache

/-! ## Growth -/

namespace Cache

/-- A cache that grew: who was known still is, inheritance apart; who is new is as the document of
    its own name says, and links lead to it from somebody who was known. -/
structure Grown (source : Source) (before after : Cache) : Prop where
  kept : ∀ id e, before.get? id = some e → ∃ e', after.get? id = some e' ∧ e'.bare = e.bare
  new : ∀ id, before.get? id = none → after.get? id ≠ none → after.own? id = source.own? id
  reached : ∀ id, after.get? id ≠ none → ∃ k, before.get? k ≠ none ∧ Reaches after.link? k id

namespace Grown

variable {source : Source} {before after last : Cache} {id : String}

theorem refl (source : Source) (cache : Cache) : Grown source cache cache where
  kept := fun _ e he => ⟨e, he, rfl⟩
  new := fun _ hnone hknown => absurd hnone hknown
  reached := fun id hknown => ⟨id, hknown, .refl⟩

/-- Who is known stays known. -/
theorem known (h : Grown source before after) (hid : before.get? id ≠ none) :
    after.get? id ≠ none := by
  obtain ⟨e, he⟩ := Option.ne_none_iff_exists'.mp hid
  obtain ⟨e', he', -⟩ := h.kept id e he
  exact known_of_get? he'

/-- Who is known keeps its own document. -/
theorem own? (h : Grown source before after) (hid : before.get? id ≠ none) :
    after.own? id = before.own? id := by
  obtain ⟨e, he⟩ := Option.ne_none_iff_exists'.mp hid
  obtain ⟨e', he', hb⟩ := h.kept id e he
  exact own?_of_bare he he' hb

/-- Links stay. -/
theorem link?_of_some (h : Grown source before after) {parent : String}
    (hp : before.link? id = some parent) : after.link? id = some parent := by
  obtain ⟨r, hr, -⟩ := link?_eq_some_iff.mp hp
  obtain ⟨e', he', hb⟩ := h.kept id _ hr
  rw [link?_of_bare hr he' hb, hp]

theorem trans (h : Grown source before after) (h' : Grown source after last) :
    Grown source before last where
  kept := by
    intro id e he
    obtain ⟨e', he', hb⟩ := h.kept id e he
    obtain ⟨e'', he'', hb'⟩ := h'.kept id e' he'
    exact ⟨e'', he'', hb'.trans hb⟩
  new := by
    intro id hnone hknown
    by_cases hafter : after.get? id = none
    · exact h'.new id hafter hknown
    · rw [h'.own? hafter, h.new id hnone hafter]
  reached := by
    intro id hknown
    obtain ⟨k', hk', hway'⟩ := h'.reached id hknown
    obtain ⟨k, hk, hway⟩ := h.reached k' hk'
    exact ⟨k, hk, (hway.mono (fun _ _ hxy => h'.link?_of_some hxy)).trans hway'⟩

end Grown

/-- Linking a known runner again makes a cache grow. -/
theorem grown_relink (source : Source) {cache : Cache} {r : Runner} {parent : String}
    (hr : cache.get? r.name = some (.loaded r)) (hp : r.parent = some parent) :
    Grown source cache (relink source cache r).cache where
  kept := by
    intro id e he
    obtain ⟨e', he', hb, -⟩ := relink_bare source hr he
    exact ⟨e', he', hb⟩
  new := fun _ hnone hknown => relink_new_own? source (known_of_get? hr) hnone hknown
  reached := by
    intro id hknown
    by_cases hid : cache.get? id = none
    · obtain ⟨-, -, hway⟩ := relink_new hr hp hid hknown
      refine ⟨r.name, known_of_get? hr, hway.head (relink_link? hr ?_)⟩
      rw [link?_of_get? hr, hp]
    · exact ⟨id, hid, .refl⟩

end Cache

theorem Refreshing.grown {source : Source} {cache now : Cache} {root : String}
    {done : List String} {trace : List Event}
    (h : Refreshing source cache root done now trace) : Cache.Grown source cache now := by
  induction h with
  | start => exact .refl source cache
  | next _ _ hr hp _ ih => exact ih.trans (Cache.grown_relink source hr hp)

namespace Cache

variable {cache : Cache}

/-- Refreshes make a cache grow. -/
theorem Filed.grown_refresh (order : Order) (source : Source) (h : cache.Filed) (root : String) :
    Grown source cache (Cache.refresh order source cache root).cache :=
  (refresh_run order source h root).1.grown

theorem Filed.grown_refreshAll (order : Order) (source : Source) (h : cache.Filed)
    (ids : List String) : Grown source cache (Cache.refreshAll order source ids cache).cache := by
  induction ids generalizing cache with
  | nil => exact .refl source cache
  | cons id ids ih =>
    exact (h.grown_refresh order source id).trans (ih (h.refresh order source id))

end Cache

/-! ## Old entries -/

namespace Cache

variable {source : Source} {cache : Cache} {order : Order} {d : DocumentId} {x : String}
  {rest : List String}

/-- Who was loaded from a document. -/
theorem mem_owners_iff {id : String} :
    id ∈ cache.owners d ↔ ∃ r e, cache.own? id = some r ∧ r.document = some e ∧ e.Same d := by
  rw [mem_owners]
  simp only [own?_eq_some_iff]
  constructor
  · rintro ⟨r, e, hr, he, hsame⟩
    exact ⟨r.detach, e, ⟨r, hr, rfl⟩, he, hsame⟩
  · rintro ⟨_, e, ⟨r, hr, rfl⟩, he, hsame⟩
    exact ⟨r, e, hr, he, hsame⟩

theorem invalidate_of_nil (source : Source) (h : order.arrange .owners (cache.owners d) = []) :
    (invalidate order source cache d).cache = cache := by
  rw [invalidate, h]

theorem invalidate_of_cons (source : Source)
    (h : order.arrange .owners (cache.owners d) = x :: rest) :
    (invalidate order source cache d).cache =
      (refresh order source (reread source cache x d).cache x).cache := by
  rw [invalidate, h]

theorem known_of_cons (h : order.arrange .owners (cache.owners d) = x :: rest) :
    x ∈ cache.owners d ∧ cache.get? x ≠ none := by
  have hx : x ∈ cache.owners d := by
    rw [← (order.perm _ _).mem_iff, h]
    exact List.mem_cons_self
  obtain ⟨r, -, hr, -⟩ := mem_owners.mp hx
  exact ⟨hx, known_of_get? hr⟩

/-- **What a change does to own documents**: the runner that is read again is as the document says
    now, other known runners are as before, and new ones are as their own documents say. -/
theorem invalidate_own? (source : Source) (hc : cache.Filed)
    (h : order.arrange .owners (cache.owners d) = x :: rest) :
    (invalidate order source cache d).cache.own? x = some (source.reading x d) ∧
      (∀ k, k ≠ x → cache.get? k ≠ none →
        (invalidate order source cache d).cache.own? k = cache.own? k) ∧
      ∀ k, cache.get? k = none → (invalidate order source cache d).cache.get? k ≠ none →
        (invalidate order source cache d).cache.own? k = source.own? k := by
  obtain ⟨hname, -, hdetach⟩ := source.reading_facts x d
  have hgrown := (hc.reread source x d).grown_refresh order source x
  obtain ⟨hown, hkept⟩ := relink_own? source cache (source.reading x d)
  have hknown : cache.get? (source.reading x d).name ≠ none := hname.symm ▸ (known_of_cons h).2
  rw [invalidate_of_cons source h]
  rw [← reread_cache, hname, hdetach] at hown
  rw [← reread_cache] at hkept
  refine ⟨?_, fun k hk hcached => ?_, fun k hk hk' => ?_⟩
  · obtain ⟨r, hr, -⟩ := own?_eq_some_iff.mp hown
    rw [hgrown.own? (known_of_get? hr), hown]
  · obtain ⟨e, he⟩ := Option.ne_none_iff_exists'.mp hcached
    have he' := hkept k e he (fun heq => hk (heq.trans hname))
    rw [hgrown.own? (known_of_get? he'), own?_of_bare he he' rfl]
  · by_cases hnow : (reread source cache x d).cache.get? k = none
    · exact hgrown.new k hnow hk'
    · rw [hgrown.own? hnow]
      rw [reread_cache] at hnow ⊢
      exact relink_new_own? source hknown hk hnow

/-! ## The reach -/

/-- The runner known as `id` has the link and the scopes of its own that its document gives it
    now; a document that cannot be used gives it neither. -/
def UpToDate (source : Source) (cache : Cache) (id : String) : Prop :=
  ∃ r ∈ cache.own? id, ∃ d ∈ r.document,
    r.parent = (source.reading id d).parent ∧ r.declared = (source.reading id d).declared

instance (source : Source) (cache : Cache) (id : String) :
    Decidable (cache.UpToDate source id) :=
  inferInstanceAs (Decidable (∃ r ∈ cache.own? id, ∃ d ∈ r.document,
    r.parent = (source.reading id d).parent ∧ r.declared = (source.reading id d).declared))

theorem UpToDate.congr {cache' : Cache} {id : String} (h : cache'.own? id = cache.own? id) :
    cache'.UpToDate source id ↔ cache.UpToDate source id := by
  rw [UpToDate, UpToDate, h]

/-- Who is as a document says now is up to date. -/
theorem upToDate_of_reading {id : String} {e : DocumentId}
    (h : cache.own? id = some (source.reading id e)) : cache.UpToDate source id :=
  ⟨_, h, e, (source.reading_facts id e).2.1, rfl, rfl⟩

end Cache

/-- **How far a change reaches**: after the cache was told about it, all runners that were loaded
    from the document are up to date if and only if those that are not read again were so before. -/
theorem invalidate_reaches_iff (turns : List Turn) (order : Order) (source : Source)
    (d : DocumentId) :
    (∀ id ∈ ((Cache.after turns).invalidate order source d).cache.owners d,
        ((Cache.after turns).invalidate order source d).cache.UpToDate source id) ↔
      ∀ id ∈ (Cache.after turns).owners d,
        (order.arrange .owners ((Cache.after turns).owners d)).head? ≠ some id →
          (Cache.after turns).UpToDate source id := by
  cases harrange : order.arrange .owners ((Cache.after turns).owners d) with
  | nil =>
    have hnone : (Cache.after turns).owners d = [] :=
      List.Perm.nil_eq (harrange ▸ order.perm _ _) |>.symm
    rw [Cache.invalidate_of_nil source harrange, hnone]
    exact ⟨fun _ id hid => absurd hid List.not_mem_nil, fun _ id hid => absurd hid List.not_mem_nil⟩
  | cons x rest =>
    obtain ⟨hx, hother, hnew⟩ :=
      Cache.invalidate_own? source (Cache.filed_after turns) harrange
    constructor
    · intro hall id hid hne
      have hidx : id ≠ x := fun heq => hne (congrArg some heq.symm)
      obtain ⟨r, e, hr, he, hsame⟩ := Cache.mem_owners_iff.mp hid
      obtain ⟨s, hs, -⟩ := Cache.own?_eq_some_iff.mp hr
      have hown := hother id hidx (Cache.known_of_get? hs)
      refine (Cache.UpToDate.congr hown).mp (hall id ?_)
      exact Cache.mem_owners_iff.mpr ⟨r, e, hown.trans hr, he, hsame⟩
    · intro hall id hid
      by_cases hidx : id = x
      · exact Cache.upToDate_of_reading (hidx ▸ hx)
      obtain ⟨r, e, hr, he, hsame⟩ := Cache.mem_owners_iff.mp hid
      by_cases hknown : (Cache.after turns).get? id = none
      · -- a runner that was loaded on the way, from the text of now
        obtain ⟨s, hs, -⟩ := Cache.own?_eq_some_iff.mp hr
        have hown := hnew id hknown (Cache.known_of_get? hs)
        obtain ⟨-, -, e', hlocated, -⟩ := Source.own?_eq_some (hown.symm.trans hr)
        exact Cache.upToDate_of_reading (hown.trans (Source.own?_of_located hlocated))
      · have hown := hother id hidx hknown
        refine (Cache.UpToDate.congr hown).mpr (hall id ?_ (fun heq => hidx ?_))
        · exact Cache.mem_owners_iff.mpr ⟨r, e, hown.symm.trans hr, he, hsame⟩
        · exact (Option.some.inj heq).symm

/-- A workspace with one schema, open in an editor with the given text. -/
def oneSchema (text : String) : Source :=
  let w : Workspace := ⟨"ws", ".catscript/schemas", [(⟨"ws/.catscript/schemas/c.json"⟩, text)]⟩
  w.source ((((Files.Tree.empty.put [] "ws" .directory).put ["ws"] ".catscript" .directory).put
    ["ws", ".catscript"] "schemas" .directory).put
      ["ws", ".catscript", "schemas"] "c.json" (.file ByteArray.empty))

/-- **A change misses a runner** of the same document: `c` and `./c` have one document, and only
    one of them gets the command that its new text declares. -/
theorem change_misses_runner :
    let before := oneSchema "\x7b\"commands\": \x7b\"GO\": \x7b\x7d\x7d\x7d"
    let after := oneSchema "\x7b\"commands\": \x7b\"STOP\": \x7b\x7d\x7d\x7d"
    let d : DocumentId := ⟨"ws/.catscript/schemas/c.json"⟩
    let cache := Cache.after [⟨.resolve "c", before, .arrival⟩, ⟨.resolve "./c", before, .arrival⟩]
    ¬ ∀ id ∈ (cache.invalidate .arrival after d).cache.owners d,
      (cache.invalidate .arrival after d).cache.UpToDate after id := by
  decide +kernel

end RunnerCatalog
