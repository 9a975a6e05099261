/-
  Whether the order of lookups matters.

  It does not for runners whose way comes to no cycle, and for runners on a cycle.  It may matter
  for a runner outside all cycles whose way leads into one.  When such a runner is loaded in one
  climb with the cycle, it keeps what it declares; when the runner above it is known already, it is
  laid over that one as usual.

  1. **Ways in** - `Source.Inroad` lists the runners on the way into a cycle, up to the first one
     on it.  What a lookup may find for the runner below is a layering of some of them
     (`Source.Drawn`), whatever was looked up before (`Cache.drawn_lookups`).

  2. **Nothing less** - each layering is found after some lookups (`Cache.exists_lookups`): those
     of the runners on the way, from the top down.

  3. **Exactly when** - so the order does not matter for a runner if and only if the runners on its
     way in add nothing to what it declares (`lookup_order_irrelevant_iff`).
-/
import RunnerCatalog.Proofs.Lineage
import RunnerCatalog.Proofs.Upkeep

namespace RunnerCatalog

open Links

/-! ## Lookups -/

namespace Cache

/-- The cache after some lookups, the first of which found it empty. -/
def lookups (source : Source) (ids : List String) : Cache :=
  ids.foldl (fun cache id => (cache.resolve source id).cache) OrderedMap.empty

/-- What a lookup answers after other lookups. -/
def answer (source : Source) (ids : List String) (id : String) : Option Runner :=
  ((lookups source ids).resolve source id).value

variable {source : Source}

theorem lookups_concat (source : Source) (ids : List String) (id : String) :
    lookups source (ids ++ [id]) = ((lookups source ids).resolve source id).cache := by
  rw [lookups, List.foldl_append]
  rfl

theorem faithful_lookups (source : Source) (ids : List String) :
    (lookups source ids).Faithful source := by
  induction ids using List.reverseRecOn with
  | nil => exact faithful_empty source
  | append_singleton ids id ih =>
    rw [lookups_concat]
    exact ih.resolve id

theorem coherent_lookups (hsource : source.Searchable) (ids : List String) :
    (lookups source ids).CoherentUpTo [] := by
  induction ids using List.reverseRecOn with
  | nil => exact coherentUpTo_empty
  | append_singleton ids id ih =>
    rw [lookups_concat]
    exact ih.resolve hsource id

end Cache

/-! ## Ways into a cycle -/

namespace Source

/-- The runners from `id` upwards, each as its own document has it, up to the first one on a
    cycle. -/
inductive Inroad (source : Source) : String → List Runner → Prop
  | arrive {id : String} {r : Runner} (hr : source.own? id = some r)
      (hcycle : OnCycle source.link? id) : Inroad source id [r]
  | extend {id parent : String} {r : Runner} {above : List Runner}
      (hr : source.own? id = some r) (hcycle : ¬ OnCycle source.link? id)
      (hp : r.parent = some parent) (habove : Inroad source parent above) :
      Inroad source id (r :: above)

variable {source : Source} {id : String}

theorem Inroad.own? {rs : List Runner} (h : source.Inroad id rs) :
    ∃ r above, rs = r :: above ∧ source.own? id = some r := by
  cases h with
  | arrive hr => exact ⟨_, _, rfl, hr⟩
  | extend hr => exact ⟨_, _, rfl, hr⟩

theorem Inroad.entersCycle {rs : List Runner} (h : source.Inroad id rs) :
    EntersCycle source.link? id := by
  induction h with
  | arrive _ hcycle => exact hcycle.entersCycle
  | extend hr _ hp _ ih => exact (entersCycle_iff_step ((link?_of_own? hr).trans hp)).mpr ih

/-- A way that comes to a cycle is a way in. -/
theorem exists_inroad (h : EntersCycle source.link? id) :
    ∃ r above, source.Inroad id (r :: above) := by
  have hown : ∀ x y, source.link? x = some y → ∃ r, source.own? x = some r ∧ r.parent = some y :=
    fun x y hxy => Option.bind_eq_some_iff.mp hxy
  obtain ⟨z, hz, hcycle⟩ := h
  induction hz using Relation.ReflTransGen.head_induction_on with
  | refl =>
    obtain ⟨y, hy, -⟩ := Relation.TransGen.head'_iff.mp hcycle
    obtain ⟨r, hr, -⟩ := hown z y hy
    exact ⟨r, [], .arrive hr hcycle⟩
  | @head x y hxy _ ih =>
    obtain ⟨r, hr, hp⟩ := hown x y hxy
    by_cases hx : OnCycle source.link? x
    · exact ⟨r, [], .arrive hr hx⟩
    · obtain ⟨q, above, habove⟩ := ih
      exact ⟨r, q :: above, .extend hr hx hp habove⟩

/-! ## Layerings -/

/-- If the way of `id` comes to a cycle, `scopes` is a layering of runners on the way in: what
    `id` declares over what some of those next to it declare. -/
def Drawn (source : Source) (id : String) (scopes : ScopeMap) : Prop :=
  ∀ r above, source.Inroad id (r :: above) → ∃ part, part <+: above ∧ scopes = layered (r :: part)

theorem drawn_declared {r : Runner} (hr : source.own? id = some r) :
    source.Drawn id r.declared := by
  intro s above h
  obtain ⟨t, rest, heq, ht⟩ := h.own?
  obtain ⟨rfl, rfl⟩ := List.cons.inj heq
  obtain rfl := Option.some.inj (hr.symm.trans ht)
  exact ⟨[], List.nil_prefix, (layered_singleton r).symm⟩

/-- A layering of a runner's parent, with the runner laid over it. -/
theorem Drawn.extend {parent : String} {r : Runner} {scopes : ScopeMap}
    (h : source.Drawn parent scopes) (hr : source.own? id = some r)
    (hp : r.parent = some parent) (hcycle : ¬ OnCycle source.link? id) :
    source.Drawn id (mergeScopes scopes r.declared) := by
  intro s above hin
  cases hin with
  | arrive _ hon => exact absurd hon hcycle
  | extend hs _ hsp habove =>
    obtain rfl := Option.some.inj (hr.symm.trans hs)
    obtain rfl := Option.some.inj (hp.symm.trans hsp)
    obtain ⟨q, rest, rfl, -⟩ := habove.own?
    obtain ⟨part, hpart, rfl⟩ := h q rest habove
    refine ⟨q :: part, List.cons_prefix_cons.mpr ⟨rfl, hpart⟩, ?_⟩
    rw [← layered_cons]

end Source

variable {source : Source}

namespace Cache

/-- All cached runners whose ways come to cycles have layerings of runners on their ways in. -/
def AllDrawn (source : Source) (cache : Cache) : Prop :=
  ∀ id r, cache.get? id = some (.loaded r) → source.Drawn id r.scopes

/-- All runners that a climb links have layerings if the cached ones do: outside all cycles they
    pass them down. -/
theorem drawn_linked {cache : Cache} {id : String} {fresh : List Runner} {c : Climb}
    (h : Ascent source cache [] id fresh c) (hd : cache.AllDrawn source)
    (hf : (c.settle cache).Faithful source) (hknown : (c.settle cache).KnownUpTo []) :
    ∀ r ∈ c.linked, source.Drawn r.name r.scopes := by
  have hown : ∀ w ∈ c.waiting, source.own? w.name = some w := by
    intro w hw
    rw [h.waiting_eq, List.append_nil] at hw
    exact (h.own w hw).1
  have hcycle : (∀ path, c.summit ≠ .cycle path) → ∀ w ∈ c.waiting,
      ¬ OnCycle source.link? w.name := by
    intro hsummit w hw hon
    obtain ⟨t, -, -, hget⟩ := h.get?_waiting hw
    have hsame := hf.sameFrom hknown (known_of_get? hget)
    exact h.not_onCycle_of_summit hsummit hw ((onCycle_congr hsame).mp hon)
  refine h.linked_induction (fun _ _ w hw => Source.drawn_declared (hown w hw))
    (fun hsummit top htop => ?_) (fun hsummit u _ w hw hp scopes hscopes => ?_)
  · have hmem := List.mem_of_mem_head? htop
    rcases h.top_scopes hsummit htop with ⟨s, q, hp, hq, hscopes⟩ | ⟨hscopes, -⟩
    · rw [hscopes]
      exact (hd s q hq).extend (hown top hmem) hp (hcycle hsummit top hmem)
    · rw [hscopes]
      exact Source.drawn_declared (hown top hmem)
  · exact hscopes.extend (hown w hw) hp (hcycle hsummit w hw)

/-- A lookup leaves layerings of runners on the ways in. -/
theorem AllDrawn.resolve {cache : Cache} (hd : cache.AllDrawn source)
    (hsource : source.Searchable) (hf : cache.Faithful source) (hc : cache.CoherentUpTo [])
    (id : String) : (resolve source cache id).cache.AllDrawn source := by
  obtain ⟨fresh, h⟩ := exists_ascent source cache (awaits_nil id)
  have hlinked := drawn_linked h hd (hf.resolve id) (hc.resolve hsource id).known
  exact h.each_settle hd hlinked (fun _ _ hown => Source.drawn_declared hown)

theorem drawn_lookups (hsource : source.Searchable) (ids : List String) :
    (lookups source ids).AllDrawn source := by
  induction ids using List.reverseRecOn with
  | nil => exact fun _ _ h => nomatch h
  | append_singleton ids id ih =>
    rw [lookups_concat]
    exact ih.resolve hsource (faithful_lookups source ids) (coherent_lookups hsource ids) id

/-! ## Every layering is found -/

/-- From scratch, a climb that leads into a cycle ends at one. -/
theorem cycle_of_enters {id : String} {fresh : List Runner} {c : Climb}
    (h : Ascent source OrderedMap.empty [] id fresh c) (hsource : source.Searchable)
    {w : Runner} (hw : w ∈ c.waiting)
    (henters : EntersCycle (c.settle OrderedMap.empty).link? w.name) :
    ∃ path, c.summit = .cycle path := by
  -- if a name is sought last and has no link, the way ends there
  have hend : ∀ s, c.sought id = some s → (c.settle OrderedMap.empty).link? s = none → False := by
    intro s hsought hlink
    have hway := (h.leadsTo_sought hsought hw).to_reflTransGen
    exact not_entersCycle_of_none hlink (henters.reaches hway)
  cases h.reached with
  | base hs hl hsought => exact absurd henters (h.not_entersCycle_of_base hsought hw)
  | known hs hl hsought hwalk hq => cases hq
  | missing hs hl hsought hwalk hm => cases hm
  | @failed s failure hs hl hsought hwalk hn hf =>
    obtain ⟨found, hfound⟩ := hsource s
    rw [hfound] at hf
    cases hf
  | absent hs hl hsought =>
    exact (hend _ hsought (h.link?_learned (hl ▸ List.mem_singleton_self _))).elim
  | unusable hs hl hsought =>
    exact (hend _ hsought (h.link?_learned (hl ▸ List.mem_singleton_self _))).elim
  | cycle hs => exact ⟨_, hs⟩

/-- From scratch, a runner whose way comes to a cycle keeps what it declares. -/
theorem scopes_of_enters (hsource : source.Searchable) {id : String} {r : Runner}
    (hr : source.own? id = some r) (henters : EntersCycle source.link? id) :
    ∃ s, (resolve source OrderedMap.empty id).cache.get? id = some (.loaded s) ∧
      s.scopes = r.declared := by
  obtain ⟨fresh, h⟩ := exists_ascent source OrderedMap.empty (awaits_nil id)
  have hf := (faithful_empty source).resolve id
  have hknown := (coherentUpTo_empty.resolve hsource id).known
  obtain ⟨e, he⟩ := resolve_known hsource OrderedMap.empty id
  have hbare := (hf id e he).trans hr
  cases e with
  | missing => cases hbare
  | loaded s =>
    obtain rfl : s.detach = r := Option.some.inj hbare
    refine ⟨s, he, ?_⟩
    have hsame := hf.sameFrom hknown (known_of_get? he)
    have henters' := (entersCycle_congr hsame).mp henters
    rcases (climb source OrderedMap.empty [] id).touched OrderedMap.empty id with
      ⟨t, ht, hname⟩ | ⟨e', he'⟩ | hnone
    · have hget := h.get?_linked ht
      rw [hname] at hget
      obtain rfl := loaded_inj hget he
      obtain ⟨w, hw, hwt⟩ := Climb.exists_waiting ht
      obtain rfl := (Runner.name_of_detach hwt).trans hname
      obtain ⟨path, hpath⟩ := cycle_of_enters h hsource hw henters'
      rw [Climb.linked, hpath] at ht
      obtain ⟨u, -, rfl⟩ := List.mem_map.mp ht
      rfl
    · exact absurd henters' (not_entersCycle_of_none (h.link?_learned he'))
    · rw [show (resolve source OrderedMap.empty id).cache.get? id = none from hnone] at he
      cases he

/-- A runner that is not known yet is laid over the one that it extends, if that one is known and
    does not lead back. -/
theorem resolve_over {cache : Cache} {id parent : String} {r q : Runner}
    (hn : cache.get? id = none) (hr : source.own? id = some r) (hp : r.parent = some parent)
    (hq : cache.get? parent = some (.loaded q)) (hback : ¬ Reaches cache.link? parent id) :
    (resolve source cache id).cache.get? id = some (.loaded (r.inherit q)) := by
  have hname := (Source.own?_eq_some hr).1
  obtain ⟨d, hl, hload⟩ := Source.load_of_own? hr hp
  have hw₁ : cache.walkInto (chainOf []) id = none :=
    (cache.walkInto_eq_none_iff _ _).mpr (fun z hz => absurd hz List.not_mem_nil)
  have hw₂ : cache.walkInto (chainOf [r]) parent = none := by
    refine (cache.walkInto_eq_none_iff _ _).mpr (fun z hz => ?_)
    obtain rfl : z = r.name := List.mem_singleton.mp hz
    rw [hname]
    exact hback
  have hclimb : ∃ trace, climb source cache [] id = ⟨[r], .over q, [], trace⟩ := by
    refine ⟨[.located id, .wasRead d] ++ [], ?_⟩
    rw [climb, climbWithin, hw₁, hn, hl]
    simp only [hload, hp]
    rw [climbWithin, hw₂, hq]
  obtain ⟨trace, hclimb⟩ := hclimb
  show ((climb source cache [] id).settle cache).get? id = _
  rw [hclimb]
  show (cache.store (r.inherit q)).get? id = _
  rw [store, OrderedMap.get?_insert]
  exact if_pos hname

/-- What a lookup makes known is on the way of the runner that is looked up. -/
theorem reaches_of_resolve {cache : Cache} (hf : cache.Faithful source) {id y : String}
    (hy : cache.get? y = none) (hy' : (resolve source cache id).cache.get? y ≠ none) :
    Reaches source.link? id y := by
  obtain ⟨fresh, h⟩ := exists_ascent source cache (awaits_nil id)
  have hway := h.reaches_of_new (fun r hr => absurd hr List.not_mem_nil) hy hy'
  exact hway.mono (fun a b => (hf.resolve id).link?_of_some)

/-- **Each layering is found** after the lookups of the runners that it is made of, from the top
    down; whatever is known then is on the way of the runner at the bottom. -/
theorem exists_lookups (hsource : source.Searchable) {id : String} {r : Runner}
    {above part : List Runner} (h : source.Inroad id (r :: above)) (hpart : part <+: above) :
    ∃ ids s, (lookups source ids).get? id = some (.loaded s) ∧ s.scopes = layered (r :: part) ∧
      ∀ y, (lookups source ids).get? y ≠ none → Reaches source.link? id y := by
  induction part generalizing id r above with
  | nil =>
    obtain ⟨t, rest, heq, hr⟩ := h.own?
    obtain ⟨rfl, rfl⟩ := List.cons.inj heq
    obtain ⟨s, hs, hscopes⟩ := scopes_of_enters hsource hr h.entersCycle
    refine ⟨[id], s, hs, hscopes.trans (layered_singleton r).symm, fun y hy => ?_⟩
    exact reaches_of_resolve (faithful_empty source) rfl hy
  | cons q part ih =>
    obtain ⟨rest, rfl, hprefix⟩ : ∃ rest, above = q :: rest ∧ part <+: rest := by
      obtain ⟨tail, rfl⟩ := hpart
      exact ⟨part ++ tail, rfl, List.prefix_append part tail⟩
    cases h with
    | @extend _ parent _ _ hr hcycle hp habove =>
      obtain ⟨ids, t, ht, hscopes, hreach⟩ := ih habove hprefix
      have hlink : source.link? id = some parent := (Source.link?_of_own? hr).trans hp
      have hf := faithful_lookups source ids
      -- what is above does not lead back to `id`
      have hback : ¬ Reaches source.link? parent id :=
        fun hway => hcycle (.head' hlink hway)
      have hn : (lookups source ids).get? id = none := by
        by_contra hknown
        exact hback (hreach id hknown)
      refine ⟨ids ++ [id], r.inherit t, ?_, ?_, fun y hy => ?_⟩
      · rw [lookups_concat]
        exact resolve_over hn hr hp ht
          (fun hway => hback (hway.mono (fun x y => hf.link?_of_some)))
      · show mergeScopes t.scopes r.declared = _
        rw [hscopes, ← layered_cons]
      · by_cases hknown : (lookups source ids).get? y = none
        · rw [lookups_concat] at hy
          exact reaches_of_resolve hf hknown hy
        · exact (hreach y hknown).head hlink

/-- A known runner is answered as it is cached. -/
theorem resolve_cached {cache : Cache} {id : String} {r : Runner}
    (hr : cache.get? id = some (.loaded r)) : (resolve source cache id).value = some r := by
  obtain ⟨fresh, h⟩ := exists_ascent source cache (awaits_nil id)
  exact resolve_value_eq_some.mpr (h.kept hr List.not_mem_nil)

/-- What a lookup answers about a runner whose way comes to a cycle: the runner itself, with a
    layering of runners on the way in. -/
theorem answer_of_inroad (hsource : source.Searchable) {id : String} {r : Runner}
    {above : List Runner} (h : source.Inroad id (r :: above)) (ids : List String) :
    ∃ s part, answer source ids id = some s ∧ s.detach = r ∧ part <+: above ∧
      s.scopes = layered (r :: part) := by
  obtain ⟨t, rest, heq, hr⟩ := h.own?
  obtain ⟨rfl, rfl⟩ := List.cons.inj heq
  have hf := faithful_lookups source ids
  have hvalue := (hf.resolve_value hsource id).trans hr
  obtain ⟨s, hs, hdetach⟩ := Option.map_eq_some_iff.mp hvalue
  have hdrawn := (drawn_lookups hsource ids).resolve hsource hf (coherent_lookups hsource ids) id
  obtain ⟨part, hpart, hscopes⟩ := hdrawn id s (resolve_value_eq_some.mp hs) r above h
  exact ⟨s, part, hs, hdetach, hpart, hscopes⟩

end Cache

/-! ## Exactly when -/

/-- **The order of lookups** does not matter for a runner if and only if, should its way come to a
    cycle, the runners on the way in add nothing to what it declares. -/
theorem lookup_order_irrelevant_iff (source : Source) (hsource : source.Searchable)
    (id : String) :
    (∀ ids ids', Cache.answer source ids id = Cache.answer source ids' id) ↔
      ∀ r above, source.Inroad id (r :: above) →
        ∀ part, part <+: above → layered (r :: part) = r.declared := by
  constructor
  · intro hsame r above hin part hpart
    obtain ⟨ids, s, hs, hscopes, -⟩ := Cache.exists_lookups hsource hin hpart
    obtain ⟨ids', s', hs', hscopes', -⟩ :=
      Cache.exists_lookups hsource hin (List.nil_prefix (l := above))
    have heq := hsame ids ids'
    rw [Cache.answer, Cache.answer, Cache.resolve_cached hs, Cache.resolve_cached hs'] at heq
    rw [← hscopes, Option.some.inj heq, hscopes', layered_singleton]
  · intro hlayers ids ids'
    by_cases henters : EntersCycle source.link? id
    · obtain ⟨r, above, hin⟩ := Source.exists_inroad henters
      obtain ⟨s, part, hs, hdetach, hpart, hscopes⟩ := Cache.answer_of_inroad hsource hin ids
      obtain ⟨s', part', hs', hdetach', hpart', hscopes'⟩ :=
        Cache.answer_of_inroad hsource hin ids'
      have heq : s.scopes = s'.scopes := by
        rw [hscopes, hscopes', hlayers r above hin part hpart, hlayers r above hin part' hpart']
      rw [hs, hs', Runner.eq_of_detach (hdetach.trans hdetach'.symm) heq]
    · exact Cache.resolve_value_congr hsource (Cache.faithful_lookups source ids')
        (Cache.coherent_lookups hsource ids') (Cache.faithful_lookups source ids)
        (Cache.coherent_lookups hsource ids) (.inr henters)

/-- A runner `x` that extends `a`, which extends itself and has a command. -/
def leadIn : Shelf := ⟨OrderedMap.ofList [
  ("x", "\x7b\"extends\": \"a\"\x7d"),
  ("a", "\x7b\"extends\": \"a\", \"commands\": \x7b\"GO\": \x7b\x7d\x7d\x7d")], []⟩

/-- **The order matters** for `x`: looked up first it has no command, looked up after `a` it has
    the one of `a`. -/
theorem lookup_order_matters :
    leadIn.source.Searchable ∧
      Cache.answer leadIn.source [] "x" ≠ Cache.answer leadIn.source ["a"] "x" :=
  ⟨Shelf.searchable rfl, by decide +kernel⟩

/-- So a runner on the way in of `x` adds something to it. -/
theorem lookup_order_leadIn :
    ¬ ∀ r above, leadIn.source.Inroad "x" (r :: above) →
      ∀ part, part <+: above → layered (r :: part) = r.declared := by
  intro hlayers
  have hsame := (lookup_order_irrelevant_iff leadIn.source (Shelf.searchable rfl) "x").mpr hlayers
  exact absurd (hsame [] ["a"]) (by decide +kernel)

end RunnerCatalog
