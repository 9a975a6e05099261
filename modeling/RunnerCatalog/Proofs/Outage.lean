/-
  What a search that fails leaves behind.

  If the search for a runner fails, nothing is stored about that runner, so it is searched for
  again when it is asked for next.  But a runner that extends it may have been loaded in the
  meantime.  That one is stored with what it declares, and it is not linked again when the search
  works.

  1. **Cuts** - a chain is cut where the search for a runner worked and the search for the one above
     it failed (`Source.Cut`).

  2. **Nothing else** - whatever was asked for while searches failed, a runner with a chain has the
     layers of the chain or of a part that was cut off it (`Source.Torn`), then and after the
     searches work again and the names without a document were forgotten (`Outage.mended`).

  3. **Nothing less** - each cut is found after one lookup, that of the runner below it
     (`Outage.scopes_of_cut`).

  4. **Exactly when** - so failed searches leave nothing behind for a runner if and only if what is
     above the cuts adds nothing (`outage_harmless_iff`).
-/
import RunnerCatalog.Proofs.Due
import RunnerCatalog.Proofs.LookupOrder

namespace RunnerCatalog

open Links

/-! ## Searches that fail for a while -/

namespace Source

variable {source : Source} {id : String}

/-- The search for `id` works. -/
def Finds (source : Source) (id : String) : Prop := ∃ found, source.locate id = .ok found

theorem finds_of_own? {r : Runner} (h : source.own? id = some r) : source.Finds id := by
  obtain ⟨-, -, d, hl, -⟩ := own?_eq_some h
  exact ⟨_, hl⟩

theorem not_finds {failure : Failure} (h : source.locate id = .error failure) :
    ¬ source.Finds id := by
  rintro ⟨found, hfound⟩
  rw [h] at hfound
  cases hfound

end Source

/-- Searches that failed `before` work `after`, and nothing else is different. -/
structure Outage (before after : Source) : Prop where
  locate : ∀ id found, before.locate id = .ok found → after.locate id = .ok found
  read : after.read = before.read
  searchable : after.Searchable

theorem Outage.own? {before after : Source} (h : Outage before after) (id : String)
    (found : Option DocumentId) (hl : before.locate id = .ok found) :
    after.own? id = before.own? id :=
  Source.own?_congr ((h.locate id found hl).trans hl.symm) (fun d _ => congrFun h.read d)

namespace Shelf

/-- The same documents, when no search fails. -/
def repaired (shelf : Shelf) : Shelf := { shelf with failing := [] }

theorem outage (shelf : Shelf) : Outage shelf.source shelf.repaired.source where
  locate := by
    intro id found hl
    rw [locate_source shelf.repaired rfl]
    unfold source locate at hl
    dsimp only at hl
    split at hl
    · cases hl
    · exact hl
  read := rfl
  searchable := searchable rfl

/-- A name that is not on the shelf links to nothing. -/
theorem link?_of_notMem {shelf : Shelf} (hfail : shelf.failing = []) {id : String}
    (hid : id ∉ shelf.documents.keys) : shelf.source.link? id = none := by
  refine Source.link?_of_none (Source.own?_of_absent ?_)
  rw [locate_source shelf hfail, OrderedMap.get?_eq_none_iff.mpr hid]
  rfl

end Shelf

/-! ## Cuts -/

namespace Source

/-- A part of a chain: all of it, or what lies below a runner that cannot be searched for, down from
    one that can. -/
inductive Cut (source : Source) : List Runner → List Runner → Prop
  | whole (rs : List Runner) : Cut source rs rs
  | here {r k : Runner} {above : List Runner} (hr : source.Finds r.name)
      (hk : ¬ source.Finds k.name) : Cut source (r :: k :: above) [r]
  | extend {r : Runner} {rs part : List Runner} (h : Cut source rs part) :
      Cut source (r :: rs) (r :: part)

/-- If `id` has a chain, `scopes` are the layers of the chain or of a part that was cut off it. -/
def Torn (before after : Source) (id : String) (scopes : ScopeMap) : Prop :=
  ∀ rs, after.Chain id rs → ∃ part, before.Cut rs part ∧ scopes = layered part

variable {before after : Source} {id parent : String} {r : Runner} {scopes : ScopeMap}

/-- What a runner's parent has, with the runner laid over it. -/
theorem Torn.extend (h : before.Torn after parent scopes) (hr : after.own? id = some r)
    (hp : r.parent = some parent) (hparent : after.own? parent ≠ none) :
    before.Torn after id (mergeScopes scopes r.declared) := by
  intro rs hchain
  cases hchain with
  | last hs hsp =>
    obtain rfl := Option.some.inj (hr.symm.trans hs)
    rw [hp] at hsp
    cases hsp
  | orphan hs hsp hnone =>
    obtain rfl := Option.some.inj (hr.symm.trans hs)
    obtain rfl := Option.some.inj (hp.symm.trans hsp)
    exact absurd hnone hparent
  | extend hs hsp habove =>
    obtain rfl := Option.some.inj (hr.symm.trans hs)
    obtain rfl := Option.some.inj (hp.symm.trans hsp)
    obtain ⟨part, hcut, rfl⟩ := h _ habove
    exact ⟨r :: part, .extend hcut, (layered_cons r part).symm⟩

/-- What a runner declares, if the one that it extends is not there, has no commands, or could not
    be searched for. -/
theorem torn_declared (hr : after.own? id = some r)
    (hparent : ∀ s q, r.parent = some s → after.own? s = some q →
      (∃ d, q = Runner.blank s d) ∨ before.Finds id ∧ ¬ before.Finds s) :
    before.Torn after id r.declared := by
  intro rs hchain
  cases hchain with
  | last hs hsp =>
    obtain rfl := Option.some.inj (hr.symm.trans hs)
    exact ⟨[r], .whole _, (layered_singleton r).symm⟩
  | orphan hs hsp hnone =>
    obtain rfl := Option.some.inj (hr.symm.trans hs)
    exact ⟨[r], .whole _, (layered_singleton r).symm⟩
  | @extend _ s _ above hs hsp habove =>
    obtain rfl := Option.some.inj (hr.symm.trans hs)
    obtain ⟨q, rest, rfl, hq⟩ := habove.own?
    rcases hparent s q hsp hq with ⟨d, rfl⟩ | ⟨hfound, hlost⟩
    · obtain rfl : rest = [] := by
        cases habove with
        | last => rfl
        | orphan => rfl
        | extend _ htp => cases htp
      refine ⟨[r, Runner.blank s d], .whole _, ?_⟩
      rw [layered_cons, layered_singleton]
      exact (mergeScopes_empty_left r.declared).symm
    · refine ⟨[r], .here ?_ ?_, (layered_singleton r).symm⟩
      · rw [(own?_eq_some hr).1]
        exact hfound
      · rw [(own?_eq_some hq).1]
        exact hlost

end Source

/-! ## Nothing else -/

/-- A cache that was filled while searches failed: it says what the documents say, inheritance
    apart, and runners with a chain have the layers of a part of it. -/
structure Cache.Mended (before after : Source) (cache : Cache) : Prop where
  faithful : cache.Faithful after
  torn : cache.Each (before.Torn after)

namespace Outage

variable {before after source : Source} {cache : Cache} {start : List Runner} {id : String}
  {fresh : List Runner} {c : Climb}

/-- Whoever is linked in one climb with a cycle has no chain. -/
theorem no_chain_of_cycle (ha : Ascent source cache start id fresh c)
    (hf : (c.settle cache).Faithful after) {path : List String} (hpath : c.summit = .cycle path)
    {w : Runner} (hw : w ∈ c.waiting) {rs : List Runner} : ¬ after.Chain w.name rs := by
  intro hchain
  obtain ⟨hl, s, walk, hsought, hwalk⟩ := ha.walk_of_summit hpath
  exact hchain.not_entersCycle (hf.entersCycle (ha.entersCycle hl hsought hwalk hw))

/-- A finished climb, made while searches fail or afterwards, leaves such a cache. -/
theorem settle (ha : Ascent source cache start id fresh c)
    (hsource : ∀ k found, source.locate k = .ok found → after.own? k = source.own? k)
    (hfail : ∀ s failure, source.locate s = .error failure →
      ¬ before.Finds s ∧ ∀ w ∈ c.waiting, before.Finds w.name)
    (hstart : ∀ r ∈ start, after.own? r.name = some r.detach)
    (hc : cache.Mended before after) : (c.settle cache).Mended before after := by
  have hf := ha.faithful hsource (fun k e he _ => hc.faithful k e he) hstart
  have hown : ∀ w ∈ c.waiting, after.own? w.name = some w.detach := by
    intro w hw
    obtain ⟨r, -, hrw, hget⟩ := ha.get?_waiting hw
    rw [hf.own? hget, hrw]
  have hlocated : ∀ k r, source.own? k = some r → after.own? k = some r := by
    intro k r hr
    obtain ⟨-, -, d, hl, -⟩ := Source.own?_eq_some hr
    rw [hsource k _ hl, hr]
  refine ⟨hf, ha.each_settle hc.torn (ha.linked_induction ?_ ?_ ?_) (fun k d hk => ?_)⟩
  · intro path hpath w hw rs hchain
    exact absurd hchain (no_chain_of_cycle ha hf hpath hw)
  · intro hsummit top htop
    have hmem := List.mem_of_mem_head? htop
    rcases ha.top_scopes hsummit htop with ⟨s, q, hp, hq, hscopes⟩ | ⟨hscopes, habove⟩
    · rw [hscopes]
      refine Source.Torn.extend (r := top.detach) (hc.torn s q hq) (hown top hmem) hp ?_
      rw [hc.faithful.own? hq]
      exact nofun
    · rw [hscopes]
      refine Source.torn_declared (r := top.detach) (hown top hmem) (fun s q hp hq => ?_)
      rcases habove s hp with hm | ⟨-, ⟨failure, hlost⟩ | habsent | ⟨d, hblank⟩⟩
      · have hnone := hc.faithful s _ hm
        rw [hq] at hnone
        cases hnone
      · exact .inr ⟨(hfail s failure hlost).2 top hmem, (hfail s failure hlost).1⟩
      · rw [hsource s _ habsent, Source.own?_of_absent habsent] at hq
        cases hq
      · exact .inl ⟨some d, Option.some.inj (hq.symm.trans (hlocated s _ hblank))⟩
  · intro _ u hu w hw hp scopes hscopes
    refine Source.Torn.extend (r := w.detach) hscopes (hown w hw) hp ?_
    rw [hown u hu]
    exact nofun
  · exact Source.torn_declared (hlocated k _ hk) (fun s q hp => nomatch hp)

/-- Lookups while searches fail. -/
theorem mended_lookups (h : Outage before after) (ids : List String) :
    (Cache.lookups before ids).Mended before after := by
  induction ids using List.reverseRecOn with
  | nil => exact ⟨Cache.faithful_empty after, fun _ _ hr => nomatch hr⟩
  | append_singleton ids id ih =>
    obtain ⟨fresh, ha⟩ := exists_ascent before (Cache.lookups before ids) (awaits_nil id)
    rw [Cache.lookups_concat]
    refine settle ha h.own? (fun s failure hl => ?_) (fun r hr => absurd hr List.not_mem_nil) ih
    refine ⟨Source.not_finds hl, fun w hw => ?_⟩
    rw [ha.waiting_eq, List.append_nil] at hw
    exact Source.finds_of_own? (ha.own w hw).1

/-- Requests when searches work again. -/
theorem settle_after (h : Outage before after) (ha : Ascent after cache start id fresh c)
    (hstart : ∀ r ∈ start, after.own? r.name = some r.detach)
    (hc : cache.Mended before after) : (c.settle cache).Mended before after := by
  refine settle ha (fun _ _ _ => rfl) (fun s failure hl => ?_) hstart hc
  exact absurd (h.searchable s) (Source.not_finds hl)

theorem resolve (h : Outage before after) (hc : cache.Mended before after) (id : String) :
    (Cache.resolve after cache id).cache.Mended before after := by
  obtain ⟨fresh, ha⟩ := exists_ascent after cache (awaits_nil id)
  exact h.settle_after ha (fun r hr => absurd hr List.not_mem_nil) hc

theorem of_refreshing (h : Outage before after) (hc : cache.Mended before after) {root : String}
    {done : List String} {now : Cache} {trace : List Event}
    (hrun : Refreshing after cache root done now trace) : now.Mended before after := by
  induction hrun with
  | start => exact hc
  | @next done now trace r parent _ _ hr _ _ ih =>
    obtain ⟨fresh, ha⟩ := exists_ascent_ofRelink after now r
    rw [Cache.relink_cache]
    refine h.settle_after ha (fun s hs => ?_) ih
    obtain rfl := List.mem_singleton.mp hs
    exact ih.faithful.own? hr

theorem refreshAll (h : Outage before after) (order : Order) (hc : cache.Mended before after)
    (ids : List String) : (Cache.refreshAll order after ids cache).cache.Mended before after := by
  induction ids generalizing cache with
  | nil => exact hc
  | cons id ids ih =>
    exact ih (h.of_refreshing hc (refresh_run order after hc.faithful.filed id).1)

/-- **Nothing else is left** of failed searches when they work again and names without a document
    were forgotten. -/
theorem mended (h : Outage before after) (order : Order) (ids : List String) :
    ((Cache.lookups before ids).forgetMissing order after).cache.Mended before after := by
  have hc := h.mended_lookups ids
  refine h.refreshAll order ⟨hc.faithful.filter _, fun id r hr => hc.torn id r ?_⟩ _
  rw [OrderedMap.get?_filter, Option.filter_eq_some_iff] at hr
  exact hr.1

end Outage

/-! ## Nothing less -/

namespace Source

variable {source after : Source} {id parent : String} {r w : Runner} {rest : List Runner}

/-- Behind the first runner of a chain comes the chain of the one that it extends. -/
theorem Chain.tail (h : source.Chain id (r :: rest)) (hrest : rest ≠ []) :
    ∃ parent, source.own? id = some r ∧ r.parent = some parent ∧ source.Chain parent rest := by
  cases h with
  | last => exact absurd rfl hrest
  | orphan => exact absurd rfl hrest
  | extend hr hp habove => exact ⟨_, hr, hp, habove⟩

theorem Chain.own?_head (h : source.Chain id (r :: rest)) : source.own? id = some r := by
  obtain ⟨s, above, heq, hs⟩ := h.own?
  obtain ⟨rfl, rfl⟩ := List.cons.inj heq
  exact hs

theorem Chain.suffix {below above : List Runner} (h : source.Chain id (below ++ r :: above)) :
    source.Chain r.name (r :: above) := by
  induction below generalizing id with
  | nil =>
    rw [(own?_eq_some h.own?_head).1]
    exact h
  | cons b below ih =>
    obtain ⟨parent, -, -, habove⟩ := h.tail (by simp)
    exact ih habove

/-- Links lead to all runners of a chain. -/
theorem Chain.leadsTo {rs : List Runner} (h : source.Chain id rs) :
    ∀ s ∈ rs.tail, LeadsTo source.link? id s.name := by
  induction h with
  | last => exact fun s hs => absurd hs List.not_mem_nil
  | orphan => exact fun s hs => absurd hs List.not_mem_nil
  | @extend id parent r above hr hp habove ih =>
    intro s hs
    have hlink : source.link? id = some parent := (link?_of_own? hr).trans hp
    obtain ⟨q, rest, rfl, hq⟩ := habove.own?
    rcases List.mem_cons.mp hs with rfl | hs
    · rw [(own?_eq_some hq).1]
      exact .single hlink
    · exact .head hlink (ih s hs)

/-- No name comes twice in a chain. -/
theorem Chain.name_ne (h : source.Chain id rest) {s : Runner} (hs : s ∈ rest.tail) :
    s.name ≠ id := by
  intro hname
  have hcycle := h.leadsTo s hs
  rw [hname] at hcycle
  exact h.not_entersCycle (OnCycle.entersCycle hcycle)

/-- If `w` is in the chain of `id`, `scopes` are the layers of what lies below it, and of `w`. -/
def Over (after : Source) (w : Runner) (id : String) (scopes : ScopeMap) : Prop :=
  ∀ below above, after.Chain id (below ++ w :: above) → scopes = layered (below ++ [w])

/-- `w` itself has what it declares. -/
theorem over_self (w : Runner) : after.Over w w.name w.declared := by
  intro below above h
  cases below with
  | nil => exact (layered_singleton w).symm
  | cons b below =>
    refine absurd rfl (h.name_ne ?_)
    exact List.mem_append_right below List.mem_cons_self

theorem Over.extend {scopes : ScopeMap} (h : after.Over w parent scopes)
    (hr : after.own? id = some r) (hp : r.parent = some parent) (hne : id ≠ w.name) :
    after.Over w id (mergeScopes scopes r.declared) := by
  intro below above hchain
  cases below with
  | nil => exact absurd (own?_eq_some hchain.own?_head).1.symm hne
  | cons b below =>
    obtain ⟨s, hb, hbs, habove⟩ := hchain.tail (by simp)
    obtain rfl := Option.some.inj (hr.symm.trans hb)
    obtain rfl := Option.some.inj (hp.symm.trans hbs)
    rw [h below above habove, List.cons_append, layered_cons]

/-- Whoever has `w` in its chain is `w`, or it extends a runner that is `w` or extends another
    one. -/
theorem over_declared (hr : after.own? id = some r)
    (hparent : ∀ s q, r.parent = some s → after.own? s = some q → s ≠ w.name ∧ q.parent = none) :
    after.Over w id r.declared := by
  intro below above hchain
  cases below with
  | nil =>
    obtain rfl := Option.some.inj (hr.symm.trans hchain.own?_head)
    exact (layered_singleton r).symm
  | cons b below =>
    obtain ⟨s, hb, hbs, habove⟩ := hchain.tail (by simp)
    obtain rfl := Option.some.inj (hr.symm.trans hb)
    cases below with
    | nil =>
      have hw := habove.own?_head
      exact absurd (own?_eq_some hw).1.symm (hparent s w hbs hw).1
    | cons q below =>
      obtain ⟨t, hq, hqt, -⟩ := habove.tail (by simp)
      rw [(hparent s q hbs hq).2] at hqt
      cases hqt

end Source

/-- Where no name is known to have no document, there is nothing to forget. -/
theorem Cache.forgetMissing_of_none (order : Order) (source : Source) {cache : Cache}
    (h : cache.missingIds = []) : (forgetMissing order source cache).cache = cache := by
  rw [forgetMissing, h, (order.perm _ []).eq_nil]
  refine OrderedMap.ext (List.filter_eq_self.mpr (fun e he => ?_))
  have hnone := List.filterMap_eq_nil_iff.mp h e he
  obtain ⟨k, e⟩ := e
  cases e with
  | loaded r => rfl
  | missing => cases hnone

namespace Outage

variable {before after : Source} {cache : Cache} {id : String} {w : Runner}

/-- A lookup lays runners over `w` if `w` is known. -/
theorem each_over_resolve (h : Outage before after) (hc : cache.Mended before after)
    (hw : cache.get? w.name ≠ none) (ho : cache.Each (after.Over w)) (id : String) :
    (Cache.resolve after cache id).cache.Each (after.Over w) := by
  obtain ⟨fresh, ha⟩ := exists_ascent after cache (awaits_nil id)
  have hf := (h.resolve hc id).faithful
  have hfresh : ∀ u ∈ (climb after cache [] id).waiting,
      after.own? u.name = some u ∧ u.name ≠ w.name := by
    intro u hu
    rw [ha.waiting_eq, List.append_nil] at hu
    obtain ⟨hown, hnone⟩ := ha.own u hu
    exact ⟨hown, fun heq => hw (heq ▸ hnone)⟩
  refine ha.each_settle ho (ha.linked_induction ?_ ?_ ?_) (fun k d hk => ?_)
  · intro path hpath u hu below above hchain
    exact absurd hchain (no_chain_of_cycle ha hf hpath hu)
  · intro hsummit top htop
    obtain ⟨hown, hne⟩ := hfresh top (List.mem_of_mem_head? htop)
    rcases ha.top_scopes hsummit htop with ⟨s, q, hp, hq, hscopes⟩ | ⟨hscopes, habove⟩
    · rw [hscopes]
      exact (ho s q hq).extend hown hp hne
    · rw [hscopes]
      refine Source.over_declared hown (fun s q hp hq => ?_)
      rcases habove s hp with hm | ⟨hnone, ⟨failure, hlost⟩ | habsent | ⟨d, hblank⟩⟩
      · have hbare := hc.faithful s _ hm
        rw [hq] at hbare
        cases hbare
      · exact absurd (h.searchable s) (Source.not_finds hlost)
      · rw [Source.own?_of_absent habsent] at hq
        cases hq
      · obtain rfl := Option.some.inj (hblank.symm.trans hq)
        exact ⟨fun heq => hw (heq ▸ hnone), rfl⟩
  · intro _ u hu v hv hp scopes hscopes
    obtain ⟨hown, hne⟩ := hfresh v hv
    exact hscopes.extend hown hp hne
  · exact Source.over_declared hk (fun s q hp => nomatch hp)

/-- A runner that was looked up while the search for the one that it extends failed is all that is
    known then. -/
theorem lookups_of_lost {failure : Failure} {parent : String} (hw : before.own? w.name = some w)
    (hp : w.parent = some parent) (hlost : before.locate parent = .error failure) :
    Cache.lookups before [w.name] = Cache.store OrderedMap.empty w.detach := by
  obtain ⟨d, hl, hload⟩ := Source.load_of_own? hw hp
  have hw₁ : Cache.walkInto OrderedMap.empty (chainOf []) w.name = none :=
    (Cache.walkInto_eq_none_iff _ _ _).mpr (fun z hz => absurd hz List.not_mem_nil)
  have hw₂ : Cache.walkInto OrderedMap.empty (chainOf [w]) parent = none := by
    refine (Cache.walkInto_eq_none_iff _ _ _).mpr (fun z hz hway => ?_)
    obtain rfl : z = w.name := List.mem_singleton.mp hz
    -- nothing is known, so the way is at its end where it begins
    rw [hway.eq_of_none rfl, hlost] at hl
    cases hl
  have hclimb : ∃ trace, climb before OrderedMap.empty [] w.name =
      ⟨[w], .unknown parent, [], trace⟩ := by
    refine ⟨[.located w.name, .wasRead d] ++
      [.located parent, .noted (.searchFailed parent failure)], ?_⟩
    rw [climb, climbWithin, hw₁, OrderedMap.get?_empty, hl]
    simp only [hload, hp]
    rw [climbWithin, hw₂, OrderedMap.get?_empty, hlost]
  obtain ⟨trace, hclimb⟩ := hclimb
  show (climb before OrderedMap.empty [] w.name).settle OrderedMap.empty = _
  rw [hclimb]
  rfl

/-- **Each cut is found** after the lookup of the runner below it, made while the search for the one
    above it failed. -/
theorem scopes_of_cut (h : Outage before after) (order : Order) {k : Runner}
    {below above : List Runner} (hchain : after.Chain id (below ++ w :: k :: above))
    (hw : before.Finds w.name) (hk : ¬ before.Finds k.name) :
    ∃ r, (Cache.resolve after ((Cache.lookups before [w.name]).forgetMissing order after).cache
        id).value = some r ∧ r.scopes = layered (below ++ [w]) := by
  obtain ⟨parent, hown, hp, habove⟩ := hchain.suffix.tail (List.cons_ne_nil k above)
  obtain ⟨found, hfound⟩ := hw
  have hbefore : before.own? w.name = some w := (h.own? w.name found hfound).symm.trans hown
  obtain ⟨failure, hlost⟩ : ∃ failure, before.locate parent = .error failure := by
    rw [(Source.own?_eq_some habove.own?_head).1] at hk
    cases hl : before.locate parent with
    | error failure => exact ⟨failure, rfl⟩
    | ok found => exact absurd ⟨found, hl⟩ hk
  have hmended := h.mended_lookups [w.name]
  rw [lookups_of_lost hbefore hp hlost] at hmended ⊢
  rw [Cache.forgetMissing_of_none order after rfl]
  have hover : (Cache.store OrderedMap.empty w.detach).Each (after.Over w) := by
    intro x r hr
    rw [Cache.get?_store] at hr
    split at hr
    · next hname =>
      cases hr
      exact hname ▸ Source.over_self w
    · cases hr
  have hknown : (Cache.store OrderedMap.empty w.detach).get? w.name ≠ none := by
    rw [Cache.get?_store, if_pos (show w.detach.name = w.name from rfl)]
    exact nofun
  have heach := h.each_over_resolve hmended hknown hover id
  have hvalue := hmended.faithful.resolve_value h.searchable id
  obtain ⟨own, rest, -, hid⟩ := hchain.own?
  rw [hid] at hvalue
  obtain ⟨r, hr, -⟩ := Option.map_eq_some_iff.mp hvalue
  exact ⟨r, hr, heach id r (Cache.resolve_value_eq_some.mp hr) below (k :: above) hchain⟩

end Outage

/-! ## Exactly when -/

/-- A runner with a chain has its layers if it is asked for when nothing is known yet. -/
theorem Source.Chain.resolve_empty {source : Source} (hsource : source.Searchable) {id : String}
    {rs : List Runner} (h : source.Chain id rs) :
    ∃ r, (Cache.resolve source OrderedMap.empty id).value = some r ∧ r.scopes = layered rs := by
  have hf := (Cache.faithful_empty source).resolve id
  have hc := Cache.coherentUpTo_empty.resolve hsource id
  obtain ⟨own, above, -, hown⟩ := h.own?
  have hvalue := (Cache.faithful_empty source).resolve_value hsource id
  rw [hown] at hvalue
  obtain ⟨r, hr, -⟩ := Option.map_eq_some_iff.mp hvalue
  refine ⟨r, hr, ?_⟩
  exact Cache.scopes_of_chain hf (Cache.coherentUpTo_nil_iff.mp hc).2 h
    (Cache.resolve_value_eq_some.mp hr)

/-- A cut that leaves something out is made below a runner that cannot be searched for. -/
theorem Source.Cut.cases {source : Source} {rs part : List Runner} (h : source.Cut rs part) :
    part = rs ∨ ∃ below w k above, rs = below ++ w :: k :: above ∧ part = below ++ [w] ∧
      source.Finds w.name ∧ ¬ source.Finds k.name := by
  induction h with
  | whole => exact .inl rfl
  | @here r k above hr hk => exact .inr ⟨[], r, k, above, rfl, rfl, hr, hk⟩
  | @extend r rs part _ ih =>
    rcases ih with rfl | ⟨below, w, k, above, rfl, rfl, hw, hk⟩
    · exact .inl rfl
    · exact .inr ⟨r :: below, w, k, above, rfl, rfl, hw, hk⟩

/-- **Failed searches leave nothing behind** for a runner whose way comes to no cycle if and only
    if, wherever its chain is cut, what is above the cut adds nothing. -/
theorem outage_harmless_iff {before after : Source} (h : Outage before after) (order : Order)
    (id : String) (hway : ¬ EntersCycle after.link? id) :
    (∀ ids, (Cache.resolve after ((Cache.lookups before ids).forgetMissing order after).cache
        id).value = (Cache.resolve after OrderedMap.empty id).value) ↔
      ∀ rs part, after.Chain id rs → before.Cut rs part → layered part = layered rs := by
  constructor
  · intro hsame rs part hchain hcut
    rcases hcut.cases with rfl | ⟨below, w, k, above, rfl, rfl, hw, hk⟩
    · rfl
    obtain ⟨r, hr, hscopes⟩ := h.scopes_of_cut order hchain hw hk
    obtain ⟨s, hs, hscopes'⟩ := hchain.resolve_empty h.searchable
    obtain rfl := Option.some.inj (hr.symm.trans ((hsame _).trans hs))
    rw [← hscopes, hscopes']
  · intro hlayers ids
    have hc := h.mended order ids
    have hvalue := hc.faithful.resolve_value h.searchable id
    have hempty := (Cache.faithful_empty after).resolve_value h.searchable id
    cases hown : after.own? id with
    | none =>
      rw [hown, Option.map_eq_none_iff] at hvalue hempty
      rw [hvalue, hempty]
    | some own =>
      obtain ⟨rs, hchain⟩ := Source.exists_chain_iff.mpr
        ⟨Option.ne_none_iff_exists'.mpr ⟨own, hown⟩, hway⟩
      obtain ⟨s, hs, hscopes'⟩ := hchain.resolve_empty h.searchable
      rw [hown, Option.map_eq_some_iff] at hvalue
      rw [hown, hs, Option.map_some, Option.some.injEq] at hempty
      obtain ⟨r, hr, hdetach⟩ := hvalue
      obtain ⟨part, hcut, hscopes⟩ :=
        (h.resolve hc id).torn id r (Cache.resolve_value_eq_some.mp hr) rs hchain
      rw [hr, hs, Runner.eq_of_detach (hdetach.trans hempty.symm)]
      rw [hscopes, hscopes', hlayers rs part hchain hcut]

/-- A runner `b` that extends `a`, which has a command and cannot be searched for. -/
def lostParent : Shelf := ⟨OrderedMap.ofList [
  ("a", "\x7b\"commands\": \x7b\"GO\": \x7b\x7d\x7d\x7d"),
  ("b", "\x7b\"extends\": \"a\"\x7d")], ["a"]⟩

theorem not_entersCycle_lostParent (id : String) :
    ¬ EntersCycle lostParent.repaired.source.link? id := by
  have ha : lostParent.repaired.source.link? "a" = none := by decide +kernel
  have hb : lostParent.repaired.source.link? "b" = some "a" := by decide +kernel
  by_cases hid : id ∈ ["a", "b"]
  · simp only [List.mem_cons, List.not_mem_nil, or_false] at hid
    rcases hid with rfl | rfl
    · exact not_entersCycle_of_none ha
    · rw [entersCycle_iff_step hb]
      exact not_entersCycle_of_none ha
  · exact not_entersCycle_of_none (Shelf.link?_of_notMem rfl hid)

/-- **A failed search matters** for `b` when it works again: `b` has not got the command of `a`. -/
theorem failed_search_matters :
    let after := lostParent.repaired.source
    let cache := ((Cache.lookups lostParent.source ["b"]).forgetMissing .arrival after).cache
    (∀ id, ¬ EntersCycle after.link? id) ∧
      (cache.resolve after "b").value ≠ (Cache.resolve after OrderedMap.empty "b").value :=
  ⟨not_entersCycle_lostParent, by decide +kernel⟩

/-- So the chain of `b` is cut below something that adds to it. -/
theorem outage_lostParent :
    ¬ ∀ rs part, lostParent.repaired.source.Chain "b" rs → lostParent.source.Cut rs part →
      layered part = layered rs := by
  intro hlayers
  have hsame := (outage_harmless_iff lostParent.outage .arrival "b"
    (not_entersCycle_lostParent "b")).mpr hlayers ["b"]
  exact absurd hsame (by decide +kernel)

end RunnerCatalog
