/-
  What a finished climb leaves in the cache.

  1. **Entries** - a climb adds what it learned and the runners that it linked
     (`Climb.entries`), each under a name of its own, and nothing else changes
     (`Climb.touched`).  The names were unknown before, except for those of the runners that it
     started from (`Ascent.kept`).

  2. **Links** - the added runners form one way to the name that was sought last.  Whether that
     way comes back to them decides the summit: on a cycle each of them runs into it
     (`Ascent.entersCycle`), otherwise none of them is on one (`Ascent.not_onCycle`).

  3. **Scopes** - `Cache.Settled` says that a cached runner has the scopes that its parent's
     entry calls for.  Every added runner does (`Ascent.settled`), given that no search failed.
-/
import Mathlib.Data.List.Chain
import RunnerCatalog.Proofs.Ascent
import RunnerCatalog.Proofs.Merge
import RunnerCatalog.Store.Refresh

namespace RunnerCatalog

open Links

/-! ## Linking -/

/-- A runner, linked over the one above it if there is one. -/
def Runner.over (r : Runner) : Option Runner → Runner
  | none => r.detach
  | some upper => r.inherit upper

theorem Runner.name_over (r : Runner) (upper : Option Runner) : (r.over upper).name = r.name := by
  cases upper <;> rfl

theorem Runner.detach_over (r : Runner) (upper : Option Runner) :
    (r.over upper).detach = r.detach := by
  cases upper <;> rfl

namespace Climb

theorem linkDown_cons (upper : Option Runner) (r : Runner) (below : List Runner) :
    linkDown upper (r :: below) = r.over upper :: linkDown (some (r.over upper)) below := by
  cases upper <;> rfl

/-- Linking changes what is inherited and nothing else. -/
theorem map_detach_linkDown (upper : Option Runner) (ws : List Runner) :
    (linkDown upper ws).map Runner.detach = ws.map Runner.detach := by
  induction ws generalizing upper with
  | nil => cases upper <;> rfl
  | cons r below ih => rw [linkDown_cons, List.map_cons, List.map_cons, ih, Runner.detach_over]

theorem map_detach_linked (c : Climb) :
    c.linked.map Runner.detach = c.waiting.map Runner.detach := by
  unfold linked
  split
  · rw [List.map_map]
    rfl
  · exact map_detach_linkDown _ _

/-- Without a cycle at the summit, runners are linked downwards. -/
theorem linked_of_summit (c : Climb) (h : ∀ path, c.summit ≠ .cycle path) :
    c.linked = linkDown c.parent? c.waiting := by
  unfold linked
  split
  · next path hs => exact absurd hs (h path)
  · rfl

theorem map_name_linked (c : Climb) : c.linked.map Runner.name = c.waiting.map Runner.name := by
  have h := congrArg (List.map Runner.name) c.map_detach_linked
  rw [List.map_map, List.map_map] at h
  exact h

/-- Each linked runner is a waiting one, but for what it inherits. -/
theorem exists_waiting {c : Climb} {r : Runner} (h : r ∈ c.linked) :
    ∃ w ∈ c.waiting, w.detach = r.detach := by
  have hr : r.detach ∈ c.linked.map Runner.detach := List.mem_map_of_mem h
  rw [map_detach_linked] at hr
  exact List.mem_map.mp hr

theorem exists_linked {c : Climb} {w : Runner} (h : w ∈ c.waiting) :
    ∃ r ∈ c.linked, r.detach = w.detach := by
  have hw : w.detach ∈ c.waiting.map Runner.detach := List.mem_map_of_mem h
  rw [← map_detach_linked] at hw
  exact List.mem_map.mp hw

/-- A linked runner is the topmost one, over whoever is at the summit, or it is linked over
    another one that it extends. -/
theorem mem_linkDown {upper : Option Runner} {ws : List Runner} {r : Runner}
    (hchain : ws.IsChain Runner.ExtendedBy) (h : r ∈ linkDown upper ws) :
    (∃ top rest, ws = top :: rest ∧ r = top.over upper) ∨
      ∃ u ∈ linkDown upper ws, r.parent = some u.name ∧
        r.scopes = mergeScopes u.scopes r.declared := by
  induction ws generalizing upper with
  | nil => cases upper <;> cases h
  | cons w below ih =>
    rw [linkDown_cons] at h ⊢
    rcases List.mem_cons.mp h with rfl | h
    · exact .inl ⟨w, below, rfl, rfl⟩
    refine .inr ?_
    have htail : below.IsChain Runner.ExtendedBy := hchain.tail
    rcases ih htail h with ⟨top, rest, rfl, rfl⟩ | ⟨u, hu, hparent, hscopes⟩
    · have hext : top.parent = some w.name := List.isChain_cons_cons.mp hchain |>.1
      refine ⟨w.over upper, List.mem_cons_self, ?_, rfl⟩
      rw [Runner.name_over]
      exact hext
    · exact ⟨u, List.mem_cons_of_mem _ hu, hparent, hscopes⟩

/-! ## Entries -/

/-- What a climb adds to the cache. -/
def entries (c : Climb) : List (String × Entry) :=
  c.learned ++ c.linked.map fun r => (r.name, .loaded r)

theorem settle_eq (c : Climb) (cache : Cache) : c.settle cache = cache.insertAll c.entries := by
  rw [settle, entries, OrderedMap.insertAll_append]
  show c.linked.foldl Cache.store _ = (c.linked.map _).foldl _ _
  rw [List.foldl_map]
  rfl

theorem keys_entries (c : Climb) :
    c.entries.map Prod.fst = c.learned.map Prod.fst ++ c.waiting.map Runner.name := by
  rw [entries, List.map_append, List.map_map, ← map_name_linked]
  rfl

/-- Of other names a climb changes nothing. -/
theorem get?_untouched (c : Climb) {cache : Cache} {k : String}
    (hl : k ∉ c.learned.map Prod.fst) (hw : k ∉ c.waiting.map Runner.name) :
    (c.settle cache).get? k = cache.get? k := by
  rw [c.settle_eq]
  refine OrderedMap.get?_insertAll_of_notMem cache ?_
  rw [c.keys_entries, List.mem_append, not_or]
  exact ⟨hl, hw⟩

/-- **Entries afterwards**: a name is one of those that waited, or it is the one that something
    was learned about, or its entry is as before. -/
theorem touched (c : Climb) (cache : Cache) (k : String) :
    (∃ r ∈ c.linked, r.name = k) ∨ (∃ e, (k, e) ∈ c.learned) ∨
      (c.settle cache).get? k = cache.get? k := by
  by_cases hw : k ∈ c.waiting.map Runner.name
  · rw [← c.map_name_linked] at hw
    exact .inl (List.mem_map.mp hw)
  by_cases hl : k ∈ c.learned.map Prod.fst
  · obtain ⟨⟨k, e⟩, he, rfl⟩ := List.mem_map.mp hl
    exact .inr (.inl ⟨e, he⟩)
  · exact .inr (.inr (c.get?_untouched hl hw))

/-- The climb by which a runner is linked again. -/
def ofRelink (source : Source) (cache : Cache) (r : Runner) : Climb :=
  match r.parent with
  | none => ⟨[r], .base, [], []⟩
  | some parent => climb source cache [r] parent

end Climb

theorem Cache.relink_cache (source : Source) (cache : Cache) (r : Runner) :
    (relink source cache r).cache = (Climb.ofRelink source cache r).settle cache := by
  unfold relink Climb.ofRelink
  cases r.parent <;> rfl

/-- Reading a runner again is linking it again as its document has it now, whether the document
    can be used or not. -/
theorem Cache.reread_cache (source : Source) (cache : Cache) (id : String) (d : DocumentId) :
    (reread source cache id d).cache = (relink source cache (source.reading id d)).cache := by
  unfold reread Source.reading
  cases source.load id d <;> rfl

/-- A runner that is linked again is a climb of its own. -/
theorem exists_ascent_ofRelink (source : Source) (cache : Cache) (r : Runner) :
    ∃ fresh, Ascent source cache [r] (r.parent.getD r.name) fresh
      (Climb.ofRelink source cache r) := by
  unfold Climb.ofRelink
  cases hp : r.parent with
  | none =>
    refine ⟨[], ⟨rfl, fun _ h => absurd h List.not_mem_nil, List.nodup_singleton _,
      List.IsChain.singleton r, fun _ h => (nomatch h), fun _ s hs => ?_, .base rfl rfl hp⟩⟩
    rw [Climb.sought] at hs
    simp only [hp] at hs
    cases hs
  | some parent => exact exists_ascent source cache (awaits_singleton hp)

variable {source : Source} {cache : Cache} {start : List Runner} {id : String}
  {fresh : List Runner} {c : Climb}

namespace Ascent

/-- Who waited at the start still waits. -/
theorem mem_waiting (h : Ascent source cache start id fresh c) {r : Runner} (hr : r ∈ start) :
    r ∈ c.waiting := by
  rw [h.waiting_eq]
  exact List.mem_append_right _ hr

theorem name_mem_waiting (h : Ascent source cache start id fresh c) {k : String}
    (hk : k ∈ start.map Runner.name) : k ∈ c.waiting.map Runner.name := by
  rw [h.waiting_eq, List.map_append]
  exact List.mem_append_right _ hk

/-- What is learned was unknown before, is the name that was sought last, and has no link. -/
theorem of_mem_learned (h : Ascent source cache start id fresh c) {k : String} {e : Entry}
    (he : (k, e) ∈ c.learned) :
    cache.get? k = none ∧ c.sought id = some k ∧ k ∉ c.waiting.map Runner.name ∧
      (e = .missing ∧ source.locate k = .ok none ∨
        ∃ d, e = .loaded (Runner.blank k (some d)) ∧
          source.own? k = some (Runner.blank k (some d))) := by
  cases h.reached with
  | base hs hl hsought => rw [hl] at he; cases he
  | known hs hl hsought hw hq => rw [hl] at he; cases he
  | missing hs hl hsought hw hm => rw [hl] at he; cases he
  | failed hs hl hsought hw hn hf => rw [hl] at he; cases he
  | absent hs hl hsought hw hn ha =>
    rw [hl] at he
    cases List.mem_singleton.mp he
    exact ⟨hn, hsought, notMem_of_walkInto hw, .inl ⟨rfl, ha⟩⟩
  | unusable hs hl hsought hw hn ho =>
    rw [hl] at he
    cases List.mem_singleton.mp he
    exact ⟨hn, hsought, notMem_of_walkInto hw, .inr ⟨_, rfl, ho⟩⟩
  | cycle hs hl hsought hw => rw [hl] at he; cases he

theorem length_learned_le (h : Ascent source cache start id fresh c) : c.learned.length ≤ 1 := by
  cases h.reached with
  | base hs hl => rw [hl]; exact Nat.zero_le 1
  | known hs hl => rw [hl]; exact Nat.zero_le 1
  | missing hs hl => rw [hl]; exact Nat.zero_le 1
  | failed hs hl => rw [hl]; exact Nat.zero_le 1
  | absent hs hl => rw [hl]; exact Nat.le_refl 1
  | unusable hs hl => rw [hl]; exact Nat.le_refl 1
  | cycle hs hl => rw [hl]; exact Nat.zero_le 1

/-- A climb adds each name once. -/
theorem nodup_entries (h : Ascent source cache start id fresh c) :
    (c.entries.map Prod.fst).Nodup := by
  rw [Climb.keys_entries, List.nodup_append]
  refine ⟨?_, h.nodup, ?_⟩
  · rw [List.nodup_iff_pairwise_ne]
    have hle := h.length_learned_le
    match c.learned, hle with
    | [], _ => exact List.Pairwise.nil
    | [e], _ => exact List.pairwise_singleton _ _
  · rintro k hk _ hw rfl
    obtain ⟨⟨k, e⟩, he, rfl⟩ := List.mem_map.mp hk
    exact (h.of_mem_learned he).2.2.1 hw

theorem get?_learned (h : Ascent source cache start id fresh c) {k : String} {e : Entry}
    (he : (k, e) ∈ c.learned) : (c.settle cache).get? k = some e := by
  rw [c.settle_eq]
  exact OrderedMap.get?_insertAll_of_mem cache h.nodup_entries (List.mem_append_left _ he)

theorem get?_linked (h : Ascent source cache start id fresh c) {r : Runner} (hr : r ∈ c.linked) :
    (c.settle cache).get? r.name = some (.loaded r) := by
  rw [c.settle_eq]
  refine OrderedMap.get?_insertAll_of_mem cache h.nodup_entries (List.mem_append_right _ ?_)
  exact List.mem_map_of_mem hr

/-- A runner that waited is cached as it was, but for what it inherits. -/
theorem get?_waiting (h : Ascent source cache start id fresh c) {w : Runner}
    (hw : w ∈ c.waiting) :
    ∃ r ∈ c.linked, r.detach = w.detach ∧ (c.settle cache).get? w.name = some (.loaded r) := by
  obtain ⟨r, hr, hrw⟩ := Climb.exists_linked hw
  have hget := h.get?_linked hr
  rw [Runner.name_of_detach hrw] at hget
  exact ⟨r, hr, hrw, hget⟩

/-- Known names keep their entries, except for the runners that the climb started from. -/
theorem kept (h : Ascent source cache start id fresh c) {k : String} {e : Entry}
    (hk : cache.get? k = some e) (hs : k ∉ start.map Runner.name) :
    (c.settle cache).get? k = some e := by
  rw [← hk]
  refine c.get?_untouched (fun hl => ?_) (fun hw => ?_)
  · obtain ⟨⟨k, e'⟩, he, rfl⟩ := List.mem_map.mp hl
    rw [(h.of_mem_learned he).1] at hk
    cases hk
  · rw [h.waiting_eq, List.map_append, List.mem_append] at hw
    obtain ⟨r, hr, rfl⟩ := List.mem_map.mp (hw.resolve_right hs)
    rw [(h.own r hr).2] at hk
    cases hk

/-! ## Links -/

theorem link?_waiting (h : Ascent source cache start id fresh c) {w : Runner}
    (hw : w ∈ c.waiting) : (c.settle cache).link? w.name = w.parent := by
  obtain ⟨r, -, hrw, hget⟩ := h.get?_waiting hw
  rw [Cache.link?_of_get? hget, Runner.parent_of_detach hrw]

theorem link?_learned (h : Ascent source cache start id fresh c) {k : String} {e : Entry}
    (he : (k, e) ∈ c.learned) : (c.settle cache).link? k = none := by
  have hget := h.get?_learned he
  obtain ⟨-, -, -, ⟨rfl, -⟩ | ⟨d, rfl, -⟩⟩ := h.of_mem_learned he
  · exact Cache.link?_of_missing hget
  · exact Cache.link?_of_get? hget

/-- The runners that waited lie on one way: each leads to those above it. -/
theorem pairwise_leadsTo (h : Ascent source cache start id fresh c) :
    c.waiting.Pairwise fun u w => LeadsTo (c.settle cache).link? w.name u.name := by
  have : IsTrans Runner fun u w => LeadsTo (c.settle cache).link? w.name u.name :=
    ⟨fun _ _ _ huv hvw => hvw.trans huv⟩
  refine List.IsChain.pairwise (h.chain.imp_of_mem_imp fun u w _ hw hext => ?_)
  exact .single ((h.link?_waiting hw).trans hext)

/-- Each runner that waited leads to the name that was sought last, if one was. -/
theorem leadsTo_sought (h : Ascent source cache start id fresh c) {s : String}
    (hs : c.sought id = some s) {w : Runner} (hw : w ∈ c.waiting) :
    LeadsTo (c.settle cache).link? w.name s := by
  have hpair := h.pairwise_leadsTo
  have hlink := fun (u : Runner) (hu : u ∈ c.waiting) => h.link?_waiting hu
  cases hc : c.waiting with
  | nil => rw [hc] at hw; cases hw
  | cons top rest =>
    rw [hc] at hw hpair hlink
    rw [Climb.sought, hc] at hs
    have htop : Step (c.settle cache).link? top.name s :=
      (hlink top List.mem_cons_self).trans hs
    rcases List.mem_cons.mp hw with rfl | hw
    · exact .single htop
    · exact .tail (List.rel_of_pairwise_cons hpair hw) htop

/-- If nothing was sought last, the way of each runner that waited ends. -/
theorem not_entersCycle_of_base (h : Ascent source cache start id fresh c)
    (hs : c.sought id = none) {w : Runner} (hw : w ∈ c.waiting) :
    ¬ EntersCycle (c.settle cache).link? w.name := by
  have hpair := h.pairwise_leadsTo
  have hlink := fun (u : Runner) (hu : u ∈ c.waiting) => h.link?_waiting hu
  cases hc : c.waiting with
  | nil => rw [hc] at hw; cases hw
  | cons top rest =>
    rw [hc] at hw hpair hlink
    rw [Climb.sought, hc] at hs
    have htop : ¬ EntersCycle (c.settle cache).link? top.name :=
      not_entersCycle_of_none ((hlink top List.mem_cons_self).trans hs)
    rcases List.mem_cons.mp hw with rfl | hw
    · exact htop
    · intro henters
      exact htop (henters.reaches (List.rel_of_pairwise_cons hpair hw).to_reflTransGen)

/-- Where no link leads back to a runner that waits, nothing changes. -/
theorem sameFrom (h : Ascent source cache start id fresh c) {s : String}
    (hw : ∀ z ∈ chainOf c.waiting, ¬ Reaches cache.link? s z) :
    SameFrom cache.link? (c.settle cache).link? s := by
  intro z hz
  have hzw : z ∉ c.waiting.map Runner.name := fun hmem => hw z (mem_chainOf.mpr hmem) hz
  by_cases hl : z ∈ c.learned.map Prod.fst
  · obtain ⟨⟨z, e⟩, he, rfl⟩ := List.mem_map.mp hl
    rw [h.link?_learned he, Cache.link?_of_none (h.of_mem_learned he).1]
  · exact Cache.link?_congr (c.get?_untouched hl hzw)

/-- If the walk leads to nobody who waits, no runner that waited is on a cycle. -/
theorem not_onCycle (h : Ascent source cache start id fresh c) {s : String}
    (hs : c.sought id = some s) (hwalk : cache.walkInto (chainOf c.waiting) s = none)
    {w : Runner} (hw : w ∈ c.waiting) : ¬ OnCycle (c.settle cache).link? w.name := by
  intro hcycle
  have hnone := (cache.walkInto_eq_none_iff _ _).mp hwalk
  have hback := hcycle.returns (h.leadsTo_sought hs hw).to_reflTransGen
  refine hnone w.name (mem_chainOf.mpr (List.mem_map_of_mem hw)) ?_
  exact (reaches_congr (h.sameFrom hnone)).mp hback

/-- If the walk leads back, the ways of all runners that waited come to a cycle. -/
theorem entersCycle (h : Ascent source cache start id fresh c) {s : String} {walk : List String}
    (hl : c.learned = []) (hs : c.sought id = some s)
    (hwalk : cache.walkInto (chainOf c.waiting) s = some walk) {w : Runner}
    (hw : w ∈ c.waiting) : EntersCycle (c.settle cache).link? w.name := by
  obtain ⟨z, hz, hsz⟩ :=
    (cache.walkInto_isSome_iff _ _).mp (Option.isSome_of_eq_some hwalk)
  obtain ⟨y, hy, hbefore⟩ := hsz.exists_first hz
  -- up to the first runner that waits, the links are as before
  have hsy : Reaches (c.settle cache).link? s y := by
    refine Relation.ReflTransGen.mono (fun a b hab => ?_) s y hbefore
    obtain ⟨ha, hlink⟩ := hab
    rw [Step, ← hlink]
    refine Cache.link?_congr (c.get?_untouched (hl ▸ List.not_mem_nil) ?_)
    exact fun hmem => ha (mem_chainOf.mpr hmem)
  obtain ⟨u, hu, rfl⟩ := List.mem_map.mp (mem_chainOf.mp hy)
  have hcycle : OnCycle (c.settle cache).link? u.name :=
    (h.leadsTo_sought hs hu).trans_left hsy
  have hsought := hcycle.reaches (h.leadsTo_sought hs hu).to_reflTransGen
  exact hsought.entersCycle.of_reaches (h.leadsTo_sought hs hw).to_reflTransGen

end Ascent

/-! ## Scopes -/

/-- The runner `r`, known as `id`, has the scopes that the entry of its parent calls for. -/
structure Cache.Settled (cache : Cache) (id : String) (r : Runner) : Prop where
  /-- A runner without a parent has what it declares. -/
  base : r.parent = none → r.scopes = r.declared
  /-- Something is known about the parent. -/
  known : ∀ parent, r.parent = some parent → ∃ e, cache.get? parent = some e
  /-- A runner whose parent has no document has what it declares. -/
  orphan : ∀ parent, r.parent = some parent → cache.get? parent = some .missing →
    r.scopes = r.declared
  /-- A runner on a cycle has what it declares. -/
  cycle : OnCycle cache.link? id → r.scopes = r.declared
  /-- Every other runner lays what it declares over what its parent has; of those whose way
      comes to a cycle nothing is said. -/
  merged : ∀ parent q, r.parent = some parent → ¬ EntersCycle cache.link? id →
    cache.get? parent = some (.loaded q) → r.scopes = mergeScopes q.scopes r.declared

namespace Cache

variable {r : Runner}

/-- A runner with only its declared scopes is settled if nothing calls for more. -/
theorem Settled.ofDeclared
    (hscopes : r.scopes = r.declared)
    (hknown : ∀ parent, r.parent = some parent → ∃ e, cache.get? parent = some e)
    (hmerged : ∀ parent q, r.parent = some parent → ¬ EntersCycle cache.link? id →
      cache.get? parent = some (.loaded q) → r.scopes = mergeScopes q.scopes r.declared) :
    cache.Settled id r :=
  ⟨fun _ => hscopes, hknown, fun _ _ _ => hscopes, fun _ => hscopes, hmerged⟩

theorem Settled.ofBase (hscopes : r.scopes = r.declared) (hp : r.parent = none) :
    cache.Settled id r := by
  refine .ofDeclared hscopes (fun parent hparent => ?_) (fun parent q hparent => ?_)
  · rw [hp] at hparent
    cases hparent
  · rw [hp] at hparent
    cases hparent

/-- A runner outside all cycles is settled when it is laid over its known parent. -/
theorem Settled.ofMerged {parent : String} {q : Runner}
    (hp : r.parent = some parent) (hq : cache.get? parent = some (.loaded q))
    (hcycle : ¬ OnCycle cache.link? id) (hscopes : r.scopes = mergeScopes q.scopes r.declared) :
    cache.Settled id r where
  base := fun h => by rw [hp] at h; cases h
  known := fun parent' h => by
    obtain rfl := Option.some.inj (hp.symm.trans h)
    exact ⟨_, hq⟩
  orphan := fun parent' h hm => by
    obtain rfl := Option.some.inj (hp.symm.trans h)
    rw [hq] at hm
    cases hm
  cycle := fun h => absurd h hcycle
  merged := fun parent' q' h _ hq' => by
    obtain rfl := Option.some.inj (hp.symm.trans h)
    rw [hq] at hq'
    cases hq'
    exact hscopes

/-- What is settled stays so while the parent's entry and the links on the way stay. -/
theorem Settled.congr {cache' : Cache} (h : cache.Settled id r)
    (hway : SameFrom cache.link? cache'.link? id)
    (hparent : ∀ parent, r.parent = some parent → cache'.get? parent = cache.get? parent) :
    cache'.Settled id r where
  base := h.base
  known := fun parent hp => hparent parent hp ▸ h.known parent hp
  orphan := fun parent hp hm => h.orphan parent hp (hparent parent hp ▸ hm)
  cycle := fun hcycle => h.cycle ((onCycle_congr hway).mp hcycle)
  merged := fun parent q hp henters hq =>
    h.merged parent q hp (fun he => henters ((entersCycle_congr hway).mpr he))
      (hparent parent hp ▸ hq)

end Cache

namespace Ascent

/-- A runner that waited extends the name that was sought last, or another one that waited. -/
theorem exists_parent (h : Ascent source cache start id fresh c) {w : Runner}
    (hw : w ∈ c.waiting) :
    w.parent = c.sought id ∨ ∃ u ∈ c.waiting, w.parent = some u.name := by
  have hchain := h.chain
  cases hc : c.waiting with
  | nil => rw [hc] at hw; cases hw
  | cons top rest =>
    rw [Climb.sought, hc]
    rw [hc] at hw hchain
    obtain ⟨pre, post, hsplit⟩ := List.append_of_mem hw
    rcases List.eq_nil_or_concat pre with rfl | ⟨pre, u, rfl⟩
    · obtain ⟨rfl, -⟩ := List.cons.inj hsplit
      exact .inl rfl
    · rw [List.concat_eq_append, List.append_assoc, List.singleton_append] at hsplit
      rw [hsplit] at hchain ⊢
      refine .inr ⟨u, by simp, ?_⟩
      exact (List.isChain_append_cons_cons.mp hchain).2.1

/-- What is known where the walk finds nobody stays known. -/
theorem kept_of_walkInto (h : Ascent source cache start id fresh c) {k : String} {e : Entry}
    (hw : cache.walkInto (chainOf c.waiting) k = none) (hk : cache.get? k = some e) :
    (c.settle cache).get? k = some e := by
  exact h.kept hk (fun hmem => notMem_of_walkInto hw (h.name_mem_waiting hmem))

/-- If no search fails, something is known afterwards about the name that was sought last. -/
theorem known_sought (h : Ascent source cache start id fresh c) (hsource : source.Searchable)
    {s : String} (hsought : c.sought id = some s) : ∃ e, (c.settle cache).get? s = some e := by
  cases h.reached with
  | base hs hl hnone => rw [hnone] at hsought; cases hsought
  | known hs hl hs' hwalk hq =>
    obtain rfl := Option.some.inj (hsought.symm.trans hs')
    exact ⟨_, h.kept_of_walkInto hwalk hq⟩
  | missing hs hl hs' hwalk hm =>
    obtain rfl := Option.some.inj (hsought.symm.trans hs')
    exact ⟨_, h.kept_of_walkInto hwalk hm⟩
  | @failed t failure hs hl hs' hwalk hn hf =>
    obtain ⟨found, hfound⟩ := hsource t
    rw [hfound] at hf
    cases hf
  | absent hs hl hs' hwalk hn ha =>
    obtain rfl := Option.some.inj (hsought.symm.trans hs')
    exact ⟨_, h.get?_learned (hl ▸ List.mem_singleton_self _)⟩
  | unusable hs hl hs' hwalk hn ho =>
    obtain rfl := Option.some.inj (hsought.symm.trans hs')
    exact ⟨_, h.get?_learned (hl ▸ List.mem_singleton_self _)⟩
  | cycle hs hl hs' hwalk =>
    obtain rfl := Option.some.inj (hsought.symm.trans hs')
    by_cases hmem : s ∈ c.waiting.map Runner.name
    · obtain ⟨u, hu, rfl⟩ := List.mem_map.mp hmem
      obtain ⟨r, -, -, hget⟩ := h.get?_waiting hu
      exact ⟨_, hget⟩
    -- the walk goes on from `s`, so it is known already
    obtain ⟨z, hz, hreach⟩ :=
      (cache.walkInto_isSome_iff _ _).mp (Option.isSome_of_eq_some hwalk)
    rcases Relation.ReflTransGen.cases_head hreach with rfl | ⟨next, hnext, -⟩
    · exact absurd (mem_chainOf.mp hz) hmem
    · obtain ⟨r, hr, -⟩ := Cache.link?_eq_some_iff.mp hnext
      exact ⟨_, h.kept hr (fun hstart => hmem (h.name_mem_waiting hstart))⟩

/-- If no search fails, something is known afterwards about the parent of each runner that
    waited. -/
theorem known_parent (h : Ascent source cache start id fresh c) (hsource : source.Searchable)
    {w : Runner} (hw : w ∈ c.waiting) {parent : String} (hp : w.parent = some parent) :
    ∃ e, (c.settle cache).get? parent = some e := by
  rcases h.exists_parent hw with hsought | ⟨u, hu, hparent⟩
  · exact h.known_sought hsource (hsought.symm.trans hp)
  · obtain rfl := Option.some.inj (hp.symm.trans hparent)
    obtain ⟨r, -, -, hget⟩ := h.get?_waiting hu
    exact ⟨_, hget⟩

/-- A cycle at the summit is a walk back to somebody who waits. -/
theorem walk_of_summit (h : Ascent source cache start id fresh c) {path : List String}
    (hpath : c.summit = .cycle path) :
    c.learned = [] ∧ ∃ s walk, c.sought id = some s ∧
      cache.walkInto (chainOf c.waiting) s = some walk := by
  cases h.reached with
  | cycle hs hl hsought hwalk => exact ⟨hl, _, _, hsought, hwalk⟩
  | base hs => rw [hs] at hpath; cases hpath
  | known hs => rw [hs] at hpath; cases hpath
  | missing hs => rw [hs] at hpath; cases hpath
  | failed hs => rw [hs] at hpath; cases hpath
  | absent hs => rw [hs] at hpath; cases hpath
  | unusable hs => rw [hs] at hpath; cases hpath

/-- Without a cycle at the summit, no runner that waited is on one. -/
theorem not_onCycle_of_summit (h : Ascent source cache start id fresh c)
    (hsummit : ∀ path, c.summit ≠ .cycle path) {w : Runner} (hw : w ∈ c.waiting) :
    ¬ OnCycle (c.settle cache).link? w.name := by
  cases h.reached with
  | base hs hl hsought =>
    exact fun hcycle => h.not_entersCycle_of_base hsought hw hcycle.entersCycle
  | known hs hl hsought hwalk => exact h.not_onCycle hsought hwalk hw
  | missing hs hl hsought hwalk => exact h.not_onCycle hsought hwalk hw
  | failed hs hl hsought hwalk => exact h.not_onCycle hsought hwalk hw
  | absent hs hl hsought hwalk => exact h.not_onCycle hsought hwalk hw
  | unusable hs hl hsought hwalk => exact h.not_onCycle hsought hwalk hw
  | cycle hs => exact absurd hs (hsummit _)

/-- The topmost runner that waited is settled by what is at the summit. -/
theorem settled_top (h : Ascent source cache start id fresh c) (hsource : source.Searchable)
    (hsummit : ∀ path, c.summit ≠ .cycle path) {top : Runner} {rest : List Runner}
    (hc : c.waiting = top :: rest) :
    (c.settle cache).Settled top.name (top.over c.parent?) := by
  have htop : top ∈ c.waiting := hc ▸ List.mem_cons_self
  have hcycle := h.not_onCycle_of_summit hsummit htop
  have hknown := fun parent (hp : top.parent = some parent) => h.known_parent hsource htop hp
  have hsought : c.sought id = top.parent := by rw [Climb.sought, hc]
  cases h.reached with
  | base hs hl hs' =>
    rw [Climb.parent?, hs]
    exact .ofBase rfl (hsought.symm.trans hs')
  | known hs hl hs' hwalk hq =>
    rw [Climb.parent?, hs]
    exact .ofMerged (hsought.symm.trans hs') (h.kept_of_walkInto hwalk hq) hcycle rfl
  | missing hs hl hs' hwalk hm =>
    rw [Climb.parent?, hs]
    refine .ofDeclared rfl hknown (fun parent q hp _ hq => ?_)
    obtain rfl := Option.some.inj (hs'.symm.trans (hsought.trans hp))
    rw [h.kept_of_walkInto hwalk hm] at hq
    cases hq
  | @failed s failure hs hl hs' hwalk hn hf =>
    obtain ⟨found, hfound⟩ := hsource s
    rw [hfound] at hf
    cases hf
  | absent hs hl hs' hwalk hn ha =>
    rw [Climb.parent?, hs]
    refine .ofDeclared rfl hknown (fun parent q hp _ hq => ?_)
    obtain rfl := Option.some.inj (hs'.symm.trans (hsought.trans hp))
    rw [h.get?_learned (hl ▸ List.mem_singleton_self _)] at hq
    cases hq
  | unusable hs hl hs' hwalk hn ho =>
    rw [Climb.parent?, hs]
    refine .ofDeclared rfl hknown (fun parent q hp _ hq => ?_)
    obtain rfl := Option.some.inj (hs'.symm.trans (hsought.trans hp))
    rw [h.get?_learned (hl ▸ List.mem_singleton_self _)] at hq
    cases hq
    -- over a runner without commands
    exact (mergeScopes_empty_left top.declared).symm
  | cycle hs => exact absurd hs (hsummit _)

/-- **Every runner that waited is settled**, if no search fails. -/
theorem settled_linked (h : Ascent source cache start id fresh c) (hsource : source.Searchable)
    {r : Runner} (hr : r ∈ c.linked) : (c.settle cache).Settled r.name r := by
  obtain ⟨w, hw, hwr⟩ := Climb.exists_waiting hr
  by_cases hsummit : ∀ path, c.summit ≠ .cycle path
  · have hlinked := c.linked_of_summit hsummit
    have hcycle := h.not_onCycle_of_summit hsummit hw
    rw [Runner.name_of_detach hwr] at hcycle
    rcases Climb.mem_linkDown h.chain (hlinked ▸ hr) with ⟨top, rest, hc, rfl⟩ | ⟨u, hu, hp, hs⟩
    · rw [Runner.name_over]
      exact h.settled_top hsource hsummit hc
    · exact .ofMerged hp (h.get?_linked (hlinked ▸ hu)) hcycle hs
  · -- on a way into a cycle everybody keeps what is declared
    obtain ⟨path, hpath⟩ := not_forall_not.mp hsummit
    obtain ⟨hl, s, walk, hsought, hwalk⟩ := h.walk_of_summit hpath
    rw [Climb.linked, hpath] at hr
    obtain ⟨w, hw, rfl⟩ := List.mem_map.mp hr
    refine .ofDeclared rfl (fun parent hp => h.known_parent hsource hw hp) ?_
    exact fun parent q _ henters => absurd (h.entersCycle hl hsought hwalk hw) henters

/-- A runner in the cache afterwards is settled, or it was there before and did not wait. -/
theorem settled (h : Ascent source cache start id fresh c) (hsource : source.Searchable)
    {k : String} {r : Runner} (hk : (c.settle cache).get? k = some (.loaded r)) :
    (c.settle cache).Settled k r ∨
      (k ∉ c.waiting.map Runner.name ∧ cache.get? k = some (.loaded r)) := by
  by_cases hmem : k ∈ c.waiting.map Runner.name
  · obtain ⟨w, hw, rfl⟩ := List.mem_map.mp hmem
    obtain ⟨s, hs, hsw, hget⟩ := h.get?_waiting hw
    rw [hk] at hget
    cases hget
    have := h.settled_linked hsource hs
    rw [Runner.name_of_detach hsw] at this
    exact .inl this
  by_cases hl : k ∈ c.learned.map Prod.fst
  · obtain ⟨⟨k, e⟩, he, rfl⟩ := List.mem_map.mp hl
    rw [h.get?_learned he] at hk
    cases hk
    obtain ⟨-, -, -, ⟨hmissing, -⟩ | ⟨d, hd, -⟩⟩ := h.of_mem_learned he
    · cases hmissing
    · cases hd
      exact .inl (.ofBase rfl rfl)
  · rw [c.get?_untouched hl hmem] at hk
    exact .inr ⟨hmem, hk⟩

end Ascent

end RunnerCatalog
