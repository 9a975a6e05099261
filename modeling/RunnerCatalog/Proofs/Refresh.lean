/-
  What a refresh does.

  A refresh takes up names from a queue and links the runners again that extend them.  It is
  written with a bound on its steps, and in batches; neither matters.

  1. **One runner at a time** - `Refreshing` has one rule: a runner that was not linked again
     yet is linked again, because the one that it extends is the root of the refresh or was
     linked again before.

  2. **Nothing is lost** - on the way every entry stays, up to what its runner inherits
     (`Refreshing.bare`), so links stay too (`Refreshing.link?`).

  3. **The bound is never met** - each runner is linked again at most once, and the cache grows
     only once, when the root itself becomes known (`Refreshing.size`).  So the loop, whose state
     between two turns is `Queued`, comes to an end only when nobody is left who extends a runner
     that was linked again (`refresh_run`).
-/
import RunnerCatalog.Proofs.Growth
import RunnerCatalog.Store.Refresh

namespace RunnerCatalog

open Links

/-! ## One runner linked again -/

/-- What an entry says about its runner, inheritance apart. -/
def Entry.bare (e : Entry) : Option Runner := e.runner?.map Runner.detach

theorem Entry.bare_loaded {r s : Runner} (h : r.detach = s.detach) :
    (Entry.loaded r).bare = (Entry.loaded s).bare :=
  congrArg some h

/-- An entry that says the same as a runner's holds a runner with the same link. -/
theorem Entry.eq_loaded_of_bare {e : Entry} {r : Runner} (h : e.bare = (Entry.loaded r).bare) :
    ∃ s, e = .loaded s ∧ s.detach = r.detach := by
  cases e with
  | loaded s => exact ⟨s, rfl, Option.some.inj h⟩
  | missing => cases h

namespace Cache

theorem link?_of_bare {cache cache' : Cache} {id : String} {e e' : Entry}
    (h : cache.get? id = some e) (h' : cache'.get? id = some e') (hb : e'.bare = e.bare) :
    cache'.link? id = cache.link? id := by
  cases e with
  | loaded r =>
    obtain ⟨s, rfl, hs⟩ := Entry.eq_loaded_of_bare hb
    rw [link?_of_get? h, link?_of_get? h', Runner.parent_of_detach hs]
  | missing =>
    cases e' with
    | loaded s => cases hb
    | missing => rw [link?_of_missing h, link?_of_missing h']

variable {source : Source} {cache : Cache} {r : Runner}

/-- Linking a known runner again changes no entry but its own, and there only what the runner
    inherits. -/
theorem relink_bare (source : Source) (hr : cache.get? r.name = some (.loaded r)) {id : String}
    {e : Entry} (he : cache.get? id = some e) :
    ∃ e', (relink source cache r).cache.get? id = some e' ∧ e'.bare = e.bare ∧
      (id ≠ r.name → e' = e) := by
  obtain ⟨fresh, h⟩ := exists_ascent_ofRelink source cache r
  rw [relink_cache]
  by_cases hid : id = r.name
  · subst hid
    obtain ⟨s, -, hsr, hget⟩ := h.get?_waiting (h.mem_waiting (List.mem_singleton_self r))
    rw [hr] at he
    cases he
    exact ⟨_, hget, Entry.bare_loaded hsr, fun hne => absurd rfl hne⟩
  · refine ⟨e, h.kept he (fun hmem => hid ?_), rfl, fun _ => rfl⟩
    exact List.mem_singleton.mp hmem

/-- What is known stays known when a known runner is linked again. -/
theorem relink_keeps (source : Source) (hr : cache.get? r.name = some (.loaded r)) {id : String}
    (hid : cache.get? id ≠ none) : (relink source cache r).cache.get? id ≠ none := by
  obtain ⟨e, he⟩ := Option.ne_none_iff_exists'.mp hid
  obtain ⟨e', he', -⟩ := relink_bare source hr he
  exact known_of_get? he'

/-- Links stay when a known runner is linked again. -/
theorem relink_link? (hr : cache.get? r.name = some (.loaded r)) {id parent : String}
    (h : cache.link? id = some parent) : (relink source cache r).cache.link? id = some parent := by
  obtain ⟨s, hs, -⟩ := link?_eq_some_iff.mp h
  obtain ⟨e', he', hb, -⟩ := relink_bare source hr hs
  rw [link?_of_bare hs he' hb, h]

theorem relink_filed (h : cache.Filed) : (relink source cache r).cache.Filed := by
  obtain ⟨fresh, ha⟩ := exists_ascent_ofRelink source cache r
  rw [relink_cache]
  exact ha.filed h

theorem known_of_mem_singleton (hr : cache.get? r.name = some (.loaded r)) :
    ∀ s ∈ [r], cache.get? s.name ≠ none := by
  intro s hs
  obtain rfl := List.mem_singleton.mp hs
  exact known_of_get? hr

/-- What becomes known when a runner is linked again is on the way from its parent. -/
theorem relink_new {parent : String} (hr : cache.get? r.name = some (.loaded r))
    (hp : r.parent = some parent) {id : String} (hid : cache.get? id = none)
    (hid' : (relink source cache r).cache.get? id ≠ none) :
    cache.get? parent = none ∧ (relink source cache r).cache.get? parent ≠ none ∧
      Reaches (relink source cache r).cache.link? parent id := by
  obtain ⟨fresh, ha⟩ := exists_ascent_ofRelink source cache r
  rw [hp, Option.getD_some] at ha
  rw [relink_cache] at hid' ⊢
  exact ha.id_of_added (ha.added_of_new (known_of_mem_singleton hr) hid hid')

/-- If no search fails, the parent of a runner that was linked again is known. -/
theorem relink_known (hsource : source.Searchable) {parent : String} (hp : r.parent = some parent) :
    ∃ e, (relink source cache r).cache.get? parent = some e := by
  obtain ⟨fresh, ha⟩ := exists_ascent_ofRelink source cache r
  rw [relink_cache]
  exact ha.known_parent hsource (ha.mem_waiting (List.mem_singleton_self r)) hp

theorem relink_size (source : Source) {parent : String} (hr : cache.get? r.name = some (.loaded r))
    (hp : r.parent = some parent) :
    (relink source cache r).cache.size ≤ cache.size ∨
      cache.get? parent = none ∧ (relink source cache r).cache.get? parent ≠ none ∧
        (relink source cache r).cache.size ≤ cache.size + source.texts.length + 1 := by
  obtain ⟨fresh, ha⟩ := exists_ascent_ofRelink source cache r
  rw [hp, Option.getD_some] at ha
  rw [relink_cache]
  exact ha.size_settle (known_of_mem_singleton hr)

end Cache

/-! ## One runner at a time -/

/-- A refresh for `root` under way: `done` has `root` and the runners that were linked again, the
    last one first. -/
inductive Refreshing (source : Source) (cache : Cache) (root : String) :
    List String → Cache → List Event → Prop
  | start : Refreshing source cache root [root] cache []
  | next {done : List String} {now : Cache} {trace : List Event} {r : Runner} {parent : String}
      (before : Refreshing source cache root done now trace) (hnew : r.name ∉ done)
      (hr : now.get? r.name = some (.loaded r)) (hp : r.parent = some parent)
      (hdone : parent ∈ done) :
      Refreshing source cache root (r.name :: done) (Cache.relink source now r).cache
        (trace ++ ((Cache.relink source now r).trace ++ [.noted (.rebuilt r.name parent)]))

namespace Refreshing

variable {source : Source} {cache now : Cache} {root : String} {done : List String}
  {trace : List Event}

theorem filed (h : Refreshing source cache root done now trace) (hc : cache.Filed) :
    now.Filed := by
  induction h with
  | start => exact hc
  | next _ _ _ _ _ ih => exact Cache.relink_filed ih

/-- No runner is linked again twice, and the root is not linked again. -/
theorem nodup (h : Refreshing source cache root done now trace) : done.Nodup := by
  induction h with
  | start => exact List.nodup_singleton root
  | next _ hnew _ _ _ ih => exact List.nodup_cons.mpr ⟨hnew, ih⟩

theorem root_mem (h : Refreshing source cache root done now trace) : root ∈ done := by
  induction h with
  | start => exact List.mem_singleton_self root
  | next _ _ _ _ _ ih => exact List.mem_cons_of_mem _ ih

/-- **Nothing is lost**: entries stay, up to what their runners inherit, and of the runners that
    were not linked again they stay as they are. -/
theorem bare (h : Refreshing source cache root done now trace) {id : String} {e : Entry}
    (he : cache.get? id = some e) :
    ∃ e', now.get? id = some e' ∧ e'.bare = e.bare ∧ (id = root ∨ id ∉ done → e' = e) := by
  induction h with
  | start => exact ⟨e, he, rfl, fun _ => rfl⟩
  | @next done now trace r parent before hnew hr hp hdone ih =>
    obtain ⟨e₁, he₁, hb₁, hsame₁⟩ := ih
    obtain ⟨e₂, he₂, hb₂, hsame₂⟩ := Cache.relink_bare source hr he₁
    refine ⟨e₂, he₂, hb₂.trans hb₁, ?_⟩
    rintro (rfl | hid)
    · rw [hsame₂ (fun hroot => hnew (hroot ▸ before.root_mem)), hsame₁ (.inl rfl)]
    · rw [List.mem_cons, not_or] at hid
      rw [hsame₂ hid.1, hsame₁ (.inr hid.2)]

/-- Links of known names stay. -/
theorem link? (h : Refreshing source cache root done now trace) {id : String}
    (hid : cache.get? id ≠ none) : now.link? id = cache.link? id := by
  obtain ⟨e, he⟩ := Option.ne_none_iff_exists'.mp hid
  obtain ⟨e', he', hb, -⟩ := h.bare he
  exact Cache.link?_of_bare he he' hb

theorem link?_of_some (h : Refreshing source cache root done now trace) {id parent : String}
    (hp : cache.link? id = some parent) : now.link? id = some parent := by
  obtain ⟨r, hr, -⟩ := Cache.link?_eq_some_iff.mp hp
  rw [h.link? (Cache.known_of_get? hr), hp]

/-- Who was linked again extends the root or somebody else who was linked again. -/
theorem extends_done (h : Refreshing source cache root done now trace) {id : String}
    (hid : id ∈ done) : id = root ∨ ∃ parent ∈ done, now.link? id = some parent := by
  induction h with
  | start => exact .inl (List.mem_singleton.mp hid)
  | @next done now trace r parent before hnew hr hp hdone ih =>
    rcases List.mem_cons.mp hid with rfl | hid
    · refine .inr ⟨parent, List.mem_cons_of_mem _ hdone, Cache.relink_link? hr ?_⟩
      rw [Cache.link?_of_get? hr, hp]
    · rcases ih hid with rfl | ⟨p, hpdone, hplink⟩
      · exact .inl rfl
      · exact .inr ⟨p, List.mem_cons_of_mem _ hpdone, Cache.relink_link? hr hplink⟩

theorem known_of_mem (h : Refreshing source cache root done now trace) {id : String}
    (hid : id ∈ done) (hne : id ≠ root) : now.get? id ≠ none := by
  obtain ⟨parent, -, hlink⟩ := (h.extends_done hid).resolve_left hne
  obtain ⟨r, hr, -⟩ := Cache.link?_eq_some_iff.mp hlink
  exact Cache.known_of_get? hr

/-- Who was linked again leads to the root. -/
theorem reaches_root (h : Refreshing source cache root done now trace) {id : String}
    (hid : id ∈ done) : Reaches now.link? id root := by
  induction h generalizing id with
  | start =>
    obtain rfl := List.mem_singleton.mp hid
    exact .refl
  | @next done now trace r parent before hnew hr hp hdone ih =>
    have hmono : ∀ {x}, Reaches now.link? x root →
        Reaches (Cache.relink source now r).cache.link? x root :=
      fun hx => hx.mono (fun _ _ hxy => Cache.relink_link? hr hxy)
    rcases List.mem_cons.mp hid with rfl | hid
    · refine (hmono (ih hdone)).head (Cache.relink_link? hr ?_)
      rw [Cache.link?_of_get? hr, hp]
    · exact hmono (ih hid)

/-- Runners that are loaded on the way are on the way from the root. -/
theorem reaches_of_new (h : Refreshing source cache root done now trace) {id : String}
    (hid : cache.get? id = none) (hid' : now.get? id ≠ none) : Reaches now.link? root id := by
  induction h with
  | start => exact absurd hid hid'
  | @next done now trace r parent before hnew hr hp hdone ih =>
    by_cases hnow : now.get? id = none
    · obtain ⟨hnone, -, hway⟩ := Cache.relink_new hr hp hnow hid'
      obtain rfl : parent = root := by
        by_contra hne
        exact before.known_of_mem hdone hne hnone
      exact hway
    · exact (ih hnow).mono (fun _ _ hxy => Cache.relink_link? hr hxy)

/-- If no search fails, the root is known as soon as anything was linked again. -/
theorem root_known (h : Refreshing source cache root done now trace)
    (hsource : source.Searchable) : (done = [root] ∧ now = cache) ∨ now.get? root ≠ none := by
  induction h with
  | start => exact .inl ⟨rfl, rfl⟩
  | @next done now trace r parent before hnew hr hp hdone ih =>
    refine .inr ?_
    by_cases hroot : parent = root
    · subst hroot
      obtain ⟨e, he⟩ : ∃ e, (Cache.relink source now r).cache.get? parent = some e :=
        Cache.relink_known hsource hp
      exact Cache.known_of_get? he
    · have hknown : now.get? root ≠ none := by
        rcases ih with ⟨rfl, -⟩ | hknown
        · exact absurd (List.mem_singleton.mp hdone) hroot
        · exact hknown
      exact Cache.relink_keeps source hr hknown

/-- **Growth happens once**: when the root itself becomes known.  Whatever else is linked again
    extends a runner that is known. -/
theorem size (h : Refreshing source cache root done now trace) :
    now.size ≤ cache.size ∨
      now.get? root ≠ none ∧ now.size ≤ cache.size + source.texts.length + 1 := by
  induction h with
  | start => exact .inl (Nat.le_refl _)
  | @next done now trace r parent before hnew hr hp hdone ih =>
    rcases Cache.relink_size source hr hp with hle | ⟨hnone, hknown, hle⟩
    · rcases ih with ih | ⟨hroot, ih⟩
      · exact .inl (hle.trans ih)
      · exact .inr ⟨Cache.relink_keeps source hr hroot, hle.trans ih⟩
    · obtain rfl : parent = root := by
        by_contra hne
        exact before.known_of_mem hdone hne hnone
      rcases ih with ih | ⟨hroot, -⟩
      · exact .inr ⟨hknown, by omega⟩
      · exact absurd hnone hroot

/-- A refresh links no more runners again than fit in the cache with its one growth. -/
theorem length_le (h : Refreshing source cache root done now trace) :
    done.length ≤ cache.size + source.texts.length + 2 := by
  have hsub : done ⊆ root :: now.keys := by
    intro x hx
    by_cases hroot : x = root
    · exact hroot ▸ List.mem_cons_self
    · refine List.mem_cons_of_mem _ (Decidable.by_contra fun hkeys => ?_)
      exact h.known_of_mem hx hroot (OrderedMap.get?_eq_none_iff.mpr hkeys)
  have hle := (h.nodup.subperm hsub).length_le
  rw [List.length_cons, OrderedMap.length_keys] at hle
  rcases h.size with hsize | ⟨-, hsize⟩ <;> omega

end Refreshing

/-! ## Batches -/

namespace Cache

/-- A known runner is linked again, and it is reported. -/
theorem rebuild_of_get? {source : Source} {cache : Cache} {r : Runner} {parent : String}
    (hr : cache.get? r.name = some (.loaded r)) :
    rebuild source cache r.name parent = ⟨(), (relink source cache r).cache,
      (relink source cache r).trace ++ [.noted (.rebuilt r.name parent)]⟩ := by
  rw [rebuild, loaded?_eq_some_iff.mpr hr]

theorem mem_dependents {cache : Cache} {visited : List String} {parent id : String} :
    id ∈ cache.dependents visited parent ↔ id ∉ visited ∧ cache.link? id = some parent := by
  rw [dependents, mem_idsWhere, link?_eq_some_iff]
  constructor
  · rintro ⟨r, hr, hp⟩
    rw [Bool.and_eq_true, beq_iff_eq, Bool.not_eq_true', List.contains_eq_mem,
      decide_eq_false_iff_not] at hp
    exact ⟨hp.1, r, hr, hp.2⟩
  · rintro ⟨hv, r, hr, hp⟩
    refine ⟨r, hr, ?_⟩
    rw [Bool.and_eq_true, beq_iff_eq, Bool.not_eq_true', List.contains_eq_mem,
      decide_eq_false_iff_not]
    exact ⟨hv, hp⟩

end Cache

namespace Refreshing

variable {source : Source} {cache now : Cache} {root : String} {done : List String}
  {trace : List Event}

/-- A batch of runners that extend `parent` is linked again one by one; links stay. -/
theorem rebuildAll (h : Refreshing source cache root done now trace) (hc : cache.Filed)
    {parent : String} (hdone : parent ∈ done) {ids : List String} (hids : ids.Nodup)
    (hmem : ∀ id ∈ ids, id ∉ done ∧ now.link? id = some parent) :
    Refreshing source cache root (ids.reverse ++ done)
        (Cache.rebuildAll source parent ids now).cache
        (trace ++ (Cache.rebuildAll source parent ids now).trace) ∧
      ∀ x y, now.link? x = some y →
        (Cache.rebuildAll source parent ids now).cache.link? x = some y := by
  induction ids generalizing done now trace with
  | nil =>
    rw [Cache.rebuildAll, List.append_nil]
    exact ⟨h, fun _ _ hxy => hxy⟩
  | cons id ids ih =>
    rw [List.nodup_cons] at hids
    obtain ⟨hnew, hlink⟩ := hmem id List.mem_cons_self
    obtain ⟨r, hr, hp⟩ := Cache.link?_eq_some_iff.mp hlink
    obtain rfl := h.filed hc id r hr
    have hrest : ∀ x ∈ ids, x ∉ r.name :: done ∧
        (Cache.relink source now r).cache.link? x = some parent := by
      intro x hx
      obtain ⟨hxnew, hxlink⟩ := hmem x (List.mem_cons_of_mem _ hx)
      refine ⟨fun hxmem => ?_, Cache.relink_link? hr hxlink⟩
      rcases List.mem_cons.mp hxmem with rfl | hxmem
      · exact hids.1 hx
      · exact hxnew hxmem
    obtain ⟨hall, hlinks⟩ :=
      ih (h.next hnew hr hp hdone) (List.mem_cons_of_mem _ hdone) hids.2 hrest
    rw [Cache.rebuildAll, Cache.rebuild_of_get? hr, List.reverse_cons, List.append_assoc]
    refine ⟨?_, fun x y hxy => hlinks x y (Cache.relink_link? hr hxy)⟩
    simp only [List.append_assoc, List.singleton_append] at hall ⊢
    exact hall

end Refreshing

/-! ## The loop -/

/-- A refresh between two turns of its loop: the names of `visited` were taken up, and those of
    `queue` wait for it. -/
structure Queued (source : Source) (cache : Cache) (root : String) (queue visited : List String)
    (now : Cache) (trace : List Event) : Prop where
  run : Refreshing source cache root (queue.reverse ++ visited) now trace
  /-- Who waits extends somebody who was taken up, unless it waits alone, as the root does. -/
  waits : ∀ x ∈ queue, (∃ v ∈ visited, now.link? x = some v) ∨ queue = [x]
  /-- Nobody is left out who extends somebody who was taken up. -/
  closed : ∀ v ∈ visited, ∀ id, cache.link? id = some v → id ∈ queue.reverse ++ visited

namespace Queued

variable {source : Source} {cache now : Cache} {root parent : String}
  {queue visited : List String} {trace : List Event}

theorem start (source : Source) (cache : Cache) (root : String) :
    Queued source cache root [root] [] cache [] := by
  refine ⟨.start, fun x hx => ?_, fun v hv => absurd hv List.not_mem_nil⟩
  obtain rfl := List.mem_singleton.mp hx
  exact .inr rfl

/-- No name is taken up twice. -/
theorem notMem (h : Queued source cache root (parent :: queue) visited now trace) :
    parent ∉ visited := by
  have hnodup := h.run.nodup
  rw [List.reverse_cons, List.append_assoc, List.singleton_append] at hnodup
  exact (List.nodup_cons.mp (List.nodup_append.mp hnodup).2.1).1

/-- Behind the first name that waits, everybody extends somebody who was taken up. -/
theorem waits_tail (h : Queued source cache root (parent :: queue) visited now trace) {x : String}
    (hx : x ∈ queue) : ∃ v ∈ visited, now.link? x = some v := by
  refine (h.waits x (List.mem_cons_of_mem _ hx)).resolve_right (fun hone => ?_)
  obtain ⟨-, rfl⟩ := List.cons.inj hone
  cases hx

/-- Who extends `parent` was not linked again before `parent` is taken up, unless it was taken up
    itself. -/
theorem dependents_new (h : Queued source cache root (parent :: queue) visited now trace)
    {id : String} (hid : id ∈ now.dependents (parent :: visited) parent) :
    id ∉ queue.reverse ++ parent :: visited ∧ now.link? id = some parent := by
  obtain ⟨hout, hlink⟩ := Cache.mem_dependents.mp hid
  refine ⟨fun hin => ?_, hlink⟩
  rcases List.mem_append.mp hin with hin | hin
  · obtain ⟨v, hv, hlink'⟩ := h.waits_tail (List.mem_reverse.mp hin)
    obtain rfl := Option.some.inj (hlink.symm.trans hlink')
    exact h.notMem hv
  · exact hout hin

/-- **One turn**: the first name is taken up, and those who extend it join the queue. -/
theorem take_up (h : Queued source cache root (parent :: queue) visited now trace)
    (hc : cache.Filed) {ids : List String}
    (hperm : ids.Perm (now.dependents (parent :: visited) parent)) :
    Queued source cache root (queue ++ ids) (parent :: visited)
      (Cache.rebuildAll source parent ids now).cache
      (trace ++ (Cache.rebuildAll source parent ids now).trace) := by
  have hrun := h.run
  have hclosed := h.closed
  rw [List.reverse_cons, List.append_assoc, List.singleton_append] at hrun hclosed
  have hids : ids.Nodup := hperm.nodup_iff.mpr (Cache.nodup_idsWhere _ _)
  have hparent : parent ∈ queue.reverse ++ parent :: visited := by simp
  obtain ⟨hnow, hlinks⟩ := hrun.rebuildAll hc hparent hids
    (fun id hid => h.dependents_new (hperm.mem_iff.mp hid))
  rw [← List.append_assoc, ← List.reverse_append] at hnow
  refine ⟨hnow, fun x hx => .inl ?_, fun v hv id hid => ?_⟩
  · rcases List.mem_append.mp hx with hx | hx
    · obtain ⟨v, hv, hlink⟩ := h.waits_tail hx
      exact ⟨v, List.mem_cons_of_mem _ hv, hlinks x v hlink⟩
    · have hlink := (Cache.mem_dependents.mp (hperm.mem_iff.mp hx)).2
      exact ⟨parent, List.mem_cons_self, hlinks x parent hlink⟩
  · rw [List.reverse_append, List.append_assoc, List.mem_append]
    rcases List.mem_cons.mp hv with rfl | hv
    · by_cases hvisited : id ∈ v :: visited
      · exact .inr (List.mem_append_right _ hvisited)
      · have hdep := Cache.mem_dependents.mpr ⟨hvisited, hrun.link?_of_some hid⟩
        exact .inl (List.mem_reverse.mpr (hperm.mem_iff.mpr hdep))
    · exact .inr (hclosed v hv id hid)

/-- With a step for each name that can be taken up, the loop ends with an empty queue. -/
theorem refreshWithin (order : Order) (hc : cache.Filed) {steps : Nat}
    (h : Queued source cache root queue visited now trace)
    (hsteps : cache.size + source.texts.length + 2 ≤ steps + visited.length) :
    Queued source cache root []
      ((Cache.refreshWithin order source steps queue visited now).value.reverse ++ visited)
      (Cache.refreshWithin order source steps queue visited now).cache
      (trace ++ (Cache.refreshWithin order source steps queue visited now).trace) := by
  induction steps generalizing queue visited now trace with
  | zero =>
    have hle := h.run.length_le
    rw [List.length_append, List.length_reverse] at hle
    obtain rfl : queue = [] := List.eq_nil_of_length_eq_zero (by omega)
    rw [Cache.refreshWithin, List.append_nil]
    exact h
  | succ steps ih =>
    cases queue with
    | nil =>
      rw [Cache.refreshWithin, List.append_nil]
      exact h
    | cons parent queue =>
      have hnext := h.take_up hc
        (order.perm (.dependents (parent :: visited)) (now.dependents (parent :: visited) parent))
      have hend := ih hnext (by rw [List.length_cons]; omega)
      rw [Cache.refreshWithin, if_neg h.notMem]
      dsimp only
      rw [List.reverse_cons, List.append_assoc, List.singleton_append, ← List.append_assoc]
      exact hend

end Queued

/-- **What a refresh does**: it links runners again one at a time, each at most once and after
    the one that it extends, and it leaves out nobody who extends `root`, directly or not. -/
theorem refresh_run (order : Order) (source : Source) {cache : Cache} (hc : cache.Filed)
    (root : String) :
    Refreshing source cache root (Cache.refresh order source cache root).value.reverse
        (Cache.refresh order source cache root).cache
        (Cache.refresh order source cache root).trace ∧
      ∀ id v, cache.link? id = some v → v ∈ (Cache.refresh order source cache root).value →
        id ∈ (Cache.refresh order source cache root).value := by
  have h := (Queued.start source cache root).refreshWithin order hc
    (show cache.size + source.texts.length + 2 ≤
      (cache.size + source.texts.length + 3) + ([] : List String).length by omega)
  rw [List.append_nil] at h
  refine ⟨h.run, fun id v hid hv => ?_⟩
  exact List.mem_reverse.mp (h.closed v (List.mem_reverse.mpr hv) id hid)

/-- A refresh leaves out nobody who leads to the root. -/
theorem mem_refresh_of_reaches (order : Order) (source : Source) {cache : Cache} (hc : cache.Filed)
    {root id : String} (hway : Reaches cache.link? id root) :
    id ∈ (Cache.refresh order source cache root).value := by
  obtain ⟨hrun, hclosed⟩ := refresh_run order source hc root
  induction hway using Relation.ReflTransGen.head_induction_on with
  | refl => exact List.mem_reverse.mp hrun.root_mem
  | head hstep _ ih => exact hclosed _ _ hstep ih

end RunnerCatalog
