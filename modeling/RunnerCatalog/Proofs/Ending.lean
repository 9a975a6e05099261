/-
  Every turn ends.

  A turn loads runners, one after the other, and each load is a recursion of its own.  A refresh does
  so for as long as its queue has names, and the cache that it looks at grows meanwhile.

  1. **Rules** - `Rebuilds`, `Refreshes` and `RefreshesAll` are the loops, and `Turn.Ends` is a whole
     turn, without a bound on anything.  They keep record of the loads (`Load`) and of the names that
     each refresh took up.

  2. **Nothing is missed** - the loops with a bound are the loops by these rules, because a refresh
     runs out of names before it runs out of steps (`refreshes_refresh`).  So every turn ends, and as
     the rules say (`exists_ends`).
-/
import RunnerCatalog.Proofs.Recursion
import RunnerCatalog.Proofs.Reread

namespace RunnerCatalog

/-! ## The rules -/

/-- What a load is for. -/
inductive Cause
  /-- The runner of this name was asked for. -/
  | lookup (id : String)
  /-- The document of this runner changed. -/
  | reread (id : String) (d : DocumentId)
  /-- Something that this runner extends changed. -/
  | rebuild (id : String)

/-- The runner that a load begins with. -/
def Cause.first : Cause → String
  | lookup id => id
  | reread id _ => id
  | rebuild id => id

/-- A load that is no part of another one. -/
structure Load where
  cause : Cause
  /-- What it finds. -/
  cache : Cache
  /-- The runners that waited for a parent when most of them did, the last one first. -/
  stack : List Runner
  /-- The cycle that it met, if it did. -/
  cycle : Option (List String)

/-- Known runners are linked again, one after the other, because `parent` changed. -/
inductive Rebuilds (source : Source) (parent : String) :
    List String → Cache → Cache → List Event → List Load → Prop
  | done {cache : Cache} : Rebuilds source parent [] cache cache [] []
  | next {ids : List String} {cache now after : Cache} {r s : Runner}
      {cycle : Option (List String)} {stack : List Runner} {trace trace' : List Event}
      {loads : List Load} (hr : cache.get? r.name = some (.loaded r))
      (merges : Merges source cache [] r s cycle now trace stack)
      (rest : Rebuilds source parent ids (now.store s) after trace' loads) :
      Rebuilds source parent (r.name :: ids) cache after
        (trace ++ (r.complaints cycle).map .noted ++ [.noted (.rebuilt r.name parent)] ++ trace')
        (⟨.rebuild r.name, cache, stack, cycle⟩ :: loads)

/-- The names of the first list are taken up one after the other, save those of the second list,
    which were taken up before.  The third list has the names that are taken up. -/
inductive Refreshes (order : Order) (source : Source) :
    List String → List String → Cache → List String → Cache → List Event → List Load → Prop
  | done {visited : List String} {cache : Cache} :
      Refreshes order source [] visited cache [] cache [] []
  | passed {parent : String} {queue visited taken : List String} {cache after : Cache}
      {trace : List Event} {loads : List Load} (hv : parent ∈ visited)
      (rest : Refreshes order source queue visited cache taken after trace loads) :
      Refreshes order source (parent :: queue) visited cache taken after trace loads
  | takesUp {parent : String} {ids queue visited taken : List String} {cache now after : Cache}
      {trace trace' : List Event} {loads loads' : List Load} (hv : parent ∉ visited)
      (hids : order.arrange (.dependents (parent :: visited))
        (cache.dependents (parent :: visited) parent) = ids)
      (rebuilds : Rebuilds source parent ids cache now trace loads)
      (rest : Refreshes order source (queue ++ ids) (parent :: visited) now taken after trace'
        loads') :
      Refreshes order source (parent :: queue) visited cache (parent :: taken) after
        (trace ++ trace') (loads ++ loads')

/-- Names are refreshed one after the other.  The second list has, for each, what was taken up. -/
inductive RefreshesAll (order : Order) (source : Source) :
    List String → Cache → List (List String) → Cache → List Event → List Load → Prop
  | done {cache : Cache} : RefreshesAll order source [] cache [] cache [] []
  | next {id : String} {ids taken : List String} {takes : List (List String)}
      {cache now after : Cache} {trace trace' : List Event} {loads loads' : List Load}
      (refreshes : Refreshes order source [id] [] cache taken now trace loads)
      (rest : RefreshesAll order source ids now takes after trace' loads') :
      RefreshesAll order source (id :: ids) cache (taken :: takes) after (trace ++ trace')
        (loads ++ loads')

/-- How a turn ends that finds `cache`: the cache afterwards, what happened, the loads, and for each
    refresh the names that it took up. -/
inductive Turn.Ends (source : Source) (order : Order) (cache : Cache) :
    Request → Cache → List Event → List Load → List (List String) → Prop
  | resolve {id : String} {outcome : Except Trouble (Option Runner)} {after : Cache}
      {trace : List Event} {stack : List Runner}
      (obtains : Obtains source cache [] id outcome after trace stack) :
      Turn.Ends source order cache (.resolve id) after trace
        [⟨.lookup id, cache, stack, cycleIn outcome⟩] []
  | unrelated {d : DocumentId} (ho : order.arrange .owners (cache.owners d) = []) :
      Turn.Ends source order cache (.invalidate d) cache [.noted (.unrelated d)] [] []
  | reread {d : DocumentId} {id : String} {others taken : List String} {r s : Runner}
      {cycle : Option (List String)} {now after : Cache} {trace trace' : List Event}
      {stack : List Runner} {loads : List Load}
      (ho : order.arrange .owners (cache.owners d) = id :: others)
      (hr : source.load id d = .ok r) (merges : Merges source cache [] r s cycle now trace stack)
      (refreshes : Refreshes order source [id] [] (now.insert id (.loaded s)) taken after trace'
        loads) :
      Turn.Ends source order cache (.invalidate d) after
        ([.noted (.rereading id d), .wasRead d] ++ trace ++ (r.complaints cycle).map .noted ++
          trace')
        (⟨.reread id d, cache, stack, cycle⟩ :: loads) [taken]
  | notReread {d : DocumentId} {id : String} {others taken : List String} {failure : Failure}
      {after : Cache} {trace : List Event} {loads : List Load}
      (ho : order.arrange .owners (cache.owners d) = id :: others)
      (hr : source.load id d = .error failure)
      (refreshes : Refreshes order source [id] []
        (cache.insert id (.loaded (Runner.blank id (some d)))) taken after trace loads) :
      Turn.Ends source order cache (.invalidate d) after
        ([.noted (.rereading id d), .wasRead d, .noted (.notReread id failure)] ++ trace)
        loads [taken]
  | forgetMissing {ids : List String} {takes : List (List String)} {after : Cache}
      {trace : List Event} {loads : List Load}
      (hids : order.arrange .missing cache.missingIds = ids)
      (refreshes : RefreshesAll order source ids (cache.filter fun _ e => decide (e ≠ .missing))
        takes after trace loads) :
      Turn.Ends source order cache .forgetMissing after trace loads takes
  | resetAll :
      Turn.Ends source order cache .resetAll OrderedMap.empty [.noted (.clearing cache.size)] [] []

/-! ## The loops -/

variable {source : Source} {order : Order} {cache : Cache}

/-- A batch is rebuilt by the rules if all of it is known; then it stays known. -/
theorem rebuilds_rebuildAll (source : Source) (hc : cache.Filed) (parent : String) {ids : List String}
    (hids : ∀ id ∈ ids, ∃ r, cache.get? id = some (.loaded r)) :
    ∃ loads, Rebuilds source parent ids cache (Cache.rebuildAll source parent ids cache).cache
      (Cache.rebuildAll source parent ids cache).trace loads := by
  induction ids generalizing cache with
  | nil => exact ⟨[], .done⟩
  | cons id ids ih =>
    obtain ⟨r, hr⟩ := hids id List.mem_cons_self
    obtain rfl := hc id r hr
    have hrest : ∀ x ∈ ids, ∃ t, (Cache.relink source cache r).cache.get? x = some (.loaded t) := by
      intro x hx
      obtain ⟨t, ht⟩ := hids x (List.mem_cons_of_mem _ hx)
      obtain ⟨e, he, hbare, -⟩ := Cache.relink_bare source hr ht
      obtain ⟨t', rfl, -⟩ := Entry.eq_loaded_of_bare hbare
      exact ⟨t', he⟩
    obtain ⟨loads, hloads⟩ := ih (Cache.relink_filed hc) hrest
    obtain ⟨s, now, trace, hmerges, hrelink⟩ := merges_relink source cache r
    rw [Cache.rebuildAll, Cache.rebuild_of_get? hr]
    rw [hrelink] at hloads ⊢
    exact ⟨_, .next hr hmerges hloads⟩

/-- While names wait, the loop goes on by the rules; with a step for each name that can be taken up
    it ends by them. -/
theorem Queued.refreshes {root : String} {queue visited : List String} {now : Cache}
    {trace : List Event} (hc : cache.Filed) {steps : Nat}
    (h : Queued source cache root queue visited now trace)
    (hsteps : cache.size + source.texts.length + 2 ≤ steps + visited.length) :
    ∃ loads, Refreshes order source queue visited now
      (Cache.refreshWithin order source steps queue visited now).value
      (Cache.refreshWithin order source steps queue visited now).cache
      (Cache.refreshWithin order source steps queue visited now).trace loads := by
  induction steps generalizing queue visited now trace with
  | zero =>
    have hle := h.run.length_le
    rw [List.length_append, List.length_reverse] at hle
    obtain rfl : queue = [] := List.eq_nil_of_length_eq_zero (by omega)
    exact ⟨[], .done⟩
  | succ steps ih =>
    cases queue with
    | nil => exact ⟨[], .done⟩
    | cons parent queue =>
      have hperm :=
        order.perm (.dependents (parent :: visited)) (now.dependents (parent :: visited) parent)
      have hknown : ∀ id ∈ order.arrange (.dependents (parent :: visited))
          (now.dependents (parent :: visited) parent), ∃ r, now.get? id = some (.loaded r) := by
        intro id hid
        obtain ⟨-, hlink⟩ := Cache.mem_dependents.mp (hperm.mem_iff.mp hid)
        obtain ⟨r, hr, -⟩ := Cache.link?_eq_some_iff.mp hlink
        exact ⟨r, hr⟩
      obtain ⟨loads, hrebuilds⟩ :=
        rebuilds_rebuildAll source (h.run.filed hc) parent hknown
      obtain ⟨loads', hrest⟩ := ih (h.take_up hc hperm) (by rw [List.length_cons]; omega)
      rw [Cache.refreshWithin, if_neg h.notMem]
      exact ⟨loads ++ loads', .takesUp h.notMem rfl hrebuilds hrest⟩

/-- **A refresh** is the loop without a bound. -/
theorem refreshes_refresh (order : Order) (source : Source) (hc : cache.Filed) (root : String) :
    ∃ loads, Refreshes order source [root] [] cache (Cache.refresh order source cache root).value
      (Cache.refresh order source cache root).cache
      (Cache.refresh order source cache root).trace loads := by
  refine (Queued.start source cache root).refreshes hc ?_
  rw [List.length_nil]
  omega

theorem refreshesAll_refreshAll (order : Order) (source : Source) (hc : cache.Filed)
    (ids : List String) :
    ∃ takes loads, RefreshesAll order source ids cache takes
      (Cache.refreshAll order source ids cache).cache
      (Cache.refreshAll order source ids cache).trace loads := by
  induction ids generalizing cache with
  | nil => exact ⟨[], [], .done⟩
  | cons id ids ih =>
    obtain ⟨loads, hrefreshes⟩ := refreshes_refresh order source hc id
    obtain ⟨takes, loads', hrest⟩ := ih (hc.refresh order source id)
    exact ⟨_, _, .next hrefreshes hrest⟩

/-- **Every turn ends**, by the rules. -/
theorem exists_ends (turn : Turn) (hc : cache.Filed) :
    ∃ loads takes, Turn.Ends turn.source turn.order cache turn.request (turn.apply cache)
      (turn.trace cache) loads takes := by
  obtain ⟨request, source, order⟩ := turn
  cases request with
  | resolve id =>
    obtain ⟨outcome, hobtains⟩ := obtains_resolve source cache id
    exact ⟨_, _, .resolve hobtains⟩
  | invalidate d =>
    cases ho : order.arrange .owners (cache.owners d) with
    | nil =>
      simp only [Turn.apply, Turn.trace, Cache.invalidate, ho]
      exact ⟨[], [], .unrelated ho⟩
    | cons id others =>
      obtain ⟨loads, hrefreshes⟩ :=
        refreshes_refresh order source (hc.reread source id d) id
      simp only [Turn.apply, Turn.trace, Cache.invalidate, ho]
      cases hr : source.load id d with
      | error failure =>
        have hreread : Cache.reread source cache id d =
            ⟨(), cache.insert id (.loaded (Runner.blank id (some d))),
              [.wasRead d, .noted (.notReread id failure)]⟩ := by
          simp only [Cache.reread, hr]
        rw [hreread] at hrefreshes ⊢
        exact ⟨_, _, .notReread ho hr hrefreshes⟩
      | ok r =>
        obtain ⟨rfl, -, -, -⟩ := Source.load_eq_ok hr
        obtain ⟨s, now, trace, hmerges, hrelink⟩ := merges_relink source cache r
        have hreread : Cache.reread source cache r.name d = ⟨(), now.insert r.name (.loaded s),
            .wasRead d :: (trace ++
              (r.complaints (Climb.ofRelink source cache r).cycle?).map .noted)⟩ := by
          simp only [Cache.reread, hr, hrelink, Cache.store,
            Runner.name_of_detach hmerges.detach]
        rw [hreread] at hrefreshes ⊢
        exact ⟨_, _, .reread ho hr hmerges hrefreshes⟩
  | forgetMissing =>
    obtain ⟨takes, loads, hrefreshes⟩ :=
      refreshesAll_refreshAll order source (hc.filter _) (order.arrange .missing cache.missingIds)
    exact ⟨loads, takes, .forgetMissing rfl hrefreshes⟩
  | resetAll => exact ⟨[], [], .resetAll⟩

end RunnerCatalog
