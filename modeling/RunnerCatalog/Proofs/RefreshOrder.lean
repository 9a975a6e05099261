/-
  Whom a refresh links again, and in which order.

  A refresh takes its runners in batches from a cache that changes meanwhile.  Its trace tells of each
  runner that is linked again, and of the one because of which it is.

  1. **Reports** - `rebuiltIn` reads these reports from a trace.  What else happens while a runner is
     linked again reports nothing of the kind (`rebuiltIn_relink`).

  2. **One after the other** - `Cache.rebuildEach` rebuilds the runners of a list, without a queue.
     A refresh comes to the same as rebuilding those that it reports, in the order of the reports
     (`Refreshing.exists_rebuilt`, by induction on the runners that were linked again).

  3. **The order** - each of them extends the root or one that was rebuilt before it, and nobody is
     missing who leads to the root (`refresh_in_order`).
-/
import RunnerCatalog.Proofs.Reread

namespace RunnerCatalog

open Links

/-! ## Reports -/

/-- The runners that are reported as linked again, in order, each with the one that changed. -/
def rebuiltIn (trace : List Event) : List (String × String) :=
  trace.filterMap fun e =>
    match e with
    | .noted (.rebuilt runner parent) => some (runner, parent)
    | _ => none

theorem rebuiltIn_append (trace trace' : List Event) :
    rebuiltIn (trace ++ trace') = rebuiltIn trace ++ rebuiltIn trace' :=
  List.filterMap_append

/-- Other notices report nothing of the kind. -/
theorem rebuiltIn_noted {ns : List Notice} (h : ∀ n ∈ ns, ∀ r p, n ≠ .rebuilt r p) :
    rebuiltIn (ns.map .noted) = [] := by
  refine List.filterMap_eq_nil_iff.mpr fun e he => ?_
  obtain ⟨n, hn, rfl⟩ := List.mem_map.mp he
  cases n with
  | rebuilt r p => exact absurd rfl (h _ hn r p)
  | _ => rfl

theorem Ascends.rebuiltIn_eq {source : Source} {cache : Cache} {start : List Runner} {id : String}
    {c : Climb} (h : Ascends source cache start id c) : rebuiltIn c.trace = [] := by
  induction h with
  | step hw hn hl hr hp above ih =>
    rw [rebuiltIn_append, ih]
    rfl
  | _ => rfl

theorem Climb.relinkNotices_ne (c : Climb) :
    ∀ n ∈ c.relinkNotices, ∀ r p, n ≠ .rebuilt r p := by
  intro n hn r p
  unfold relinkNotices at hn
  split at hn
  · obtain ⟨w, -, rfl⟩ := List.mem_map.mp hn
    nofun
  · rcases List.mem_append.mp hn with hn | hn
    · unfold parentNotices at hn
      split at hn
      · obtain rfl := List.mem_singleton.mp hn
        nofun
      · cases hn
    · obtain ⟨w, -, rfl⟩ := List.mem_map.mp hn
      nofun

/-- While a runner is linked again, no other one is reported as linked again. -/
theorem rebuiltIn_relink (source : Source) (cache : Cache) (r : Runner) :
    rebuiltIn (Cache.relink source cache r).trace = [] := by
  unfold Cache.relink
  split
  · rfl
  · next parent hp =>
    rw [rebuiltIn_append, (climb_ascends source cache [r] parent).rebuiltIn_eq,
      rebuiltIn_noted (Climb.relinkNotices_ne _), List.append_nil]

/-! ## One after the other -/

/-- Link known runners again, one after the other, each because of the one that it comes with. -/
def Cache.rebuildEach (source : Source) : List (String × String) → Cache → Answer Unit
  | [], cache => ⟨(), cache, []⟩
  | e :: rebuilt, cache =>
    let a := rebuild source cache e.1 e.2
    let b := rebuildEach source rebuilt a.cache
    ⟨(), b.cache, a.trace ++ b.trace⟩

/-- The last one is rebuilt over what the others left. -/
theorem Cache.rebuildEach_concat (source : Source) (rebuilt : List (String × String))
    (e : String × String) (cache : Cache) :
    rebuildEach source (rebuilt ++ [e]) cache =
      ⟨(), (rebuild source (rebuildEach source rebuilt cache).cache e.1 e.2).cache,
        (rebuildEach source rebuilt cache).trace ++
          (rebuild source (rebuildEach source rebuilt cache).cache e.1 e.2).trace⟩ := by
  induction rebuilt generalizing cache with
  | nil =>
    rw [List.nil_append, rebuildEach, rebuildEach, rebuildEach]
    simp only [List.append_nil, List.nil_append]
  | cons e' rebuilt ih =>
    rw [List.cons_append, rebuildEach, ih, rebuildEach]
    simp only [List.append_assoc]

/-- The turn of each runner comes when it extends the root, or one whose turn was before. -/
def Cache.InTurn (source : Source) (cache : Cache) (root : String)
    (rebuilt : List (String × String)) : Prop :=
  ∀ done id parent rest, rebuilt = done ++ (id, parent) :: rest →
    (rebuildEach source done cache).cache.link? id = some parent ∧
      (parent = root ∨ parent ∈ done.map Prod.fst)

variable {source : Source} {cache now : Cache} {root : String}

/-- One more runner has its turn. -/
theorem Cache.InTurn.concat {rebuilt : List (String × String)} {id parent : String}
    (h : cache.InTurn source root rebuilt)
    (hlink : (rebuildEach source rebuilt cache).cache.link? id = some parent)
    (hparent : parent = root ∨ parent ∈ rebuilt.map Prod.fst) :
    cache.InTurn source root (rebuilt ++ [(id, parent)]) := by
  intro done id' parent' rest heq
  rcases List.eq_nil_or_concat rest with rfl | ⟨rest, e, rfl⟩
  · obtain ⟨rfl, hlast⟩ := List.append_inj' heq rfl
    obtain ⟨rfl, rfl⟩ := Prod.mk.inj (List.singleton_inj.mp hlast)
    exact ⟨hlink, hparent⟩
  · rw [List.concat_eq_append, ← List.cons_append, ← List.append_assoc] at heq
    exact h done id' parent' rest (List.append_inj' heq rfl).1

/-- **A refresh under way** has rebuilt the runners that it reports, one after the other. -/
theorem Refreshing.exists_rebuilt {done : List String} {trace : List Event}
    (h : Refreshing source cache root done now trace) :
    ∃ rebuilt, rebuiltIn trace = rebuilt ∧ done.reverse = root :: rebuilt.map Prod.fst ∧
      Cache.rebuildEach source rebuilt cache = ⟨(), now, trace⟩ ∧
      cache.InTurn source root rebuilt := by
  induction h with
  | start =>
    refine ⟨[], rfl, rfl, rfl, fun done id parent rest heq => ?_⟩
    exact absurd heq.symm (List.append_ne_nil_of_right_ne_nil _ (List.cons_ne_nil _ _))
  | @next done now trace r parent before hnew hr hp hdone ih =>
    obtain ⟨rebuilt, hreports, hnames, heach, hturn⟩ := ih
    refine ⟨rebuilt ++ [(r.name, parent)], ?_, ?_, ?_, hturn.concat ?_ ?_⟩
    · rw [rebuiltIn_append, rebuiltIn_append, rebuiltIn_relink, hreports]
      rfl
    · rw [List.reverse_cons, hnames, List.map_append]
      rfl
    · rw [Cache.rebuildEach_concat, heach]
      simp only [Cache.rebuild_of_get? hr]
    · rw [heach, Cache.link?_of_get? hr, hp]
    · rw [← List.mem_reverse, hnames] at hdone
      exact List.mem_cons.mp hdone

/-! ## The order -/

/-- A refresh of `root` rebuilds the runners that it reports, in the order of its reports, and no
    others; each one once, and the root not at all; each one when it extends the root or a runner
    that was rebuilt before it; and all that lead to the root. -/
structure Cache.RefreshedInOrder (order : Order) (source : Source) (cache : Cache) (root : String)
    (rebuilt : List (String × String)) : Prop where
  cache_eq : (rebuildEach source rebuilt cache).cache = (refresh order source cache root).cache
  trace_eq : (rebuildEach source rebuilt cache).trace = (refresh order source cache root).trace
  takenUp : (refresh order source cache root).value = root :: rebuilt.map Prod.fst
  once : (rebuilt.map Prod.fst).Nodup
  notRoot : root ∉ rebuilt.map Prod.fst
  inTurn : cache.InTurn source root rebuilt
  complete : ∀ id, id ≠ root → Reaches cache.link? id root → id ∈ rebuilt.map Prod.fst

/-- Where runners are known under their own names, a refresh keeps the order. -/
theorem Cache.Filed.refreshed (hc : cache.Filed) (order : Order) (source : Source)
    (root : String) :
    RefreshedInOrder order source cache root
      (rebuiltIn (Cache.refresh order source cache root).trace) := by
  obtain ⟨hrun, -⟩ := refresh_run order source hc root
  obtain ⟨rebuilt, hreports, hnames, heach, hturn⟩ := hrun.exists_rebuilt
  rw [List.reverse_reverse] at hnames
  have hnodup := List.nodup_reverse.mp hrun.nodup
  rw [hnames, List.nodup_cons] at hnodup
  rw [hreports]
  refine ⟨by rw [heach], by rw [heach], hnames, hnodup.2, hnodup.1, hturn, fun id hne hway => ?_⟩
  have hmem := mem_refresh_of_reaches order source hc hway
  rw [hnames] at hmem
  exact (List.mem_cons.mp hmem).resolve_left hne

/-- **A refresh is complete and keeps the order**, whatever was asked before, whatever failed, and in
    whichever order dependents are taken up; and also in the midst of a turn, where all that is
    needed is that runners are known under their own names. -/
theorem refresh_in_order (turns : List Turn) (order : Order) (source : Source) (root : String) :
    (Cache.after turns).RefreshedInOrder order source root
        (rebuiltIn ((Cache.after turns).refresh order source root).trace) ∧
      ∀ cache : Cache, cache.Filed → cache.RefreshedInOrder order source root
        (rebuiltIn (cache.refresh order source root).trace) :=
  ⟨(Cache.filed_after turns).refreshed order source root,
    fun _ hc => hc.refreshed order source root⟩

/-- The root is on a cycle with `b` and `c`; it is not rebuilt, and `c` and `d` are after `b`. -/
theorem refresh_in_order_cycle :
    let source := Shelf.source ⟨OrderedMap.ofList [
      ("a", "\x7b\"extends\": \"c\"\x7d"), ("b", "\x7b\"extends\": \"a\"\x7d"),
      ("c", "\x7b\"extends\": \"b\"\x7d"), ("d", "\x7b\"extends\": \"b\"\x7d")], []⟩
    let cache := Cache.after [⟨.resolve "d", source, .arrival⟩]
    cache.RefreshedInOrder .arrival source "a" [("b", "a"), ("c", "b"), ("d", "b")] := by
  intro source cache
  have hreports : rebuiltIn (cache.refresh .arrival source "a").trace =
      [("b", "a"), ("c", "b"), ("d", "b")] := by decide +kernel
  have hrefreshed := (refresh_in_order [⟨.resolve "d", source, .arrival⟩] .arrival source "a").1
  rw [← hreports]
  exact hrefreshed

end RunnerCatalog
