/-
  What a request may touch.

  Every request writes to the same cache, and it does so at every level of the loading that it
  causes.  What it writes is nevertheless confined.

  1. **Loading** - a climb adds entries and changes none that was there, except those of the
     runners that it starts from (`Ascent.kept`), and what it adds is on the way from the name that
     was asked for (`Ascent.reaches_of_new`).

  2. **Refreshing** - a refresh links a runner again only after the one that it extends, up to the
     root; so the cache retains every entry but for what runners below the root inherit
     (`Cache.Retains`, `Cache.Filed.refresh_retains`).  The links that say who is below the root
     are those of the cache afterwards, and later refreshes take none away.

  3. **Requests** - `footprint` says for each request what it may touch.
-/
import RunnerCatalog.Proofs.Reread

namespace RunnerCatalog

open Links

namespace Cache

variable {source : Source} {cache : Cache} {order : Order} {d : DocumentId} {id x : String}
  {e : Entry}

/-! ## Entries below a root -/

/-- The entry `e` of `id` is still there: unchanged or, if links lead from `id` to one of `roots`,
    changed in what its runner inherits. -/
def Retains (cache : Cache) (roots : List String) (id : String) (e : Entry) : Prop :=
  ∃ e', cache.get? id = some e' ∧ e'.bare = e.bare ∧
    (e' = e ∨ ∃ m ∈ roots, LeadsTo cache.link? id m)

theorem Filed.refresh_retains (order : Order) (source : Source) (hc : cache.Filed) (root : String)
    (he : cache.get? id = some e) :
    (Cache.refresh order source cache root).cache.Retains [root] id e := by
  obtain ⟨hrun, -⟩ := refresh_run order source hc root
  obtain ⟨e', he', hbare, hsame⟩ := hrun.bare he
  refine ⟨e', he', hbare, ?_⟩
  by_cases hid : id = root ∨ id ∉ (Cache.refresh order source cache root).value.reverse
  · exact .inl (hsame hid)
  · -- it was linked again, so it leads to the root
    obtain ⟨hne, hdone⟩ := not_or.mp hid
    refine .inr ⟨root, List.mem_singleton_self root, ?_⟩
    exact (hrun.reaches_root (not_not.mp hdone)).leadsTo_of_ne (fun h => hne h.symm)

/-- By induction on the roots; a later refresh changes the entry again, or not, and the links along
    which the first root is reached stay. -/
theorem Filed.refreshAll_retains (order : Order) (source : Source) (hc : cache.Filed)
    (roots : List String) (he : cache.get? id = some e) :
    (Cache.refreshAll order source roots cache).cache.Retains roots id e := by
  induction roots generalizing cache e with
  | nil => exact ⟨e, he, rfl, .inl rfl⟩
  | cons root roots ih =>
    obtain ⟨e₁, he₁, hbare₁, hsame₁⟩ := hc.refresh_retains order source root he
    have hfiled := hc.refresh order source root
    obtain ⟨e₂, he₂, hbare₂, hsame₂⟩ := ih hfiled he₁
    refine ⟨e₂, he₂, hbare₂.trans hbare₁, ?_⟩
    rcases hsame₂ with rfl | ⟨m, hm, hlead⟩
    · rcases hsame₁ with rfl | ⟨m, hm, hlead⟩
      · exact .inl rfl
      · obtain rfl := List.mem_singleton.mp hm
        refine .inr ⟨m, List.mem_cons_self, hlead.mono (fun _ _ hxy => ?_)⟩
        exact (hfiled.grown_refreshAll order source roots).link?_of_some hxy
    · exact .inr ⟨m, List.mem_cons_of_mem _ hm, hlead⟩

/-! ## Requests -/

theorem get?_resolve (source : Source) (id : String) {k : String} (hk : cache.get? k = some e) :
    (resolve source cache id).cache.get? k = some e := by
  obtain ⟨fresh, ha⟩ := exists_ascent source cache (awaits_nil id)
  exact ha.kept hk List.not_mem_nil

theorem resolve_new (source : Source) (id : String) {k : String} (hk : cache.get? k = none)
    (hk' : (resolve source cache id).cache.get? k ≠ none) :
    Reaches (resolve source cache id).cache.link? id k := by
  obtain ⟨fresh, ha⟩ := exists_ascent source cache (awaits_nil id)
  exact ha.reaches_of_new (fun r hr => absurd hr List.not_mem_nil) hk hk'

/-- A document that is nobody's is noted, and that is all. -/
theorem invalidate_of_not_owned (order : Order) (source : Source) (h : cache.owners d = []) :
    invalidate order source cache d = ⟨(), cache, [.noted (.unrelated d)]⟩ := by
  rw [invalidate, h, (order.perm _ []).eq_nil]

/-- Reading a runner again changes its own entry only. -/
theorem get?_reread (source : Source) (d : DocumentId) (he : cache.get? id = some e)
    (hne : id ≠ x) : (reread source cache x d).cache.get? id = some e := by
  rw [reread_cache]
  refine (relink_own? source cache (source.reading x d)).2 id e he (fun heq => hne ?_)
  exact heq.trans (source.reading_facts x d).1

/-- A runner that was read again is known. -/
theorem known_reread (source : Source) (cache : Cache) (id : String) (d : DocumentId) :
    (reread source cache id d).cache.get? id ≠ none := by
  have hown := (relink_own? source cache (source.reading id d)).1
  rw [← reread_cache, (source.reading_facts id d).1] at hown
  obtain ⟨r, hr, -⟩ := own?_eq_some_iff.mp hown
  exact known_of_get? hr

theorem Filed.invalidate_retains (source : Source) (hc : cache.Filed)
    (hx : (order.arrange .owners (cache.owners d)).head? = some x) (he : cache.get? id = some e)
    (hne : id ≠ x) : (Cache.invalidate order source cache d).cache.Retains [x] id e := by
  obtain ⟨rest, harrange⟩ := List.head?_eq_some_iff.mp hx
  rw [invalidate_of_cons source harrange]
  exact (hc.reread source x d).refresh_retains order source x (get?_reread source d he hne)

/-- The entries that are kept when names are forgotten. -/
theorem get?_kept_eq_some_iff :
    OrderedMap.get? (cache.filter fun _ e => decide (e ≠ .missing)) id = some e ↔
      cache.get? id = some e ∧ e ≠ .missing := by
  rw [OrderedMap.get?_filter, Option.filter_eq_some_iff, decide_eq_true_iff]

theorem Filed.forgetMissing_retains (order : Order) (source : Source) (hc : cache.Filed)
    {r : Runner} (hr : cache.get? id = some (.loaded r)) :
    (Cache.forgetMissing order source cache).cache.Retains cache.missingIds id (.loaded r) := by
  obtain ⟨e, he, hbare, hsame⟩ := (hc.filter _).refreshAll_retains order source
    (order.arrange .missing cache.missingIds) (get?_kept_eq_some_iff.mpr ⟨hr, nofun⟩)
  refine ⟨e, he, hbare, hsame.imp_right (fun ⟨m, hm, hlead⟩ => ⟨m, ?_, hlead⟩)⟩
  exact (order.perm _ _).mem_iff.mp hm

end Cache

/-- **What a request may touch**.  Looking up a runner changes no entry, and adds entries on the way
    from its name only.  A change of a document that is nobody's changes nothing and asks the source
    for nothing.  Any other change takes no entry away; it changes the runner `x` that is read again
    and, of those that lead to `x` afterwards, what they inherit.  Forgetting takes no runner away;
    it changes what runners inherit that lead to a forgotten name afterwards. -/
theorem footprint (turns : List Turn) (order : Order) (source : Source) :
    (∀ id k, (∀ e, (Cache.after turns).get? k = some e →
          ((Cache.after turns).resolve source id).cache.get? k = some e) ∧
        ((Cache.after turns).get? k = none →
          ((Cache.after turns).resolve source id).cache.get? k ≠ none →
            Reaches ((Cache.after turns).resolve source id).cache.link? id k)) ∧
      (∀ d, (Cache.after turns).owners d = [] →
        ((Cache.after turns).invalidate order source d).cache = Cache.after turns ∧
          countLocated ((Cache.after turns).invalidate order source d).trace = 0 ∧
          countRead ((Cache.after turns).invalidate order source d).trace = 0) ∧
      (∀ d x, (order.arrange .owners ((Cache.after turns).owners d)).head? = some x →
        (∃ r, ((Cache.after turns).invalidate order source d).cache.get? x = some (.loaded r)) ∧
          ∀ k e, (Cache.after turns).get? k = some e → k ≠ x →
            ((Cache.after turns).invalidate order source d).cache.Retains [x] k e) ∧
      ∀ k r, (Cache.after turns).get? k = some (.loaded r) →
        ((Cache.after turns).forgetMissing order source).cache.Retains
          (Cache.after turns).missingIds k (.loaded r) := by
  have hc := Cache.filed_after turns
  refine ⟨fun id k => ⟨fun e => ?_, ?_⟩, fun d hd => ?_, fun d x hx => ⟨?_, fun k e he hne => ?_⟩,
    fun k r hr => ?_⟩
  · exact Cache.get?_resolve source id
  · exact Cache.resolve_new source id
  · rw [Cache.invalidate_of_not_owned order source hd]
    exact ⟨rfl, rfl, rfl⟩
  · obtain ⟨rest, harrange⟩ := List.head?_eq_some_iff.mp hx
    obtain ⟨r, hr, -⟩ := Cache.own?_eq_some_iff.mp (Cache.invalidate_own? source hc harrange).1
    exact ⟨r, hr⟩
  · exact hc.invalidate_retains source hx he hne
  · exact hc.forgetMissing_retains order source hr

/-- `b` extends `a`: it is changed when `a` is read again, and below `a` it stands. -/
theorem footprint_dependent :
    let shelf : Shelf := ⟨OrderedMap.ofList [
      ("a", "\x7b\x7d"), ("b", "\x7b\"extends\": \"a\"\x7d")], []⟩
    let edited := shelf.put "a" "\x7b\"commands\": \x7b\"GO\": \x7b\x7d\x7d\x7d"
    let cache := Cache.after [⟨.resolve "b", shelf.source, .arrival⟩]
    let after := (cache.invalidate .arrival edited.source (Shelf.documentOf "a")).cache
    cache.get? "b" ≠ none ∧ after.get? "b" ≠ cache.get? "b" ∧
      ∀ e, cache.get? "b" = some e → after.Retains ["a"] "b" e := by
  intro shelf edited cache after
  refine ⟨by decide +kernel, by decide +kernel, fun e he => ?_⟩
  have hx := (footprint [⟨.resolve "b", shelf.source, .arrival⟩] .arrival edited.source).2.2.1
    (Shelf.documentOf "a") "a" (by decide +kernel)
  exact hx.2 "b" e he (by decide)

end RunnerCatalog
