/-
  Whether the order in which runners are taken up matters.

  The runners that extend a changed one are taken up in the order of the cache, and so are the
  names that are forgotten because they had no document.  That order is arbitrary.

  1. **The same names** - a refresh may load runners, but which ones does not depend on the order:
     those to which links lead from somebody who was known (`Grown.bare_congr`).  So everything
     but inherited scopes is the same afterwards.

  2. **The same scopes** - for runners whose way comes to no cycle and for runners on a cycle,
     coherence leaves no choice (`get?_eq_of_bare`).  Whoever leads to no name that was forgotten
     keeps its entry (`get?_refreshAll_of_apart`).

  3. **Between orders** - a changed document is the easy case, because nothing is loaded while its
     dependents are taken up; among forgotten names the order is left open to runners outside all
     cycles whose way leads into one (`arrangement_irrelevant`).
-/
import RunnerCatalog.Proofs.Due
import RunnerCatalog.Proofs.Footprint

namespace RunnerCatalog

open Links

namespace Cache

variable {source : Source} {before cache cache' : Cache} {id : String}

/-! ## The same names -/

theorem link?_eq_own? (cache : Cache) (id : String) :
    cache.link? id = (cache.own? id).bind Runner.parent := by
  rw [link?, own?]
  cases cache.loaded? id <;> rfl

/-- Who is known is so in every cache that grew from the same one, with the same document. -/
theorem Grown.own?_congr (h : Grown source before cache) (h' : Grown source before cache')
    (hid : cache.get? id ≠ none) (hid' : cache'.get? id ≠ none) :
    cache'.own? id = cache.own? id := by
  by_cases hold : before.get? id = none
  · rw [h.new id hold hid, h'.new id hold hid']
  · rw [h.own? hold, h'.own? hold]

/-- The induction is on the links that lead to a known name; where something is known about
    everybody who is extended, each of them leads to a known name in the other cache too. -/
theorem Grown.known_congr (h : Grown source before cache) (h' : Grown source before cache')
    (hknown' : cache'.KnownUpTo []) (hid : cache.get? id ≠ none) : cache'.get? id ≠ none := by
  obtain ⟨k, hk, hway⟩ := h.reached id hid
  clear hid
  induction hway with
  | refl => exact h'.known hk
  | @tail y z _ hyz ih =>
    obtain ⟨r, hr, -⟩ := link?_eq_some_iff.mp hyz
    have hlink : cache'.link? y = some z := by
      rw [link?_eq_own?, h.own?_congr h' (known_of_get? hr) ih, ← link?_eq_own?]
      exact hyz
    exact hknown'.known hlink

theorem bare_of_own? {e : Entry} (h : cache.get? id = some e) :
    (cache.get? id).map Entry.bare = some (cache.own? id) := by
  rw [own?_of_get? h, h]
  rfl

/-- **The same names** are known in all caches that grew from one, inheritance apart, if something
    is known about everybody who is extended. -/
theorem Grown.bare_congr (h : Grown source before cache) (h' : Grown source before cache')
    (hknown : cache.KnownUpTo []) (hknown' : cache'.KnownUpTo []) (id : String) :
    (cache'.get? id).map Entry.bare = (cache.get? id).map Entry.bare := by
  by_cases hid : cache.get? id = none
  · have hid' : cache'.get? id = none := by
      by_contra hk
      exact h'.known_congr h hknown hk hid
    rw [hid, hid']
  · have hid' := h.known_congr h' hknown' hid
    obtain ⟨e, he⟩ := Option.ne_none_iff_exists'.mp hid
    obtain ⟨e', he'⟩ := Option.ne_none_iff_exists'.mp hid'
    rw [bare_of_own? he, bare_of_own? he', h.own?_congr h' hid hid']

/-! ## The same scopes -/

theorem own?_of_map_bare (h : (cache'.get? id).map Entry.bare = (cache.get? id).map Entry.bare) :
    cache'.own? id = cache.own? id := by
  have hjoin : ∀ c : Cache, c.own? id = ((c.get? id).map Entry.bare).join := by
    intro c
    rw [own?, loaded?]
    cases c.get? id <;> rfl
  rw [hjoin, hjoin, h]

/-- Caches that say the same, inheritance apart, have the same links. -/
theorem link?_eq_of_bare
    (h : ∀ id, (cache'.get? id).map Entry.bare = (cache.get? id).map Entry.bare) :
    cache'.link? = cache.link? := by
  funext id
  rw [link?_eq_own?, link?_eq_own?, own?_of_map_bare (h id)]

/-- A runner that has what it is due in both caches is the same in both, if the one that it
    extends is, or leads back to it. -/
theorem get?_eq_of_parent
    (h : ∀ id, (cache'.get? id).map Entry.bare = (cache.get? id).map Entry.bare)
    (hc : cache.CoherentUpTo []) (hc' : cache'.CoherentUpTo [])
    (hway : OnCycle cache.link? id ∨ ¬ EntersCycle cache.link? id)
    (hparent : ∀ parent, cache.link? id = some parent → ¬ Reaches cache.link? parent id →
      cache'.get? parent = cache.get? parent) :
    cache'.get? id = cache.get? id := by
  have hlink := link?_eq_of_bare h
  have hid := h id
  cases he : cache.get? id with
  | none =>
    rw [he, Option.map_none, Option.map_eq_none_iff] at hid
    exact hid
  | some e =>
    rw [he, Option.map_some, Option.map_eq_some_iff] at hid
    obtain ⟨e', he', hbare⟩ := hid
    rw [he']
    cases e with
    | missing =>
      cases e' with
      | missing => rfl
      | loaded s => cases hbare
    | loaded r =>
      obtain ⟨s, rfl, hsr⟩ := Entry.eq_loaded_of_bare hbare
      obtain ⟨hname, hsp, -, hdeclared⟩ := Runner.detach_eq_iff.mp hsr
      obtain rfl := hc.filed id r he
      have hdue : cache.due r = r.scopes :=
        ((coherentUpTo_nil_iff.mp hc).2 _ r he).due_eq rfl (link?_of_get? he) hway
      have hdue' : cache'.due s = s.scopes :=
        ((coherentUpTo_nil_iff.mp hc').2 _ s he').due_eq hname (link?_of_get? he') (hlink ▸ hway)
      have hscopes : s.scopes = r.scopes := by
        rw [← hdue, ← hdue']
        refine due_congr hname hsp hdeclared hlink (fun parent hp hback => ?_)
        rw [loaded?, loaded?, hparent parent ((link?_of_get? he).trans hp) hback]
      rw [Runner.eq_of_detach hsr hscopes]

/-- **The same scopes**: coherent caches that say the same, inheritance apart, agree on runners on
    a cycle and on runners whose way comes to none.  Of the latter the proof is by induction from
    the end of the way. -/
theorem get?_eq_of_bare
    (h : ∀ id, (cache'.get? id).map Entry.bare = (cache.get? id).map Entry.bare)
    (hc : cache.CoherentUpTo []) (hc' : cache'.CoherentUpTo [])
    (hway : OnCycle cache.link? id ∨ ¬ EntersCycle cache.link? id) :
    cache'.get? id = cache.get? id := by
  rcases hway with hcycle | henters
  · refine get?_eq_of_parent h hc hc' (.inl hcycle) (fun parent hp hback => absurd ?_ hback)
    exact hcycle.returns (.single hp)
  · obtain ⟨z, hz, hend⟩ := exists_end (fun x hx => mem_keys_of_link? hx) henters
    induction hz using Relation.ReflTransGen.head_induction_on with
    | refl =>
      refine get?_eq_of_parent h hc hc' (.inr henters) (fun parent hp _ => ?_)
      rw [hend] at hp
      cases hp
    | @head x y hxy _ ih =>
      have hy : ¬ EntersCycle cache.link? y := fun hy => henters ((entersCycle_iff_step hxy).mpr hy)
      refine get?_eq_of_parent h hc hc' (.inr henters) (fun parent hp _ => ?_)
      obtain rfl := Option.some.inj (hp.symm.trans hxy)
      exact ih hy

/-- Whoever leads to none of the names keeps its entry. -/
theorem get?_refreshAll_of_apart (order : Order) (source : Source) (hc : cache.Filed)
    {ids : List String} {e : Entry} (he : cache.get? id = some e)
    (hapart : ∀ m ∈ ids, ¬ Reaches (refreshAll order source ids cache).cache.link? id m) :
    (refreshAll order source ids cache).cache.get? id = some e := by
  obtain ⟨e', he', -, rfl | ⟨m, hm, hlead⟩⟩ := hc.refreshAll_retains order source ids he
  · exact he'
  · exact absurd hlead.to_reflTransGen (hapart m hm)

/-! ## Forgotten names -/

variable {order order' : Order}

theorem Filed.grown_forgetMissing (order : Order) (source : Source) (h : cache.Filed) :
    Grown source (cache.filter fun _ e => decide (e ≠ .missing))
      (forgetMissing order source cache).cache :=
  (h.filter _).grown_refreshAll order source _

/-- Whoever leads to no name that was forgotten keeps its entry. -/
theorem get?_forgetMissing_of_apart (order : Order) (source : Source) (hc : cache.Filed)
    {r : Runner} (hr : cache.get? id = some (.loaded r))
    (hapart : ∀ m ∈ cache.missingIds,
      ¬ Reaches (forgetMissing order source cache).cache.link? id m) :
    (forgetMissing order source cache).cache.get? id = some (.loaded r) := by
  refine get?_refreshAll_of_apart order source (hc.filter _)
    (get?_kept_eq_some_iff.mpr ⟨hr, nofun⟩) (fun m hm => hapart m ?_)
  exact (order.perm _ _).mem_iff.mp hm

/-- The names that are forgotten may be taken up in any order, and their dependents too: what is
    said about runners is the same, inheritance apart. -/
theorem bare_forgetMissing (order order' : Order) (hsource : source.Searchable)
    (hc : cache.CoherentUpTo []) (id : String) :
    ((forgetMissing order' source cache).cache.get? id).map Entry.bare =
      ((forgetMissing order source cache).cache.get? id).map Entry.bare :=
  (hc.filed.grown_forgetMissing order source).bare_congr
    (hc.filed.grown_forgetMissing order' source) (hc.forgetMissing order hsource).known
    (hc.forgetMissing order' hsource).known id

/-! ## Changed documents -/

/-- The documents that runners were loaded from, as they are compared. -/
def documents (cache : Cache) : List (List Component) :=
  cache.entries.filterMap fun e =>
    (e.2.runner?.bind Runner.document).map DocumentId.components

/-- If no two runners share a document, a document has at most one owner. -/
theorem length_owners_le (h : cache.documents.Nodup) (d : DocumentId) :
    (cache.owners d).length ≤ 1 := by
  have hcount : cache.documents.count d.components ≤ 1 :=
    List.nodup_iff_count_le_one.mp h d.components
  rw [documents, List.count_filterMap] at hcount
  refine le_trans ?_ hcount
  rw [owners, idsWhere, List.length_filterMap_eq_countP]
  refine List.countP_mono_left (fun e _ he => ?_)
  obtain ⟨k, e⟩ := e
  cases e with
  | missing => cases he
  | loaded r =>
    cases hd : r.document with
    | none => simp [hd] at he
    | some e =>
      have hsame : e.Same d := by simpa [hd] using he
      simp only [Entry.runner?, Option.bind_some, hd, Option.map_some]
      exact beq_iff_eq.mpr (congrArg some hsame)

/-- So all its owners are one. -/
theorem owner_unique (h : cache.documents.Nodup) {d : DocumentId} {x y : String}
    (hx : x ∈ cache.owners d) (hy : y ∈ cache.owners d) : x = y := by
  match cache.owners d, length_owners_le h d, hx, hy with
  | [k], _, hx, hy => rw [List.mem_singleton.mp hx, List.mem_singleton.mp hy]

/-- One name can be arranged in one way only. -/
theorem arrange_eq (order order' : Order) (look : Look) {ids : List String}
    (h : ids.length ≤ 1) : order'.arrange look ids = order.arrange look ids := by
  match ids, h with
  | [], _ => rw [(order.perm _ []).eq_nil, (order'.perm _ []).eq_nil]
  | [k], _ => rw [(order.perm _ [k]).eq_singleton, (order'.perm _ [k]).eq_singleton]

/-- Whoever extends a runner that was read again may be taken up in any order, because that runner
    is known by then. -/
theorem get?_invalidate_congr (order order' : Order) (source : Source) (hc : cache.Filed)
    (hdocuments : cache.documents.Nodup) (d : DocumentId) (id : String) :
    (invalidate order' source cache d).cache.get? id =
      (invalidate order source cache d).cache.get? id := by
  have harrange := arrange_eq order order' .owners (length_owners_le hdocuments d)
  cases ho : order.arrange .owners (cache.owners d) with
  | nil => rw [invalidate_of_nil source ho, invalidate_of_nil source (harrange.trans ho)]
  | cons x rest =>
    rw [invalidate_of_cons source ho, invalidate_of_cons source (harrange.trans ho)]
    exact get?_refresh_congr order' order (hc.reread source x d) (known_reread source cache x d) id

end Cache

/-! ## Between orders -/

/-- **Two orders** leave the same entries when a document changed.  When names without a document
    are forgotten, they leave the same, inheritance apart; and the same scopes too, of runners on a
    cycle, of runners whose way comes to none, and of runners that lead to no forgotten name. -/
theorem arrangement_irrelevant (turns : List Turn)
    (hsource : ∀ turn ∈ turns, turn.source.Searchable)
    (hdocuments : (Cache.after turns).documents.Nodup) (source : Source)
    (hsearch : source.Searchable) (order order' : Order) (id : String) :
    (∀ d, ((Cache.after turns).invalidate order' source d).cache.get? id =
        ((Cache.after turns).invalidate order source d).cache.get? id) ∧
      (((Cache.after turns).forgetMissing order' source).cache.get? id).map Entry.bare =
        (((Cache.after turns).forgetMissing order source).cache.get? id).map Entry.bare ∧
      ((OnCycle ((Cache.after turns).forgetMissing order source).cache.link? id ∨
          ¬ EntersCycle ((Cache.after turns).forgetMissing order source).cache.link? id ∨
          (∃ r, (Cache.after turns).get? id = some (.loaded r)) ∧
            ∀ m ∈ (Cache.after turns).missingIds,
              ¬ Reaches ((Cache.after turns).forgetMissing order source).cache.link? id m) →
        ((Cache.after turns).forgetMissing order' source).cache.get? id =
          ((Cache.after turns).forgetMissing order source).cache.get? id) := by
  have hc := Cache.coherentUpTo_after turns hsource
  have hbare := Cache.bare_forgetMissing order order' hsearch hc
  refine ⟨fun d => Cache.get?_invalidate_congr order order' source hc.filed hdocuments d id,
    hbare id, ?_⟩
  rintro (hcycle | henters | ⟨⟨r, hr⟩, hapart⟩)
  · exact Cache.get?_eq_of_bare hbare (hc.forgetMissing order hsearch)
      (hc.forgetMissing order' hsearch) (.inl hcycle)
  · exact Cache.get?_eq_of_bare hbare (hc.forgetMissing order hsearch)
      (hc.forgetMissing order' hsearch) (.inr henters)
  · rw [Cache.get?_forgetMissing_of_apart order source hc.filed hr hapart]
    refine Cache.get?_forgetMissing_of_apart order' source hc.filed hr (fun m hm => ?_)
    rw [Cache.link?_eq_of_bare hbare]
    exact hapart m hm

/-- The order opposite to that of the cache. -/
def Order.reversed : Order := ⟨fun _ => List.reverse, fun _ ids => ids.reverse_perm⟩

/-- Two runners `c1` and `c2` that extend `m`, which has no document. -/
def twins : Shelf := ⟨OrderedMap.ofList [
  ("c1", "\x7b\"extends\": \"m\"\x7d"), ("c2", "\x7b\"extends\": \"m\"\x7d")], []⟩

/-- The same with a document for `m`, which leads into a cycle. -/
def twinsGrown : Shelf :=
  (twins.put "m" "\x7b\"extends\": \"a\", \"commands\": \x7b\"GO\": \x7b\x7d\x7d\x7d").put
    "a" "\x7b\"extends\": \"a\"\x7d"

/-- What is known after `c1` and `c2` were looked up. -/
def twinsKnown : List Turn :=
  [⟨.resolve "c1", twins.source, .arrival⟩, ⟨.resolve "c2", twins.source, .arrival⟩]

theorem searchable_twinsKnown : ∀ turn ∈ twinsKnown, turn.source.Searchable := by
  intro turn hturn
  simp only [twinsKnown, List.mem_cons, List.not_mem_nil, or_false] at hturn
  rcases hturn with rfl | rfl
  · exact Shelf.searchable rfl
  · exact Shelf.searchable rfl

/-- **The order matters** for `c1`: taken up first, it is linked in one climb with the cycle and
    has no command; taken up after `c2`, it has the one of `m`. -/
theorem arrangement_matters :
    (∀ turn ∈ twinsKnown, turn.source.Searchable) ∧ twinsGrown.source.Searchable ∧
      (Cache.after twinsKnown).documents.Nodup ∧
      ((Cache.after twinsKnown).forgetMissing .arrival twinsGrown.source).cache.get? "c1" ≠
        ((Cache.after twinsKnown).forgetMissing .reversed twinsGrown.source).cache.get? "c1" :=
  ⟨searchable_twinsKnown, Shelf.searchable rfl, by decide +kernel, by decide +kernel⟩

/-- So the way of `c1` leads into a cycle that it is not on. -/
theorem arrangement_twins :
    let left := ((Cache.after twinsKnown).forgetMissing .reversed twinsGrown.source).cache
    EntersCycle left.link? "c1" ∧ ¬ OnCycle left.link? "c1" := by
  have h := (arrangement_irrelevant twinsKnown searchable_twinsKnown (by decide +kernel)
    twinsGrown.source (Shelf.searchable rfl) .reversed .arrival "c1").2.2
  have hne : ((Cache.after twinsKnown).forgetMissing .arrival twinsGrown.source).cache.get? "c1" ≠
      ((Cache.after twinsKnown).forgetMissing .reversed twinsGrown.source).cache.get? "c1" := by
    decide +kernel
  refine ⟨not_not.mp (fun henters => hne (h (.inr (.inl henters)))), fun hcycle => ?_⟩
  exact hne (h (.inl hcycle))

end RunnerCatalog
