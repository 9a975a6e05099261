/-
  A cache that is kept up to date answers as if it were new.

  `Tended` are the caches that one has who asks for runners, forgets, and tells the cache at once
  about each document that was edited or created.  Documents are not removed.

  1. **Faithful** - such a cache agrees with the documents as they are now: an edit makes one
     entry stale, which `Cache.invalidate` reads again, and a creation makes one entry stale, which
     `Cache.forgetMissing` drops (`Tended.faithful`).

  2. **Coherent** - scopes are as the links call for, by `Cache.CoherentUpTo`.

  3. **From scratch** - both together leave no choice for runners with a chain and for runners on
     a cycle (`resolve_tended`).
-/
import RunnerCatalog.Proofs.Edits
import RunnerCatalog.Proofs.Meaning

namespace RunnerCatalog

open Links

/-- Sources and caches that go together: the cache was empty at first, and was told about each
    change of a document at once. -/
inductive Tended : Source → Cache → Prop
  | start {source : Source} (hs : source.Searchable) (hd : source.Distinct) :
      Tended source OrderedMap.empty
  | resolve {source : Source} {cache : Cache} (h : Tended source cache) (id : String) :
      Tended source (cache.resolve source id).cache
  | forgetMissing {source : Source} {cache : Cache} (h : Tended source cache) (order : Order) :
      Tended source (cache.forgetMissing order source).cache
  | resetAll {source : Source} {cache : Cache} (h : Tended source cache) :
      Tended source cache.resetAll.cache
  | edit {before after : Source} {cache : Cache} {id : String} {d : DocumentId}
      (h : Tended before cache) (he : Edit before after id d) (order : Order) :
      Tended after (cache.invalidate order after d).cache
  | create {before after : Source} {cache : Cache} {id : String} {d : DocumentId}
      (h : Tended before cache) (hc : Creation before after id d) (hd : after.Distinct)
      (order : Order) : Tended after (cache.forgetMissing order after).cache

/-! ## Sources stay usable -/

theorem Creation.searchable {before after : Source} {id : String} {d : DocumentId}
    (h : Creation before after id d) (hs : before.Searchable) : after.Searchable := by
  intro k
  by_cases hk : k = id
  · exact ⟨_, hk ▸ h.located⟩
  · obtain ⟨found, hfound⟩ := hs k
    exact ⟨found, (h.locate k hk).trans hfound⟩

theorem Tended.usable {source : Source} {cache : Cache} (h : Tended source cache) :
    source.Searchable ∧ source.Distinct := by
  induction h with
  | start hs hd => exact ⟨hs, hd⟩
  | resolve _ _ ih => exact ih
  | forgetMissing _ _ ih => exact ih
  | resetAll _ ih => exact ih
  | edit _ he _ ih =>
    obtain ⟨hs, hd⟩ := ih
    refine ⟨fun k => ?_, fun a b => ?_⟩
    · rw [he.locate]
      exact hs k
    · rw [he.locate]
      exact hd a b
  | create _ hc hd _ ih => exact ⟨hc.searchable ih.1, hd⟩

/-! ## Faithful to the documents of now -/

namespace Cache

variable {before after : Source} {cache : Cache} {id : String} {d : DocumentId}

theorem mem_owners {k : String} :
    k ∈ cache.owners d ↔
      ∃ r e, cache.get? k = some (.loaded r) ∧ r.document = some e ∧ e.Same d := by
  rw [owners, mem_idsWhere]
  constructor
  · rintro ⟨r, hr, hany⟩
    cases he : r.document with
    | none => rw [he] at hany; cases hany
    | some e =>
      rw [he] at hany
      exact ⟨r, e, hr, he, of_decide_eq_true hany⟩
  · rintro ⟨r, e, hr, he, hsame⟩
    refine ⟨r, hr, ?_⟩
    rw [he]
    exact decide_eq_true hsame

/-- Of a cache that was faithful before an edit, the edited document owns one entry at most. -/
theorem Faithful.mem_owners_iff (h : cache.Faithful before) (hd : before.Distinct)
    (he : Edit before after id d) {k : String} :
    k ∈ cache.owners d ↔ k = id ∧ cache.get? id ≠ none := by
  rw [mem_owners]
  constructor
  · rintro ⟨r, e, hr, hdoc, hsame⟩
    obtain ⟨-, -, e', hlocated, hdoc'⟩ := Source.own?_eq_some (h.own? hr)
    obtain rfl : e = e' := Option.some.inj (hdoc.symm.trans hdoc')
    obtain rfl := hd k id e d hlocated he.located hsame
    exact ⟨rfl, known_of_get? hr⟩
  · rintro ⟨rfl, hknown⟩
    have hown := Source.own?_of_located he.located
    obtain ⟨e, hget⟩ := Option.ne_none_iff_exists'.mp hknown
    have hbare := (h k e hget).trans hown
    cases e with
    | missing => cases hbare
    | loaded r =>
      obtain ⟨-, -, e', hlocated, hdoc⟩ := Source.own?_eq_some (h.own? hget)
      obtain rfl : d = e' := by
        injection he.located.symm.trans hlocated with hsome
        exact Option.some.inj hsome
      exact ⟨r, d, hget, hdoc, .refl d⟩

/-- Reading a runner again makes its own entry faithful. -/
theorem faithful_reread {source : Source}
    (hf : ∀ k e, cache.get? k = some e → k ≠ id → e.bare = source.own? k)
    (hl : source.locate id = .ok (some d)) :
    (reread source cache id d).cache.Faithful source := by
  obtain ⟨hname, -, hdetach⟩ := source.reading_facts id d
  rw [reread_cache]
  refine faithful_relink (fun k e he hk => hf k e he (fun heq => hk (heq.trans hname.symm))) ?_
  rw [hname, hdetach]
  exact Source.own?_of_located hl

/-- **An edit** that the cache is told about leaves it faithful. -/
theorem Faithful.invalidate (h : cache.Faithful before) (hd : before.Distinct)
    (he : Edit before after id d) (order : Order) :
    (invalidate order after cache d).cache.Faithful after := by
  have hother : ∀ k e, cache.get? k = some e → k ≠ id → e.bare = after.own? k := by
    intro k e hk hne
    rw [he.own? hd hne]
    exact h k e hk
  have howners : ∀ k, k ∈ order.arrange .owners (cache.owners d) ↔
      k = id ∧ cache.get? id ≠ none := by
    intro k
    rw [(order.perm _ _).mem_iff]
    exact h.mem_owners_iff hd he
  unfold Cache.invalidate
  split
  · next hnil =>
    -- nobody owns the document, so nothing is known about `id`
    intro k e hk
    refine hother k e hk (fun heq => ?_)
    have hmem := (howners id).mpr ⟨rfl, known_of_get? (heq ▸ hk)⟩
    rw [hnil] at hmem
    cases hmem
  · next k rest hcons =>
    obtain ⟨rfl, -⟩ := (howners k).mp (hcons ▸ List.mem_cons_self)
    refine (faithful_reread hother ?_).refresh order k
    rw [he.locate]
    exact he.located

/-- **A creation** that the cache is told about leaves it faithful. -/
theorem Faithful.forgetMissing_creation (h : cache.Faithful before)
    (hc : Creation before after id d) (hd : after.Distinct) (order : Order) :
    (Cache.forgetMissing order after cache).cache.Faithful after := by
  refine Faithful.refreshAll order (fun k e he => ?_) _
  rw [OrderedMap.get?_filter, Option.filter_eq_some_iff] at he
  obtain ⟨he, hne⟩ := he
  have hbare := h k e he
  have hk : k ≠ id := by
    rintro rfl
    rw [Source.own?_of_absent hc.absent] at hbare
    cases e with
    | loaded r => cases hbare
    | missing => exact of_decide_eq_true hne rfl
  rw [hc.own? hd hk, hbare]

end Cache

theorem Tended.faithful {source : Source} {cache : Cache} (h : Tended source cache) :
    cache.Faithful source := by
  induction h with
  | start => exact Cache.faithful_empty _
  | resolve _ id ih => exact ih.resolve id
  | forgetMissing _ order ih => exact ih.forgetMissing order
  | resetAll => exact Cache.faithful_empty _
  | edit hbefore he order ih => exact ih.invalidate hbefore.usable.2 he order
  | create _ hc hd order ih => exact ih.forgetMissing_creation hc hd order

theorem Tended.coherent {source : Source} {cache : Cache} (h : Tended source cache) :
    cache.CoherentUpTo [] := by
  induction h with
  | start => exact Cache.coherentUpTo_empty
  | resolve hbefore id ih => exact ih.resolve hbefore.usable.1 id
  | forgetMissing hbefore order ih => exact ih.forgetMissing order hbefore.usable.1
  | resetAll => exact Cache.coherentUpTo_empty
  | edit hbefore he order ih =>
    exact ih.invalidate order (hbefore.edit he order).usable.1 _
  | create hbefore hc hd order ih =>
    exact ih.forgetMissing order (hbefore.create hc hd order).usable.1

/-! ## From scratch -/

/-- In two coherent caches that are faithful to one source, a runner whose way comes to no cycle
    and a runner on a cycle are the same. -/
theorem Cache.eq_of_faithful {source : Source} {cache cache' : Cache}
    (hf : cache.Faithful source) (hc : cache.Coherent) (hf' : cache'.Faithful source)
    (hc' : cache'.Coherent) {id : String} {r r' : Runner}
    (hway : OnCycle source.link? id ∨ ¬ EntersCycle source.link? id)
    (hr : cache.get? id = some (.loaded r)) (hr' : cache'.get? id = some (.loaded r')) :
    r' = r := by
  have hdetach : r'.detach = r.detach := Option.some.inj ((hf'.own? hr').symm.trans (hf.own? hr))
  refine Runner.eq_of_detach hdetach ?_
  rcases hway with hcycle | henters
  · rw [Cache.scopes_of_cycle hf hc hcycle hr, Cache.scopes_of_cycle hf' hc' hcycle hr']
    exact (Runner.detach_eq_iff.mp hdetach).2.2.2
  · obtain ⟨rs, hrs⟩ := Source.exists_chain_iff.mpr
      ⟨Option.ne_none_iff_exists'.mpr ⟨_, hf.own? hr⟩, henters⟩
    rw [Cache.scopes_of_chain hf hc hrs hr, Cache.scopes_of_chain hf' hc' hrs hr']

/-- Two such caches give the same answers about such runners. -/
theorem Cache.resolve_value_congr {source : Source} (hsource : source.Searchable)
    {cache cache' : Cache} (hf : cache.Faithful source) (hc : cache.CoherentUpTo [])
    (hf' : cache'.Faithful source) (hc' : cache'.CoherentUpTo []) {id : String}
    (hway : OnCycle source.link? id ∨ ¬ EntersCycle source.link? id) :
    (cache'.resolve source id).value = (cache.resolve source id).value := by
  have hcoherent := (coherentUpTo_nil_iff.mp (hc.resolve hsource id)).2
  have hcoherent' := (coherentUpTo_nil_iff.mp (hc'.resolve hsource id)).2
  have hvalue := hf.resolve_value hsource id
  have hvalue' := hf'.resolve_value hsource id
  cases hown : source.own? id with
  | none =>
    rw [hown, Option.map_eq_none_iff] at hvalue hvalue'
    rw [hvalue, hvalue']
  | some own =>
    rw [hown, Option.map_eq_some_iff] at hvalue hvalue'
    obtain ⟨r, hr, -⟩ := hvalue
    obtain ⟨r', hr', -⟩ := hvalue'
    rw [hr, hr', Cache.eq_of_faithful (hf.resolve id) hcoherent (hf'.resolve id) hcoherent' hway
      (resolve_value_eq_some.mp hr) (resolve_value_eq_some.mp hr')]

/-- **Incremental equals from scratch**: a cache that was told about each change at once answers
    about runners whose way comes to no cycle, and about runners on a cycle, as an empty cache
    would with the documents as they are now. -/
theorem resolve_tended {source : Source} {cache : Cache} (h : Tended source cache) (id : String)
    (hway : OnCycle source.link? id ∨ ¬ EntersCycle source.link? id) :
    (cache.resolve source id).value = (Cache.resolve source OrderedMap.empty id).value :=
  Cache.resolve_value_congr h.usable.1 (Cache.faithful_empty source) Cache.coherentUpTo_empty
    h.faithful h.coherent hway

/-- A parent that is created behind its child, and then edited. -/
theorem resolve_tended_parent :
    let child : Shelf := ⟨OrderedMap.ofList [("b", "\x7b\"extends\": \"a\"\x7d")], []⟩
    let created := child.put "a" "\x7b\x7d"
    let edited := created.put "a" "\x7b\"commands\": \x7b\"GO\": \x7b\x7d\x7d\x7d"
    let first := (Cache.resolve child.source OrderedMap.empty "b").cache
    let second := (first.forgetMissing .arrival created.source).cache
    let third := (second.invalidate .arrival edited.source (Shelf.documentOf "a")).cache
    (third.resolve edited.source "b").value =
      (Cache.resolve edited.source OrderedMap.empty "b").value := by
  intro child created edited first second third
  have hchild : Tended child.source OrderedMap.empty :=
    .start (Shelf.searchable rfl) (Shelf.distinct rfl (by decide +kernel))
  have hcreated : Creation child.source created.source "a" (Shelf.documentOf "a") :=
    Shelf.creation_put rfl _ (by decide +kernel)
  have hedited : Edit created.source edited.source "a" (Shelf.documentOf "a") :=
    Shelf.edit_put rfl _ (by decide +kernel)
  have hthird : Tended edited.source third :=
    ((hchild.resolve "b").create hcreated (Shelf.distinct rfl (by decide +kernel)) .arrival).edit
      hedited .arrival
  have hb : edited.source.link? "b" = some "a" := by decide +kernel
  have ha : edited.source.link? "a" = none := by decide +kernel
  refine resolve_tended hthird "b" (.inr ?_)
  rw [entersCycle_iff_step hb]
  exact not_entersCycle_of_none ha

end RunnerCatalog
