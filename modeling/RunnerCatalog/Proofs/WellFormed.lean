/-
  What every cached runner is like.

  A runner in the cache is known under its own name, remembers its document, and came about by
  reading schema texts, inheriting and detaching (`Runner.Held`).  The last of these is what
  matters: such runners are keyed, so their commands can be found under their names.

  1. **Reading** - a runner that is read is held, also one whose document cannot be used: it is what
     an empty schema would give (`Source.held_reading`).

  2. **Linking** - a climb links runners it has read over each other and over one from the cache, so
     it leaves only held ones (`Ascent.held_linked`, `Ascent.wellFormed`).

  3. **Requests** - every request is made of climbs, whatever fails in them, so after all turns all
     runners are held (`Cache.wellFormed_after`), and that makes `wellFormed_run`.
-/
import RunnerCatalog.Proofs.Keyed
import RunnerCatalog.Proofs.Refresh
import RunnerCatalog.Proofs.Turn

namespace RunnerCatalog

/-! ## Commands that are listed -/

namespace Runner

variable {r : Runner} {scope : String} {c : Command}

/-- What is listed for a scope is what can be looked up there. -/
theorem mem_commandsIn : c ∈ r.commandsIn scope ↔ ∃ key, r.scopes.lookup scope key = some c := by
  unfold commandsIn ScopeMap.lookup
  cases r.scopes.get? scope with
  | none => simp
  | some s =>
    simp only [Option.bind_some, OrderedMap.get?_eq_some_iff, OrderedMap.values, List.mem_map]
    constructor
    · rintro ⟨⟨key, c⟩, he, rfl⟩
      exact ⟨key, he⟩
    · rintro ⟨key, he⟩
      exact ⟨(key, c), he, rfl⟩

theorem command?_eq_lookup (r : Runner) (scope command : String) :
    r.command? scope command = r.scopes.lookup scope (Text.uppercase command) :=
  rfl

/-- In keyed scopes a listed command names the scope that it is listed for. -/
theorem scope_of_mem_commandsIn (h : r.scopes.Keyed) (hc : c ∈ r.commandsIn scope) :
    c.scope = scope := by
  obtain ⟨key, hkey⟩ := mem_commandsIn.mp hc
  exact (h scope key c hkey).1

/-- **In keyed scopes** a listed command is found by its name. -/
theorem command?_of_mem_commandsIn (h : r.scopes.Keyed) (hc : c ∈ r.commandsIn scope) :
    r.command? scope c.command = some c := by
  obtain ⟨key, hkey⟩ := mem_commandsIn.mp hc
  obtain ⟨-, rfl⟩ := h scope key c hkey
  exact hkey

end Runner

/-! ## Reading -/

/-- A runner as it is held under a name: it bears that name, remembers its document, and comes from
    schema texts. -/
structure Runner.Held (id : String) (r : Runner) : Prop where
  name : r.name = id
  document : r.document.isSome
  derived : r.Derived

namespace Runner

variable {id : String} {r parent : Runner}

theorem Held.inherit (hr : r.Held id) (hp : parent.Derived) : (r.inherit parent).Held id :=
  ⟨hr.name, hr.document, hr.derived.inherit hp⟩

theorem Held.detach (hr : r.Held id) : r.detach.Held id := ⟨hr.name, hr.document, hr.derived.detach⟩

/-- A runner without commands is what an empty schema describes. -/
theorem derived_blank (name : String) (document : Option DocumentId) :
    (blank name document).Derived :=
  .read (show ofText name "\x7b\x7d" document = .ok (blank name document) from rfl)

end Runner

namespace Source

variable {source : Source} {id : String} {d : DocumentId} {r : Runner}

theorem derived_of_load (h : source.load id d = .ok r) : r.Derived := by
  obtain ⟨text, -, hr⟩ := exists_text_of_load h
  exact .read hr

/-- **What is read** is held under its name, whether the document can be used or not. -/
theorem held_reading (source : Source) (id : String) (d : DocumentId) :
    (source.reading id d).Held id := by
  obtain ⟨hname, hdocument, -⟩ := source.reading_facts id d
  refine ⟨hname, by rw [hdocument]; rfl, ?_⟩
  unfold reading
  split
  · next r hr => exact derived_of_load hr
  · exact Runner.derived_blank id (some d)

theorem held_of_own? (h : source.own? id = some r) : r.Held id := by
  obtain ⟨-, -, d, hl, -⟩ := own?_eq_some h
  rw [own?_of_located hl] at h
  obtain rfl := Option.some.inj h
  exact source.held_reading id d

end Source

/-! ## Linking -/

/-- Every runner in the cache is held under its name. -/
def Cache.WellFormed (cache : Cache) : Prop :=
  ∀ id r, cache.get? id = some (.loaded r) → r.Held id

theorem Cache.WellFormed.filed {cache : Cache} (h : cache.WellFormed) : cache.Filed :=
  fun id r hr => (h id r hr).name

theorem Cache.wellFormed_empty : Cache.WellFormed OrderedMap.empty := fun _ _ h => nomatch h

/-- Runners that are linked downwards are held, if they were before and whoever is above them comes
    from schema texts. -/
theorem Climb.held_linkDown {upper : Option Runner} {ws : List Runner}
    (hupper : ∀ q ∈ upper, q.Derived) (hws : ∀ w ∈ ws, w.Held w.name) :
    ∀ r ∈ linkDown upper ws, r.Held r.name := by
  induction ws generalizing upper with
  | nil => cases upper <;> exact fun r hr => absurd hr List.not_mem_nil
  | cons w below ih =>
    have hw : (w.over upper).Held w.name := by
      cases upper with
      | none => exact (hws w List.mem_cons_self).detach
      | some q => exact (hws w List.mem_cons_self).inherit (hupper q rfl)
    intro r hr
    rw [linkDown_cons] at hr
    rcases List.mem_cons.mp hr with rfl | hr
    · rw [Runner.name_over]
      exact hw
    · refine ih (fun q hq => ?_) (fun v hv => hws v (List.mem_cons_of_mem _ hv)) r hr
      obtain rfl := Option.some.inj hq
      exact hw.derived

namespace Ascent

variable {source : Source} {cache : Cache} {start : List Runner} {id : String}
  {fresh : List Runner} {c : Climb}

/-- Who is at the summit comes from the cache. -/
theorem derived_parent (h : Ascent source cache start id fresh c) (hc : cache.WellFormed) :
    ∀ q ∈ c.parent?, q.Derived := by
  intro q hq
  unfold Climb.parent? at hq
  split at hq
  · next p hp =>
    obtain rfl := Option.some.inj hq
    cases h.reached with
    | known hs hl hsought hw hget =>
      rw [hs] at hp
      cases hp
      exact (hc _ _ hget).derived
    | base hs => rw [hs] at hp; cases hp
    | missing hs => rw [hs] at hp; cases hp
    | failed hs => rw [hs] at hp; cases hp
    | absent hs => rw [hs] at hp; cases hp
    | unusable hs => rw [hs] at hp; cases hp
    | cycle hs => rw [hs] at hp; cases hp
  · cases hq

/-- **Who is linked** is held, on a way into a cycle, too. -/
theorem held_linked (h : Ascent source cache start id fresh c) (hc : cache.WellFormed)
    (hstart : ∀ r ∈ start, r.Held r.name) : ∀ r ∈ c.linked, r.Held r.name := by
  have hwaiting : ∀ w ∈ c.waiting, w.Held w.name := by
    intro w hw
    rw [h.waiting_eq] at hw
    rcases List.mem_append.mp hw with hw | hw
    · exact Source.held_of_own? (h.own w hw).1
    · exact hstart w hw
  intro r hr
  unfold Climb.linked at hr
  split at hr
  · obtain ⟨w, hw, rfl⟩ := List.mem_map.mp hr
    exact (hwaiting w hw).detach
  · exact Climb.held_linkDown (h.derived_parent hc) hwaiting r hr

/-- A climb leaves a well-formed cache. -/
theorem wellFormed (h : Ascent source cache start id fresh c) (hc : cache.WellFormed)
    (hstart : ∀ r ∈ start, r.Held r.name) : (c.settle cache).WellFormed := by
  intro k s hk
  rcases c.touched cache k with ⟨r, hr, rfl⟩ | ⟨e, he⟩ | hsame
  · obtain rfl := Cache.loaded_inj (h.get?_linked hr) hk
    exact h.held_linked hc hstart r hr
  · obtain rfl : e = .loaded s := by
      injection (h.get?_learned he).symm.trans hk
    obtain ⟨-, -, -, ⟨hm, -⟩ | ⟨d, hblank, hown⟩⟩ := h.of_mem_learned he
    · cases hm
    · cases hblank
      exact Source.held_of_own? hown
  · exact hc k s (hsame.symm.trans hk)

end Ascent

/-! ## Requests -/

namespace Cache

variable {source : Source} {cache : Cache}

theorem WellFormed.resolve (h : cache.WellFormed) (source : Source) (id : String) :
    (resolve source cache id).cache.WellFormed := by
  obtain ⟨fresh, ha⟩ := exists_ascent source cache (awaits_nil id)
  exact ha.wellFormed h (fun r hr => absurd hr List.not_mem_nil)

theorem WellFormed.relink (h : cache.WellFormed) (source : Source) {r : Runner}
    (hr : r.Held r.name) : (relink source cache r).cache.WellFormed := by
  obtain ⟨fresh, ha⟩ := exists_ascent_ofRelink source cache r
  rw [relink_cache]
  refine ha.wellFormed h (fun s hs => ?_)
  obtain rfl := List.mem_singleton.mp hs
  exact hr

/-- A refresh links again only what is in the cache. -/
theorem WellFormed.of_refreshing (h : cache.WellFormed) {root : String} {done : List String}
    {now : Cache} {trace : List Event} (hrun : Refreshing source cache root done now trace) :
    now.WellFormed := by
  induction hrun with
  | start => exact h
  | next _ _ hr _ _ ih => exact ih.relink source (ih _ _ hr)

theorem WellFormed.refresh (h : cache.WellFormed) (order : Order) (source : Source)
    (root : String) : (refresh order source cache root).cache.WellFormed :=
  h.of_refreshing (refresh_run order source h.filed root).1

theorem WellFormed.refreshAll (h : cache.WellFormed) (order : Order) (source : Source)
    (ids : List String) : (refreshAll order source ids cache).cache.WellFormed := by
  induction ids generalizing cache with
  | nil => exact h
  | cons id ids ih => exact ih (h.refresh order source id)

theorem WellFormed.reread (h : cache.WellFormed) (source : Source) (id : String)
    (d : DocumentId) : (reread source cache id d).cache.WellFormed := by
  have hread := source.held_reading id d
  rw [reread_cache]
  exact h.relink source (hread.name.symm ▸ hread)

theorem WellFormed.invalidate (h : cache.WellFormed) (order : Order) (source : Source)
    (d : DocumentId) : (invalidate order source cache d).cache.WellFormed := by
  unfold Cache.invalidate
  split
  · exact h
  · exact (h.reread source _ d).refresh order source _

theorem WellFormed.filter (h : cache.WellFormed) (p : String → Entry → Bool) :
    WellFormed (cache.filter p) := by
  intro id r hr
  rw [OrderedMap.get?_filter, Option.filter_eq_some_iff] at hr
  exact h id r hr.1

theorem WellFormed.turn (h : cache.WellFormed) (turn : Turn) : (turn.apply cache).WellFormed := by
  unfold Turn.apply
  split
  · next id _ => exact h.resolve turn.source id
  · next d _ => exact h.invalidate turn.order turn.source d
  · exact (h.filter _).refreshAll turn.order turn.source _
  · exact wellFormed_empty

/-- After all turns every runner is held, whatever is asked and whatever fails. -/
theorem wellFormed_after (turns : List Turn) : (after turns).WellFormed :=
  after_induction wellFormed_empty (fun turn _ _ h => h.turn turn)

end Cache

/-- **A well-formed cache.**  Whatever is asked of the cache, in whatever order, and whatever fails
    on the way, each runner in it stands under its own name and remembers its document; the name of
    its parent is trimmed and not empty; and in what it declares as in what it has, each command
    stands in the scope that it names, under its own name in capitals.  So whatever is listed for a
    scope can be looked up there by its name. -/
theorem wellFormed_run (turns : List Turn) {id : String} {r : Runner}
    (h : (Cache.after turns).get? id = some (.loaded r)) :
    r.name = id ∧ r.document.isSome ∧
      (∀ parent, r.parent = some parent → Text.trimmed parent = parent ∧ parent ≠ "") ∧
      (∀ scopes ∈ [r.declared, r.scopes], ∀ scope key c, scopes.lookup scope key = some c →
        c.scope = scope ∧ Text.uppercase c.command = key) ∧
      ∀ scope, ∀ c ∈ r.commandsIn scope, r.command? scope c.command = some c := by
  have hr := Cache.wellFormed_after turns id r h
  have hkeyed := hr.derived.keyed
  refine ⟨hr.name, hr.document, fun parent hparent => hkeyed.parent hparent, fun scopes hs => ?_,
    fun scope c hc => Runner.command?_of_mem_commandsIn hkeyed.scopes hc⟩
  rcases List.mem_cons.mp hs with rfl | hs
  · exact hkeyed.declared
  · obtain rfl := List.mem_singleton.mp hs
    exact hkeyed.scopes

/-- `child` is read while its parent cannot be searched for, and again when it can; of `broken`
    there is only half a document. -/
theorem wellFormed_run_child :
    let shelf : Shelf := ⟨OrderedMap.ofList [
      ("child", "\x7b\"extends\": \" parent \", \"commands\": \x7b\"log\": \x7b\x7d\x7d\x7d"),
      ("parent", "\x7b\"commands\": \x7b\"go\": \x7b\x7d\x7d\x7d"),
      ("broken", "\x7b")], ["parent"]⟩
    let cache := Cache.after [⟨.resolve "child", shelf.source, .arrival⟩,
      ⟨.resolve "broken", shelf.source, .arrival⟩,
      ⟨.invalidate (Shelf.documentOf "child"), (shelf.unfail "parent").source, .arrival⟩]
    (cache.loaded? "child").map (fun r => (r.parent, (r.commandsIn "BASE").map Command.command)) =
        some (some "parent", ["go", "log"]) ∧
      ∀ r, cache.get? "child" = some (.loaded r) → r.name = "child" ∧
        ∀ c ∈ r.commandsIn "BASE", r.command? "BASE" c.command = some c := by
  intro shelf cache
  refine ⟨by decide +kernel, fun r hr => ?_⟩
  obtain ⟨hname, -, -, -, hfound⟩ := wellFormed_run _ hr
  exact ⟨hname, hfound "BASE"⟩

end RunnerCatalog
