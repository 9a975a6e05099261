/-
  The walk along cached links is exact.

  A walk from `start` looks for a name of `chain`.  It goes on along cached links until it comes to
  such a name, or cannot go on, or has come to a name that it passed before.

  1. **Rounds** - `Cache.walkRounds` is this loop, with the path and the names that it remembers,
     stopped after some rounds.  Each round but the last one passes a name that has a link and was
     not passed before (`length_le_of_linked`), so with one round more than there are entries it is
     not stopped, and it finds what `Cache.walkInto` finds (`Walks.walkRounds_eq`, by induction on
     the rules of the walk).

  2. **Found** - there is one way from a name to the first member of `chain`, and the walk finds it
     (`walkInto_eq_some_iff`).

  3. **Nothing found** - outside `chain` the walk came to a name that has no link, or to a cycle
     (`Cache.Misses`, `walkInto_eq_none_iff_misses`).
-/
import RunnerCatalog.Proofs.WalkBack

namespace RunnerCatalog

open Links

/-! ## Ways past a list -/

namespace Links

variable {next : Links} {stops : List String} {a b c : String}

/-- A way that leaves no name of a list comes before all of the list. -/
theorem ReachesBefore.before (h : ReachesBefore next stops a b) (hc : Reaches next a c)
    (hmem : c ∈ stops) : Reaches next b c := by
  induction h using Relation.ReflTransGen.head_induction_on with
  | refl => exact hc
  | @head x y hxy _ ih =>
    obtain ⟨hx, hstep⟩ := hxy
    have hne : c ≠ x := fun heq => hx (heq ▸ hmem)
    exact ih ((hc.leadsTo_of_ne hne).after hstep)

/-- A way along which there is no name of a list leaves none. -/
theorem Reaches.reachesBefore (h : Reaches next a b)
    (hout : ∀ x, Reaches next a x → x ∉ stops) : ReachesBefore next stops a b := by
  induction h with
  | refl => exact .refl
  | @tail x y hax hxy ih => exact ih.tail ⟨hout x hax, hxy⟩

end Links

namespace Cache

variable {cache : Cache} {chain seen path before : List String} {id start z : String}
  {rounds : Nat} {way : Option (List String)}

/-! ## Rounds -/

/-- The loop of the walk, for some rounds at most.  The walk has come to `id` by `path`, and `seen`
    has the names that it passed.  The answer is what it finds, or `none` if there are not enough
    rounds. -/
def walkRounds (cache : Cache) (chain : List String) :
    Nat → List String → List String → String → Option (Option (List String))
  | 0, _, _, _ => none
  | rounds + 1, path, seen, id =>
    if id ∈ chain then some (some (path ++ [id]))
    else if id ∈ seen then some none
    else
      match cache.link? id with
      | none => some none
      | some next => walkRounds cache chain rounds (path ++ [id]) (id :: seen) next

/-- **The loop ends** with what the walk finds if there are rounds enough: with the names that were
    passed, one more than there are entries. -/
theorem Walks.walkRounds_eq (h : Walks cache chain seen id way) (hnodup : seen.Nodup)
    (hlinked : ∀ x ∈ seen, cache.link? x ≠ none) (hrounds : cache.size ≤ rounds + seen.length) :
    cache.walkRounds chain (rounds + 1) path seen id = some (way.map (path ++ ·)) := by
  induction h generalizing rounds path with
  | arrives hid => rw [walkRounds, if_pos hid, Option.map_some]
  | returns hid hseen => rw [walkRounds, if_neg hid, if_pos hseen, Option.map_none]
  | ends hid hseen hnone =>
    rw [walkRounds, if_neg hid, if_neg hseen, Option.map_none]
    simp only [hnone]
  | @step seen id next way hid hseen hnext rest ih =>
    have hnodup' : (id :: seen).Nodup := List.nodup_cons.mpr ⟨hseen, hnodup⟩
    have hlinked' : ∀ x ∈ id :: seen, cache.link? x ≠ none :=
      List.forall_mem_cons.mpr ⟨Option.ne_none_iff_exists'.mpr ⟨next, hnext⟩, hlinked⟩
    have hle := length_le_of_linked hnodup' hlinked'
    rw [List.length_cons] at hle
    obtain ⟨rounds, rfl⟩ := Nat.exists_eq_add_one_of_ne_zero (show rounds ≠ 0 by omega)
    have hpaths : ((path ++ ·) ∘ (id :: ·) : List String → List String) = (path ++ [id] ++ ·) := by
      funext walk
      show path ++ id :: walk = path ++ [id] ++ walk
      rw [List.append_assoc, List.singleton_append]
    rw [walkRounds, if_neg hid, if_neg hseen]
    simp only [hnext]
    rw [ih hnodup' hlinked' (by rw [List.length_cons]; omega), Option.map_map, hpaths]

/-! ## Found -/

/-- By induction on the way: a way into the list is what the walk finds. -/
theorem IntoChain.walkInto_eq (h : IntoChain cache chain seen id before z) :
    cache.walkInto chain id = some (before ++ [z]) := by
  induction before generalizing id with
  | nil =>
    obtain rfl : z = id := Option.some.inj h.head
    exact walkInto_of_mem h.mem
  | cons x before ih =>
    obtain rfl : x = id := Option.some.inj h.head
    obtain ⟨y, tail, hrest⟩ := List.exists_cons_of_ne_nil
      (List.append_ne_nil_of_right_ne_nil before (List.cons_ne_nil z []))
    have hlinks := h.links
    rw [List.cons_append, hrest, List.isChain_cons_cons, ← hrest] at hlinks
    have hinto : IntoChain cache chain seen y before z :=
      ⟨h.mem, fun w hw => h.outside w (List.mem_cons_of_mem _ hw), (List.nodup_cons.mp h.nodup).2,
        by rw [hrest, List.head?_cons], hlinks.2⟩
    rw [walkInto_of_link (h.outside x List.mem_cons_self).1 hlinks.1, ih hinto, Option.map_some,
      List.cons_append]

/-- **What is found** is the way along links to the first name of the list. -/
theorem walkInto_eq_some_iff {walk : List String} :
    cache.walkInto chain id = some walk ↔
      ∃ before z, walk = before ++ [z] ∧ IntoChain cache chain [] id before z := by
  constructor
  · exact intoChain_of_walkInto
  · rintro ⟨before, z, rfl, h⟩
    exact h.walkInto_eq

/-! ## Nothing found -/

/-- How a walk from `start` misses the list: it comes to `z`, outside the list. -/
inductive Misses (cache : Cache) (chain : List String) (start : String) : Prop
  /-- There it cannot go on. -/
  | ends (z : String) (way : ReachesBefore cache.link? chain start z) (hout : z ∉ chain)
      (hend : cache.get? z = none ∨ cache.get? z = some .missing ∨
        ∃ r, cache.get? z = some (.loaded r) ∧ r.parent = none)
  /-- There it is on a cycle, all of it outside the list. -/
  | circles (z : String) (way : ReachesBefore cache.link? chain start z)
      (hcycle : OnCycle cache.link? z) (hout : ∀ x, Reaches cache.link? z x → x ∉ chain)

/-- **Nothing is found** if and only if the walk ends or circles outside the list. -/
theorem walkInto_eq_none_iff_misses :
    cache.walkInto chain start = none ↔ cache.Misses chain start := by
  rw [walkInto_eq_none_iff]
  constructor
  · intro h
    have hout : ∀ x, Reaches cache.link? start x → x ∉ chain := fun x hx hmem => h x hmem hx
    by_cases hcycle : EntersCycle cache.link? start
    · obtain ⟨z, hway, hz⟩ := hcycle
      exact .circles z (hway.reachesBefore hout) hz fun x hx => hout x (hway.trans hx)
    · obtain ⟨z, hway, hend⟩ := exists_end (fun x hx => mem_keys_of_link? hx) hcycle
      exact .ends z (hway.reachesBefore hout) (hout z hway) (link?_eq_none_iff.mp hend)
  · rintro (⟨z, way, hout, hend⟩ | ⟨z, way, -, hout⟩) x hmem hreach
    · obtain rfl := (way.before hreach hmem).eq_of_none (link?_eq_none_iff.mpr hend)
      exact hout hmem
    · exact hout x (way.before hreach hmem) hmem

/-- **The walk is exact**, for every cache, also where its links form cycles.  The loop ends within
    one round more than there are entries, with `chain` and then the walk.  It finds a walk if and
    only if links lead from `start` into `chain`, and that walk is the way from `start` to the first
    name of `chain`; otherwise it ends or circles outside `chain`. -/
theorem walk_exact (cache : Cache) (chain : List String) (start : String) :
    (∀ rounds, cache.size + 1 ≤ rounds → cache.walkRounds chain rounds chain [] start =
        some ((cache.walkInto chain start).map (chain ++ ·))) ∧
      ((cache.walkInto chain start).isSome ↔ ∃ z ∈ chain, Reaches cache.link? start z) ∧
      (∀ walk, cache.walkInto chain start = some walk ↔
        ∃ before z, walk = before ++ [z] ∧ IntoChain cache chain [] start before z) ∧
      (cache.walkInto chain start = none ↔ cache.Misses chain start) := by
  refine ⟨fun rounds hrounds => ?_, cache.walkInto_isSome_iff chain start,
    fun walk => walkInto_eq_some_iff, walkInto_eq_none_iff_misses⟩
  obtain ⟨more, rfl⟩ := Nat.exists_eq_add_of_le hrounds
  rw [Nat.add_right_comm]
  refine (walks_walkInto cache chain start).walkRounds_eq List.nodup_nil ?_ (by omega)
  exact fun x hx => absurd hx List.not_mem_nil

/-- On a cycle of one, which is not in the list, it takes one round to pass it and one to come
    back. -/
example :
    let cache : Cache := OrderedMap.ofList
      [("a", .loaded (Runner.ofDeclared "a" (some "a") none OrderedMap.empty))]
    cache.walkRounds ["x"] 1 ["x"] [] "a" = none ∧
      cache.walkRounds ["x"] 2 ["x"] [] "a" = some none := by
  decide +kernel

end Cache

end RunnerCatalog
