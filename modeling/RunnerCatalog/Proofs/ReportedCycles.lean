/-
  The cycles that are reported.

  A report names a way: up the runners that wait, then along cached links, back to one of those that
  wait.  The two pieces come from different places, and a runner on the stack may be known in another
  version than the one that waits.

  1. **Links of a load** - `Load.link?` is what each name extends as the load sees it: a runner that
     waits extends what it was loaded with, any other name what it is known to extend.

  2. **The way** - the names on the stack are one way along these links, and the walk goes on along
     them, because it passes nobody who waits (`Load.Sound.isChain`).  It ends where it first comes
     to the stack, so it closes exactly one cycle (`Load.Sound.closes`).

  3. **Reports** - whoever is reported as not merged waited in a load that met such a cycle, and is
     on the way (`reported_cycles_real`).
-/
import RunnerCatalog.Proofs.Loads

namespace RunnerCatalog

open Links

namespace Load

/-! ## Links of a load -/

/-- What each name extends: as it waits, or as it was known. -/
def link? (load : Load) : Links := fun x =>
  match load.stack.find? fun w => decide (w.name = x) with
  | some w => w.parent
  | none => load.cache.link? x

/-- The runner `w` was there when the load began, or was loaded from its document. -/
def Holds (source : Source) (load : Load) (w : Runner) : Prop :=
  w.name = load.cause.first ∧ load.BeginsWith source w ∨
    source.own? w.name = some w ∧ load.cache.get? w.name = none

/-- The way `lead`, then from `z` the cycle `loop` back to it. -/
structure Closes (load : Load) (path lead : List String) (z : String) (loop : List String) :
    Prop where
  path_eq : path = lead ++ z :: loop ++ [z]
  nodup : (lead ++ z :: loop).Nodup
  first : path.head? = some load.cause.first
  links : path.IsChain (Step load.link?)
  /-- Everybody who waits is on the way. -/
  waits : ∀ name ∈ chainOf load.stack, name ∈ lead ++ z :: loop

namespace Sound

variable {source : Source} {load : Load}

/-- A runner that waits extends what it was loaded with. -/
theorem link?_of_mem (h : load.Sound source) {w : Runner} (hw : w ∈ load.stack) :
    load.link? w.name = w.parent := by
  obtain ⟨s, hawaits, -⟩ := h.sought
  cases hfind : load.stack.find? fun v => decide (v.name = w.name) with
  | none =>
    have hno := List.find?_eq_none.mp hfind w hw
    exact absurd rfl (of_decide_eq_false (Bool.eq_false_iff.mpr hno))
  | some v =>
    have hname : v.name = w.name := by simpa using List.find?_some hfind
    have hv := List.inj_on_of_nodup_map hawaits.nodup (List.mem_of_find?_eq_some hfind) hw hname
    rw [link?, hfind, hv]

theorem holds (h : load.Sound source) {w : Runner} (hw : w ∈ load.stack) :
    load.Holds source w := by
  rcases List.eq_nil_or_concat load.stack with hnil | ⟨upper, r, hstack⟩
  · rw [hnil] at hw
    cases hw
  rw [List.concat_eq_append] at hstack
  obtain ⟨hname, hbegins, hown⟩ := h.began upper r hstack
  rw [hstack] at hw
  rcases List.mem_append.mp hw with hw | hw
  · exact .inr (hown w hw)
  · obtain rfl := List.mem_singleton.mp hw
    exact .inl ⟨hname, hbegins⟩

end Sound

/-- Of other names, the load sees what is known. -/
theorem link?_of_notMem {load : Load} {x : String} (h : x ∉ chainOf load.stack) :
    load.link? x = load.cache.link? x := by
  have hfind : (load.stack.find? fun w => decide (w.name = x)) = none := by
    refine List.find?_eq_none.mpr fun w hw hname => h (mem_chainOf.mpr ?_)
    exact List.mem_map.mpr ⟨w, hw, of_decide_eq_true hname⟩
  rw [link?, hfind]

/-! ## The way -/

namespace Sound

variable {source : Source} {load : Load}

/-- The stack, from the first runner on, is a way along the links of the load. -/
theorem isChain_stack (h : load.Sound source) : (chainOf load.stack).IsChain (Step load.link?) := by
  obtain ⟨s, hawaits, -⟩ := h.sought
  rw [chainOf, List.isChain_reverse, List.isChain_map]
  refine hawaits.chain.imp_of_mem_imp fun u w _ hw hext => ?_
  exact (h.link?_of_mem hw).trans hext

/-- The walk goes on from the top of the stack. -/
theorem isChain (h : load.Sound source) {s z : String} {before : List String}
    (hawaits : Awaits load.stack s)
    (hinto : Cache.IntoChain load.cache (chainOf load.stack) [] s before z) :
    (chainOf load.stack ++ (before ++ [z])).IsChain (Step load.link?) := by
  have hsame : ∀ x ∈ before, ∀ y, Step load.cache.link? x y → Step load.link? x y := by
    intro x hx y hxy
    exact (link?_of_notMem (hinto.outside x hx).1).trans hxy
  have hwalk := List.isChain_append.mp hinto.links
  refine List.isChain_append.mpr ⟨h.isChain_stack, List.isChain_append.mpr
    ⟨hwalk.1.imp_of_mem_imp fun x y hx _ hxy => hsame x hx y hxy, List.IsChain.singleton z,
      fun x hx y hy => hsame x (List.mem_of_getLast? hx) y (hwalk.2.2 x hx y hy)⟩, ?_⟩
  -- from the topmost runner to what it extends
  intro x hx y hy
  obtain rfl := Option.some.inj (hinto.head.symm.trans hy)
  rw [chainOf, List.getLast?_reverse, List.head?_map] at hx
  obtain ⟨w, hw, rfl⟩ := Option.map_eq_some_iff.mp hx
  exact (h.link?_of_mem (List.mem_of_head? hw)).trans (hawaits.head w hw)

/-- **The way of a cycle** that a load met: it begins with the runner that the load began with, goes
    along links, and passes no name twice until it comes back to one that it passed. -/
theorem closes (h : load.Sound source) {path : List String} (hpath : load.cycle = some path) :
    ∃ lead z loop, load.Closes path lead z loop := by
  obtain ⟨s, hawaits, hsought⟩ := h.sought
  obtain ⟨walk, hwalk, rfl⟩ := hsought path hpath
  obtain ⟨before, z, rfl, hinto⟩ := Cache.intoChain_of_walkInto hwalk
  obtain ⟨lead, rest, hsplit⟩ := List.append_of_mem hinto.mem
  have hpassed : lead ++ z :: (rest ++ before) = chainOf load.stack ++ before := by
    rw [hsplit]
    simp
  refine ⟨lead, z, rest ++ before, ?_, ?_, ?_, h.isChain hawaits hinto, fun name hname => ?_⟩
  · rw [hpassed, List.append_assoc]
  · rw [hpassed]
    refine (List.nodup_reverse.mpr hawaits.nodup).append hinto.nodup fun x hx hx' => ?_
    exact (hinto.outside x hx').1 hx
  · rcases List.eq_nil_or_concat load.stack with hnil | ⟨upper, r, hstack⟩
    · rw [hnil] at hsplit
      exact absurd hsplit (by simp [chainOf])
    · rw [List.concat_eq_append] at hstack
      obtain ⟨hname, -, -⟩ := h.began upper r hstack
      rw [hstack, chainOf, List.map_append, List.reverse_append, ← hname]
      rfl
  · rw [hpassed]
    exact List.mem_append_left _ hname

end Sound

end Load

/-! ## Reports -/

/-- **Reported cycles are real**, whatever was asked before and whatever the documents were then.
    Every turn ends; and however it ends, whoever is reported as not merged waited in one of its
    loads, and is told of the cycle that this load met.  Such a cycle closes a way that begins with
    the runner that the load began with, and goes from each name to what it extends: as it waits, if
    it does, and then it was read or known so; or else as it was known. -/
theorem reported_cycles_real (turns : List Turn) (turn : Turn) :
    (∃ loads takes, Turn.Ends turn.source turn.order (Cache.after turns) turn.request
      (turn.apply (Cache.after turns)) (turn.trace (Cache.after turns)) loads takes) ∧
    ∀ after trace loads takes,
      Turn.Ends turn.source turn.order (Cache.after turns) turn.request after trace loads takes →
      (∀ name failure, .noted (.notMerged name failure) ∈ trace → ∃ load ∈ loads, ∃ path,
        failure = .cycle path ∧ load.cycle = some path ∧ name ∈ chainOf load.stack) ∧
      ∀ load ∈ loads, (∀ w ∈ load.stack, load.Holds turn.source w) ∧
        ∀ path, load.cycle = some path → ∃ lead z loop, load.Closes path lead z loop := by
  refine ⟨exists_ends turn (Cache.filed_after turns), fun after trace loads takes hends => ?_⟩
  refine ⟨hends.recorded.told, fun load hload => ?_⟩
  have hsound := hends.recorded.sound load hload
  exact ⟨fun w hw => hsound.holds hw, fun path hpath => hsound.closes hpath⟩

/-- `x` leads into the cycle of `a` and `b`; it is told of it as they are. -/
theorem reported_cycles_real_leadIn :
    let shelf : Shelf := ⟨OrderedMap.ofList [("x", "\x7b\"extends\": \"a\"\x7d"),
      ("a", "\x7b\"extends\": \"b\"\x7d"), ("b", "\x7b\"extends\": \"a\"\x7d")], []⟩
    let path := ["x", "a", "b", "a"]
    .noted (.notMerged "x" (.cycle path)) ∈
        (Cache.resolve shelf.source OrderedMap.empty "x").trace ∧
      ∃ load : Load, "x" ∈ chainOf load.stack ∧ ∃ lead z loop, load.Closes path lead z loop := by
  intro shelf path
  have hmem : .noted (.notMerged "x" (.cycle path)) ∈
      (Cache.resolve shelf.source OrderedMap.empty "x").trace := by decide +kernel
  obtain ⟨⟨loads, takes, hends⟩, hreal⟩ :=
    reported_cycles_real [] ⟨.resolve "x", shelf.source, .arrival⟩
  obtain ⟨htold, hloads⟩ := hreal _ _ loads takes hends
  obtain ⟨load, hload, path', hfailure, hcycle, hwaits⟩ := htold "x" (.cycle path) hmem
  obtain rfl := Failure.cycle.inj hfailure
  exact ⟨hmem, load, hwaits, (hloads load hload).2 path hcycle⟩

end RunnerCatalog
