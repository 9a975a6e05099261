/-
  The runners that wait.

  While a parent is asked for, the runner that extends it waits, on top of those that wait for it
  already.  When trouble comes, all of them are told.

  1. **On the stack** - whoever joins extends the next one to join, was not known, and is as its
     document says; no name joins twice.  A cycle that is passed on begins with the names of the
     stack, and goes on along cached links back to one of them.  And whoever is reported as not
     merged was on the stack.  All of this is `Stacked`, and it holds of the recursion by one
     induction over its rules (`Obtains.stacked`, `Merges.stacked`).

  2. **The first to join** - whoever joins first is the one that was asked for (`Obtains.first`).
-/
import RunnerCatalog.Proofs.Growth
import RunnerCatalog.Proofs.Recursion

namespace RunnerCatalog

/-- What is known of the stack at its highest, when `waiting` waited at first. -/
structure Stacked (source : Source) (cache : Cache) (waiting stack : List Runner)
    (cycle : Option (List String)) (trace : List Event) : Prop where
  /-- Who joined is as its document says, and was not known. -/
  grown : ∃ fresh, stack = fresh ++ waiting ∧
    ∀ w ∈ fresh, source.own? w.name = some w ∧ cache.get? w.name = none
  /-- A cycle goes up the stack, and from what is sought there back to the stack. -/
  sought : ∃ s, Awaits stack s ∧ ∀ path, cycle = some path →
    ∃ walk, cache.walkInto (chainOf stack) s = some walk ∧ path = chainOf stack ++ walk
  /-- Who is not merged waited, and is told of the cycle. -/
  noted : ∀ name failure, .noted (.notMerged name failure) ∈ trace →
    ∃ path, failure = .cycle path ∧ cycle = some path ∧ name ∈ chainOf stack

section

variable {source : Source} {cache after now : Cache} {waiting stack : List Runner} {id : String}
  {outcome : Except Trouble (Option Runner)} {cycle : Option (List String)} {r s : Runner}
  {trace trace' : List Event}

/-- Nobody joins, and nothing is reported about a merge. -/
theorem Stacked.still (h : Awaits waiting id)
    (htrace : ∀ name failure, .noted (.notMerged name failure) ∉ trace) :
    Stacked source cache waiting waiting none trace where
  grown := ⟨[], rfl, fun _ hw => absurd hw List.not_mem_nil⟩
  sought := ⟨id, h, nofun⟩
  noted := fun name failure hmem => absurd hmem (htrace name failure)

/-- Other events do not matter. -/
theorem Stacked.mono (h : Stacked source cache waiting stack cycle trace)
    (htrace : ∀ name failure, .noted (.notMerged name failure) ∈ trace' →
      .noted (.notMerged name failure) ∈ trace) :
    Stacked source cache waiting stack cycle trace' where
  grown := h.grown
  sought := h.sought
  noted := fun name failure hmem => h.noted name failure (htrace name failure hmem)

/-- Who is sought and does not wait may join. -/
theorem Awaits.joins (h : Awaits waiting r.name) (hid : r.name ∉ chainOf waiting) (parent : String)
    (hp : r.parent = some parent) : Awaits (r :: waiting) parent :=
  h.cons rfl (fun hmem => hid (mem_chainOf.mpr hmem)) hp

/-- The last one to join is as its document says. -/
theorem Stacked.joined (h : Stacked source cache (r :: waiting) stack cycle trace)
    (hown : source.own? r.name = some r) (hnew : cache.get? r.name = none)
    (htrace : ∀ name failure, .noted (.notMerged name failure) ∈ trace' →
      .noted (.notMerged name failure) ∈ trace ∨
        ∃ path, failure = .cycle path ∧ cycle = some path ∧ name = r.name) :
    Stacked source cache waiting stack cycle trace' := by
  obtain ⟨fresh, hstack, hfresh⟩ := h.grown
  refine ⟨⟨fresh ++ [r], ?_, fun w hw => ?_⟩, h.sought, fun name failure hmem => ?_⟩
  · rw [hstack, List.append_assoc]
    rfl
  · rcases List.mem_append.mp hw with hw | hw
    · exact hfresh w hw
    · obtain rfl := List.mem_singleton.mp hw
      exact ⟨hown, hnew⟩
  · rcases htrace name failure hmem with hmem | ⟨path, hfailure, hpath, rfl⟩
    · exact h.noted name failure hmem
    · refine ⟨path, hfailure, hpath, mem_chainOf.mpr ?_⟩
      rw [hstack]
      exact List.mem_map_of_mem (List.mem_append_right _ List.mem_cons_self)

end

section

variable {source : Source}

mutual

/-- **The stack** of the recursion, by induction on its rules: asking for a runner. -/
theorem Obtains.stacked {cache after : Cache} {waiting stack : List Runner} {id : String}
    {outcome : Except Trouble (Option Runner)} {trace : List Event}
    (h : Obtains source cache waiting id outcome after trace stack) (hawaits : Awaits waiting id) :
    Stacked source cache waiting stack (cycleIn outcome) trace := by
  match h with
  | .known hr => exact .still hawaits (by simp)
  | .missing hm => exact .still hawaits (by simp)
  | .waits hn hid =>
    refine ⟨⟨[], rfl, fun _ hw => absurd hw List.not_mem_nil⟩, ⟨id, hawaits, fun path hpath => ?_⟩,
      by simp⟩
    obtain rfl := Option.some.inj hpath
    exact ⟨[id], Cache.walkInto_of_mem hid, rfl⟩
  | .failed hn hid hl => exact .still hawaits (by simp)
  | .absent hn hid hl => exact .still hawaits (by simp)
  | .unusable hn hid hl hr => exact .still hawaits (by simp)
  | .merged hn hid hl hr merges =>
    obtain ⟨rfl, -, -, -⟩ := Source.load_eq_ok hr
    rcases merges.stacked (hawaits.joins hid) with ⟨rfl, rfl, -⟩ | hstacked
    · exact .still hawaits (by simp)
    · exact hstacked.joined (Source.own?_of_load hl hr) hn (by simp)
  | .notMerged hn hid hl hr merges =>
    obtain ⟨rfl, -, -, -⟩ := Source.load_eq_ok hr
    rcases merges.stacked (hawaits.joins hid) with ⟨-, -, hnone⟩ | hstacked
    · cases hnone
    · refine hstacked.joined (Source.own?_of_load hl hr) hn (fun name failure hmem => ?_)
      rcases List.mem_append.mp hmem with hmem | hmem
      · exact .inl (by simpa using hmem)
      · -- the notice about this runner
        cases List.mem_singleton.mp hmem
        exact .inr ⟨_, rfl, rfl, rfl⟩
termination_by structural h

/-- Merging a runner: if it extends nothing, nothing happens; otherwise it waits. -/
theorem Merges.stacked {cache now : Cache} {waiting stack : List Runner} {r s : Runner}
    {cycle : Option (List String)} {trace : List Event}
    (h : Merges source cache waiting r s cycle now trace stack)
    (hawaits : ∀ parent, r.parent = some parent → Awaits (r :: waiting) parent) :
    (stack = waiting ∧ trace = [] ∧ cycle = none) ∨
      Stacked source cache (r :: waiting) stack cycle trace := by
  match h with
  | .base hp => exact .inl ⟨rfl, rfl, rfl⟩
  | .back hp hw =>
    refine .inr ⟨⟨[], rfl, fun _ hw => absurd hw List.not_mem_nil⟩,
      ⟨_, hawaits _ hp, fun path hpath => ?_⟩, by simp⟩
    obtain rfl := Option.some.inj hpath
    exact ⟨_, hw.walkInto_eq, rfl⟩
  | .over hp hw above => exact .inr (above.stacked (hawaits _ hp))
  | .alone hp hw above => exact .inr ((above.stacked (hawaits _ hp)).mono (by simp))
  | .cycle hp hw above => exact .inr (above.stacked (hawaits _ hp))
  | .spared hp hw above => exact .inr (above.stacked (hawaits _ hp))
termination_by structural h

end

variable {cache after : Cache} {waiting stack : List Runner} {id : String}
  {outcome : Except Trouble (Option Runner)} {trace : List Event}

/-- The first one to join is the one that was asked for. -/
theorem Obtains.first (h : Obtains source cache waiting id outcome after trace stack)
    (hawaits : Awaits waiting id) :
    stack = waiting ∨ ∃ upper r, stack = upper ++ r :: waiting ∧ r.name = id := by
  have hjoins : ∀ {r s : Runner} {d : DocumentId} {cycle : Option (List String)} {now : Cache}
      {trace' : List Event}, id ∉ chainOf waiting → source.load id d = .ok r →
      Merges source cache waiting r s cycle now trace' stack →
      stack = waiting ∨ ∃ upper r, stack = upper ++ r :: waiting ∧ r.name = id := by
    intro r s d cycle now trace' hid hr merges
    obtain ⟨rfl, -, -, -⟩ := Source.load_eq_ok hr
    rcases merges.stacked (hawaits.joins hid) with ⟨hstack, -⟩ | hstacked
    · exact .inl hstack
    · obtain ⟨fresh, hstack, -⟩ := hstacked.grown
      exact .inr ⟨fresh, r, hstack, rfl⟩
  cases h with
  | merged hn hid hl hr merges => exact hjoins hid hr merges
  | notMerged hn hid hl hr merges => exact hjoins hid hr merges
  | _ => exact .inl rfl

end

end RunnerCatalog
