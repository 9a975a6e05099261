/-
  What the loads of a turn are like.

  A turn keeps record of its loads.  Each of them began with one runner, others joined it, and if it
  met a cycle, that one is told to all of them.

  1. **One load** - `Load.Sound` puts together what the recursion says about the stack of a load and
     what the turn says about the runner that it began with.

  2. **All loads** - every load of a turn is sound, and whatever a turn reports as not merged was on
     the stack of one of them (`Recorded`).  This holds of one load, and it is kept by each loop, so
     it holds of every turn that ends (`Turn.Ends.recorded`).

  3. **Names taken up** - no refresh takes up a name twice (`Refreshes.nodup`).
-/
import RunnerCatalog.Proofs.Ending
import RunnerCatalog.Proofs.Stack

namespace RunnerCatalog

/-! ## One load -/

/-- The runner that a load begins with: as its document says, as its document says now, or as it was
    known. -/
def Load.BeginsWith (source : Source) (load : Load) (r : Runner) : Prop :=
  match load.cause with
  | .lookup id => source.own? id = some r ∧ load.cache.get? id = none
  | .reread id d => source.load id d = .ok r
  | .rebuild id => load.cache.get? id = some (.loaded r)

/-- What is known of every load. -/
structure Load.Sound (source : Source) (load : Load) : Prop where
  /-- The lowest runner is the one that it began with; the others are as their documents say, and
      were not known. -/
  began : ∀ upper r, load.stack = upper ++ [r] →
    r.name = load.cause.first ∧ load.BeginsWith source r ∧
      ∀ w ∈ upper, source.own? w.name = some w ∧ load.cache.get? w.name = none
  /-- A cycle goes up the stack, and from what is sought there back to the stack. -/
  sought : ∃ s, Awaits load.stack s ∧ ∀ path, load.cycle = some path →
    ∃ walk, load.cache.walkInto (chainOf load.stack) s = some walk ∧
      path = chainOf load.stack ++ walk

/-- The loads are sound, and who is reported as not merged was on the stack of one of them, which met
    the cycle that is reported. -/
structure Recorded (source : Source) (trace : List Event) (loads : List Load) : Prop where
  sound : ∀ load ∈ loads, load.Sound source
  told : ∀ name failure, .noted (.notMerged name failure) ∈ trace → ∃ load ∈ loads, ∃ path,
    failure = .cycle path ∧ load.cycle = some path ∧ name ∈ chainOf load.stack

namespace Recorded

variable {source : Source} {trace trace' : List Event} {loads loads' : List Load} {load : Load}

/-- No load, and nothing reported about a merge. -/
theorem quiet (htrace : ∀ name failure, .noted (.notMerged name failure) ∉ trace) :
    Recorded source trace [] where
  sound := fun _ h => absurd h List.not_mem_nil
  told := fun name failure hmem => absurd hmem (htrace name failure)

theorem append (h : Recorded source trace loads) (h' : Recorded source trace' loads') :
    Recorded source (trace ++ trace') (loads ++ loads') where
  sound := fun load hload => by
    rcases List.mem_append.mp hload with hload | hload
    · exact h.sound load hload
    · exact h'.sound load hload
  told := fun name failure hmem => by
    rcases List.mem_append.mp hmem with hmem | hmem
    · obtain ⟨load, hload, htold⟩ := h.told name failure hmem
      exact ⟨load, List.mem_append_left _ hload, htold⟩
    · obtain ⟨load, hload, htold⟩ := h'.told name failure hmem
      exact ⟨load, List.mem_append_right _ hload, htold⟩

/-- Other events may come in between. -/
theorem mono (h : Recorded source trace loads)
    (htrace : ∀ name failure, .noted (.notMerged name failure) ∈ trace' →
      .noted (.notMerged name failure) ∈ trace) : Recorded source trace' loads where
  sound := h.sound
  told := fun name failure hmem => h.told name failure (htrace name failure hmem)

end Recorded

section

variable {source : Source} {cache now after : Cache} {trace : List Event} {stack : List Runner}
  {cycle : Option (List String)}

/-- A lookup. -/
theorem Obtains.recorded {id : String} {outcome : Except Trouble (Option Runner)}
    (h : Obtains source cache [] id outcome after trace stack) :
    Recorded source trace [⟨.lookup id, cache, stack, cycleIn outcome⟩] := by
  have hstacked := h.stacked (awaits_nil id)
  obtain ⟨fresh, hfresh, hown⟩ := hstacked.grown
  rw [List.append_nil] at hfresh
  subst hfresh
  refine ⟨fun load hload => ?_, fun name failure hmem => ?_⟩
  · obtain rfl := List.mem_singleton.mp hload
    refine ⟨fun upper r hstack => ?_, hstacked.sought⟩
    replace hstack : stack = upper ++ [r] := hstack
    rcases h.first (awaits_nil id) with rfl | ⟨upper', r', hstack', rfl⟩
    · cases upper <;> cases hstack
    · obtain ⟨rfl, hr⟩ := List.append_inj' (hstack.symm.trans hstack') rfl
      obtain rfl := List.singleton_inj.mp hr
      exact ⟨rfl, hown r (by rw [hstack]; simp),
        fun w hw => hown w (by rw [hstack]; exact List.mem_append_left _ hw)⟩
  · exact ⟨_, List.mem_singleton_self _, hstacked.noted name failure hmem⟩

/-- A known runner, or one that was read again. -/
theorem Merges.recorded {r s : Runner}
    (h : Merges source cache [] r s cycle now trace stack) (cause : Cause)
    (hfirst : r.name = cause.first)
    (hbegins : Load.BeginsWith source ⟨cause, cache, stack, cycle⟩ r) :
    Recorded source (trace ++ (r.complaints cycle).map .noted) [⟨cause, cache, stack, cycle⟩] := by
  rcases h.stacked (fun parent => awaits_singleton) with ⟨rfl, rfl, rfl⟩ | hstacked
  · refine ⟨fun load hload => ?_, fun name failure hmem => absurd hmem (by simp [Runner.complaints])⟩
    obtain rfl := List.mem_singleton.mp hload
    refine ⟨fun upper r hstack => ?_, ⟨"", awaits_nil "", nofun⟩⟩
    cases upper <;> cases hstack
  · obtain ⟨fresh, rfl, hown⟩ := hstacked.grown
    refine ⟨fun load hload => ?_, fun name failure hmem => ⟨_, List.mem_singleton_self _, ?_⟩⟩
    · obtain rfl := List.mem_singleton.mp hload
      refine ⟨fun upper r' hstack => ?_, hstacked.sought⟩
      obtain ⟨rfl, hr⟩ := List.append_inj' hstack rfl
      obtain rfl := List.singleton_inj.mp hr
      exact ⟨hfirst, hbegins, hown⟩
    · rcases List.mem_append.mp hmem with hmem | hmem
      · exact hstacked.noted name failure hmem
      · -- the runner that the load began with
        cases cycle with
        | none => cases hmem
        | some path =>
          cases List.mem_singleton.mp hmem
          exact ⟨path, rfl, rfl, mem_chainOf.mpr (by simp)⟩

end

/-! ## All loads -/

variable {source : Source} {order : Order} {cache after : Cache} {trace : List Event}
  {loads : List Load}

theorem Rebuilds.recorded {parent : String} {ids : List String}
    (h : Rebuilds source parent ids cache after trace loads) : Recorded source trace loads := by
  induction h with
  | done => exact .quiet (by simp)
  | next hr merges rest ih =>
    exact ((merges.recorded (.rebuild _) rfl hr).append ih).mono (by simp)

theorem Refreshes.recorded {queue visited taken : List String}
    (h : Refreshes order source queue visited cache taken after trace loads) :
    Recorded source trace loads := by
  induction h with
  | done => exact .quiet (by simp)
  | passed hv rest ih => exact ih
  | takesUp hv hids rebuilds rest ih => exact rebuilds.recorded.append ih

theorem RefreshesAll.recorded {ids : List String} {takes : List (List String)}
    (h : RefreshesAll order source ids cache takes after trace loads) :
    Recorded source trace loads := by
  induction h with
  | done => exact .quiet (by simp)
  | next refreshes rest ih => exact refreshes.recorded.append ih

/-- **Every load of a turn** is sound, and reports come from loads. -/
theorem Turn.Ends.recorded {request : Request} {takes : List (List String)}
    (h : Turn.Ends source order cache request after trace loads takes) :
    Recorded source trace loads := by
  cases h with
  | resolve obtains => exact obtains.recorded
  | unrelated ho => exact .quiet (by simp)
  | reread ho hr merges refreshes =>
    have hfirst := (Source.load_eq_ok hr).1
    exact ((merges.recorded (.reread _ _) hfirst hr).append refreshes.recorded).mono (by simp)
  | notReread ho hr refreshes =>
    exact (Recorded.quiet (by simp)).append refreshes.recorded
  | forgetMissing hids refreshes => exact refreshes.recorded
  | resetAll => exact .quiet (by simp)

/-! ## Names taken up -/

/-- **No name is taken up twice**, nor one that was taken up before. -/
theorem Refreshes.nodup {queue visited taken : List String}
    (h : Refreshes order source queue visited cache taken after trace loads) :
    taken.Nodup ∧ ∀ x ∈ taken, x ∉ visited := by
  induction h with
  | done => exact ⟨List.nodup_nil, fun x hx => absurd hx List.not_mem_nil⟩
  | passed hv rest ih => exact ih
  | @takesUp parent ids queue visited taken cache now after trace trace' loads loads' hv hids
      rebuilds rest ih =>
    refine ⟨List.nodup_cons.mpr ⟨fun hmem => ih.2 parent hmem List.mem_cons_self, ih.1⟩, ?_⟩
    intro x hx hvisited
    rcases List.mem_cons.mp hx with rfl | hx
    · exact hv hvisited
    · exact ih.2 x hx (List.mem_cons_of_mem _ hvisited)

theorem RefreshesAll.nodup {ids : List String} {takes : List (List String)}
    (h : RefreshesAll order source ids cache takes after trace loads) :
    ∀ taken ∈ takes, taken.Nodup := by
  induction h with
  | done => exact fun _ h => absurd h List.not_mem_nil
  | next refreshes rest ih =>
    intro taken htaken
    rcases List.mem_cons.mp htaken with rfl | htaken
    · exact refreshes.nodup.1
    · exact ih taken htaken

theorem Turn.Ends.nodup {request : Request} {takes : List (List String)}
    (h : Turn.Ends source order cache request after trace loads takes) :
    ∀ taken ∈ takes, taken.Nodup := by
  cases h with
  | resolve obtains => exact fun _ h => absurd h List.not_mem_nil
  | unrelated ho => exact fun _ h => absurd h List.not_mem_nil
  | reread ho hr merges refreshes => exact fun taken h => List.mem_singleton.mp h ▸ refreshes.nodup.1
  | notReread ho hr refreshes => exact fun taken h => List.mem_singleton.mp h ▸ refreshes.nodup.1
  | forgetMissing hids refreshes => exact refreshes.nodup
  | resetAll => exact fun _ h => absurd h List.not_mem_nil

end RunnerCatalog
