/-
  Asking for a runner, and linking one again.

  `Cache.resolve` answers with the runner of a name and loads it if need be.  It has no way to
  fail: a document that cannot be used gives a runner without commands, and a runner on a
  cycle keeps its own.  `Cache.relink` links a runner anew over the one that it extends, as
  that one is now.
-/
import RunnerCatalog.Store.Climb

namespace RunnerCatalog.Cache

/-- The runner of a name.  What was not known before is loaded and stored. -/
def resolve (source : Source) (cache : Cache) (id : String) : Answer (Option Runner) :=
  let c := climb source cache [] id
  let after := c.settle cache
  ⟨after.loaded? id, after, c.trace ++ c.notices.map .noted⟩

/-- Link a runner over the one that it extends, and store it. -/
def relink (source : Source) (cache : Cache) (r : Runner) : Answer Unit :=
  match r.parent with
  | none => ⟨(), cache.store r.detach, []⟩
  | some parent =>
    let c := climb source cache [r] parent
    ⟨(), c.settle cache, c.trace ++ c.relinkNotices.map .noted⟩

end RunnerCatalog.Cache
