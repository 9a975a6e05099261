/-
  Loading a runner together with everything it extends.

  A runner that is not known yet is loaded from its document.  If it extends another one, that
  one is needed first, and so on: the runners loaded so far wait on the way up, until the climb
  reaches a `Summit`: a runner that extends nothing, one that is known already, one that is
  not to be had, or a runner on the way itself, which closes a cycle.  From there the waiting
  runners are linked downwards (`Climb.linked`), each one over the one above it; on a cycle
  each keeps its own commands only.
-/
import RunnerCatalog.Cache
import RunnerCatalog.Source

namespace RunnerCatalog

/-- Where a climb ends. -/
inductive Summit
  /-- The last runner extends nothing. -/
  | base
  /-- The last runner extends one that is known. -/
  | over (parent : Runner)
  /-- There is no runner of this name, or none could be searched for. -/
  | unknown (id : String)
  /-- There is a document for this name, but it is of no use. -/
  | unusable (id : String)
  /-- The way leads back to a waiting runner. -/
  | cycle (path : List String)
  deriving DecidableEq

/-- A finished climb. -/
structure Climb where
  /-- The runners loaded on the way, the last one first. -/
  waiting : List Runner
  summit : Summit
  /-- What was learned about the name at the summit, if it is not a waiting runner. -/
  learned : List (String × Entry)
  trace : List Event

/-- The names of waiting runners, the first one first. -/
def chainOf (waiting : List Runner) : List String := (waiting.map Runner.name).reverse

/-- Climb from the runner `id`, which `waiting` wait for.  Every step loads a runner that does
    not wait yet. -/
def climbWithin (source : Source) (cache : Cache) : Nat → List Runner → String → Climb
  | 0, waiting, id => ⟨waiting, .unknown id, [], []⟩
  | steps + 1, waiting, id =>
    match cache.walkInto (chainOf waiting) id with
    | some walk => ⟨waiting, .cycle (chainOf waiting ++ walk), [], []⟩
    | none =>
      match cache.get? id with
      | some (.loaded r) => ⟨waiting, .over r, [], []⟩
      | some .missing => ⟨waiting, .unknown id, [], []⟩
      | none =>
        match source.locate id with
        | .error failure =>
          -- the search itself failed, so nothing is learned
          ⟨waiting, .unknown id, [], [.located id, .noted (.searchFailed id failure)]⟩
        | .ok none =>
          ⟨waiting, .unknown id, [(id, .missing)], [.located id, .noted (.noDocument id)]⟩
        | .ok (some d) =>
          match source.load id d with
          | .error failure =>
            ⟨waiting, .unusable id, [(id, .loaded (Runner.blank id (some d)))],
              [.located id, .wasRead d, .noted (.unusable id failure)]⟩
          | .ok r =>
            match r.parent with
            | none => ⟨r :: waiting, .base, [], [.located id, .wasRead d]⟩
            | some parent =>
              let above := climbWithin source cache steps (r :: waiting) parent
              { above with trace := [.located id, .wasRead d] ++ above.trace }

/-- Climb from the runner `id`, which `waiting` wait for. -/
def climb (source : Source) (cache : Cache) (waiting : List Runner) (id : String) : Climb :=
  climbWithin source cache (source.texts.length + 2) waiting id

namespace Climb

/-- Link runners downwards, each one over the one before it, the first one over `parent`. -/
def linkDown : Option Runner → List Runner → List Runner
  | _, [] => []
  | none, r :: below => r.detach :: linkDown (some r.detach) below
  | some parent, r :: below => r.inherit parent :: linkDown (some (r.inherit parent)) below

/-- The runner at the summit that the last waiting runner inherits from. -/
def parent? (c : Climb) : Option Runner :=
  match c.summit with
  | .over parent => some parent
  | _ => none

/-- The waiting runners, linked, the last one first. -/
def linked (c : Climb) : List Runner :=
  match c.summit with
  | .cycle _ => c.waiting.map Runner.detach
  | _ => linkDown c.parent? c.waiting

/-- The notice for the last waiting runner if what it extends is not to be had. -/
def parentNotices (c : Climb) : List Notice :=
  match c.summit, c.waiting with
  | .unknown id, r :: _ => [.unknownParent r.name id]
  | _, _ => []

/-- The notice that a newly loaded runner is ready. -/
def readyNotice (r : Runner) : Notice :=
  .loaded r.name ((r.document.map DocumentId.path).getD "")

/-- The notices for linking, when all waiting runners are newly loaded. -/
def notices (c : Climb) : List Notice :=
  match c.summit with
  | .cycle path => c.waiting.map fun r => .notMerged r.name (.cycle path)
  | _ => c.parentNotices ++ c.waiting.map readyNotice

/-- The notices for linking, when the first waiting runner was there before. -/
def relinkNotices (c : Climb) : List Notice :=
  match c.summit with
  | .cycle path => c.waiting.map fun r => .notMerged r.name (.cycle path)
  | _ => c.parentNotices ++ c.waiting.dropLast.map readyNotice

/-- The cache with everything that was learned and linked. -/
def settle (c : Climb) (cache : Cache) : Cache :=
  Cache.storeAll (cache.insertAll c.learned) c.linked

end Climb

end RunnerCatalog
