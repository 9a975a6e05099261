/-
  Keeping known runners up to date.

  When a runner changes, all runners that extend it, directly or not, are linked again, those
  nearer to it first (`Cache.refresh`).  That happens when the document of a runner changes
  (`Cache.invalidate`), and when runners that had no document may have got one
  (`Cache.forgetMissing`).

  The names found at a `Look` at the cache form no sequence by themselves.  An `Order` says in
  which order they are taken up; it is a parameter, so that one can ask where it matters.
-/
import RunnerCatalog.Store.Resolve

namespace RunnerCatalog

/-- What the cache is looked through for. -/
inductive Look
  /-- The runners loaded from a changed document. -/
  | owners
  /-- The names that have no document. -/
  | missing
  /-- The runners that extend the name taken up last, the head of `visited`.  These are the names
      taken up so far, so no two looks of one turn are the same. -/
  | dependents (visited : List String)
  deriving DecidableEq

/-- An order in which to take up names, anew at each look: between two looks the cache can have
    grown, and names found again need not come in the order they had. -/
structure Order where
  arrange : Look → List String → List String
  /-- Nothing is left out or added. -/
  perm : ∀ look ids, (arrange look ids).Perm ids

/-- The order in which names first came into the cache.  Of several runners loaded from one
    document, though, the one that came last is found first. -/
def Order.arrival : Order where
  arrange
    | .owners, ids => ids.reverse
    | .missing, ids => ids
    | .dependents _, ids => ids
  perm look ids := by
    cases look with
    | owners => exact ids.reverse_perm
    | missing => rfl
    | dependents _ => rfl

namespace Cache

/-- The names of the runners outside `visited` that extend `parent`. -/
def dependents (cache : Cache) (visited : List String) (parent : String) : List String :=
  cache.idsWhere fun id r => !visited.contains id && r.parent == some parent

/-- Link a known runner again because `parent` changed. -/
def rebuild (source : Source) (cache : Cache) (id parent : String) : Answer Unit :=
  match cache.loaded? id with
  | none => ⟨(), cache, []⟩
  | some r =>
    let a := relink source cache r
    ⟨(), a.cache, a.trace ++ [.noted (.rebuilt r.name parent)]⟩

/-- Link known runners again, one after the other, because `parent` changed. -/
def rebuildAll (source : Source) (parent : String) : List String → Cache → Answer Unit
  | [], cache => ⟨(), cache, []⟩
  | id :: ids, cache =>
    let a := rebuild source cache id parent
    let b := rebuildAll source parent ids a.cache
    ⟨(), b.cache, a.trace ++ b.trace⟩

/-- Take up the names in `queue` one after the other and rebuild the runners that extend them,
    which then join the queue.  No name is taken up twice.  The value lists the names in the
    order in which they were taken up. -/
def refreshWithin (order : Order) (source : Source) :
    Nat → List String → List String → Cache → Answer (List String)
  | 0, _, _, cache => ⟨[], cache, []⟩
  | _ + 1, [], _, cache => ⟨[], cache, []⟩
  | steps + 1, parent :: queue, visited, cache =>
    if parent ∈ visited then refreshWithin order source steps queue visited cache
    else
      let visited := parent :: visited
      let ids := order.arrange (.dependents visited) (cache.dependents visited parent)
      let a := rebuildAll source parent ids cache
      let b := refreshWithin order source steps (queue ++ ids) visited a.cache
      ⟨parent :: b.value, b.cache, a.trace ++ b.trace⟩

/-- Rebuild every runner that extends `id`, directly or not.  The value lists the names whose
    dependents were rebuilt, `id` first. -/
def refresh (order : Order) (source : Source) (cache : Cache) (id : String) :
    Answer (List String) :=
  refreshWithin order source (cache.size + source.texts.length + 3) [id] [] cache

/-- The names of the runners that were loaded from a document. -/
def owners (cache : Cache) (d : DocumentId) : List String :=
  cache.idsWhere fun _ r => r.document.any (fun e => decide (e.Same d))

/-- Read the runner `id` again from its changed document. -/
def reread (source : Source) (cache : Cache) (id : String) (d : DocumentId) : Answer Unit :=
  match source.load id d with
  | .ok r =>
    let a := relink source cache r
    ⟨(), a.cache, .wasRead d :: a.trace⟩
  | .error failure =>
    ⟨(), cache.insert id (.loaded (Runner.blank id (some d))),
      [.wasRead d, .noted (.notReread id failure)]⟩

/-- A document changed: the runner loaded from it is read again, and those that extend it are
    rebuilt. -/
def invalidate (order : Order) (source : Source) (cache : Cache) (d : DocumentId) :
    Answer Unit :=
  match order.arrange .owners (cache.owners d) with
  | [] => ⟨(), cache, [.noted (.unrelated d)]⟩
  | id :: _ =>
    let a := reread source cache id d
    let b := refresh order source a.cache id
    ⟨(), b.cache, .noted (.rereading id d) :: (a.trace ++ b.trace)⟩

/-- Refresh for several names, one after the other. -/
def refreshAll (order : Order) (source : Source) : List String → Cache → Answer Unit
  | [], cache => ⟨(), cache, []⟩
  | id :: ids, cache =>
    let a := refresh order source cache id
    let b := refreshAll order source ids a.cache
    ⟨(), b.cache, a.trace ++ b.trace⟩

/-- Forget which runners have no document, because they may have got one, and rebuild those
    that extend them. -/
def forgetMissing (order : Order) (source : Source) (cache : Cache) : Answer Unit :=
  let kept := cache.filter fun _ e => decide (e ≠ .missing)
  refreshAll order source (order.arrange .missing cache.missingIds) kept

/-- Forget everything. -/
def resetAll (cache : Cache) : Answer Unit :=
  ⟨(), OrderedMap.empty, [.noted (.clearing cache.size)]⟩

end Cache

end RunnerCatalog
