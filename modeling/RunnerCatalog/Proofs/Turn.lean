/-
  Runs of requests.

  Whoever uses a cache makes requests one after the other.  Documents change in between, so each
  turn has a source of its own; whether anybody was told about the change is another matter.  Each
  turn has also an order of its own, because the order in which dependents are taken up is not
  the same every time.
-/
import RunnerCatalog.Store.Refresh

namespace RunnerCatalog

/-- What can be asked of a cache. -/
inductive Request
  | resolve (id : String)
  | invalidate (document : DocumentId)
  | forgetMissing
  | resetAll

/-- A request together with the documents as they are when it is made. -/
structure Turn where
  request : Request
  source : Source
  order : Order

/-- The cache after a turn. -/
def Turn.apply (turn : Turn) (cache : Cache) : Cache :=
  match turn.request with
  | .resolve id => (cache.resolve turn.source id).cache
  | .invalidate d => (cache.invalidate turn.order turn.source d).cache
  | .forgetMissing => (cache.forgetMissing turn.order turn.source).cache
  | .resetAll => cache.resetAll.cache

/-- What happens in a turn. -/
def Turn.trace (turn : Turn) (cache : Cache) : List Event :=
  match turn.request with
  | .resolve id => (cache.resolve turn.source id).trace
  | .invalidate d => (cache.invalidate turn.order turn.source d).trace
  | .forgetMissing => (cache.forgetMissing turn.order turn.source).trace
  | .resetAll => cache.resetAll.trace

/-- Turns one after the other, each with the cache that it finds; the first one finds `cache`. -/
def Cache.stages (cache : Cache) : List Turn → List (Turn × Cache)
  | [] => []
  | turn :: turns => (turn, cache) :: stages (turn.apply cache) turns

/-- What happens in some turns, the first of which finds `cache`. -/
def Cache.history (cache : Cache) (turns : List Turn) : List Event :=
  (cache.stages turns).flatMap fun s => s.1.trace s.2

/-- The cache after some turns, the first of which found it empty. -/
def Cache.after (turns : List Turn) : Cache :=
  turns.foldl (fun cache turn => turn.apply cache) OrderedMap.empty

/-- What every turn preserves holds after all of them. -/
theorem Cache.after_induction {P : Cache → Prop} {turns : List Turn} (hempty : P OrderedMap.empty)
    (hturn : ∀ turn ∈ turns, ∀ cache, P cache → P (turn.apply cache)) : P (Cache.after turns) := by
  have hfold : ∀ cache, P cache → P (turns.foldl (fun cache turn => turn.apply cache) cache) := by
    clear hempty
    induction turns with
    | nil => exact fun _ h => h
    | cons turn rest ih =>
      intro cache h
      refine ih (fun t ht => hturn t (List.mem_cons_of_mem _ ht)) _ ?_
      exact hturn turn List.mem_cons_self cache h
  exact hfold _ hempty

end RunnerCatalog
