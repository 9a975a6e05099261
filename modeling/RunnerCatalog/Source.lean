/-
  Where schema documents come from.

  A source finds the document of a runner and gives the text of a document; both may fail.
  It stands for the documents as they are during one operation.  The texts it can give are
  finitely many, and `Source.texts` lists them: a chain of runners that extend each other is
  therefore no longer than that list, up to the first repetition.

  `Shelf` is a source in memory.
-/
import RunnerCatalog.Failure
import RunnerCatalog.Schema

namespace RunnerCatalog

/-- A source of schema documents. -/
structure Source where
  /-- The document of a runner, if it has one. -/
  locate : String → Except Failure (Option DocumentId)
  /-- The text of a document. -/
  read : DocumentId → Except Failure String
  /-- The texts that the source can give. -/
  texts : List String
  /-- The list of texts is complete. -/
  mem_texts : ∀ d t, read d = .ok t → t ∈ texts

/-- The runner as its document alone describes it. -/
def Source.load (source : Source) (id : String) (d : DocumentId) : Except Failure Runner := do
  let text ← source.read d
  match Runner.ofText id text (some d) with
  | .ok r => return r
  | .error problem => throw (.malformed id problem)

/-! ## Documents in memory -/

/-- Documents held in memory, by runner. -/
structure Shelf where
  documents : OrderedMap String String
  /-- The runners for which the search fails. -/
  failing : List String

namespace Shelf

/-- The name of the document of a runner. -/
def documentOf (id : String) : DocumentId := ⟨"/mem/" ++ id ++ ".json"⟩

/-- The text of a document, if there is one by that name. -/
def text? (shelf : Shelf) (d : DocumentId) : Option String :=
  (shelf.documents.entries.find? fun e => (documentOf e.1).Same d).map Prod.snd

/-- Set the text of a runner's document. -/
def put (shelf : Shelf) (id text : String) : Shelf :=
  { shelf with documents := shelf.documents.insert id text }

/-- Remove the document of a runner. -/
def remove (shelf : Shelf) (id : String) : Shelf :=
  { shelf with documents := shelf.documents.erase id }

/-- Make the search for a runner fail. -/
def fail (shelf : Shelf) (id : String) : Shelf := { shelf with failing := id :: shelf.failing }

/-- Make the search for a runner work again. -/
def unfail (shelf : Shelf) (id : String) : Shelf :=
  { shelf with failing := shelf.failing.filter (fun x => x ≠ id) }

/-- The answer to a search. -/
def locate (shelf : Shelf) (id : String) : Except Failure (Option DocumentId) :=
  if id ∈ shelf.failing then .error (.badPattern id)
  else .ok ((shelf.documents.get? id).map fun _ => documentOf id)

/-- The answer to a request for a text. -/
def read (shelf : Shelf) (d : DocumentId) : Except Failure String :=
  match shelf.text? d with
  | some t => .ok t
  | none => .error (.unreadable ("no document " ++ d.path))

theorem read_mem_values (shelf : Shelf) (d : DocumentId) (t : String)
    (h : shelf.read d = .ok t) : t ∈ shelf.documents.values := by
  unfold read at h
  split at h
  · next s hs =>
    cases h
    obtain ⟨e, he, rfl⟩ := Option.map_eq_some_iff.mp hs
    exact List.mem_map_of_mem (List.mem_of_find?_eq_some he)
  · cases h

/-- The documents on the shelf as a source. -/
def source (shelf : Shelf) : Source :=
  ⟨shelf.locate, shelf.read, shelf.documents.values, shelf.read_mem_values⟩

end Shelf

end RunnerCatalog
