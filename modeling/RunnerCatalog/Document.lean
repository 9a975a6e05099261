/-
  Names of schema documents.

  A document is known by its path.  Two paths name the same document when they agree
  component by component: repeated slashes, a slash at the end and `.` components other than
  a leading one do not matter, while `..` and a leading `.` do.  The path is kept as it was
  written, because messages and answers show it that way; `DocumentId.Same` is the relation
  between two ways of writing it.
-/
import RunnerCatalog.Text.Units

namespace RunnerCatalog

/-- One step of a path, in the order in which paths are sorted. -/
inductive Component
  /-- The slash in front of an absolute path. -/
  | root
  /-- A leading `.`. -/
  | here
  /-- A `..`. -/
  | up
  /-- The name of a file or a directory. -/
  | name (text : String)
  deriving DecidableEq, Repr

namespace Component

/-- The rank of the kind of a component. -/
def rank : Component → Nat
  | root => 0
  | here => 1
  | up => 2
  | name _ => 3

/-- Lexicographic order on lists of numbers. -/
def lexLt : List Nat → List Nat → Bool
  | _, [] => false
  | [], _ :: _ => true
  | a :: as, b :: bs => a < b || (a == b && lexLt as bs)

/-- The bytes of a name, as numbers. -/
def nameBytes (s : String) : List Nat := (Text.bytes s.toList).map UInt8.toNat

/-- The key by which components are ordered: first the kind, then the bytes of the name. -/
def key : Component → List Nat
  | name s => 3 :: nameBytes s
  | c => [c.rank]

/-- Components are ordered by kind, names by their bytes. -/
def lt (a b : Component) : Bool := lexLt a.key b.key

end Component

/-- The components of a path.  Empty ones and every `.` but a leading one are dropped. -/
def pathComponents (path : List Char) : List Component :=
  let pieces := Text.splitOn '/' path
  let first : List Component :=
    if path.head? = some '/' then [.root]
    else if pieces.head? = some ['.'] then [.here]
    else []
  let rest := pieces.filterMap fun piece =>
    if piece = [] ∨ piece = ['.'] then none
    else if piece = ['.', '.'] then some Component.up
    else some (Component.name (String.ofList piece))
  first ++ rest

/-- The name of a schema document: its path, as written. -/
structure DocumentId where
  path : String
  deriving DecidableEq, Repr

namespace DocumentId

/-- The components of the document's path. -/
def components (d : DocumentId) : List Component := pathComponents d.path.toList

/-- Two names of one document. -/
def Same (d e : DocumentId) : Prop := d.components = e.components

instance (d e : DocumentId) : Decidable (d.Same e) :=
  inferInstanceAs (Decidable (d.components = e.components))

theorem Same.refl (d : DocumentId) : d.Same d := rfl

theorem Same.symm {d e : DocumentId} (h : d.Same e) : e.Same d := Eq.symm h

theorem Same.trans {d e f : DocumentId} (h : d.Same e) (h' : e.Same f) : d.Same f :=
  Eq.trans h h'

end DocumentId

end RunnerCatalog
