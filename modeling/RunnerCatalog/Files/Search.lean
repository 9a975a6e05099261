/-
  Finding files by a pattern.

  A search walks through a tree along the components of a pattern.  A component without
  wildcards is simply entered, and so `.` and `..` have their usual meaning in it.  A
  component with wildcards is compared with the names in the directory.  Behind `**` the
  next component is compared with the names of everything below, at any depth.

  Each find is the location of a node together with the path that leads to it; of the files
  found the least path counts, paths being compared component by component.
-/
import RunnerCatalog.Document
import RunnerCatalog.Files.Tree
import RunnerCatalog.Files.Wildcard

namespace RunnerCatalog.Files

/-! ## Patterns by component -/

/-- A component of a pattern. -/
inductive Segment
  /-- A name, `.` or `..`; or nothing, between two slashes. -/
  | plain (text : List Char)
  /-- A name with wildcards. -/
  | wild (pattern : List Wildcard)
  /-- Any number of directories. -/
  | anyDepth
  deriving DecidableEq, Repr

namespace Segment

/-- A component of a pattern, taken apart. -/
def parse (component : List Char) : Except PatternError Segment := do
  let ws ← Wildcard.parse component
  if Wildcard.anyDepth ∈ ws then return .anyDepth
  match Wildcard.literal? ws with
  | some text => return .plain text
  | none => return .wild ws

/-- Whether the component, compared with a name, fits it. -/
def accepts (segment : Segment) (name : List Char) : Bool :=
  match segment with
  | plain text => text == name
  | wild ws => Wildcard.accepts ws name
  | anyDepth => true

end Segment

/-- The components of a pattern.  The pattern has to be right as a whole and component by
    component. -/
def parseSegments (pattern : List Char) : Except PatternError (List Segment) := do
  let _ ← Wildcard.parse pattern
  (Text.splitOn '/' pattern).mapM Segment.parse

/-! ## Walking -/

/-- A node met by a search: the names and dots on the path to it, and its location. -/
structure Find where
  path : List String
  spot : Spot
  deriving DecidableEq, Repr

namespace Find

/-- Where a search begins. -/
def top : Find := ⟨[], []⟩

/-- Go on to a node below. -/
def enter (f : Find) (spot : Spot) : Find :=
  ⟨f.path ++ spot.drop f.spot.length, spot⟩

/-- Stay in a directory, by way of its `.`; at the beginning of a path it is left out. -/
def stay (f : Find) : Find := if f.path = [] then f else ⟨f.path ++ ["."], f.spot⟩

/-- Go up by way of `..`.  Nothing is above the top. -/
def goUp (f : Find) : List Find :=
  if f.spot = [] then [] else [⟨f.path ++ [".."], f.spot.dropLast⟩]

/-- The path as a text. -/
def text (f : Find) : String := "/".intercalate f.path

/-- The components of the path, by which finds are ordered. -/
def key (f : Find) : List (List Nat) :=
  (pathComponents f.text.toList).map Component.key

end Find

/-- The last name of a location. -/
def lastName (spot : Spot) : List Char := (spot.getLastD "").toList

/-- Enter a component without wildcards. -/
def enterPlain (t : Tree) (text : List Char) (f : Find) : List Find :=
  if !t.isDirectory f.spot then []
  else if text = [] then [f]
  else if text = ['.'] then [f.stay]
  else if text = ['.', '.'] then f.goUp
  else
    let spot := f.spot ++ [String.ofList text]
    if (t.node? spot).isSome then [f.enter spot] else []

/-- The dots that a pattern with wildcards fits; it has to begin with a dot itself. -/
def enterDots (ws : List Wildcard) (f : Find) : List Find :=
  if ws.head? = some (.char '.') then
    (if Wildcard.accepts ws ['.'] then [f.stay] else [])
      ++ (if Wildcard.accepts ws ['.', '.'] then f.goUp else [])
  else []

/-- Walk along the components of a pattern. -/
def walk (t : Tree) : List Segment → Find → List Find
  | [], f => [f]
  | .plain text :: more, f => (enterPlain t text f).flatMap (walk t more)
  | .wild ws :: more, f =>
    if t.isDirectory f.spot then
      (((t.children f.spot).filter fun s => Wildcard.accepts ws (lastName s)).map f.enter
        ++ enterDots ws f).flatMap (walk t more)
    else []
  | .anyDepth :: .anyDepth :: more, f => walk t (.anyDepth :: more) f
  | [.anyDepth], f =>
    ((t.below f.spot).filter fun s => t.isDirectory s).map f.enter
  | .anyDepth :: next :: more, f =>
    if t.isDirectory f.spot then
      (((t.below f.spot).filter fun s => next.accepts (lastName s)).map f.enter).flatMap
        (walk t more)
    else []

/-- Lexicographic order on lists whose members are compared lexicographically. -/
def lexListLt : List (List Nat) → List (List Nat) → Bool
  | _, [] => false
  | [], _ :: _ => true
  | a :: as, b :: bs => Component.lexLt a b || (a == b && lexListLt as bs)

/-- The find with the least path; of equal ones the first. -/
def least : List Find → Option Find
  | [] => none
  | f :: fs =>
    match least fs with
    | none => some f
    | some g => if lexListLt g.key f.key then some g else some f

/-- The first file that a pattern finds in a tree, in the order of paths.  Patterns from the
    root of the system find nothing. -/
def search (t : Tree) (pattern : List Char) : Except PatternError (Option Find) := do
  let segments ← parseSegments pattern
  if pattern.head? = some '/' then return none
  return least ((walk t segments Find.top).filter fun f => t.isFile f.spot)

end RunnerCatalog.Files
