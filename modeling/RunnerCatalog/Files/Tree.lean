/-
  Trees of files and directories.

  A tree maps locations to nodes; a location is the list of names on the way from the top.
  Every node but the top stands in a directory (`Tree.rooted`).  Paths are texts as programs
  write them, with repeated slashes, `.` and `..`; `Tree.find` follows one through the tree the
  way an operating system does, so that `a/..` is an error unless `a` is a directory.  A path
  that leaves the tree, or begins at the root of the system, leads nowhere.
-/
import RunnerCatalog.OrderedMap
import RunnerCatalog.Text.Units

namespace RunnerCatalog.Files

/-! ## Nodes and errors -/

/-- What stands at a location. -/
inductive Node
  | directory
  | file (content : ByteArray)

/-- Files are compared by their bytes. -/
instance : DecidableEq Node
  | .directory, .directory => isTrue rfl
  | .directory, .file _ | .file _, .directory => isFalse nofun
  | .file a, .file b =>
    decidable_of_iff (a.data = b.data) ⟨fun h => by rw [ByteArray.ext h], fun h => by cases h; rfl⟩

/-- Why something cannot be done with a path. -/
inductive PathError
  | notFound
  | alreadyExists
  | notADirectory
  | isADirectory
  | nameTooLong
  | zeroInName
  | notUtf8
  deriving DecidableEq, Repr

/-- The wording of an error. -/
def PathError.describe : PathError → String
  | notFound => "No such file or directory (os error 2)"
  | alreadyExists => "File exists (os error 17)"
  | notADirectory => "Not a directory (os error 20)"
  | isADirectory => "Is a directory (os error 21)"
  | nameTooLong => "File name too long (os error 36)"
  | zeroInName => "file name contained an unexpected NUL byte"
  | notUtf8 => "stream did not contain valid UTF-8"

/-- The way from the top of a tree to a node. -/
abbrev Spot := List String

/-- Files and directories by location. -/
structure Tree where
  nodes : OrderedMap Spot Node
  /-- Every node stands in a directory. -/
  rooted : ∀ spot node, nodes.get? spot = some node →
    spot ≠ [] ∧ (spot.dropLast = [] ∨ nodes.get? spot.dropLast = some .directory)

namespace Tree

/-- The tree with nothing in it. -/
def empty : Tree := ⟨OrderedMap.empty, fun _ _ h => by simp at h⟩

instance : Inhabited Tree := ⟨empty⟩

/-- What stands at a location; at the top there is a directory. -/
def node? (t : Tree) (spot : Spot) : Option Node :=
  if spot = [] then some .directory else t.nodes.get? spot

/-- Whether a location is that of a directory. -/
def isDirectory (t : Tree) (spot : Spot) : Bool := t.node? spot == some .directory

/-- Whether a location is that of a file. -/
def isFile (t : Tree) (spot : Spot) : Bool :=
  match t.node? spot with
  | some (.file _) => true
  | _ => false

/-- The locations directly below a location. -/
def children (t : Tree) (spot : Spot) : List Spot :=
  t.nodes.keys.filter fun s => decide (s ≠ []) && decide (s.dropLast = spot)

/-- The locations below a location, at any depth. -/
def below (t : Tree) (spot : Spot) : List Spot :=
  t.nodes.keys.filter fun s => decide (s ≠ spot) && decide (s.take spot.length = spot)

/-! ## Changing a tree -/

/-- Put a node into a directory.  Nothing changes if there is no such directory, or if a
    directory stands there already. -/
def put (t : Tree) (directory : Spot) (name : String) (node : Node) : Tree :=
  if h : t.node? directory = some .directory ∧
      t.nodes.get? (directory ++ [name]) ≠ some .directory then
    ⟨t.nodes.insert (directory ++ [name]) node, by
      intro spot n hn
      rw [OrderedMap.get?_insert] at hn
      have key : ∀ d : Spot, (d = [] ∨ t.nodes.get? d = some .directory) →
          (d = [] ∨ (t.nodes.insert (directory ++ [name]) node).get? d = some .directory) := by
        intro d hd
        rcases hd with hd | hd
        · exact Or.inl hd
        · refine Or.inr ?_
          rw [OrderedMap.get?_insert]
          split
          · next hk => exact absurd (hk ▸ hd) h.2
          · exact hd
      split at hn
      · next hk =>
        subst hk
        refine ⟨by simp, key _ ?_⟩
        have hd := h.1
        unfold node? at hd
        split at hd
        · next h0 => exact Or.inl (by simp [h0])
        · exact Or.inr (by simpa using hd)
      · next hk =>
        obtain ⟨h1, h2⟩ := t.rooted spot n hn
        exact ⟨h1, key _ h2⟩⟩
  else t

/-- Remove a file.  Nothing changes if there is none. -/
def removeFile (t : Tree) (spot : Spot) : Tree :=
  if h : t.nodes.get? spot ≠ some .directory then
    ⟨t.nodes.erase spot, by
      intro s n hn
      rw [OrderedMap.get?_erase] at hn
      split at hn
      · cases hn
      · obtain ⟨h1, h2⟩ := t.rooted s n hn
        refine ⟨h1, ?_⟩
        rcases h2 with h2 | h2
        · exact Or.inl h2
        · refine Or.inr ?_
          rw [OrderedMap.get?_erase]
          split
          · next hk => exact absurd (hk ▸ h2) h
          · exact h2⟩
  else t

/-! ## Following paths -/

/-- Follow the pieces of a path.  Only from a directory does a piece lead on. -/
def follow (t : Tree) : Spot → List (List Char) → Except PathError Spot
  | spot, [] => .ok spot
  | spot, piece :: more =>
    if !t.isDirectory spot then .error .notADirectory
    else if piece = [] ∨ piece = ['.'] then follow t spot more
    else if piece = ['.', '.'] then
      if spot = [] then .error .notFound else follow t spot.dropLast more
    else if 255 < Text.byteLength piece then .error .nameTooLong
    else
      let next := spot ++ [String.ofList piece]
      match t.node? next with
      | none => .error .notFound
      | some _ => follow t next more

/-- The pieces of a path, if it is one that can be followed. -/
def pathPieces (path : String) : Except PathError (List (List Char)) :=
  let cs := path.toList
  if '\x00' ∈ cs then .error .zeroInName
  else if cs = [] ∨ cs.head? = some '/' then .error .notFound
  else if 4095 < Text.byteLength cs then .error .nameTooLong
  else .ok (Text.splitOn '/' cs)

/-- The location that a path leads to. -/
def find (t : Tree) (path : String) : Except PathError Spot := do
  follow t [] (← pathPieces path)

/-- The content of the file that a path leads to. -/
def readBytes (t : Tree) (path : String) : Except PathError ByteArray := do
  let spot ← t.find path
  match t.node? spot with
  | some (.file content) => return content
  | some .directory => throw .isADirectory
  | none => throw .notFound

/-- The text of the file that a path leads to. -/
def readText (t : Tree) (path : String) : Except PathError String := do
  match String.fromUTF8? (← t.readBytes path) with
  | some text => return text
  | none => throw .notUtf8

/-- The texts of all files that hold text. -/
def texts (t : Tree) : List String :=
  t.nodes.values.filterMap fun node =>
    match node with
    | .file content => String.fromUTF8? content
    | .directory => none

theorem readText_mem_texts {t : Tree} {path text : String} (h : t.readText path = .ok text) :
    text ∈ t.texts := by
  unfold readText at h
  cases hb : t.readBytes path with
  | error e => rw [hb] at h; cases h
  | ok content =>
    rw [hb] at h
    simp only [bind, Except.bind] at h
    split at h
    · next s hs =>
      cases h
      have hv : Node.file content ∈ t.nodes.values := by
        unfold readBytes at hb
        cases hf : t.find path with
        | error e => rw [hf] at hb; cases hb
        | ok spot =>
          rw [hf] at hb
          simp only [bind, Except.bind] at hb
          split at hb
          · next c hc =>
            cases hb
            unfold node? at hc
            split at hc
            · cases hc
            · exact OrderedMap.mem_values_of_get? hc
          · cases hb
          · cases hb
      exact List.mem_filterMap.mpr ⟨_, hv, hs⟩
    · cases h

/-- Follow the pieces of a path and make the directories that are not there. -/
def makeAlong (t : Tree) : Spot → List (List Char) → Except PathError (Tree × Spot)
  | spot, [] => if t.isDirectory spot then .ok (t, spot) else .error .alreadyExists
  | spot, piece :: more =>
    if !t.isDirectory spot then .error .notADirectory
    else if piece = [] ∨ piece = ['.'] then makeAlong t spot more
    else if piece = ['.', '.'] then
      if spot = [] then .error .notFound else makeAlong t spot.dropLast more
    else if 255 < Text.byteLength piece then .error .nameTooLong
    else
      let next := spot ++ [String.ofList piece]
      match t.node? next with
      | none => makeAlong (t.put spot (String.ofList piece) .directory) next more
      | some _ => makeAlong t next more

/-- Make the directory at a path, with everything above it.  A directory that is there already
    is fine. -/
def makeDirectory (t : Tree) (path : String) : Except PathError Tree := do
  if path = "" then return t
  let (t, _) ← makeAlong t [] (← pathPieces path)
  return t

/-- Write a file whose directory is there. -/
def writeFile (t : Tree) (path : String) (content : ByteArray) : Except PathError Tree := do
  let pieces ← pathPieces path
  let last := pieces.getLastD []
  let spot ← follow t [] pieces.dropLast
  if !t.isDirectory spot then throw .notADirectory
  if last = [] ∨ last = ['.'] ∨ last = ['.', '.'] then throw .isADirectory
  if 255 < Text.byteLength last then throw .nameTooLong
  if t.isDirectory (spot ++ [String.ofList last]) then throw .isADirectory
  return t.put spot (String.ofList last) (.file content)

/-- Write a file, and make its directory if need be. -/
def writeDeep (t : Tree) (path : String) (content : ByteArray) : Except PathError Tree := do
  let pieces ← pathPieces path
  let (t, _) ← makeAlong t [] pieces.dropLast
  t.writeFile path content

/-- Remove the file that a path leads to. -/
def remove (t : Tree) (path : String) : Except PathError Tree := do
  let spot ← t.find path
  if t.isDirectory spot then throw .isADirectory
  return t.removeFile spot

end Tree

/-- A path below a directory. -/
def joinPath (directory path : String) : String :=
  if directory = "" then path
  else if directory.toList.getLast? = some '/' then directory ++ path
  else directory ++ "/" ++ path

end RunnerCatalog.Files
