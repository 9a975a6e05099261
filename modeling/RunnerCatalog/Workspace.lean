/-
  Schema documents in a workspace.

  The document of a runner lies in a directory of schemas, which any directory of the
  workspace may have, and is named for the runner; if there are several, the one with the
  least path is taken.  Documents that are open in an editor are read from there.
-/
import RunnerCatalog.Files.Search
import RunnerCatalog.Source

namespace RunnerCatalog

/-- A directory tree to search, and the documents open in an editor. -/
structure Workspace where
  /-- The directory to search. -/
  root : String
  /-- The directory of schemas, from any directory below the root. -/
  schemaDir : String
  /-- The documents that are open, with their texts. -/
  opened : List (DocumentId × String)

namespace Workspace

/-- Drop a character from the end of a text as often as it stands there. -/
def dropEnd (c : Char) (cs : List Char) : List Char :=
  (cs.reverse.dropWhile (fun x => x == c)).reverse

/-- The pattern of the documents of a runner. -/
def pattern (w : Workspace) (id : String) : List Char :=
  let base := dropEnd '\\' (dropEnd '/' w.root.toList)
  let dir := dropEnd '/' (w.schemaDir.toList.dropWhile (fun x => x == '/'))
  Files.Wildcard.escape base ++ ['/', '*', '*', '/'] ++ dir ++ ['/']
    ++ Files.Wildcard.escape id.toList ++ ['.', 'j', 's', 'o', 'n']

/-- Find the document of a runner. -/
def locate (w : Workspace) (tree : Files.Tree) (id : String) :
    Except Failure (Option DocumentId) :=
  match Files.search tree (w.pattern id) with
  | .ok find => .ok (find.map fun f => ⟨f.text⟩)
  | .error e => .error (.badPattern (String.ofList (w.pattern id) ++ ": " ++ e.describe))

/-- The text of a document that is open. -/
def openText? (w : Workspace) (d : DocumentId) : Option String :=
  (w.opened.find? fun e => e.1.Same d).map Prod.snd

/-- The text of a document: as it is in the editor, or else as it is on file. -/
def read (w : Workspace) (tree : Files.Tree) (d : DocumentId) : Except Failure String :=
  match w.openText? d with
  | some text => .ok text
  | none =>
    match tree.readText d.path with
    | .ok text => .ok text
    | .error e => .error (.unreadable e.describe)

/-- A document is opened, or its text in the editor changes. -/
def openDocument (w : Workspace) (d : DocumentId) (text : String) : Workspace :=
  { w with opened := (d, text) :: w.opened.filter (fun e => ¬ e.1.Same d) }

/-- A document is closed. -/
def closeDocument (w : Workspace) (d : DocumentId) : Workspace :=
  { w with opened := w.opened.filter (fun e => ¬ e.1.Same d) }

theorem read_mem_texts (w : Workspace) (tree : Files.Tree) (d : DocumentId) (text : String)
    (h : w.read tree d = .ok text) : text ∈ w.opened.map Prod.snd ++ tree.texts := by
  unfold read at h
  split at h
  · next s hs =>
    cases h
    obtain ⟨e, he, rfl⟩ := Option.map_eq_some_iff.mp hs
    exact List.mem_append_left _ (List.mem_map_of_mem (List.mem_of_find?_eq_some he))
  · split at h
    · next s hs =>
      cases h
      exact List.mem_append_right _ (Files.Tree.readText_mem_texts hs)
    · cases h

/-- The documents of a workspace as a source. -/
def source (w : Workspace) (tree : Files.Tree) : Source :=
  ⟨w.locate tree, w.read tree, w.opened.map Prod.snd ++ tree.texts, w.read_mem_texts tree⟩

end Workspace

end RunnerCatalog
