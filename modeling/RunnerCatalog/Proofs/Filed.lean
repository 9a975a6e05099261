/-
  Files that were written.

  A file is put where its path leads.  The same path leads to it afterwards, because no directory
  on the way is lost when a node is put into the tree.

  1. **What stays** - a location with a node keeps one, and a directory stays a directory
     (`isSome_node?_put`, `isDirectory_put`).  So pieces lead where they led before (`follow_put`).

  2. **Reading** - what was written to a path is read from it (`readBytes_writeFile`), and a text
     as that text (`readText_writeFile`).
-/
import RunnerCatalog.Proofs.Paths

namespace RunnerCatalog.Files.Tree

variable {t : Tree}

/-! ## What stays -/

/-- What stands where after a node was put into a directory. -/
theorem node?_put {directory : Spot} {name : String} {node : Node}
    (hdirectory : t.isDirectory directory = true)
    (hfree : t.isDirectory (directory ++ [name]) = false) (spot : Spot) :
    (t.put directory name node).node? spot =
      if directory ++ [name] = spot then some node else t.node? spot := by
  have hput : t.node? directory = some .directory ∧
      t.nodes.get? (directory ++ [name]) ≠ some .directory := by
    refine ⟨beq_iff_eq.mp hdirectory, fun hthere => ?_⟩
    rw [isDirectory, node?, if_neg (List.append_ne_nil_of_right_ne_nil _ (List.cons_ne_nil _ _)),
      hthere] at hfree
    exact absurd hfree (by decide)
  rw [put, dif_pos hput, node?, node?, OrderedMap.get?_insert]
  by_cases hempty : spot = []
  · rw [if_pos hempty, if_pos hempty, if_neg]
    rw [hempty]
    exact List.append_ne_nil_of_right_ne_nil _ (List.cons_ne_nil _ _)
  · rw [if_neg hempty, if_neg hempty]

/-- Nothing is lost of a tree when a node is put where no directory is. -/
theorem isSome_node?_put {directory : Spot} {name : String} {node : Node}
    (hdirectory : t.isDirectory directory = true)
    (hfree : t.isDirectory (directory ++ [name]) = false) {spot : Spot}
    (h : (t.node? spot).isSome = true) :
    ((t.put directory name node).node? spot).isSome = true := by
  rw [node?_put hdirectory hfree]
  split
  · rfl
  · exact h

theorem isDirectory_put {directory : Spot} {name : String} {node : Node}
    (hdirectory : t.isDirectory directory = true)
    (hfree : t.isDirectory (directory ++ [name]) = false) {spot : Spot}
    (h : t.isDirectory spot = true) : (t.put directory name node).isDirectory spot = true := by
  have hne : directory ++ [name] ≠ spot := by
    rintro rfl
    rw [hfree] at h
    cases h
  rw [isDirectory, node?_put hdirectory hfree, if_neg hne]
  exact h

/-- Pieces lead on one by one. -/
theorem follow_cons (t : Tree) (spot : Spot) (piece : List Char) (more : List (List Char)) :
    follow t spot (piece :: more) = (follow t spot [piece]).bind fun s => follow t s more := by
  rw [follow, follow]
  cases hnode : t.node? (spot ++ [String.ofList piece]) with
  | none =>
    simp only [hnode]
    repeat' split
    all_goals rfl
  | some there =>
    simp only [hnode]
    repeat' split
    all_goals rfl

theorem follow_append (t : Tree) (spot : Spot) (pieces more : List (List Char)) :
    follow t spot (pieces ++ more) = (follow t spot pieces).bind fun s => follow t s more := by
  induction pieces generalizing spot with
  | nil => rfl
  | cons piece pieces ih =>
    rw [List.cons_append, follow_cons, follow_cons t spot piece pieces]
    cases follow t spot [piece] with
    | error e => rfl
    | ok next => exact ih next

/-- A name leads to a node that stands there. -/
theorem follow_name {spot : Spot} {piece : List Char} (hspot : t.isDirectory spot = true)
    (hname : ¬ (piece = [] ∨ piece = ['.'] ∨ piece = ['.', '.']))
    (hshort : ¬ 255 < Text.byteLength piece)
    (hthere : (t.node? (spot ++ [String.ofList piece])).isSome = true) :
    follow t spot [piece] = .ok (spot ++ [String.ofList piece]) := by
  simp only [not_or] at hname
  obtain ⟨node, hnode⟩ := Option.isSome_iff_exists.mp hthere
  rw [follow, hspot, Bool.not_true, if_neg Bool.false_ne_true,
    if_neg (not_or.mpr ⟨hname.1, hname.2.1⟩), if_neg hname.2.2, if_neg hshort]
  simp only [hnode]
  rfl

/-- A piece leads to the same location in every tree with the same directory and a node there. -/
theorem follow_piece {u : Tree} {spot next : Spot} {piece : List Char}
    (hdirectory : t.isDirectory spot = true → u.isDirectory spot = true)
    (hthere : (t.node? (spot ++ [String.ofList piece])).isSome = true →
      (u.node? (spot ++ [String.ofList piece])).isSome = true)
    (h : follow t spot [piece] = .ok next) : follow u spot [piece] = .ok next := by
  cases hspot : t.isDirectory spot with
  | false =>
    rw [follow, hspot] at h
    cases h
  | true =>
    rw [follow, hspot] at h
    rw [follow, hdirectory hspot]
    cases hnode : t.node? (spot ++ [String.ofList piece]) with
    | none =>
      simp only [hnode] at h
      split_ifs at h ⊢
      all_goals exact h
    | some node =>
      obtain ⟨node', hnode'⟩ := Option.isSome_iff_exists.mp (hthere (by rw [hnode]; rfl))
      simp only [hnode] at h
      simp only [hnode']
      split_ifs at h ⊢
      all_goals exact h

/-- **The way of some pieces** stays the same. -/
theorem follow_put {directory : Spot} {name : String} {node : Node}
    (hdirectory : t.isDirectory directory = true)
    (hfree : t.isDirectory (directory ++ [name]) = false) {pieces : List (List Char)}
    {spot goal : Spot} (h : follow t spot pieces = .ok goal) :
    follow (t.put directory name node) spot pieces = .ok goal := by
  induction pieces generalizing spot with
  | nil => exact h
  | cons piece more ih =>
    rw [follow_cons] at h ⊢
    cases hnext : follow t spot [piece] with
    | error e =>
      rw [hnext] at h
      cases h
    | ok next =>
      rw [hnext] at h
      rw [follow_piece (isDirectory_put hdirectory hfree) (isSome_node?_put hdirectory hfree) hnext]
      exact ih h

/-! ## Reading -/

/-- What it takes to write a file: its directory is there, and its last piece is a name. -/
theorem writeFile_ok {t' : Tree} {path : String} {content : ByteArray}
    (h : t.writeFile path content = .ok t') :
    ∃ pieces spot, pathPieces path = .ok pieces ∧ follow t [] pieces.dropLast = .ok spot ∧
      t.isDirectory spot = true ∧
      ¬ (pieces.getLastD [] = [] ∨ pieces.getLastD [] = ['.'] ∨ pieces.getLastD [] = ['.', '.']) ∧
      ¬ 255 < Text.byteLength (pieces.getLastD []) ∧
      t.isDirectory (spot ++ [String.ofList (pieces.getLastD [])]) = false ∧
      t' = t.put spot (String.ofList (pieces.getLastD [])) (.file content) := by
  rw [writeFile] at h
  cases hpieces : pathPieces path with
  | error e =>
    rw [hpieces] at h
    cases h
  | ok pieces =>
    rw [hpieces] at h
    cases hspot : follow t [] pieces.dropLast with
    | error e =>
      simp only [bind, Except.bind, hspot] at h
      cases h
    | ok spot =>
      simp only [bind, Except.bind, hspot, pure, Except.pure] at h
      split_ifs at h with hdirectory hname hlong hfree
      exact ⟨pieces, spot, rfl, hspot, by simpa using hdirectory, hname, hlong,
        Bool.eq_false_iff.mpr hfree, (Except.ok.inj h).symm⟩

theorem pathPieces_ne_nil {path : String} {pieces : List (List Char)}
    (h : pathPieces path = .ok pieces) : pieces ≠ [] := by
  rw [pathPieces] at h
  split_ifs at h
  rw [← Except.ok.inj h]
  exact Text.splitOn_ne_nil _

/-- **A file that was written** is read with the content that was written. -/
theorem readBytes_writeFile {t' : Tree} {path : String} {content : ByteArray}
    (h : t.writeFile path content = .ok t') : t'.readBytes path = .ok content := by
  obtain ⟨pieces, spot, hpieces, hspot, hdirectory, hname, hshort, hfree, rfl⟩ := writeFile_ok h
  have hnode : (t.put spot (String.ofList (pieces.getLastD [])) (.file content)).node?
      (spot ++ [String.ofList (pieces.getLastD [])]) = some (.file content) := by
    rw [node?_put hdirectory hfree, if_pos rfl]
  have hfind : (t.put spot (String.ofList (pieces.getLastD [])) (.file content)).find path =
      .ok (spot ++ [String.ofList (pieces.getLastD [])]) := by
    have hsplit : pieces.dropLast ++ [pieces.getLastD []] = pieces := by
      rw [List.getLastD_eq_getLast?, List.getLast?_eq_some_getLast (pathPieces_ne_nil hpieces)]
      exact List.dropLast_concat_getLast _
    rw [find, hpieces]
    show follow _ [] pieces = _
    rw [← hsplit, follow_append, hsplit, follow_put hdirectory hfree hspot]
    exact follow_name (isDirectory_put hdirectory hfree hdirectory) hname hshort
      (by rw [hnode]; rfl)
  rw [readBytes, hfind]
  simp only [bind, Except.bind, hnode]
  rfl

/-- **A text that was written** is read as that text. -/
theorem readText_writeFile {t' : Tree} {path text : String}
    (h : t.writeFile path text.toUTF8 = .ok t') : t'.readText path = .ok text := by
  have hutf8 : String.fromUTF8? text.toUTF8 = some text := by
    have hvalid : text.toUTF8.IsValidUTF8 := text.isValidUTF8
    rw [String.fromUTF8?, dif_pos hvalid]
    rfl
  rw [readText, readBytes_writeFile h]
  simp only [bind, Except.bind, hutf8]
  rfl

end RunnerCatalog.Files.Tree
