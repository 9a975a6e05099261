/-
  Documents outside the workspace.

  The name of a runner may have slashes and dots, and is a piece of path then.  The search goes
  where that path leads, and it begins in a directory of schemas.

  1. **Documents below the root** - whether a document is one of the workspace is told by its path
     when its dots are taken (`LeadsBelow`).  The way of the name (`idWay`) leads a number of
     directories up, and down from there: so the document lies below the root if and only if the way
     leads up no further than to the root, or comes back the same way
     (`located_below_iff`).

  2. **Ways out** - a name with more pairs of dots than the directory of schemas is deep may lead
     out of the workspace (`located_outside`).
-/
import RunnerCatalog.Proofs.Located

namespace RunnerCatalog.Workspace

open Files (Tree Find Spot)

/-! ## Documents below the root -/

/-- The path of the document leads strictly below a directory. -/
def LeadsBelow (root : List String) (d : DocumentId) : Prop :=
  ∃ rest, rest ≠ [] ∧ resolveDots d.components = (0, root ++ rest)

/-- Where the name of a runner leads from a directory of schemas: how far up, and through which
    names down from there. -/
def idWay (id : String) : Nat × List String :=
  resolveDots ((idPieces id).filterMap Component.ofPiece?)

variable {w : Workspace} {tree : Tree} {root dir : List String} {id : String} {d : DocumentId}

/-- A document that is located is a file that the search finds. -/
theorem Laid.exists_located (h : w.Laid root dir) (hd : w.locate tree id = .ok (some d)) :
    ∃ g ∈ Files.walk tree (w.segments id) Find.top, tree.isFile g.spot = true ∧ d = ⟨g.text⟩ := by
  rw [locate, h.search_eq] at hd
  obtain ⟨g, hleast, rfl⟩ := Option.map_eq_some_iff.mp (Except.ok.inj hd)
  obtain ⟨hwalk, hfile⟩ := List.mem_filter.mp (Files.least_spec hleast).1
  exact ⟨g, hwalk, hfile, rfl⟩

/-- What is left of the names of a directory below the root, `up` directories up from it. -/
theorem take_below (root below : List String) {up : Nat}
    (hup : up ≤ (root ++ below).length) :
    ∃ more, (root ++ below).take ((root ++ below).length - up) =
        root.take (root.length - (up - below.length)) ++ more ∧
      (more ≠ [] → up - below.length = 0) := by
  refine ⟨below.take (below.length - up), ?_, fun hmore => ?_⟩
  · rw [List.length_append] at hup ⊢
    rw [List.take_append]
    by_cases hle : up ≤ below.length
    · have hzero : up - below.length = 0 := by omega
      rw [hzero, Nat.sub_zero, List.take_length, List.take_of_length_le (by omega),
        show root.length + below.length - up - root.length = below.length - up by omega]
    · rw [show root.length + below.length - up = root.length - (up - below.length) by omega,
        show root.length - (up - below.length) - root.length = below.length - up by omega]
  · by_contra hne
    rw [show below.length - up = 0 by omega, List.take_zero] at hmore
    exact hmore rfl

/-- A list stands before some names after its own beginning, if the rest of it stands before these
    names. -/
theorem prefix_take_append_iff {root names : List String} (n : Nat) :
    root <+: root.take n ++ names ↔ root.drop n <+: names := by
  constructor
  · intro hpre
    have hsplit : root.take n ++ root.drop n <+: root.take n ++ names := by
      rwa [List.take_append_drop]
    exact (List.prefix_append_right_inj _).mp hsplit
  · intro hpre
    have hsplit := (List.prefix_append_right_inj (root.take n)).mpr hpre
    rwa [List.take_append_drop] at hsplit

/-- So a directory that is left upwards, and names down from there, keep to the root if the names
    make up for what is missing of it. -/
theorem prefix_below_iff (root below names : List String) {up : Nat}
    (hup : up ≤ (root ++ below).length) :
    root <+: (root ++ below).take ((root ++ below).length - up) ++ names ↔
      root.drop (root.length - (up - below.length)) <+: names := by
  obtain ⟨more, htake, hmore⟩ := take_below root below hup
  rw [htake]
  by_cases hempty : more = []
  · rw [hempty, List.append_nil]
    exact prefix_take_append_iff _
  · rw [hmore hempty, Nat.sub_zero, List.drop_length, List.take_length, List.append_assoc]
    exact iff_of_true (List.prefix_append _ _) List.nil_prefix

/-- A file that was found below the root. -/
theorem leadsBelow_iff {g : Find} (hsound : g.Sound) (hne : g.spot ≠ root) :
    LeadsBelow root ⟨g.text⟩ ↔ root <+: g.spot := by
  have hleads : resolveDots (DocumentId.mk g.text).components = (0, g.spot) := by
    rw [← hsound.leads]
    exact congrArg resolveDots hsound.components
  rw [LeadsBelow, hleads]
  constructor
  · rintro ⟨rest, -, heq⟩
    exact ⟨rest, (Prod.mk.inj heq).2.symm⟩
  · rintro ⟨rest, hrest⟩
    refine ⟨rest, ?_, by rw [hrest]⟩
    rintro rfl
    exact hne (by rw [← hrest, List.append_nil])

/-- **A document that is located** lies below the root if and only if the name of the runner leads
    up, from the directory of schemas where it was found, no further than to the root, or comes
    down again through the same directories.  So it does whenever the name leads up no further than
    the directory of schemas is deep. -/
theorem located_below_iff (h : w.Laid root dir) (htree : tree.Named)
    (hd : w.locate tree id = .ok (some d)) :
    (∃ between : List String,
      d.components = (root ++ between ++ dir).map .name ++
        (idPieces id).filterMap Component.ofPiece? ∧
      (LeadsBelow root d ↔
        root.drop (root.length - ((idWay id).1 - (between ++ dir).length)) <+: (idWay id).2)) ∧
    ((idWay id).1 ≤ dir.length → LeadsBelow root d) := by
  obtain ⟨g, hwalk, hfile, rfl⟩ := h.exists_located hd
  obtain ⟨hsound, hroot, between, hspelled⟩ := h.found htree hwalk
  have hcomponents : (DocumentId.mk g.text).components =
      (root ++ between ++ dir).map .name ++ (idPieces id).filterMap Component.ofPiece? :=
    hsound.components.trans hspelled
  have hway := hsound.leads
  rw [hspelled, resolveDots_below, List.append_assoc root] at hway
  obtain ⟨hup, hspot⟩ := Prod.mk.inj hway
  have hle : (idWay id).1 ≤ (root ++ (between ++ dir)).length := Nat.le_of_sub_eq_zero hup
  rw [← idWay] at hspot
  -- the file found is not the root, which is a directory
  have hne : g.spot ≠ root := by
    intro heq
    have hnot := Tree.isDirectory_of_isFile hfile
    rw [heq, hroot] at hnot
    cases hnot
  have hbelow : LeadsBelow root ⟨g.text⟩ ↔
      root.drop (root.length - ((idWay id).1 - (between ++ dir).length)) <+: (idWay id).2 := by
    rw [leadsBelow_iff hsound hne, ← hspot]
    exact prefix_below_iff root (between ++ dir) (idWay id).2 hle
  refine ⟨⟨between, hcomponents, hbelow⟩, fun hdepth => ?_⟩
  rw [hbelow, List.length_append, show (idWay id).1 - (between.length + dir.length) = 0 by omega,
    Nat.sub_zero, List.drop_length]
  exact List.nil_prefix

/-- A workspace with a runner in its root, next to the directory of schemas, and a document beside
    the workspace. -/
def besideTree : Tree :=
  .ofNodes [(["ws"], .directory), (["ws", ".catscript"], .directory),
    (["ws", ".catscript", "schemas"], .directory), (["ws", "x.json"], .file "".toUTF8),
    (["x.json"], .file "".toUTF8)]

def beside : Workspace := ⟨"ws", ".catscript/schemas", []⟩

theorem beside_laid : beside.Laid ["ws"] [".catscript", "schemas"] :=
  ⟨⟨by decide, by decide +kernel⟩, by decide +kernel, ⟨by decide, by decide +kernel⟩,
    isSpecial_of_any (by decide +kernel)⟩

/-- Two dots take a name back to the root. -/
theorem located_below_beside :
    beside.locate besideTree "../../x" = .ok (some ⟨"ws/.catscript/schemas/../../x.json"⟩) ∧
      LeadsBelow ["ws"] ⟨"ws/.catscript/schemas/../../x.json"⟩ := by
  have hfound : beside.locate besideTree "../../x" =
      .ok (some ⟨"ws/.catscript/schemas/../../x.json"⟩) := by decide +kernel
  have hdepth : (idWay "../../x").1 ≤ [".catscript", "schemas"].length := by decide +kernel
  exact ⟨hfound, (located_below_iff beside_laid (by decide +kernel) hfound).2 hdepth⟩

/-! ## Ways out -/

/-- **A name may lead out of the workspace**: a third pair of dots takes it to the document beside
    the root. -/
theorem located_outside :
    ¬ ∀ (w : Workspace) (tree : Tree) (root dir : List String) (id : String) (d : DocumentId),
      w.Laid root dir → tree.Named → w.locate tree id = .ok (some d) → LeadsBelow root d := by
  intro hall
  have hfound : beside.locate besideTree "../../../x" =
      .ok (some ⟨"ws/.catscript/schemas/../../../x.json"⟩) := by decide +kernel
  obtain ⟨rest, -, hway⟩ := hall beside besideTree ["ws"] [".catscript", "schemas"] "../../../x" _
    beside_laid (by decide +kernel) hfound
  have hends : resolveDots (DocumentId.mk "ws/.catscript/schemas/../../../x.json").components =
      (0, ["x.json"]) := by decide +kernel
  rw [hends] at hway
  have hnames := (Prod.mk.inj hway).2
  rw [List.singleton_append] at hnames
  exact absurd (List.cons.inj hnames).1 (by decide)

end RunnerCatalog.Workspace
