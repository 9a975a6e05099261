/-
  The document of a runner.

  A workspace looks for the document of a runner by a pattern made of three texts: its root, its
  directory of schemas, and the name of the runner.

  1. **The pattern** - root and directory are paths of names (`Workspace.Laid`), so the pattern is
     right, and its components are the pieces of the three texts with one `**` between them
     (`Laid.search_eq`).

  2. **Finds** - what is found has the components of root, some directories, the directory of
     schemas, and the pieces of the name, one after the other (`Laid.found`); and if the name has no
     slash, all files of such a path are found (`Laid.exists_found`).

  3. **The least one** - so the document is the file with the least of those paths, and there is
     none only if there is no such file (`locate_least`).
-/
import RunnerCatalog.Proofs.Searching

namespace RunnerCatalog

open Files (Tree Find Spot Leads Segment spelled)
open Files.Wildcard (isSpecial escape)

namespace Text

/-- A character at the end belongs to the last piece. -/
theorem splitOn_concat {sep c : Char} (hc : c ≠ sep) (cs : List Char) :
    ∃ pieces last, splitOn sep (cs ++ [c]) = pieces ++ [last ++ [c]] := by
  induction cs with
  | nil => exact ⟨[], [], splitOn_of_notMem (by simpa using hc.symm)⟩
  | cons x cs ih =>
    obtain ⟨pieces, last, ih⟩ := ih
    by_cases hx : x = sep
    · exact ⟨[] :: pieces, last, by rw [List.cons_append, splitOn, if_pos hx, ih]; rfl⟩
    · obtain ⟨piece, more, hsplit, hcons⟩ := splitOn_cons_of_ne hx (cs ++ [c])
      rw [ih] at hsplit
      rw [List.cons_append, hcons]
      cases pieces with
      | nil =>
        obtain ⟨rfl, rfl⟩ := List.cons.inj hsplit
        exact ⟨[], x :: last, rfl⟩
      | cons p ps =>
        obtain ⟨rfl, rfl⟩ := List.cons.inj hsplit
        exact ⟨(x :: p) :: ps, last, rfl⟩

end Text

namespace Workspace

/-! ## The pattern -/

/-- Root and directory of schemas are paths of names.  The root has no backslash at its end, where
    it would be dropped, and the directory has no character with a meaning in patterns. -/
structure Laid (w : Workspace) (root dir : List String) : Prop where
  rootPath : IsPathOf w.root root
  backslash : ∀ n ∈ root.getLast?, n.toList.getLast? ≠ some '\\'
  dirPath : IsPathOf w.schemaDir dir
  plain : ∀ c ∈ w.schemaDir.toList, isSpecial c = false

theorem isSpecial_of_any {cs : List Char} (h : cs.any isSpecial = false) :
    ∀ c ∈ cs, isSpecial c = false :=
  fun c hc => Bool.eq_false_iff.mpr (List.any_eq_false.mp h c hc)

/-- The pieces of the root. -/
def rootPieces (w : Workspace) : List (List Char) := Text.splitOn '/' (dropEnd '/' w.root.toList)

/-- The pieces of the directory of schemas. -/
def dirPieces (w : Workspace) : List (List Char) :=
  Text.splitOn '/' (dropEnd '/' w.schemaDir.toList)

/-- The pieces of the name of a document. -/
def idPieces (id : String) : List (List Char) :=
  Text.splitOn '/' (id.toList ++ ['.', 'j', 's', 'o', 'n'])

/-- The components of the pattern of a runner. -/
def segments (w : Workspace) (id : String) : List Segment :=
  w.rootPieces.map Segment.ofPiece ++
    .anyDepth :: (w.dirPieces ++ idPieces id).map Segment.ofPiece

variable {w : Workspace} {tree : Tree} {root dir : List String} {id : String} {g : Find}

/-- A path of names ends with a backslash only if its last name does. -/
theorem dropEnd_backslash (hroot : IsPathOf w.root root)
    (hlast : ∀ n ∈ root.getLast?, n.toList.getLast? ≠ some '\\') :
    dropEnd '\\' (dropEnd '/' w.root.toList) = dropEnd '/' w.root.toList := by
  refine dropEnd_of_getLast? fun hbackslash => ?_
  obtain ⟨cs, hcs⟩ := List.getLast?_eq_some_iff.mp hbackslash
  obtain ⟨pieces, last, hsplit⟩ := Text.splitOn_concat (show '\\' ≠ '/' by decide) cs
  have hpiece : Component.ofPiece? (last ++ ['\\']) =
      some (.name (String.ofList (last ++ ['\\']))) := by
    rw [Component.ofPiece?, if_neg, if_neg]
    · intro hdots
      simpa using congrArg List.getLast? hdots
    · rintro (hnil | hdot)
      · exact List.concat_ne_nil _ _ hnil
      · simpa using congrArg List.getLast? hdot
  have hnames := hroot.spells.names
  rw [hcs, hsplit, List.filterMap_append, List.filterMap_cons_some hpiece] at hnames
  have hmember : String.ofList (last ++ ['\\']) ∈ root.getLast? := by
    have hget := congrArg List.getLast? hnames
    rw [List.filterMap_nil, List.getLast?_concat, List.getLast?_map] at hget
    obtain ⟨n, hn, heq⟩ := Option.map_eq_some_iff.mp hget.symm
    rw [Component.name.inj heq] at hn
    exact hn
  refine hlast _ hmember ?_
  rw [String.toList_ofList, List.getLast?_concat]

theorem Laid.pattern_eq (h : w.Laid root dir) (id : String) :
    w.pattern id = escape (dropEnd '/' w.root.toList) ++
      '/' :: '*' :: '*' :: '/' :: escape (dropEnd '/' w.schemaDir.toList ++
        '/' :: (id.toList ++ ['.', 'j', 's', 'o', 'n'])) := by
  have hslash : w.schemaDir.toList.dropWhile (fun x => x == '/') = w.schemaDir.toList := by
    have hhead := h.dirPath.head.1
    cases hcs : w.schemaDir.toList with
    | nil => rfl
    | cons c cs =>
      rw [hcs, List.head?_cons, Ne, Option.some.injEq] at hhead
      exact List.dropWhile_cons_of_neg (by simpa using hhead)
  have hplain : escape (dropEnd '/' w.schemaDir.toList) = dropEnd '/' w.schemaDir.toList := by
    refine Files.Wildcard.escape_of_plain fun c hc => h.plain c ?_
    obtain ⟨n, hn, -⟩ := exists_dropEnd '/' w.schemaDir.toList
    rw [hn]
    exact List.mem_append_left _ hc
  have hcons : ∀ cs, escape ('/' :: cs) = '/' :: escape cs := Files.Wildcard.escape_cons '/'
  have hjson : escape ['.', 'j', 's', 'o', 'n'] = ['.', 'j', 's', 'o', 'n'] := rfl
  rw [pattern, dropEnd_backslash h.rootPath h.backslash, hslash, Files.Wildcard.escape_append,
    hplain, hcons, Files.Wildcard.escape_append, hjson]
  simp

/-- The pattern does not begin at the root of the system. -/
theorem Laid.head_ne (h : w.Laid root dir) : (w.pattern id).head? ≠ some '/' := by
  rw [h.pattern_eq]
  obtain ⟨p, ps, hsplit, hne, -⟩ := h.rootPath.spells.begins
  cases hcs : dropEnd '/' w.root.toList with
  | nil =>
    rw [hcs] at hsplit
    exact absurd (List.cons.inj hsplit).1.symm hne
  | cons c cs =>
    have hc : c ≠ '/' := by
      rintro rfl
      rw [hcs, Text.splitOn, if_pos rfl] at hsplit
      exact hne (List.cons.inj hsplit).1.symm
    rw [Files.Wildcard.escape_cons]
    split
    · exact fun h => absurd (Option.some.inj h) (by decide)
    · exact fun h => hc (Option.some.inj h)

/-- **A search** by the pattern of a runner follows its pieces. -/
theorem Laid.search_eq (h : w.Laid root dir) :
    Files.search tree (w.pattern id) =
      .ok (Files.least ((Files.walk tree (w.segments id) Find.top).filter
        fun f => tree.isFile f.spot)) := by
  have hsegments : Files.parseSegments (w.pattern id) = .ok (w.segments id) := by
    rw [h.pattern_eq, Files.parseSegments_between, Text.splitOn_append]
    rfl
  simp only [Files.search, hsegments, bind, Except.bind, if_neg h.head_ne]
  rfl

/-! ## Finds -/

theorem idPieces_slash : ∀ p ∈ idPieces id, '/' ∉ p := fun _ hp => Text.notMem_of_mem_splitOn hp

/-- **What is found** has the components of the root, of some directories, of the directory of
    schemas, and of the name. -/
theorem Laid.found (h : w.Laid root dir) (htree : tree.Named)
    (hg : g ∈ Files.walk tree (w.segments id) Find.top) :
    g.Sound ∧ tree.isDirectory root = true ∧ ∃ between : List String,
      spelled g.path = (root ++ between ++ dir).map .name ++
        (idPieces id).filterMap Component.ofPiece? := by
  obtain ⟨f, hbase, hg⟩ := Files.mem_walk_leads.mp hg
  obtain ⟨hf, hspelled⟩ := hbase.sound Find.sound_top fun _ hp => Text.notMem_of_mem_splitOn hp
  have hroot : spelled f.path = root.map .name := hspelled.trans h.rootPath.spells.names
  have hspot : f.spot = root := by
    have hleads := hf.leads
    rw [hroot, resolveDots_names] at hleads
    exact (Prod.mk.inj hleads).2.symm
  obtain ⟨first, pieces, names, hpieces, hdir, -, hnames⟩ := h.dirPath.spells.exists_cons
  rw [dirPieces, hpieces, List.cons_append] at hg
  obtain ⟨hdirectory, between, hkey, hlead⟩ := Files.mem_walk_depth.mp hg
  rw [String.ofList_toList] at hkey hlead
  have hbetween : ∀ n ∈ between ++ [first], IsName n := by
    intro n hn
    refine htree _ hkey n ?_
    rw [List.append_assoc]
    exact List.mem_append_right _ hn
  have hslash : ∀ p ∈ pieces ++ idPieces id, '/' ∉ p := by
    refine List.forall_mem_append.mpr ⟨fun p hp => ?_, idPieces_slash⟩
    have hsub : p ∈ w.dirPieces := by
      rw [dirPieces, hpieces]
      exact List.mem_cons_of_mem _ hp
    exact Text.notMem_of_mem_splitOn hsub
  obtain ⟨hg, hspelled⟩ := hlead.sound (hf.down hbetween) hslash
  refine ⟨hg, hspot ▸ hdirectory, between, ?_⟩
  rw [hspelled, Files.spelled_append, Files.spelled_names hbetween, hroot, List.filterMap_append,
    hnames, hdir]
  simp

/-- A file in a directory of schemas below the root, with the name of the runner. -/
def IsDocument (tree : Tree) (root dir : List String) (id : String) (spot : Spot) : Prop :=
  tree.isFile spot = true ∧ ∃ between, spot = root ++ between ++ dir ++ [id ++ ".json"]

theorem idPieces_of_notMem (hid : '/' ∉ id.toList) : idPieces id = [(id ++ ".json").toList] := by
  have hjson : '/' ∉ id.toList ++ ['.', 'j', 's', 'o', 'n'] := by
    rw [List.mem_append, not_or]
    exact ⟨hid, by decide⟩
  rw [idPieces, Text.splitOn_of_notMem hjson, String.toList_append]
  rfl

theorem ofPiece?_document (id : String) :
    Component.ofPiece? (id ++ ".json").toList = some (.name (id ++ ".json")) := by
  have hlength : 5 ≤ (id ++ ".json").toList.length := by
    rw [String.toList_append, List.length_append]
    exact Nat.le_add_left 5 _
  rw [Component.ofPiece?, if_neg, if_neg, String.ofList_toList]
  · intro hdots
    rw [hdots] at hlength
    exact absurd hlength (by decide)
  · rintro (hnil | hdot)
    · rw [hnil] at hlength
      exact absurd hlength (by decide)
    · rw [hdot] at hlength
      exact absurd hlength (by decide)

/-- **All documents** are found. -/
theorem Laid.exists_found (h : w.Laid root dir) (hid : '/' ∉ id.toList) {spot : Spot}
    (hspot : IsDocument tree root dir id spot) :
    ∃ g ∈ Files.walk tree (w.segments id) Find.top, g.spot = spot := by
  obtain ⟨hfile, between, rfl⟩ := hspot
  have hnode := Tree.isSome_of_isFile hfile
  obtain ⟨first, pieces, names, hpieces, rfl, -, hnames⟩ := h.dirPath.spells.exists_cons
  -- down to the root
  obtain ⟨f, hbase, hf⟩ : ∃ f, Leads tree w.rootPieces Find.top f ∧ f.spot = root := by
    refine Files.exists_leads (between ++ (first :: names) ++ [id ++ ".json"])
      h.rootPath.spells.names ?_ (List.concat_ne_nil _ _)
    simpa [Find.top] using hnode
  -- over the directories to the first name of the directory of schemas
  have hkey : root ++ between ++ [first] ∈ tree.nodes.keys := by
    have hdirectory : tree.isDirectory (root ++ between ++ [first]) = true := by
      refine Tree.isDirectory_of_append (names ++ [id ++ ".json"]) ?_
        (List.concat_ne_nil _ _)
      simpa using hnode
    have hsome := Tree.isSome_node?_iff.mp (Tree.isSome_of_isDirectory hdirectory)
    exact hsome.resolve_left (List.concat_ne_nil _ _)
  have hroot : tree.isDirectory root = true := by
    refine Tree.isDirectory_of_append (between ++ (first :: names) ++ [id ++ ".json"]) ?_
      (List.concat_ne_nil _ _)
    simpa using hnode
  -- and along the rest of it
  obtain ⟨k, hrest, hk⟩ := Files.exists_leads (t := tree)
    (f := ⟨f.path ++ (between ++ [first]), f.spot ++ (between ++ [first])⟩)
    [id ++ ".json"] hnames (by rw [hf]; simpa using hnode) (List.cons_ne_nil _ _)
  have hdirectory : tree.isDirectory k.spot = true := by
    rw [hk, hf]
    refine Tree.isDirectory_of_append [id ++ ".json"] ?_ (List.cons_ne_nil _ _)
    simpa using hnode
  have hlast : (⟨k.path ++ [id ++ ".json"], k.spot ++ [id ++ ".json"]⟩ : Find) ∈
      Files.enterPlain tree (id ++ ".json").toList k := by
    refine Files.mem_enterPlain_iff.mpr ⟨hdirectory, ?_⟩
    rw [ofPiece?_document]
    refine ⟨?_, rfl⟩
    rw [hk, hf]
    simpa using hnode
  refine ⟨⟨k.path ++ [id ++ ".json"], k.spot ++ [id ++ ".json"]⟩, ?_, ?_⟩
  · refine Files.mem_walk_leads.mpr ⟨f, hbase, ?_⟩
    rw [dirPieces, hpieces, List.cons_append, idPieces_of_notMem hid]
    refine Files.mem_walk_depth.mpr ⟨hf ▸ hroot, between, ?_, ?_⟩
    · rwa [String.ofList_toList, hf]
    · rw [String.ofList_toList]
      exact hrest.append (.step hlast .done)
  · rw [hk, hf]
    simp

/-! ## The least one -/

/-- The name of a component counts by its bytes. -/
theorem map_key_le_iff {names names' : List String} :
    (names.map Component.name).map Component.key ≤ (names'.map Component.name).map Component.key ↔
      names.map Component.nameBytes ≤ names'.map Component.nameBytes := by
  have hlt : ∀ ns ms : List String,
      (ns.map Component.name).map Component.key < (ms.map Component.name).map Component.key ↔
        ns.map Component.nameBytes < ms.map Component.nameBytes := by
    intro ns
    induction ns with
    | nil =>
      intro ms
      cases ms with
      | nil => exact Iff.rfl
      | cons m ms => exact iff_of_true (List.nil_lt_cons _ _) (List.nil_lt_cons _ _)
    | cons n ns ih =>
      intro ms
      cases ms with
      | nil => exact iff_of_false (List.not_lt_nil _) (List.not_lt_nil _)
      | cons m ms =>
        have hkey : ∀ s, (Component.name s).key = 3 :: Component.nameBytes s := fun s => rfl
        simp only [List.map_cons, List.cons_lt_cons_iff, ih, hkey]
        simp
  rw [← not_lt, ← not_lt, hlt]

/-- What was found among names without a slash is a document. -/
theorem Laid.isDocument_found (h : w.Laid root dir) (htree : tree.Named) (hid : '/' ∉ id.toList)
    (hg : g ∈ Files.walk tree (w.segments id) Find.top) (hfile : tree.isFile g.spot = true) :
    IsDocument tree root dir id g.spot ∧
      pathComponents g.text.toList = g.spot.map .name := by
  obtain ⟨hsound, -, between, hspelled⟩ := h.found htree hg
  have hnames : spelled g.path = (root ++ between ++ dir ++ [id ++ ".json"]).map .name := by
    rw [hspelled, idPieces_of_notMem hid, List.filterMap_cons_some (ofPiece?_document id)]
    exact (List.map_append :
      (root ++ between ++ dir ++ [id ++ ".json"]).map Component.name = _).symm
  have hspot : g.spot = root ++ between ++ dir ++ [id ++ ".json"] := by
    have hleads := hsound.leads
    rw [hnames, resolveDots_names] at hleads
    exact (Prod.mk.inj hleads).2.symm
  exact ⟨⟨hfile, between, hspot⟩, by rw [hsound.components, hnames, hspot]⟩

/-- **The document of a runner** whose name has no slash is the one with the least path, compared
    name by name and those by their bytes, among all files of that name in directories of schemas
    below the root.  There is none only if there is no such file, and the search never fails. -/
theorem locate_least (h : w.Laid root dir) (htree : tree.Named) (hid : '/' ∉ id.toList) :
    ∃ document, w.locate tree id = .ok document ∧
      (document = none ↔ ∀ spot, ¬ IsDocument tree root dir id spot) ∧
      ∀ d ∈ document, ∃ spot, IsDocument tree root dir id spot ∧
        d.components = spot.map .name ∧
        ∀ spot', IsDocument tree root dir id spot' →
          spot.map Component.nameBytes ≤ spot'.map Component.nameBytes := by
  have hfinds : ∀ g, g ∈ (Files.walk tree (w.segments id) Find.top).filter
      (fun f => tree.isFile f.spot) ↔
      g ∈ Files.walk tree (w.segments id) Find.top ∧ tree.isFile g.spot = true :=
    fun g => List.mem_filter
  obtain ⟨found, hfound⟩ : ∃ found, Files.least ((Files.walk tree (w.segments id)
      Find.top).filter fun f => tree.isFile f.spot) = found := ⟨_, rfl⟩
  refine ⟨found.map fun f => ⟨f.text⟩, by rw [locate, h.search_eq, hfound], ?_, ?_⟩
  · rw [Option.map_eq_none_iff, ← hfound, Files.least_eq_none_iff, List.eq_nil_iff_forall_not_mem]
    constructor
    · intro hnone spot hspot
      obtain ⟨g, hg, rfl⟩ := h.exists_found hid hspot
      exact hnone g ((hfinds g).mpr ⟨hg, hspot.1⟩)
    · intro hnone g hg
      obtain ⟨hwalk, hfile⟩ := (hfinds g).mp hg
      exact hnone g.spot (h.isDocument_found htree hid hwalk hfile).1
  · intro d hd
    obtain ⟨f, rfl, rfl⟩ := Option.map_eq_some_iff.mp hd
    obtain ⟨hmem, hleast⟩ := Files.least_spec hfound
    obtain ⟨hwalk, hfile⟩ := (hfinds f).mp hmem
    obtain ⟨hdocument, hcomponents⟩ := h.isDocument_found htree hid hwalk hfile
    refine ⟨f.spot, hdocument, hcomponents, fun spot' hspot' => ?_⟩
    obtain ⟨g, hg, rfl⟩ := h.exists_found hid hspot'
    have hle := hleast g ((hfinds g).mpr ⟨hg, hspot'.1⟩)
    rw [Find.key, Find.key, hcomponents,
      (h.isDocument_found htree hid hg hspot'.1).2] at hle
    exact map_key_le_iff.mp hle

/-- A workspace with brackets in its root and two files for the runner `r*`; in a third directory
    of schemas a directory has that name. -/
def starredTree : Tree :=
  .ofNodes [(["w[1]"], .directory), (["w[1]", "schemas"], .directory),
    (["w[1]", "schemas", "r*.json"], .directory), (["w[1]", "sub"], .directory),
    (["w[1]", "sub", "schemas"], .directory),
    (["w[1]", "sub", "schemas", "r*.json"], .file "".toUTF8),
    (["w[1]", "sub-b"], .directory), (["w[1]", "sub-b", "schemas"], .directory),
    (["w[1]", "sub-b", "schemas", "r*.json"], .file "".toUTF8)]

def starred : Workspace := ⟨"w[1]/", "schemas", []⟩

/-- The file in `sub` counts, for it comes before the one in `sub-b`, name by name. -/
theorem locate_starred :
    starred.locate starredTree "r*" = .ok (some ⟨"w[1]/sub/schemas/r*.json"⟩) ∧
      ∀ spot, IsDocument starredTree ["w[1]"] ["schemas"] "r*" spot →
        ["w[1]", "sub", "schemas", "r*.json"].map Component.nameBytes ≤
          spot.map Component.nameBytes := by
  have hfound : starred.locate starredTree "r*" = .ok (some ⟨"w[1]/sub/schemas/r*.json"⟩) := by
    decide +kernel
  have hlaid : starred.Laid ["w[1]"] ["schemas"] :=
    ⟨⟨by decide, by decide +kernel⟩, by decide +kernel, ⟨by decide, by decide +kernel⟩,
      isSpecial_of_any (by decide +kernel)⟩
  have htree : starredTree.Named := by decide +kernel
  have hid : '/' ∉ "r*".toList := by decide
  obtain ⟨document, hlocate, -, hleast⟩ := locate_least hlaid htree hid
  rw [hfound] at hlocate
  obtain rfl := Except.ok.inj hlocate
  obtain ⟨spot, -, hcomponents, hall⟩ := hleast _ rfl
  have hspot : spot = ["w[1]", "sub", "schemas", "r*.json"] := by
    refine map_name_injective (hcomponents.symm.trans ?_)
    decide +kernel
  exact ⟨hfound, fun spot' hspot' => hspot ▸ hall spot' hspot'⟩

end Workspace

end RunnerCatalog
