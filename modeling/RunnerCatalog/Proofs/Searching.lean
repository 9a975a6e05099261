/-
  Searches for paths.

  A search by a pattern of exact components goes the way that a path of the same pieces goes, and
  behind `**` it goes on from every directory below.

  1. **Trees** - what stands above a node is a directory (`isDirectory_of_append`).

  2. **Steps** - a component that stands for one piece leads on where the piece itself does, be it
     with wildcards or without (`mem_walk_ofPiece`).  So a search along pieces follows them one by
     one (`Leads`, `mem_walk_leads`), and `**` passes over any number of names first
     (`mem_walk_depth`).

  3. **Ways** - the path to a find tells where it is: if its dots are taken, it leads to the node
     that was found (`Find.Sound`).  Each step adds the component of its piece
     (`Leads.sound`), and where pieces spell names, the find is at those names
     (`exists_leads`).

  4. **The least find** - of all finds the one with the least path is taken, in the order of lists
     (`least_eq_none_iff`, `least_spec`).
-/
import Mathlib.Data.List.Lex
import RunnerCatalog.Proofs.LiteralPatterns

namespace RunnerCatalog.Files

/-! ## Trees -/

namespace Tree

/-- Files and directories have names, which are neither empty nor dots and have no slash. -/
def Named (t : Tree) : Prop := ∀ spot ∈ t.nodes.keys, ∀ n ∈ spot, IsName n

instance (t : Tree) : Decidable t.Named := inferInstanceAs (Decidable (∀ _ ∈ _, _))

/-- The tree of some directories and files, each in a directory that comes before it. -/
def ofNodes (nodes : List (Spot × Node)) : Tree :=
  nodes.foldl (fun t e => t.put e.1.dropLast (e.1.getLastD "") e.2) empty

variable {t : Tree} {spot more : Spot}

theorem isSome_node?_iff : (t.node? spot).isSome = true ↔ spot = [] ∨ spot ∈ t.nodes.keys := by
  unfold node?
  split
  · next hspot => exact iff_of_true rfl (.inl hspot)
  · next hspot =>
    rw [or_iff_right hspot, ← not_iff_not, ← OrderedMap.get?_eq_none_iff, Bool.not_eq_true,
      Option.isSome_eq_false_iff, Option.isNone_iff_eq_none]

theorem isDirectory_nil : t.isDirectory [] = true := rfl

theorem isDirectory_of_get? (h : t.nodes.get? spot = some .directory) :
    t.isDirectory spot = true := by
  have hne : spot ≠ [] := (t.rooted spot _ h).1
  rw [isDirectory, node?, if_neg hne, h]
  rfl

theorem isSome_of_isDirectory (h : t.isDirectory spot = true) :
    (t.node? spot).isSome = true := by
  rw [beq_iff_eq.mp (show (t.node? spot == some .directory) = true from h)]
  rfl

/-- **Above a node** there are directories only. -/
theorem isDirectory_of_append (more : List String) (h : (t.node? (spot ++ more)).isSome = true)
    (hne : more ≠ []) :
    t.isDirectory spot = true := by
  induction more using List.reverseRecOn with
  | nil => exact absurd rfl hne
  | append_singleton more n ih =>
    rw [← List.append_assoc] at h
    have hspot : spot ++ more ++ [n] ≠ [] := List.concat_ne_nil _ _
    rw [node?, if_neg hspot] at h
    obtain ⟨node, hnode⟩ := Option.isSome_iff_exists.mp h
    have habove := (t.rooted _ _ hnode).2
    rw [List.dropLast_concat] at habove
    have hdirectory : t.isDirectory (spot ++ more) = true := by
      rcases habove with hnil | hget
      · rw [hnil, isDirectory_nil]
      · exact isDirectory_of_get? hget
    by_cases hmore : more = []
    · rwa [hmore, List.append_nil] at hdirectory
    · exact ih (isSome_of_isDirectory hdirectory) hmore

theorem isSome_of_isFile (h : t.isFile spot = true) : (t.node? spot).isSome = true := by
  unfold isFile at h
  split at h
  · next hnode =>
    rw [hnode]
    rfl
  · cases h

/-- No file is a directory. -/
theorem isDirectory_of_isFile (h : t.isFile spot = true) : t.isDirectory spot = false := by
  unfold isFile at h
  split at h
  · next hnode =>
    rw [isDirectory, hnode]
    rfl
  · cases h

end Tree

/-! ## Steps -/

variable {t : Tree} {f g h : Find} {p : List Char}

theorem Find.enter_append (names : List String) :
    f.enter (f.spot ++ names) = ⟨f.path ++ names, f.spot ++ names⟩ := by
  rw [Find.enter, List.drop_left]

/-- **A step** from a directory: it stays, or goes up, or goes down to a node of that name. -/
theorem mem_enterPlain_iff :
    h ∈ enterPlain t p f ↔ t.isDirectory f.spot = true ∧
      match Component.ofPiece? p with
      | some (.name n) =>
        (t.node? (f.spot ++ [n])).isSome = true ∧ h = ⟨f.path ++ [n], f.spot ++ [n]⟩
      | some .up => f.spot ≠ [] ∧ h = ⟨f.path ++ [".."], f.spot.dropLast⟩
      | some _ => False
      | none => h = if p = [] then f else f.stay := by
  unfold enterPlain Component.ofPiece?
  cases hdirectory : t.isDirectory f.spot with
  | false => simp
  | true =>
    by_cases hnil : p = []
    · simp [hnil]
    by_cases hdot : p = ['.']
    · simp [hdot]
    by_cases hdots : p = ['.', '.']
    · by_cases hspot : f.spot = []
      · simp [hdots, hspot, Find.goUp]
      · simp [hdots, hspot, Find.goUp]
    · by_cases hnode : (t.node? (f.spot ++ [String.ofList p])).isSome = true
      · simp [hnil, hdot, hdots, hnode, Find.enter_append]
      · simp [hnil, hdot, hdots, hnode]

theorem special_ne (hp : p.any Wildcard.isSpecial = true) :
    Component.ofPiece? p = some (.name (String.ofList p)) := by
  rw [Component.ofPiece?, if_neg, if_neg]
  · rintro rfl
    exact absurd hp (by decide)
  · rintro (rfl | rfl)
    · exact absurd hp (by decide)
    · exact absurd hp (by decide)

/-- The nodes of a directory whose name is the piece. -/
theorem mem_children_iff {spot s : Spot} :
    s ∈ t.children spot ∧ lastName s = p ↔
      s ∈ t.nodes.keys ∧ s = spot ++ [String.ofList p] := by
  have hchild : s ∈ t.children spot ↔ s ∈ t.nodes.keys ∧ s ≠ [] ∧ s.dropLast = spot := by
    simp [Tree.children]
  rw [hchild]
  constructor
  · rintro ⟨⟨hkey, hne, rfl⟩, rfl⟩
    refine ⟨hkey, ?_⟩
    rw [lastName, String.ofList_toList, List.getLastD_eq_getLast?,
      List.getLast?_eq_some_getLast hne]
    exact (List.dropLast_append_getLast hne).symm
  · rintro ⟨hkey, rfl⟩
    refine ⟨⟨hkey, List.concat_ne_nil _ _, List.dropLast_concat⟩, ?_⟩
    rw [lastName, List.getLastD_concat, String.toList_ofList]

/-- A piece with a meaning in patterns is no dots. -/
theorem enterDots_special (hp : p.any Wildcard.isSpecial = true) :
    enterDots (p.map Wildcard.literal) f = [] := by
  rw [enterDots, Wildcard.accepts_literal, Wildcard.accepts_literal]
  split
  · rw [if_neg, if_neg]
    · rfl
    · rw [beq_iff_eq]
      rintro rfl
      exact absurd hp (by decide)
    · rw [beq_iff_eq]
      rintro rfl
      exact absurd hp (by decide)
  · rfl

/-- **A component for one piece** leads on where the piece does. -/
theorem mem_walk_ofPiece {more : List Segment} :
    g ∈ walk t (Segment.ofPiece p :: more) f ↔ ∃ h ∈ enterPlain t p f, g ∈ walk t more h := by
  unfold Segment.ofPiece
  split
  · next hp =>
    have hpiece := special_ne hp
    have hfits : ∀ s, s ∈ t.children f.spot ∧ Wildcard.accepts (p.map Wildcard.literal)
        (lastName s) = true ↔
          (t.node? (f.spot ++ [String.ofList p])).isSome = true ∧
            s = f.spot ++ [String.ofList p] := by
      intro s
      rw [Wildcard.accepts_literal, beq_iff_eq, mem_children_iff, Tree.isSome_node?_iff,
        or_iff_right (List.concat_ne_nil _ _)]
      exact and_congr_left fun hs => by rw [hs]
    have hwalk : walk t (.wild (p.map Wildcard.literal) :: more) f =
        if t.isDirectory f.spot then
          (((t.children f.spot).filter fun s =>
            Wildcard.accepts (p.map Wildcard.literal) (lastName s)).map f.enter
              ++ enterDots (p.map Wildcard.literal) f).flatMap (walk t more)
        else [] := by rw [walk]
    rw [hwalk, enterDots_special hp, List.append_nil]
    simp only [mem_enterPlain_iff, hpiece]
    cases t.isDirectory f.spot with
    | false => simp
    | true =>
      rw [if_pos rfl, List.mem_flatMap]
      refine exists_congr fun h => and_congr_left fun _ => ?_
      rw [List.mem_map, eq_self, true_and]
      constructor
      · rintro ⟨s, hs, rfl⟩
        obtain ⟨hnode, rfl⟩ := (hfits s).mp (List.mem_filter.mp hs)
        exact ⟨hnode, Find.enter_append _⟩
      · rintro ⟨hnode, rfl⟩
        exact ⟨_, List.mem_filter.mpr ((hfits _).mpr ⟨hnode, rfl⟩), Find.enter_append _⟩
  · have hwalk : walk t (.plain p :: more) f = (enterPlain t p f).flatMap (walk t more) := by
      rw [walk]
    rw [hwalk, List.mem_flatMap]

/-- The pieces lead from one find to another, one after the other. -/
inductive Leads (t : Tree) : List (List Char) → Find → Find → Prop
  | done {f : Find} : Leads t [] f f
  | step {p : List Char} {ps : List (List Char)} {f h g : Find} (first : h ∈ enterPlain t p f)
      (more : Leads t ps h g) : Leads t (p :: ps) f g

theorem Leads.append {ps qs : List (List Char)} (first : Leads t ps f h) (more : Leads t qs h g) :
    Leads t (ps ++ qs) f g := by
  induction first with
  | done => exact more
  | step hstep _ ih => exact .step hstep (ih more)

/-- **Along pieces** a search follows them. -/
theorem mem_walk_leads {ps : List (List Char)} {more : List Segment} :
    g ∈ walk t (ps.map Segment.ofPiece ++ more) f ↔ ∃ h, Leads t ps f h ∧ g ∈ walk t more h := by
  induction ps generalizing f with
  | nil =>
    constructor
    · intro hg
      exact ⟨f, .done, hg⟩
    · rintro ⟨h, hlead, hg⟩
      cases hlead
      exact hg
  | cons p ps ih =>
    rw [List.map_cons, List.cons_append, mem_walk_ofPiece]
    constructor
    · rintro ⟨f', hfirst, hg⟩
      obtain ⟨h, hlead, hg⟩ := ih.mp hg
      exact ⟨h, .step hfirst hlead, hg⟩
    · rintro ⟨h, hlead, hg⟩
      cases hlead with
      | step first more => exact ⟨_, first, ih.mpr ⟨h, more, hg⟩⟩

theorem mem_walk_pieces {ps : List (List Char)} :
    g ∈ walk t (ps.map Segment.ofPiece) f ↔ Leads t ps f g := by
  have hnil : ∀ h, g ∈ walk t [] h ↔ g = h := fun h => by rw [walk, List.mem_singleton]
  rw [← List.append_nil (ps.map Segment.ofPiece), mem_walk_leads]
  constructor
  · rintro ⟨h, hlead, hg⟩
    rwa [(hnil h).mp hg]
  · intro hlead
    exact ⟨g, hlead, (hnil g).mpr rfl⟩

theorem lastName_concat (spot : Spot) (p : List Char) :
    lastName (spot ++ [String.ofList p]) = p := by
  rw [lastName, List.getLastD_concat, String.toList_ofList]

/-- The nodes at any depth whose last name is the piece. -/
theorem mem_below_iff {spot s : Spot} :
    s ∈ t.below spot ∧ lastName s = p ↔
      s ∈ t.nodes.keys ∧ ∃ names, s = spot ++ names ++ [String.ofList p] := by
  have hbelow : s ∈ t.below spot ↔ s ∈ t.nodes.keys ∧ s ≠ spot ∧ s.take spot.length = spot := by
    simp [Tree.below]
  rw [hbelow]
  constructor
  · rintro ⟨⟨hkey, hne, htake⟩, hlast⟩
    have hsplit : s = spot ++ s.drop spot.length := by
      rw [← List.take_append_drop spot.length s, htake]
      simp
    refine ⟨hkey, ?_⟩
    rcases List.eq_nil_or_concat (s.drop spot.length) with hnil | ⟨names, n, hnames⟩
    · rw [hnil, List.append_nil] at hsplit
      exact absurd hsplit hne
    · rw [List.concat_eq_append] at hnames
      rw [hnames, ← List.append_assoc] at hsplit
      rw [hsplit, lastName, List.getLastD_concat] at hlast
      refine ⟨names, ?_⟩
      rw [← hlast, String.ofList_toList]
      exact hsplit
  · rintro ⟨hkey, names, rfl⟩
    refine ⟨⟨hkey, ?_, ?_⟩, lastName_concat _ p⟩
    · intro heq
      have hlength := congrArg List.length heq
      simp at hlength
    · rw [List.append_assoc, List.take_left]

/-- **Behind `**`** any number of names comes first. -/
theorem mem_walk_depth {ps : List (List Char)} :
    g ∈ walk t (.anyDepth :: (p :: ps).map Segment.ofPiece) f ↔
      t.isDirectory f.spot = true ∧ ∃ names,
        f.spot ++ names ++ [String.ofList p] ∈ t.nodes.keys ∧
        Leads t ps ⟨f.path ++ (names ++ [String.ofList p]),
          f.spot ++ (names ++ [String.ofList p])⟩ g := by
  have hwalk : walk t (.anyDepth :: (p :: ps).map Segment.ofPiece) f =
      if t.isDirectory f.spot then
        (((t.below f.spot).filter fun s => (Segment.ofPiece p).accepts (lastName s)).map
          f.enter).flatMap (walk t (ps.map Segment.ofPiece))
      else [] := by
    rw [List.map_cons]
    unfold Segment.ofPiece
    split <;> rw [walk]
    · exact nofun
    · exact nofun
  have hfits : ∀ s, s ∈ t.below f.spot ∧ (Segment.ofPiece p).accepts (lastName s) = true ↔
      s ∈ t.nodes.keys ∧ ∃ names, s = f.spot ++ names ++ [String.ofList p] := by
    intro s
    rw [Segment.accepts_ofPiece, beq_iff_eq, mem_below_iff]
  rw [hwalk]
  cases t.isDirectory f.spot with
  | false => simp
  | true =>
    rw [if_pos rfl, List.mem_flatMap, eq_self, true_and]
    constructor
    · rintro ⟨h, hh, hg⟩
      obtain ⟨s, hs, rfl⟩ := List.mem_map.mp hh
      obtain ⟨hkey, names, rfl⟩ := (hfits s).mp (List.mem_filter.mp hs)
      rw [List.append_assoc, Find.enter_append, mem_walk_pieces] at hg
      exact ⟨names, hkey, hg⟩
    · rintro ⟨names, hkey, hlead⟩
      refine ⟨f.enter (f.spot ++ names ++ [String.ofList p]), ?_, ?_⟩
      · exact List.mem_map_of_mem (List.mem_filter.mpr ((hfits _).mpr ⟨hkey, names, rfl⟩))
      · rw [List.append_assoc, Find.enter_append, mem_walk_pieces]
        exact hlead

/-! ## Ways -/

/-- The components that the names and dots of a path stand for. -/
def spelled (path : List String) : List Component :=
  path.filterMap fun p => Component.ofPiece? p.toList

theorem spelled_append (path path' : List String) :
    spelled (path ++ path') = spelled path ++ spelled path' :=
  List.filterMap_append

theorem spelled_names {names : List String} (h : ∀ n ∈ names, IsName n) :
    spelled names = names.map .name := by
  rw [← filterMap_ofPiece?_names h, List.filterMap_map]
  rfl

/-- The path of a find leads to the find, and can be told apart into its pieces. -/
structure Find.Sound (f : Find) : Prop where
  pieces : ∀ p ∈ f.path, p.toList ≠ [] ∧ '/' ∉ p.toList
  begins : f.path.head? ≠ some "."
  leads : resolveDots (spelled f.path) = (0, f.spot)

theorem Find.sound_top : Find.top.Sound := ⟨nofun, nofun, rfl⟩

/-- The components of the text of a path are those that it spells. -/
theorem Find.Sound.components (h : f.Sound) : pathComponents f.text.toList = spelled f.path :=
  pathComponents_intercalate h.pieces h.begins

/-- A step down. -/
theorem Find.Sound.down (hf : f.Sound) {names : List String} (hnames : ∀ n ∈ names, IsName n) :
    Find.Sound ⟨f.path ++ names, f.spot ++ names⟩ where
  pieces := List.forall_mem_append.mpr
    ⟨hf.pieces, fun n hn => ⟨(hnames n hn).ne_nil, (hnames n hn).slash⟩⟩
  begins := by
    rw [List.head?_append, Ne, Option.or_eq_some_iff, not_or]
    refine ⟨hf.begins, fun hdot => ?_⟩
    exact (hnames "." (List.mem_of_head? hdot.2)).ne_dot rfl
  leads := by
    rw [spelled_append, spelled_names hnames, resolveDots_append_names, hf.leads]

/-- A step that stays where it is. -/
theorem Find.Sound.stay (hf : f.Sound) :
    f.stay.Sound ∧ spelled f.stay.path = spelled f.path := by
  unfold Find.stay
  split
  · exact ⟨hf, rfl⟩
  · next hpath =>
    have hspelled : spelled (f.path ++ ["."]) = spelled f.path :=
      (spelled_append _ _).trans (List.append_nil _)
    refine ⟨⟨?_, ?_, ?_⟩, hspelled⟩
    · refine List.forall_mem_append.mpr ⟨hf.pieces, fun q hq => ?_⟩
      rw [List.mem_singleton.mp hq]
      decide
    · obtain ⟨q, qs, hq⟩ := List.exists_cons_of_ne_nil hpath
      have hbegins := hf.begins
      rw [hq] at hbegins ⊢
      exact hbegins
    · rw [hspelled, hf.leads]

/-- A step up. -/
theorem Find.Sound.up (hf : f.Sound) (hspot : f.spot ≠ []) :
    Find.Sound ⟨f.path ++ [".."], f.spot.dropLast⟩ where
  pieces := by
    refine List.forall_mem_append.mpr ⟨hf.pieces, fun q hq => ?_⟩
    rw [List.mem_singleton.mp hq]
    decide
  begins := by
    rw [List.head?_append, Ne, Option.or_eq_some_iff, not_or]
    exact ⟨hf.begins, fun hdot => absurd hdot.2 (by decide)⟩
  leads := by
    have hspelled : spelled (f.path ++ [".."]) = spelled f.path ++ [.up] := spelled_append _ _
    rw [hspelled, resolveDots_concat, hf.leads]
    exact if_neg hspot

theorem isName_of_ofPiece? {n : String} (hp : Component.ofPiece? p = some (.name n))
    (hslash : '/' ∉ p) : IsName n := by
  unfold Component.ofPiece? at hp
  split at hp
  · cases hp
  · next hone =>
    split at hp
    · cases hp
    · next hdots =>
      obtain rfl := Component.name.inj (Option.some.inj hp)
      obtain ⟨hnil, hdot⟩ := not_or.mp hone
      exact ⟨by rwa [String.toList_ofList], by rwa [String.toList_ofList],
        by rwa [String.toList_ofList], by rwa [String.toList_ofList]⟩

/-- **A step** adds the component of its piece. -/
theorem sound_step (hf : f.Sound) (hslash : '/' ∉ p) (hstep : h ∈ enterPlain t p f) :
    h.Sound ∧ spelled h.path = spelled f.path ++ (Component.ofPiece? p).toList := by
  obtain ⟨-, hstep⟩ := mem_enterPlain_iff.mp hstep
  cases hp : Component.ofPiece? p with
  | none =>
    rw [hp] at hstep
    rw [Option.toList_none, List.append_nil]
    simp only at hstep
    subst hstep
    split
    · exact ⟨hf, rfl⟩
    · exact hf.stay
  | some c =>
    rw [hp] at hstep
    cases c with
    | root => exact hstep.elim
    | here => exact hstep.elim
    | up =>
      obtain ⟨hspot, rfl⟩ := hstep
      exact ⟨hf.up hspot, spelled_append _ _⟩
    | name n =>
      obtain ⟨-, rfl⟩ := hstep
      have hname := isName_of_ofPiece? hp hslash
      have hnames : ∀ m ∈ [n], IsName m := List.forall_mem_singleton.mpr hname
      refine ⟨hf.down hnames, ?_⟩
      rw [spelled_append, spelled_names hnames]
      rfl

/-- **Along pieces** the components of the pieces are added. -/
theorem Leads.sound {ps : List (List Char)} (hlead : Leads t ps f g) (hf : f.Sound)
    (hslash : ∀ p ∈ ps, '/' ∉ p) :
    g.Sound ∧ spelled g.path = spelled f.path ++ ps.filterMap Component.ofPiece? := by
  induction hlead with
  | done => exact ⟨hf, (List.append_nil _).symm⟩
  | @step p ps f h g first more ih =>
    obtain ⟨hp, hps⟩ := List.forall_mem_cons.mp hslash
    obtain ⟨hh, hspelled⟩ := sound_step hf hp first
    obtain ⟨hg, hmore⟩ := ih hh hps
    refine ⟨hg, ?_⟩
    rw [hmore, hspelled, List.append_assoc]
    congr 1
    cases hpiece : Component.ofPiece? p with
    | none => rw [List.filterMap_cons_none hpiece]; rfl
    | some c => rw [List.filterMap_cons_some hpiece]; rfl

/-- **Where pieces spell names** they lead down to the node of those names, if something stands
    below it. -/
theorem exists_leads {ps : List (List Char)} {names : List String} (more : List String)
    (hps : ps.filterMap Component.ofPiece? = names.map .name)
    (hnode : (t.node? (f.spot ++ names ++ more)).isSome = true) (hne : more ≠ []) :
    ∃ g, Leads t ps f g ∧ g.spot = f.spot ++ names := by
  induction ps generalizing f names with
  | nil =>
    obtain rfl := List.map_eq_nil_iff.mp hps.symm
    exact ⟨f, .done, (List.append_nil _).symm⟩
  | cons p ps ih =>
    have hdirectory : t.isDirectory f.spot = true := by
      rw [List.append_assoc] at hnode
      exact Tree.isDirectory_of_append _ hnode (List.append_ne_nil_of_right_ne_nil _ hne)
    cases hpiece : Component.ofPiece? p with
    | none =>
      rw [List.filterMap_cons_none hpiece] at hps
      have hstay : f.stay.spot = f.spot := by
        unfold Find.stay
        split <;> rfl
      by_cases hp : p = []
      · obtain ⟨g, hlead, hg⟩ := ih hps hnode
        exact ⟨g, .step (mem_enterPlain_iff.mpr ⟨hdirectory, by rw [hpiece]; exact
          (if_pos hp).symm⟩) hlead, hg⟩
      · obtain ⟨g, hlead, hg⟩ := ih (f := f.stay) hps (by rwa [hstay])
        rw [hstay] at hg
        exact ⟨g, .step (mem_enterPlain_iff.mpr ⟨hdirectory, by rw [hpiece]; exact
          (if_neg hp).symm⟩) hlead, hg⟩
    | some c =>
      rw [List.filterMap_cons_some hpiece] at hps
      cases names with
      | nil => cases hps
      | cons n ns =>
        obtain ⟨rfl, hns⟩ := List.cons.inj hps
        rw [List.append_cons] at hnode
        have hbelow : (t.node? (f.spot ++ [n])).isSome = true := by
          rw [List.append_assoc] at hnode
          exact Tree.isSome_of_isDirectory
            (Tree.isDirectory_of_append _ hnode (List.append_ne_nil_of_right_ne_nil _ hne))
        obtain ⟨g, hlead, hg⟩ :=
          ih (f := ⟨f.path ++ [n], f.spot ++ [n]⟩) hns hnode
        refine ⟨g, .step (mem_enterPlain_iff.mpr ⟨hdirectory, ?_⟩) hlead, ?_⟩
        · rw [hpiece]
          exact ⟨hbelow, rfl⟩
        · rw [hg, List.append_assoc]
          rfl

/-! ## The least find -/

theorem lexLt_iff {a b : List Nat} : Component.lexLt a b = true ↔ a < b := by
  induction a generalizing b with
  | nil =>
    cases b with
    | nil => exact iff_of_false Bool.false_ne_true (List.not_lt_nil _)
    | cons y b => exact iff_of_true rfl (List.nil_lt_cons y b)
  | cons x a ih =>
    cases b with
    | nil => exact iff_of_false Bool.false_ne_true (List.not_lt_nil _)
    | cons y b =>
      rw [Component.lexLt, List.cons_lt_cons_iff, ← ih]
      simp

theorem lexListLt_iff {a b : List (List Nat)} : lexListLt a b = true ↔ a < b := by
  induction a generalizing b with
  | nil =>
    cases b with
    | nil => exact iff_of_false Bool.false_ne_true (List.not_lt_nil _)
    | cons y b => exact iff_of_true rfl (List.nil_lt_cons y b)
  | cons x a ih =>
    cases b with
    | nil => exact iff_of_false Bool.false_ne_true (List.not_lt_nil _)
    | cons y b =>
      rw [lexListLt, List.cons_lt_cons_iff, ← ih, ← lexLt_iff]
      simp

theorem least_cons (f : Find) (fs : List Find) :
    least (f :: fs) = some (match least fs with
      | none => f
      | some g => if g.key < f.key then g else f) := by
  rw [least]
  cases least fs with
  | none => rfl
  | some g =>
    by_cases hlt : g.key < f.key
    · simp [lexListLt_iff.mpr hlt, hlt]
    · simp [mt lexListLt_iff.mp hlt, hlt]

theorem least_eq_none_iff {fs : List Find} : least fs = none ↔ fs = [] := by
  cases fs with
  | nil => exact iff_of_true rfl rfl
  | cons f fs => exact iff_of_false (by rw [least_cons]; exact nofun) (List.cons_ne_nil _ _)

/-- **The least find** is one of the finds, and no other has a lesser path. -/
theorem least_spec {fs : List Find} (hf : least fs = some f) :
    f ∈ fs ∧ ∀ g ∈ fs, f.key ≤ g.key := by
  induction fs generalizing f with
  | nil => cases hf
  | cons f' fs ih =>
    rw [least_cons, Option.some.injEq] at hf
    cases hleast : least fs with
    | none =>
      rw [hleast] at hf
      obtain rfl := hf
      rw [least_eq_none_iff.mp hleast]
      exact ⟨List.mem_singleton_self _, List.forall_mem_singleton.mpr (le_refl _)⟩
    | some g =>
      obtain ⟨hmem, hle⟩ := ih hleast
      rw [hleast] at hf
      simp only at hf
      split at hf
      · next hlt =>
        obtain rfl := hf
        exact ⟨List.mem_cons_of_mem _ hmem, List.forall_mem_cons.mpr ⟨le_of_lt hlt, hle⟩⟩
      · next hlt =>
        obtain rfl := hf
        refine ⟨List.mem_cons_self, List.forall_mem_cons.mpr ⟨le_refl _, fun h hh => ?_⟩⟩
        exact le_trans (not_lt.mp hlt) (hle h hh)

end RunnerCatalog.Files
