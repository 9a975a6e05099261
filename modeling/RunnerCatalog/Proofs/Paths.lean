/-
  Paths and their components.

  A path is a text with slashes, and what counts of it are its components: some of its pieces
  stand for one, and empty pieces and dots stand for none (`Component.ofPiece?`).

  1. **Pieces** - pieces that were put together with slashes are found again
     (`splitOn_intercalate`).

  2. **Components** - so a path that is put together of names has the components that the names
     stand for (`pathComponents_intercalate`).

  3. **Relative paths** - a path of nothing but names (`IsPathOf`) may have slashes at its end,
     doubled slashes and dots.  Without the slashes at its end its pieces still spell the names,
     and the first piece is the first name (`IsPathOf.spells`).

  4. **Dots** - the components of a path lead down and up again; what is left of them is a number of
     directories up and the names down from there (`resolveDots`).  Behind names they lead up
     through those first (`resolveDots_below`).
-/
import Mathlib.Data.List.Basic
import Mathlib.Data.List.Induction
import RunnerCatalog.Proofs.Scanning
import RunnerCatalog.Workspace

namespace RunnerCatalog

/-! ## Pieces -/

namespace Text

variable {sep : Char}

theorem notMem_of_mem_splitOn {piece cs : List Char} (h : piece ∈ splitOn sep cs) :
    sep ∉ piece := by
  induction cs generalizing piece with
  | nil =>
    rw [List.mem_singleton.mp h]
    exact List.not_mem_nil
  | cons c cs ih =>
    by_cases hc : c = sep
    · rw [splitOn, if_pos hc] at h
      rcases List.mem_cons.mp h with rfl | h
      · exact List.not_mem_nil
      · exact ih h
    · obtain ⟨first, more, hsplit, hcons⟩ := splitOn_cons_of_ne hc cs
      rw [hcons] at h
      rw [hsplit] at ih
      rcases List.mem_cons.mp h with rfl | h
      · rw [List.mem_cons, not_or]
        exact ⟨fun he => hc he.symm, ih List.mem_cons_self⟩
      · exact ih (List.mem_cons_of_mem _ h)

/-- **Pieces that were put together** are found again. -/
theorem splitOn_intercalate {pieces : List (List Char)} (hne : pieces ≠ [])
    (h : ∀ p ∈ pieces, sep ∉ p) : splitOn sep ([sep].intercalate pieces) = pieces := by
  induction pieces with
  | nil => exact absurd rfl hne
  | cons p ps ih =>
    obtain ⟨hp, hps⟩ := List.forall_mem_cons.mp h
    cases ps with
    | nil => rw [List.intercalate_singleton, splitOn_of_notMem hp]
    | cons q ps =>
      rw [List.intercalate_cons_cons, List.append_assoc, List.singleton_append,
        splitOn_append_sep hp, ih (List.cons_ne_nil _ _) hps]

theorem splitOn_append_replicate (cs : List Char) (n : Nat) :
    splitOn sep (cs ++ List.replicate n sep) = splitOn sep cs ++ List.replicate n [] := by
  induction n generalizing cs with
  | zero => rw [List.replicate_zero, List.append_nil, List.replicate_zero, List.append_nil]
  | succ n ih =>
    have hnil : splitOn sep (List.replicate n sep) = [] :: List.replicate n [] := ih []
    rw [List.replicate_succ, splitOn_append, hnil, List.replicate_succ]

end Text

/-! ## Components -/

/-- The component that a piece of a path stands for, if it stands for one. -/
def Component.ofPiece? (piece : List Char) : Option Component :=
  if piece = [] ∨ piece = ['.'] then none
  else if piece = ['.', '.'] then some .up
  else some (.name (String.ofList piece))

/-- A name that a file or a directory can have. -/
structure IsName (name : String) : Prop where
  ne_nil : name.toList ≠ []
  ne_dot : name.toList ≠ ['.']
  ne_dots : name.toList ≠ ['.', '.']
  slash : '/' ∉ name.toList

theorem isName_iff {name : String} :
    IsName name ↔ name.toList ≠ [] ∧ name.toList ≠ ['.'] ∧ name.toList ≠ ['.', '.'] ∧
      '/' ∉ name.toList :=
  ⟨fun h => ⟨h.ne_nil, h.ne_dot, h.ne_dots, h.slash⟩, fun h => ⟨h.1, h.2.1, h.2.2.1, h.2.2.2⟩⟩

instance (name : String) : Decidable (IsName name) := decidable_of_iff' _ isName_iff

theorem IsName.ofPiece? {name : String} (h : IsName name) :
    Component.ofPiece? name.toList = some (.name name) := by
  rw [Component.ofPiece?, if_neg (not_or.mpr ⟨h.ne_nil, h.ne_dot⟩), if_neg h.ne_dots,
    String.ofList_toList]

/-- Names are the components that they stand for. -/
theorem filterMap_ofPiece?_names {names : List String} (h : ∀ n ∈ names, IsName n) :
    (names.map String.toList).filterMap Component.ofPiece? = names.map .name := by
  rw [List.filterMap_map, ← List.filterMap_eq_map]
  exact List.filterMap_congr fun n hn => (h n hn).ofPiece?

theorem map_name_injective {names names' : List String}
    (h : names.map Component.name = names'.map Component.name) : names = names' :=
  List.map_injective_iff.mpr (fun _ _ he => Component.name.inj he) h

/-- Paths that begin neither at the root of the system nor with a dot. -/
theorem pathComponents_eq {path : List Char} (hroot : path.head? ≠ some '/')
    (hdot : (Text.splitOn '/' path).head? ≠ some ['.']) :
    pathComponents path = (Text.splitOn '/' path).filterMap Component.ofPiece? := by
  show (if path.head? = some '/' then [Component.root]
    else if (Text.splitOn '/' path).head? = some ['.'] then [.here] else []) ++ _ = _
  rw [if_neg hroot, if_neg hdot]
  rfl

/-- **A path that is put together** has the components that its pieces stand for. -/
theorem pathComponents_intercalate {pieces : List String}
    (hslash : ∀ p ∈ pieces, p.toList ≠ [] ∧ '/' ∉ p.toList)
    (hdot : pieces.head? ≠ some ".") :
    pathComponents ("/".intercalate pieces).toList =
      pieces.filterMap fun p => Component.ofPiece? p.toList := by
  have htext : ("/".intercalate pieces).toList =
      ['/'].intercalate (pieces.map String.toList) := String.toList_intercalate
  rw [htext]
  cases pieces with
  | nil => rfl
  | cons p ps =>
    have hsplit : Text.splitOn '/' (['/'].intercalate ((p :: ps).map String.toList)) =
        (p :: ps).map String.toList := by
      refine Text.splitOn_intercalate (List.cons_ne_nil _ _) fun q hq => ?_
      obtain ⟨n, hn, rfl⟩ := List.mem_map.mp hq
      exact (hslash n hn).2
    obtain ⟨hne, hno⟩ := hslash p List.mem_cons_self
    obtain ⟨c, cs, hc⟩ := List.exists_cons_of_ne_nil hne
    have hhead : (['/'].intercalate ((p :: ps).map String.toList)).head? = some c := by
      cases ps with
      | nil => rw [List.map_singleton, List.intercalate_singleton, hc]; rfl
      | cons q ps => rw [List.map_cons, List.map_cons, List.intercalate_cons_cons, hc]; rfl
    rw [pathComponents_eq, hsplit, List.filterMap_map]
    · rfl
    · rw [hhead, Ne, Option.some.injEq]
      rintro rfl
      exact hno (hc ▸ List.mem_cons_self)
    · rw [hsplit, List.map_cons, List.head?_cons, Ne, Option.some.injEq]
      intro hp
      refine hdot ?_
      rw [List.head?_cons, ← String.ofList_toList (s := p), hp]

/-! ## Relative paths -/

/-- A relative path of names: it leads from directory to directory through them. -/
structure IsPathOf (path : String) (names : List String) : Prop where
  ne : names ≠ []
  components : pathComponents path.toList = names.map .name

/-- Pieces that stand for names and begin with one. -/
structure Spells (pieces : List (List Char)) (names : List String) : Prop where
  names : pieces.filterMap Component.ofPiece? = names.map .name
  begins : ∃ p ps, pieces = p :: ps ∧ p ≠ [] ∧ p ≠ ['.']

/-- The first piece is the first name. -/
theorem Spells.exists_cons {pieces : List (List Char)} {names : List String}
    (h : Spells pieces names) :
    ∃ name pieces' names', pieces = name.toList :: pieces' ∧ names = name :: names' ∧
      Component.ofPiece? name.toList = some (.name name) ∧
      pieces'.filterMap Component.ofPiece? = names'.map .name := by
  obtain ⟨p, ps, rfl, hnil, hdot⟩ := h.begins
  have hnames := h.names
  have hpiece : Component.ofPiece? p =
      if p = ['.', '.'] then some .up else some (.name (String.ofList p)) :=
    if_neg (not_or.mpr ⟨hnil, hdot⟩)
  by_cases hdots : p = ['.', '.']
  · rw [if_pos hdots] at hpiece
    rw [List.filterMap_cons_some hpiece] at hnames
    cases names with
    | nil => cases hnames
    | cons n ns => cases hnames
  · rw [if_neg hdots] at hpiece
    rw [List.filterMap_cons_some hpiece] at hnames
    cases names with
    | nil => cases hnames
    | cons n ns =>
      obtain ⟨hn, hns⟩ := List.cons.inj hnames
      obtain rfl := Component.name.inj hn
      refine ⟨String.ofList p, ps, ns, by rw [String.toList_ofList], rfl, ?_, hns⟩
      rw [String.toList_ofList, hpiece]

/-- What is left when a character is dropped from the end has none of it at its end. -/
theorem exists_dropEnd (c : Char) (cs : List Char) :
    ∃ n, cs = Workspace.dropEnd c cs ++ List.replicate n c ∧
      (Workspace.dropEnd c cs).getLast? ≠ some c := by
  have htake : cs.reverse.takeWhile (fun x => x == c) =
      List.replicate (cs.reverse.takeWhile fun x => x == c).length c := by
    refine List.eq_replicate_iff.mpr ⟨rfl, fun x hx => ?_⟩
    exact beq_iff_eq.mp (List.mem_takeWhile_imp (p := fun x => x == c) hx)
  refine ⟨(cs.reverse.takeWhile fun x => x == c).length, ?_, ?_⟩
  · rw [← List.reverse_inj, List.reverse_append, Workspace.dropEnd, List.reverse_reverse,
      List.reverse_replicate, ← htake, List.takeWhile_append_dropWhile]
  · rw [Workspace.dropEnd, List.getLast?_reverse]
    intro hlast
    have hno := Script.head?_dropWhile (fun x => x == c) cs.reverse c hlast
    rw [beq_self_eq_true] at hno
    cases hno

theorem dropEnd_of_getLast? {c : Char} {cs : List Char} (h : cs.getLast? ≠ some c) :
    Workspace.dropEnd c cs = cs := by
  obtain ⟨n, hn, -⟩ := exists_dropEnd c cs
  cases n with
  | zero => rw [List.replicate_zero, List.append_nil] at hn; exact hn.symm
  | succ n =>
    refine absurd ?_ h
    rw [hn, List.replicate_succ', ← List.append_assoc, List.getLast?_concat]

variable {path : String} {names : List String}

/-- A relative path begins with a character of its first name. -/
theorem IsPathOf.head (h : IsPathOf path names) :
    path.toList.head? ≠ some '/' ∧ (Text.splitOn '/' path.toList).head? ≠ some ['.'] := by
  obtain ⟨n, ns, rfl⟩ := List.exists_cons_of_ne_nil h.ne
  have hcomponents := h.components
  unfold pathComponents at hcomponents
  constructor
  · intro hroot
    simp only [if_pos hroot] at hcomponents
    cases hcomponents
  · intro hdot
    by_cases hroot : path.toList.head? = some '/'
    · simp only [if_pos hroot] at hcomponents
      cases hcomponents
    · simp only [if_neg hroot, if_pos hdot] at hcomponents
      cases hcomponents

/-- **A relative path** spells its names, without the slashes at its end too. -/
theorem IsPathOf.spells (h : IsPathOf path names) :
    Spells (Text.splitOn '/' (Workspace.dropEnd '/' path.toList)) names := by
  obtain ⟨hroot, hdot⟩ := h.head
  obtain ⟨n, hn, -⟩ := exists_dropEnd '/' path.toList
  have hcomponents := h.components
  rw [pathComponents_eq hroot hdot] at hcomponents
  have hsplit : Text.splitOn '/' path.toList =
      Text.splitOn '/' (Workspace.dropEnd '/' path.toList) ++ List.replicate n [] := by
    rw [hn, Text.splitOn_append_replicate, ← hn]
  have hempty : (List.replicate n ([] : List Char)).filterMap Component.ofPiece? = [] :=
    List.filterMap_eq_nil_iff.mpr fun p hp => by rw [List.eq_of_mem_replicate hp]; rfl
  rw [hsplit, List.filterMap_append, hempty, List.append_nil] at hcomponents
  refine ⟨hcomponents, ?_⟩
  cases hcs : Workspace.dropEnd '/' path.toList with
  | nil =>
    rw [hcs] at hcomponents
    exact absurd (List.map_eq_nil_iff.mp hcomponents.symm) h.ne
  | cons c cs =>
    have hc : c ≠ '/' := by
      rintro rfl
      rw [hn, hcs] at hroot
      exact hroot rfl
    obtain ⟨piece, more, -, hcons⟩ := Text.splitOn_cons_of_ne hc cs
    refine ⟨c :: piece, more, hcons, List.cons_ne_nil _ _, fun hpiece => ?_⟩
    rw [hsplit, hcs, hcons, hpiece] at hdot
    exact hdot rfl

/-! ## Dots -/

/-- One component further: a name leads down, and `..` up again, or else beyond the start. -/
def Component.lead (way : Nat × List String) : Component → Nat × List String
  | .name n => (way.1, way.2 ++ [n])
  | .up => if way.2 = [] then (way.1 + 1, []) else (way.1, way.2.dropLast)
  | .root | .here => way

/-- Where components lead: how many directories up, and through which names down from there. -/
def resolveDots (cs : List Component) : Nat × List String := cs.foldl Component.lead (0, [])

theorem resolveDots_concat (cs : List Component) (c : Component) :
    resolveDots (cs ++ [c]) = c.lead (resolveDots cs) := by
  rw [resolveDots, List.foldl_append]
  rfl

theorem resolveDots_append_names (cs : List Component) (names : List String) :
    resolveDots (cs ++ names.map .name) = ((resolveDots cs).1, (resolveDots cs).2 ++ names) := by
  induction names generalizing cs with
  | nil => rw [List.map_nil, List.append_nil, List.append_nil]
  | cons n ns ih =>
    rw [List.map_cons, List.append_cons, ih, resolveDots_concat,
      List.append_cons (resolveDots cs).2]
    rfl

theorem resolveDots_names (names : List String) : resolveDots (names.map .name) = (0, names) :=
  resolveDots_append_names [] names

/-- **Behind names** the components that lead up take those away first. -/
theorem resolveDots_below (names : List String) (cs : List Component) :
    resolveDots (names.map .name ++ cs) =
      ((resolveDots cs).1 - names.length,
        names.take (names.length - (resolveDots cs).1) ++ (resolveDots cs).2) := by
  induction cs using List.reverseRecOn with
  | nil =>
    have hnil : resolveDots [] = (0, []) := rfl
    rw [List.append_nil, resolveDots_names, hnil, Nat.zero_sub, Nat.sub_zero, List.take_length,
      List.append_nil]
  | append_singleton cs c ih =>
    rw [← List.append_assoc, resolveDots_concat, resolveDots_concat, ih]
    obtain ⟨up, down⟩ := resolveDots cs
    cases c with
    | root => rfl
    | here => rfl
    | name n => simp [Component.lead]
    | up =>
      by_cases hdown : down = []
      · subst hdown
        by_cases hup : names.length ≤ up
        · have hnone : names.length - up = 0 := by omega
          simp only [Component.lead, hnone, List.take_zero, List.append_nil, if_true]
          rw [show names.length - (up + 1) = 0 by omega, List.take_zero,
            show up - names.length + 1 = up + 1 - names.length by omega]
        · have hne : names.take (names.length - up) ≠ [] := by
            rw [Ne, List.take_eq_nil_iff, not_or]
            refine ⟨by omega, fun hnil => ?_⟩
            rw [hnil] at hup
            exact hup (Nat.zero_le _)
          have hlast : (names.take (names.length - up)).dropLast =
              names.take (names.length - (up + 1)) := by
            rw [List.dropLast_eq_take, List.length_take, List.take_take]
            congr 1
            omega
          simp only [Component.lead, List.append_nil, if_neg hne, if_true]
          rw [hlast, show up - names.length = up + 1 - names.length by omega]
      · have hne : names.take (names.length - up) ++ down ≠ [] :=
          List.append_ne_nil_of_right_ne_nil _ hdown
        simp only [Component.lead, if_neg hdown, if_neg hne, List.dropLast_append_of_ne_nil hdown]

end RunnerCatalog
