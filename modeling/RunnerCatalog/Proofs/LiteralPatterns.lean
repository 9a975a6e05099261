/-
  Patterns for one text.

  A text that has been escaped is a pattern that stands for the text and for nothing else.

  1. **Reading** - how a pattern is taken apart can be said without places and fuel, at least for
     patterns of escaped and of plain characters, with `**` in the one place where it may stand
     (`Reads`).  What can be read so is read so (`parseFrom_of_reads`), and an escaped text can,
     whatever follows (`reads_escape`).

  2. **Matching** - so an escaped component is taken apart into one that stands for its text: with
     wildcards, if a character had to be escaped, and without (`parse_escape`).  Compared with a
     name, it fits that name only (`accepts_literal`).

  3. **Patterns of a workspace** - the pattern of a runner is made of escaped texts and one `**`, so
     it is right, and its components are known (`parseSegments_between`).
-/
import RunnerCatalog.Proofs.Paths

namespace RunnerCatalog.Files

/-! ## Reading -/

namespace Wildcard

/-- A character that has a meaning in patterns. -/
def isSpecial (c : Char) : Bool := c == '?' || c == '*' || c == '[' || c == ']'

/-- The part of a pattern that stands for one character. -/
def literal (c : Char) : Wildcard := if isSpecial c then .within [.one c] else .char c

theorem isSpecial_iff {c : Char} :
    isSpecial c = true ↔ c = '?' ∨ c = '*' ∨ c = '[' ∨ c = ']' := by
  simp [isSpecial, or_assoc]

theorem escape_cons (c : Char) (cs : List Char) :
    escape (c :: cs) = (if isSpecial c then ['[', c, ']'] else [c]) ++ escape cs := by
  rw [escape, List.flatMap_cons]
  congr 1
  exact if_congr isSpecial_iff.symm rfl rfl

theorem escape_append (cs ds : List Char) : escape (cs ++ ds) = escape cs ++ escape ds :=
  List.flatMap_append

/-- A text without special characters stands for itself as it is. -/
theorem escape_of_plain {cs : List Char} (h : ∀ c ∈ cs, isSpecial c = false) : escape cs = cs := by
  induction cs with
  | nil => rfl
  | cons c cs ih =>
    obtain ⟨hc, hcs⟩ := List.forall_mem_cons.mp h
    rw [escape_cons, hc, ih hcs]
    rfl

/-- How a pattern is taken apart behind a character. -/
inductive Reads : Option Char → List Char → List Wildcard → Prop
  | done {before : Option Char} : Reads before [] []
  | plain {before : Option Char} {c : Char} {r : List Char} {ws : List Wildcard}
      (hc : isSpecial c = false) (more : Reads (some c) r ws) :
      Reads before (c :: r) (.char c :: ws)
  | escaped {before : Option Char} {c : Char} {r : List Char} {ws : List Wildcard}
      (hc : isSpecial c = true) (more : Reads (some ']') r ws) :
      Reads before ('[' :: c :: ']' :: r) (.within [.one c] :: ws)
  | depth {r : List Char} {ws : List Wildcard} (more : Reads (some '/') r ws) :
      Reads (some '/') ('*' :: '*' :: '/' :: r) (.anyDepth :: ws)

/-- A character without a meaning. -/
theorem parseFrom_plain {fuel position : Nat} {before : Option Char} {c : Char} {r : List Char}
    {ws : List Wildcard} (hc : isSpecial c = false)
    (more : parseFrom fuel (position + 1) (some c) r = .ok ws) :
    parseFrom (fuel + 1) position before (c :: r) = .ok (.char c :: ws) := by
  have hnot := mt isSpecial_iff.mpr (Bool.eq_false_iff.mp hc)
  simp only [not_or] at hnot
  simp [parseFrom, hnot, more, bind, Except.bind, pure, Except.pure]

/-- A bracket around one character. -/
theorem parseFrom_bracket {fuel position : Nat} {before : Option Char} {c : Char} {r : List Char}
    {ws : List Wildcard} (hc : isSpecial c = true)
    (more : parseFrom fuel (position + 1 + 2) (some ']') r = .ok ws) :
    parseFrom (fuel + 1) position before ('[' :: c :: ']' :: r) =
      .ok (.within [.one c] :: ws) := by
  have hsplit : splitBracket (c :: ']' :: r) = some ([c], r) := rfl
  have hmembers : members [c] = [.one c] := rfl
  have hmark : c ≠ '!' := by
    rintro rfl
    cases hc
  simp [parseFrom, hsplit, hmembers, hmark, more, bind, Except.bind, pure, Except.pure]

/-- **What can be read** is taken apart so: each step takes a character at least. -/
theorem parseFrom_of_reads {before : Option Char} {cs : List Char} {ws : List Wildcard}
    (h : Reads before cs ws) {fuel position : Nat} (hfuel : cs.length < fuel) :
    parseFrom fuel position before cs = .ok ws := by
  induction h generalizing fuel position with
  | done =>
    obtain ⟨fuel, rfl⟩ := Nat.exists_eq_add_of_lt hfuel
    rfl
  | plain hc more ih =>
    rw [List.length_cons] at hfuel
    obtain ⟨fuel, rfl⟩ := Nat.exists_eq_add_of_lt hfuel
    exact parseFrom_plain hc (ih (by omega))
  | escaped hc more ih =>
    simp only [List.length_cons] at hfuel
    obtain ⟨fuel, rfl⟩ := Nat.exists_eq_add_of_lt hfuel
    exact parseFrom_bracket hc (ih (by omega))
  | @depth r ws more ih =>
    simp only [List.length_cons] at hfuel
    obtain ⟨fuel, rfl⟩ := Nat.exists_eq_add_of_lt hfuel
    have hmore : parseFrom (r.length + 1 + 1 + 1 + fuel) (position + 3) (some '/') r = .ok _ :=
      ih (by omega)
    simp [parseFrom, hmore, bind, Except.bind, pure, Except.pure]

theorem parse_of_reads {cs : List Char} {ws : List Wildcard} (h : Reads none cs ws) :
    parse cs = .ok ws :=
  parseFrom_of_reads h (Nat.lt_succ_self _)

/-- **An escaped text** is read character by character. -/
theorem reads_escape (cs : List Char) {rest : List Char} {ws : List Wildcard}
    (h : ∀ before, Reads before rest ws) (before : Option Char) :
    Reads before (escape cs ++ rest) (cs.map literal ++ ws) := by
  induction cs generalizing before with
  | nil => exact h before
  | cons c cs ih =>
    cases hc : isSpecial c with
    | true =>
      rw [escape_cons, hc, List.map_cons, literal, hc]
      exact .escaped hc (ih _)
    | false =>
      rw [escape_cons, hc, List.map_cons, literal, hc]
      exact .plain hc (ih _)

/-- Directories of any depth, between two slashes. -/
theorem reads_depth {rest : List Char} {ws : List Wildcard} (h : ∀ before, Reads before rest ws)
    (before : Option Char) :
    Reads before ('/' :: '*' :: '*' :: '/' :: rest) (.char '/' :: .anyDepth :: ws) :=
  .plain rfl (.depth (h _))

/-! ## Matching -/

theorem literal_ne_anyDepth (c : Char) : literal c ≠ .anyDepth := by
  unfold literal
  split <;> exact nofun

theorem anyDepth_notMem (cs : List Char) : anyDepth ∉ cs.map literal := by
  intro h
  obtain ⟨c, -, hc⟩ := List.mem_map.mp h
  exact literal_ne_anyDepth c hc

/-- Only where nothing had to be escaped a pattern has no wildcards. -/
theorem literal?_map (cs : List Char) :
    literal? (cs.map literal) = if cs.any isSpecial then none else some cs := by
  induction cs with
  | nil => rfl
  | cons c cs ih =>
    rw [List.map_cons, List.any_cons, literal]
    cases hc : isSpecial c with
    | true => rfl
    | false =>
      rw [if_neg Bool.false_ne_true, literal?, ih, Bool.false_or]
      split <;> rfl

theorem covers_literal (c x : Char) : (literal c).covers x = (x == c) := by
  unfold literal
  split
  · exact Bool.or_false _
  · rfl

/-- **An escaped text** fits itself only. -/
theorem accepts_literal (cs name : List Char) : accepts (cs.map literal) name = (name == cs) := by
  induction cs generalizing name with
  | nil => cases name <;> rfl
  | cons c cs ih =>
    cases name with
    | nil =>
      rw [List.map_cons, literal]
      split <;> rfl
    | cons x r =>
      have hcons : accepts ((c :: cs).map literal) (x :: r) =
          ((literal c).covers x && accepts (cs.map literal) r) := by
        rw [List.map_cons, literal]
        split <;> rfl
      rw [hcons, covers_literal, ih, List.cons_beq_cons]

end Wildcard

namespace Segment

open Wildcard (isSpecial literal escape)

/-- The component that stands for one piece of a path. -/
def ofPiece (piece : List Char) : Segment :=
  if piece.any isSpecial then .wild (piece.map literal) else .plain piece

/-- **An escaped piece** is taken apart into the component that stands for it. -/
theorem parse_escape (piece : List Char) : parse (escape piece) = .ok (ofPiece piece) := by
  have hreads := Wildcard.reads_escape piece (fun _ => Wildcard.Reads.done) none
  rw [List.append_nil, List.append_nil] at hreads
  have hliteral := Wildcard.literal?_map piece
  have hdepth := Wildcard.anyDepth_notMem piece
  cases hpiece : piece.any isSpecial with
  | true =>
    rw [hpiece, if_pos rfl] at hliteral
    simp [parse, ofPiece, Wildcard.parse_of_reads hreads, hdepth, hliteral, hpiece, bind,
      Except.bind, pure, Except.pure]
  | false =>
    rw [hpiece, if_neg Bool.false_ne_true] at hliteral
    simp [parse, ofPiece, Wildcard.parse_of_reads hreads, hdepth, hliteral, hpiece, bind,
      Except.bind, pure, Except.pure]

theorem accepts_ofPiece (piece name : List Char) :
    (ofPiece piece).accepts name = (name == piece) := by
  unfold ofPiece
  split
  · exact Wildcard.accepts_literal piece name
  · exact Bool.beq_comm

end Segment

/-! ## Patterns of a workspace -/

open Wildcard (isSpecial escape)

/-- The pieces of an escaped text are its pieces, each of them escaped. -/
theorem splitOn_escape (cs : List Char) :
    Text.splitOn '/' (escape cs) = (Text.splitOn '/' cs).map escape := by
  induction cs with
  | nil => rfl
  | cons c cs ih =>
    by_cases hc : c = '/'
    · subst hc
      rw [Wildcard.escape_cons, Text.splitOn, if_pos rfl, List.map_cons, ← ih]
      rfl
    · obtain ⟨piece, more, hsplit, hcons⟩ := Text.splitOn_cons_of_ne hc cs
      rw [hsplit] at ih
      have hplain : ∀ {x : Char}, x ≠ '/' → ∀ {r : List Char} {p : List Char},
          Text.splitOn '/' r = p :: more.map escape →
          Text.splitOn '/' (x :: r) = (x :: p) :: more.map escape := by
        intro x hx r p hr
        rw [Text.splitOn, if_neg hx, hr]
      rw [hcons, List.map_cons, Wildcard.escape_cons, Wildcard.escape_cons]
      split
      · exact hplain (by decide) (hplain hc (hplain (by decide) ih))
      · exact hplain hc ih

theorem mapM_parse_escape (pieces : List (List Char)) :
    (pieces.map escape).mapM Segment.parse = .ok (pieces.map Segment.ofPiece) := by
  induction pieces with
  | nil => rfl
  | cons p ps ih =>
    rw [List.map_cons, List.mapM_cons, Segment.parse_escape, ih]
    rfl

/-- **A pattern of two texts** with any number of directories between them. -/
theorem parseSegments_between (base behind : List Char) :
    parseSegments (escape base ++ '/' :: '*' :: '*' :: '/' :: escape behind) =
      .ok ((Text.splitOn '/' base).map Segment.ofPiece ++
        .anyDepth :: (Text.splitOn '/' behind).map Segment.ofPiece) := by
  have hbehind := Wildcard.reads_escape behind fun _ => Wildcard.Reads.done
  rw [List.append_nil, List.append_nil] at hbehind
  have hreads := Wildcard.reads_escape base (Wildcard.reads_depth hbehind) none
  have hsplit : Text.splitOn '/' (escape base ++ '/' :: '*' :: '*' :: '/' :: escape behind) =
      (Text.splitOn '/' base).map escape ++
        ['*', '*'] :: (Text.splitOn '/' behind).map escape := by
    rw [Text.splitOn_append, splitOn_escape, ← splitOn_escape behind]
    rfl
  have hdepth : Segment.parse ['*', '*'] = .ok .anyDepth := rfl
  rw [parseSegments, Wildcard.parse_of_reads hreads]
  show (Text.splitOn '/' _).mapM Segment.parse = _
  rw [hsplit, List.mapM_append, mapM_parse_escape, List.mapM_cons, hdepth, mapM_parse_escape]
  rfl

end RunnerCatalog.Files
