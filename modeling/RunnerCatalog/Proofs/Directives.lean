/-
  Directives, read line by line.

  A directive is looked for in the text as a whole, by a pattern that may go back on every choice
  and whose blanks may run over line ends.  What is found is nevertheless what a reader finds who
  takes the lines one after the other.

  1. **Matchers** - a match takes the characters that its parts describe
     (`exists_of_asManyAs`), and a part has no choice if what follows cannot begin with one of its
     characters (`asManyAs_of_rejects`).

  2. **Heads** - so the text in front of a name can be read in one way only (`headed_eq_some_iff`),
     and as it has no line feed, it is read alike in a text and in the line there
     (`directs_append_iff`).

  3. **Names** - the pattern takes as little of the line as leaves only blanks, which trimming makes
     up for, and what it takes behind the line is blank (`nameHere_line`).

  4. **The search** - a step of the search passes over a character or over a line that names nothing
     together with the blank lines behind it, and neither makes the remaining lines name anything
     else (`firstName_blanks`).  That is the invariant of the whole run (`searchDirective_eq`), and
     `namedRunner_line_by_line` says what it comes to.
-/
import RunnerCatalog.Proofs.Keyed
import RunnerCatalog.Proofs.Scanning
import RunnerCatalog.Script.Directive

namespace RunnerCatalog

/-! ## Trimming -/

namespace Text

/-- Blanks at the end are trimmed. -/
theorem trim_append_blanks (cs : List Char) {blanks : List Char}
    (h : ∀ c ∈ blanks, isBlank c = true) : trim (cs ++ blanks) = trim cs := by
  have hend : ∀ ds, trimEnd (ds ++ blanks) = trimEnd ds := by
    intro ds
    rw [trimEnd, List.reverse_append,
      List.dropWhile_append_of_pos fun c hc => h c (List.mem_reverse.mp hc), trimEnd]
  rw [trim, List.dropWhile_append]
  split
  · next hempty =>
    rw [trim, List.isEmpty_iff.mp hempty, ← hend [], List.nil_append,
      List.dropWhile_eq_nil_iff.mpr h]
    exact (hend []).symm
  · rw [hend, trim]

/-- A blank in front is trimmed. -/
theorem trim_cons_blank {c : Char} (h : isBlank c = true) (cs : List Char) :
    trim (c :: cs) = trim cs := by
  rw [trim, List.dropWhile_cons_of_pos h, trim]

end Text

namespace Script

/-! ## Matchers -/

variable {α : Type} {p : Char → Bool} {next : Matcher α} {cs : List Char} {a : α}

theorem exactly_eq_some_iff {ws : List Char} :
    exactly ws next cs = some a ↔ ∃ rest, cs = ws ++ rest ∧ next rest = some a := by
  induction ws generalizing cs with
  | nil => simp [exactly]
  | cons w ws ih =>
    cases cs with
    | nil => simp [exactly]
    | cons c r =>
      by_cases hc : c = w
      · simp [exactly, hc, ih]
      · simp [exactly, hc]

theorem exists_of_optionally {w : Char} (h : optionally w next cs = some a) :
    ∃ rest, (cs = rest ∨ cs = w :: rest) ∧ next rest = some a := by
  cases cs with
  | nil => exact ⟨[], .inl rfl, h⟩
  | cons c r =>
    rw [optionally] at h
    split at h
    · next b hb =>
      split at hb
      · next hc => exact ⟨r, .inr (by rw [hc]), hb.trans h⟩
      · cases hb
    · exact ⟨c :: r, .inl rfl, h⟩

/-- What a repetition takes is of its class. -/
theorem exists_of_asManyAs (h : asManyAs p next cs = some a) :
    ∃ run rest, cs = run ++ rest ∧ (∀ c ∈ run, p c = true) ∧ next rest = some a := by
  induction cs with
  | nil => exact ⟨[], [], rfl, List.forall_mem_nil _, h⟩
  | cons c r ih =>
    rw [asManyAs] at h
    split at h
    · next b hb =>
      split at hb
      · next hc =>
        obtain ⟨run, rest, rfl, hrun, hrest⟩ := ih (hb.trans h)
        exact ⟨c :: run, rest, rfl, List.forall_mem_cons.mpr ⟨hc, hrun⟩, hrest⟩
      · cases hb
    · exact ⟨[], c :: r, rfl, List.forall_mem_nil _, h⟩

/-- A repetition takes all it can, if nothing could go on in front of a character of its class. -/
theorem asManyAs_of_rejects (h : ∀ c r, p c = true → next (c :: r) = none) (cs : List Char) :
    asManyAs p next cs = next (cs.dropWhile p) := by
  induction cs with
  | nil => rfl
  | cons c r ih =>
    by_cases hc : p c = true
    · rw [asManyAs, if_pos hc, ih, h c r hc, List.dropWhile_cons_of_pos hc]
      cases next (r.dropWhile p) <;> rfl
    · rw [asManyAs, if_neg hc, List.dropWhile_cons_of_neg hc]

/-! ## Heads -/

/-- The text begins a directive, and `rest` stands behind the colon: there are two or three slashes,
    spaces and tabs, and the word `runner:`. -/
def Directs (cs rest : List Char) : Prop :=
  ∃ slashes gaps, (slashes = ['/', '/'] ∨ slashes = ['/', '/', '/']) ∧
    (∀ c ∈ gaps, isGap c = true) ∧
    cs = slashes ++ gaps ++ ['r', 'u', 'n', 'n', 'e', 'r', ':'] ++ rest

/-- The pattern of a directive up to its name, then `next`. -/
def headed (next : Matcher α) : Matcher α :=
  exactly ['/', '/'] <| optionally '/' <| asManyAs isGap <|
    exactly ['r', 'u', 'n', 'n', 'e', 'r', ':'] next

/-- Behind the slashes there is no choice, for the word does not begin with a blank. -/
theorem asManyAs_gap (next : Matcher α) (cs : List Char) :
    asManyAs isGap (exactly ['r', 'u', 'n', 'n', 'e', 'r', ':'] next) cs =
      exactly ['r', 'u', 'n', 'n', 'e', 'r', ':'] next (cs.dropWhile isGap) := by
  refine asManyAs_of_rejects (fun c r hc => ?_) cs
  have hne : c ≠ 'r' := by
    rintro rfl
    exact absurd hc (by decide)
  rw [exactly, if_neg hne]

/-- **A head** can be read in one way only. -/
theorem headed_eq_some_iff :
    headed next cs = some a ↔ ∃ rest, Directs cs rest ∧ next rest = some a := by
  constructor
  · intro h
    obtain ⟨behind, rfl, hbehind⟩ := exactly_eq_some_iff.mp h
    obtain ⟨gapped, hslash, hgapped⟩ := exists_of_optionally hbehind
    obtain ⟨gaps, word, rfl, hgaps, hword⟩ := exists_of_asManyAs hgapped
    obtain ⟨rest, rfl, hrest⟩ := exactly_eq_some_iff.mp hword
    rcases hslash with rfl | rfl
    · exact ⟨rest, ⟨['/', '/'], gaps, .inl rfl, hgaps, by simp⟩, hrest⟩
    · exact ⟨rest, ⟨['/', '/', '/'], gaps, .inr rfl, hgaps, by simp⟩, hrest⟩
  · rintro ⟨rest, ⟨slashes, gaps, hslashes, hgaps, rfl⟩, hrest⟩
    have hword : asManyAs isGap (exactly ['r', 'u', 'n', 'n', 'e', 'r', ':'] next)
        (gaps ++ ['r', 'u', 'n', 'n', 'e', 'r', ':'] ++ rest) = some a := by
      rw [asManyAs_gap, List.append_assoc, List.dropWhile_append_of_pos hgaps]
      exact exactly_eq_some_iff.mpr ⟨rest, rfl, hrest⟩
    refine exactly_eq_some_iff.mpr ?_
    rcases hslashes with rfl | rfl
    · refine ⟨gaps ++ ['r', 'u', 'n', 'n', 'e', 'r', ':'] ++ rest, by simp, ?_⟩
      -- no third slash: what comes next is a blank or the word
      cases gaps with
      | nil => exact hword
      | cons g gaps =>
        have hne : g ≠ '/' := by
          rintro rfl
          exact absurd (hgaps '/' List.mem_cons_self) (by decide)
        rw [List.cons_append, List.cons_append, optionally, if_neg hne]
        exact hword
    · refine ⟨'/' :: (gaps ++ ['r', 'u', 'n', 'n', 'e', 'r', ':'] ++ rest), by simp, ?_⟩
      rw [optionally, if_pos rfl, hword]

/-- There is nothing more, or a line feed comes next. -/
def LineEnds (cs : List Char) : Prop := ∀ c ∈ cs.head?, c = '\n'

/-- Two ways to cut a text, one of them at the end of a line: if the first piece of the other one
    lies within the line, so does its cut. -/
theorem exists_of_append_eq {head rest line behind : List Char} (hhead : '\n' ∉ head)
    (hbehind : LineEnds behind) (h : line ++ behind = head ++ rest) :
    ∃ within, line = head ++ within ∧ rest = within ++ behind := by
  rcases List.append_eq_append_iff.mp h with ⟨spill, rfl, rfl⟩ | ⟨within, rfl, rfl⟩
  · cases spill with
    | nil => exact ⟨[], by simp, rfl⟩
    | cons c spill =>
      obtain rfl := hbehind c rfl
      exact absurd (List.mem_append_right _ List.mem_cons_self) hhead
  · exact ⟨within, rfl, rfl⟩

/-- A head lies within its line. -/
theorem directs_append_iff {line behind rest : List Char} (hbehind : LineEnds behind) :
    Directs (line ++ behind) rest ↔ ∃ within, rest = within ++ behind ∧ Directs line within := by
  constructor
  · rintro ⟨slashes, gaps, hslashes, hgaps, h⟩
    have hfeed : '\n' ∉ slashes ++ gaps ++ ['r', 'u', 'n', 'n', 'e', 'r', ':'] := by
      intro hmem
      rcases List.mem_append.mp hmem with hmem | hmem
      · rcases List.mem_append.mp hmem with hmem | hmem
        · rcases hslashes with rfl | rfl <;> exact absurd hmem (by decide)
        · exact absurd (hgaps _ hmem) (by decide)
      · exact absurd hmem (by decide)
    obtain ⟨within, rfl, rfl⟩ := exists_of_append_eq hfeed hbehind h
    exact ⟨within, rfl, slashes, gaps, hslashes, hgaps, rfl⟩
  · rintro ⟨within, rfl, slashes, gaps, hslashes, hgaps, rfl⟩
    exact ⟨slashes, gaps, hslashes, hgaps, by simp⟩

theorem Directs.notMem {c : Char} {line rest : List Char} (h : Directs line rest) (hc : c ∉ line) :
    c ∉ rest := by
  obtain ⟨slashes, gaps, -, -, rfl⟩ := h
  exact fun hmem => hc (List.mem_append_right _ hmem)

/-! ## Names -/

/-- The pattern of what follows a name: blanks up to the end of a line. -/
def nameEnd (taken : List Char) : Matcher (List Char × List Char) :=
  asManyAs Text.isBlank <| atLineEnd fun rest => some (taken.reverse, rest)

/-- The pattern of a name. -/
def nameHere : Matcher (List Char × List Char) :=
  asManyAs isGap <| asFewAs (fun c => c != '\n') nameEnd []

theorem directiveHere_eq : directiveHere = headed nameHere := rfl

/-- `rest` stands behind blanks that go from the end of one line to the end of another one. -/
def BlankUpTo (behind rest : List Char) : Prop :=
  LineEnds rest ∧ ∃ blanks, behind = blanks ++ rest ∧ ∀ c ∈ blanks, Text.isBlank c = true

variable {line behind taken : List Char}

theorem BlankUpTo.length_le {rest : List Char} (h : BlankUpTo behind rest) :
    rest.length ≤ behind.length := by
  obtain ⟨-, blanks, rfl, -⟩ := h
  exact List.length_append ▸ Nat.le_add_left _ _

theorem exists_of_atLineEnd (h : atLineEnd next cs = some a) : LineEnds cs ∧ next cs = some a := by
  cases cs with
  | nil => exact ⟨nofun, h⟩
  | cons c r =>
    rw [atLineEnd] at h
    split at h
    · next hc => exact ⟨fun d hd => Option.some.inj hd ▸ hc, h⟩
    · cases h

theorem nameEnd_eq_some {name rest : List Char} (h : nameEnd taken cs = some (name, rest)) :
    name = taken.reverse ∧ BlankUpTo cs rest := by
  obtain ⟨blanks, rest', rfl, hblanks, h⟩ := exists_of_asManyAs h
  obtain ⟨hends, h⟩ := exists_of_atLineEnd h
  obtain ⟨rfl, rfl⟩ := Prod.mk.inj (Option.some.inj h)
  exact ⟨rfl, hends, blanks, rfl, hblanks⟩

/-- A name can end where only blanks remain in its line. -/
theorem nameEnd_isSome (taken : List Char) (hline : ∀ c ∈ line, Text.isBlank c = true)
    (hbehind : LineEnds behind) : (nameEnd taken (line ++ behind)).isSome := by
  induction line with
  | nil =>
    cases behind with
    | nil => rfl
    | cons c r =>
      obtain rfl := hbehind c rfl
      rw [List.nil_append, nameEnd, asManyAs]
      split
      · rfl
      · rfl
  | cons c line ih =>
    obtain ⟨hc, hline⟩ := List.forall_mem_cons.mp hline
    obtain ⟨m, hm⟩ := Option.isSome_iff_exists.mp (ih hline)
    rw [nameEnd] at hm
    rw [List.cons_append, nameEnd, asManyAs, if_pos hc, hm]
    rfl

/-- As little as possible is taken of a line, up to blanks at its end. -/
theorem asFewAs_line (taken : List Char) (hne : line ≠ []) (hline : '\n' ∉ line)
    (hbehind : LineEnds behind) :
    ∃ name rest, asFewAs (fun c => c != '\n') nameEnd taken (line ++ behind) = some (name, rest) ∧
      BlankUpTo behind rest ∧
      ∃ blanks, taken.reverse ++ line = name ++ blanks ∧ ∀ c ∈ blanks, Text.isBlank c = true := by
  induction line generalizing taken with
  | nil => exact absurd rfl hne
  | cons c line ih =>
    rw [List.mem_cons, not_or] at hline
    obtain ⟨hc, hline⟩ := hline
    rw [List.cons_append, asFewAs, if_pos (bne_iff_ne.mpr fun he => hc he.symm)]
    cases hend : nameEnd (c :: taken) (line ++ behind) with
    | some m =>
      obtain ⟨name, rest⟩ := m
      obtain ⟨rfl, hends, blanks, heq, hblanks⟩ := nameEnd_eq_some hend
      -- the blanks go at least to the end of this line
      have hspill : ∃ spill, blanks = line ++ spill ∧ behind = spill ++ rest := by
        rcases List.append_eq_append_iff.mp heq with ⟨spill, hspill, hrest⟩ | ⟨short, rfl, hrest⟩
        · exact ⟨spill, hspill, hrest⟩
        · cases short with
          | nil => exact ⟨[], by simp, hrest.symm⟩
          | cons d short =>
            obtain rfl := hends d (by rw [hrest]; rfl)
            exact absurd (List.mem_append_right _ List.mem_cons_self) hline
      obtain ⟨spill, rfl, rfl⟩ := hspill
      refine ⟨_, rest, rfl, ⟨hends, spill, rfl, fun d hd => hblanks d (List.mem_append_right _ hd)⟩,
        line, by simp, fun d hd => hblanks d (List.mem_append_left _ hd)⟩
    | none =>
      have hne' : line ≠ [] := by
        rintro rfl
        have hsome := nameEnd_isSome (c :: taken) (List.forall_mem_nil _) hbehind
        rw [hend] at hsome
        cases hsome
      obtain ⟨name, rest, heq, hrest, blanks, hname, hblanks⟩ := ih (c :: taken) hne' hline
      exact ⟨name, rest, heq, hrest, blanks, by simpa using hname, hblanks⟩

theorem isBlank_of_isGap {c : Char} (h : isGap c = true) : Text.isBlank c = true := by
  rw [isGap, Bool.or_eq_true, beq_iff_eq, beq_iff_eq] at h
  rcases h with rfl | rfl <;> decide

/-- There is no name where the line is at its end. -/
theorem nameHere_lineEnd (h : LineEnds behind) : nameHere behind = none := by
  cases behind with
  | nil => rfl
  | cons c r =>
    obtain rfl := h c rfl
    rfl

/-- The part of the line behind the gaps is read as a name, up to trimming. -/
theorem asFewAs_trim (hne : line ≠ []) (hline : '\n' ∉ line) (hbehind : LineEnds behind) :
    ∃ name rest, asFewAs (fun c => c != '\n') nameEnd [] (line ++ behind) = some (name, rest) ∧
      Text.trim name = Text.trim line ∧ BlankUpTo behind rest := by
  obtain ⟨name, rest, heq, hrest, blanks, hname, hblanks⟩ :=
    asFewAs_line [] hne hline hbehind
  rw [List.reverse_nil, List.nil_append] at hname
  exact ⟨name, rest, heq, by rw [hname, Text.trim_append_blanks name hblanks], hrest⟩

/-- **A name** is what the line has, up to trimming, and what is taken behind the line is blank. -/
theorem nameHere_line (hne : line ≠ []) (hline : '\n' ∉ line) (hbehind : LineEnds behind) :
    ∃ name rest, nameHere (line ++ behind) = some (name, rest) ∧ Text.trim name = Text.trim line ∧
      BlankUpTo behind rest := by
  induction line with
  | nil => exact absurd rfl hne
  | cons c line ih =>
    have hline' : '\n' ∉ line := fun h => hline (List.mem_cons_of_mem _ h)
    rw [List.cons_append, nameHere, asManyAs, ← nameHere]
    by_cases hc : isGap c = true
    · rw [if_pos hc]
      by_cases hempty : line = []
      · -- the line ends in gaps: the last of them is taken for the name
        subst hempty
        rw [List.nil_append, nameHere_lineEnd hbehind]
        exact asFewAs_trim hne hline hbehind
      · obtain ⟨name, rest, heq, htrim, hrest⟩ := ih hempty hline'
        rw [heq, Text.trim_cons_blank (isBlank_of_isGap hc)]
        exact ⟨name, rest, rfl, htrim, hrest⟩
    · rw [if_neg hc]
      exact asFewAs_trim hne hline hbehind

/-! ## Lines -/

/-- What a line names: the trimmed text behind the head of a directive, if it is not blank. -/
def nameIn (line : List Char) : Option (List Char) :=
  ((headed some line).map Text.trim).filter (· ≠ [])

/-- The line is a directive for the runner of that name. -/
def Names (line name : List Char) : Prop :=
  ∃ rest, Directs line rest ∧ Text.trim rest = name ∧ name ≠ []

theorem nameIn_eq_some_iff {name : List Char} : nameIn line = some name ↔ Names line name := by
  rw [nameIn, Option.filter_eq_some_iff, Option.map_eq_some_iff, decide_eq_true_iff]
  constructor
  · rintro ⟨⟨rest, hrest, htrim⟩, hne⟩
    obtain ⟨rest', hdirects, heq⟩ := headed_eq_some_iff.mp hrest
    obtain rfl := Option.some.inj heq
    exact ⟨rest', hdirects, htrim, hne⟩
  · rintro ⟨rest, hdirects, htrim, hne⟩
    exact ⟨⟨rest, headed_eq_some_iff.mpr ⟨rest, hdirects, rfl⟩, htrim⟩, hne⟩

theorem nameIn_of_directs {rest : List Char} (h : Directs line rest) :
    nameIn line = if Text.trim rest = [] then none else some (Text.trim rest) := by
  rw [nameIn, headed_eq_some_iff.mpr ⟨rest, h, rfl⟩, Option.map_some, Option.filter_some]
  by_cases hblank : Text.trim rest = [] <;> simp [hblank]

/-- A line that names something begins with a slash. -/
theorem nameIn_of_ne_slash (h : ∀ c ∈ line.head?, c ≠ '/') : nameIn line = none := by
  cases line with
  | nil => rfl
  | cons c r => rw [nameIn, headed, exactly, if_neg (h c rfl), Option.map_none, Option.filter_none]

/-- An empty line is no directive. -/
theorem length_pos_of_directiveHere (hbehind : LineEnds behind) {m : List Char × List Char}
    (h : directiveHere (line ++ behind) = some m) : 0 < line.length := by
  refine List.length_pos_iff.mpr ?_
  rintro rfl
  cases behind with
  | nil => cases h
  | cons c r =>
    obtain rfl := hbehind c rfl
    cases h

/-- Where no directive is matched at the start of a line, the line names nothing. -/
theorem nameIn_of_none (hline : '\n' ∉ line) (hbehind : LineEnds behind)
    (h : directiveHere (line ++ behind) = none) : nameIn line = none := by
  by_contra hsome
  obtain ⟨name, hname⟩ := Option.ne_none_iff_exists'.mp hsome
  obtain ⟨rest, hdirects, rfl, hne⟩ := nameIn_eq_some_iff.mp hname
  have hrest : rest ≠ [] := by
    rintro rfl
    exact hne rfl
  obtain ⟨name, rest', hmatch, -⟩ := nameHere_line hrest (hdirects.notMem hline) hbehind
  have hhere : directiveHere (line ++ behind) = some (name, rest') :=
    headed_eq_some_iff.mpr ⟨_, (directs_append_iff hbehind).mpr ⟨rest, rfl, hdirects⟩, hmatch⟩
  rw [h] at hhere
  cases hhere

/-- Where one is matched, the line names what the match has, trimmed, and the match goes on over
    blanks only. -/
theorem nameIn_of_some (hline : '\n' ∉ line) (hbehind : LineEnds behind) {name rest : List Char}
    (h : directiveHere (line ++ behind) = some (name, rest)) :
    (nameIn line = if Text.trim name = [] then none else some (Text.trim name)) ∧
      BlankUpTo behind rest := by
  rw [directiveHere_eq] at h
  obtain ⟨_, hboth, hmatch⟩ := headed_eq_some_iff.mp h
  obtain ⟨within, rfl, hdirects⟩ := (directs_append_iff hbehind).mp hboth
  have hne : within ≠ [] := by
    rintro rfl
    rw [List.nil_append, nameHere_lineEnd hbehind] at hmatch
    cases hmatch
  obtain ⟨name', rest', heq, htrim, hrest⟩ := nameHere_line hne (hdirects.notMem hline) hbehind
  obtain ⟨rfl, rfl⟩ := Prod.mk.inj (Option.some.inj (heq.symm.trans hmatch))
  exact ⟨by rw [nameIn_of_directs hdirects, htrim], hrest⟩

/-! ## The search -/

/-- The lines that begin in the text; unless it begins at the start of a line itself, its first
    line begins before it. -/
def linesAhead (lineStart : Bool) (cs : List Char) : List (List Char) :=
  if lineStart then Text.splitOn '\n' cs else (Text.splitOn '\n' cs).tail

/-- What the first of those lines names that names anything. -/
def firstName (lineStart : Bool) (cs : List Char) : Option (List Char) :=
  (linesAhead lineStart cs).findSome? nameIn

/-- Every text begins with a line. -/
theorem exists_line (cs : List Char) :
    ∃ line behind, cs = line ++ behind ∧ '\n' ∉ line ∧ LineEnds behind := by
  by_cases hmem : '\n' ∈ cs
  · obtain ⟨line, rest, rfl, hline⟩ := List.eq_append_cons_of_mem hmem
    exact ⟨line, '\n' :: rest, rfl, hline, fun c hc => (Option.some.inj hc).symm⟩
  · exact ⟨cs, [], (List.append_nil cs).symm, hmem, nofun⟩

theorem splitOn_line (hline : '\n' ∉ line) (hbehind : LineEnds behind) :
    Text.splitOn '\n' (line ++ behind) = line :: linesAhead false (line ++ behind) := by
  rw [linesAhead, if_neg (by decide)]
  cases behind with
  | nil => rw [List.append_nil, Text.splitOn_of_notMem hline, List.tail_cons]
  | cons c rest =>
    obtain rfl := hbehind c rfl
    rw [Text.splitOn_append_sep hline, List.tail_cons]

/-- At the start of a line, that line comes first. -/
theorem firstName_true (hline : '\n' ∉ line) (hbehind : LineEnds behind) :
    firstName true (line ++ behind) = (nameIn line).or (firstName false (line ++ behind)) := by
  rw [firstName, linesAhead, if_pos rfl, splitOn_line hline hbehind, List.findSome?_cons]
  cases nameIn line <;> rfl

/-- Passing over a character of a line changes nothing for the lines that begin behind it. -/
theorem firstName_false_cons (c : Char) (cs : List Char) :
    firstName false (c :: cs) = firstName (c == '\n') cs := by
  by_cases hc : c = '\n'
  · subst hc
    rfl
  · have hsplit : (Text.splitOn '\n' (c :: cs)).tail = (Text.splitOn '\n' cs).tail := by
      obtain ⟨line, behind, rfl, hline, hbehind⟩ := exists_line cs
      rw [Text.splitOn, if_neg hc, splitOn_line hline hbehind]
      rfl
    rw [firstName, linesAhead, if_neg (by decide), hsplit, firstName, linesAhead,
      if_neg (by simpa using hc)]

theorem firstName_false_append (hline : '\n' ∉ line) :
    firstName false (line ++ behind) = firstName false behind := by
  induction line with
  | nil => rfl
  | cons c line ih =>
    rw [List.mem_cons, not_or] at hline
    rw [List.cons_append, firstName_false_cons, beq_false_of_ne fun he => hline.1 he.symm,
      ih hline.2]

/-- A line that does not begin with a slash can be passed over. -/
theorem firstName_of_ne_slash (h : ∀ c ∈ cs.head?, c ≠ '/') :
    firstName true cs = firstName false cs := by
  obtain ⟨line, behind, rfl, hline, hbehind⟩ := exists_line cs
  have hnone : nameIn line = none := by
    refine nameIn_of_ne_slash fun c hc => h c ?_
    rw [List.head?_append, hc, Option.some_or]
    exact rfl
  rw [firstName_true hline hbehind, hnone, Option.none_or]

/-- **Blanks up to the end of a line** can be passed over. -/
theorem firstName_blanks {rest : List Char} (h : BlankUpTo behind rest) :
    firstName false behind = firstName false rest := by
  obtain ⟨hends, blanks, rfl, hblanks⟩ := h
  induction blanks with
  | nil => rfl
  | cons b blanks ih =>
    obtain ⟨-, hblanks⟩ := List.forall_mem_cons.mp hblanks
    have hslash : ∀ c ∈ (blanks ++ rest).head?, c ≠ '/' := by
      rintro c hc rfl
      cases blanks with
      | nil => exact absurd (hends _ hc) (by decide)
      | cons d blanks =>
        obtain rfl := Option.some.inj hc
        exact absurd (hblanks _ List.mem_cons_self) (by decide)
    rw [List.cons_append, firstName_false_cons]
    cases b == '\n' with
    | false => exact ih hblanks
    | true => rw [firstName_of_ne_slash hslash, ih hblanks]

/-- Where no directive is matched, the search passes over a character. -/
theorem searchDirective_of_none {fuel : Nat} {lineStart : Bool}
    (h : (if lineStart then directiveHere cs else none) = none) :
    searchDirective (fuel + 1) lineStart cs =
      match cs with
      | [] => none
      | c :: r => searchDirective fuel (c == '\n') r := by
  rw [searchDirective.eq_def]
  simp only [h]
  cases cs <;> rfl

/-- Where one is matched, its name is found or the match passed over. -/
theorem searchDirective_of_some {fuel : Nat} {name rest : List Char}
    (h : directiveHere cs = some (name, rest)) :
    searchDirective (fuel + 1) true cs =
      if Text.trim name = [] then searchDirective fuel false rest else some (Text.trim name) := by
  rw [searchDirective.eq_def]
  simp only [if_true, h]

/-- **The search** finds what the first line names that names anything. -/
theorem searchDirective_eq {fuel : Nat} (h : cs.length < fuel) (lineStart : Bool) :
    searchDirective fuel lineStart cs = firstName lineStart cs := by
  induction fuel generalizing cs lineStart with
  | zero => exact absurd h (Nat.not_lt_zero _)
  | succ fuel ih =>
    have hskip : (if lineStart then directiveHere cs else none) = none →
        searchDirective (fuel + 1) lineStart cs = firstName false cs := by
      intro hnone
      rw [searchDirective_of_none hnone]
      cases cs with
      | nil => rfl
      | cons c r =>
        rw [firstName_false_cons]
        exact ih (Nat.lt_of_succ_lt_succ h) _
    cases lineStart with
    | false => exact hskip rfl
    | true =>
      obtain ⟨line, behind, rfl, hline, hbehind⟩ := exists_line cs
      rw [firstName_true hline hbehind]
      cases hhere : directiveHere (line ++ behind) with
      | none =>
        rw [hskip hhere, nameIn_of_none hline hbehind hhere, Option.none_or]
      | some m =>
        obtain ⟨name, rest⟩ := m
        obtain ⟨hname, hrest⟩ := nameIn_of_some hline hbehind hhere
        rw [searchDirective_of_some hhere, hname]
        by_cases hblank : Text.trim name = []
        · have hlength : rest.length < fuel := by
            have hpos := length_pos_of_directiveHere hbehind hhere
            have hle := hrest.length_le
            rw [List.length_append] at h
            omega
          rw [if_pos hblank, if_pos hblank, ih hlength, Option.none_or,
            firstName_false_append hline, firstName_blanks hrest]
        · rw [if_neg hblank, if_neg hblank, Option.some_or]

/-! ## Scripts -/

/-- **The runner that a script names** is the one that the first of its lines names that names any.
    Lines end at line feeds only; such a line begins with two or three slashes, blanks and the word
    `runner:`, and behind that there is more than white space. -/
theorem namedRunner_line_by_line (text : String) :
    (∀ name, namedRunner text = some name ↔
      ∃ before line behind, Text.splitOn '\n' text.toList = before ++ line :: behind ∧
        Names line name.toList ∧ ∀ earlier ∈ before, ∀ other, ¬ Names earlier other) ∧
      (namedRunner text = none ↔
        ∀ line ∈ Text.splitOn '\n' text.toList, ∀ name, ¬ Names line name) := by
  have hfound : namedRunner text =
      ((Text.splitOn '\n' text.toList).findSome? nameIn).map String.ofList := by
    rw [namedRunner, searchDirective_eq (Nat.lt_succ_self _)]
    rfl
  have hnothing : ∀ line, nameIn line = none ↔ ∀ name, ¬ Names line name := by
    intro line
    rw [Option.eq_none_iff_forall_ne_some]
    exact forall_congr' fun name => not_congr nameIn_eq_some_iff
  constructor
  · intro name
    have hname : namedRunner text = some name ↔
        (Text.splitOn '\n' text.toList).findSome? nameIn = some name.toList := by
      rw [hfound, Option.map_eq_some_iff]
      constructor
      · rintro ⟨cs, hcs, rfl⟩
        rw [hcs, String.toList_ofList]
      · intro h
        exact ⟨name.toList, h, String.ofList_toList⟩
    rw [hname, List.findSome?_eq_some_iff]
    simp only [hnothing, nameIn_eq_some_iff]
  · rw [hfound, Option.map_eq_none_iff, List.findSome?_eq_none_iff]
    exact forall₂_congr fun line _ => hnothing line

/-- The first directive is blank, and the match for it goes on up to the end of the third line. -/
example : namedRunner "//runner: \t\r\n\n\n///runner: a b\r\n" = some "a b" := by decide +kernel

end Script

end RunnerCatalog
