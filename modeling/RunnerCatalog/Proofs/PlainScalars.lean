/-
  Plain scalars that were written.

  A text that is written as it stands has no mark in it that would end it.  It consists of words
  with spaces between them, and is read word by word.

  1. **Words** - the reader takes all characters up to the next gap (`plainRun_written`).

  2. **Texts** - it goes on behind the spaces with what is a plain text again
     (`IsPlain.words`), and so, by induction on the rounds, it reads the text to its end, where the
     line ends (`readPlain_written`).

  3. **Keys** - a key ends in front of its colon (`readPlain_key`).
-/
import RunnerCatalog.Proofs.Gaps

namespace RunnerCatalog.Yaml

/-! ## Words -/

theorem followedByGap_append (cs tail : List Char) :
    followedByGap (cs ++ '\n' :: tail) = followedByGap cs := by
  cases cs with
  | nil => rfl
  | cons c cs => rfl

/-- The part of a text up to the next gap is read as a word. -/
theorem plainRun_written {fresh : Bool} {cs : List Char} (h : hasMark fresh cs = false)
    (tail : List Char) :
    plainRun false (cs ++ '\n' :: tail) = (cs.takeWhile (fun c => !isGapOrBreak c), false) := by
  induction cs generalizing fresh with
  | nil => rfl
  | cons c cs ih =>
    rw [hasMark, Bool.or_eq_false_iff, Bool.or_eq_false_iff] at h
    obtain ⟨⟨hcolon, -⟩, hmore⟩ := h
    rw [List.cons_append, plainRun, followedByGap_append]
    cases hgap : isGapOrBreak c with
    | true => simp [hgap]
    | false => simp [hgap, hcolon, ih hmore]

/-! ## Texts -/

/-- A text that may be written as it stands. -/
structure IsPlain (cs : List Char) : Prop where
  begins : ∃ c r, cs = c :: r ∧ isGapOrBreak c = false
  unmarked : hasMark true cs = false
  spaced : ∀ c ∈ cs, isGapOrBreak c = true → c = ' '
  ends : cs.getLast? ≠ some ' '

theorem hasMark_append {fresh : Bool} {cs ds : List Char} {c : Char}
    (h : hasMark fresh (cs ++ c :: ds) = false) : hasMark (isGapOrBreak c) ds = false := by
  induction cs generalizing fresh with
  | nil =>
    rw [List.nil_append, hasMark, Bool.or_eq_false_iff] at h
    exact h.2
  | cons d cs ih =>
    rw [List.cons_append, hasMark, Bool.or_eq_false_iff] at h
    exact ih h.2

/-- **A plain text** begins with a word.  Behind that it ends, or there are spaces and a plain text
    again. -/
theorem IsPlain.words {cs : List Char} (h : IsPlain cs) :
    ∃ word more, cs.takeWhile (fun c => !isGapOrBreak c) = word ∧ cs = word ++ more ∧ word ≠ [] ∧
      (more = [] ∨ ∃ n rest, more = List.replicate (n + 1) ' ' ++ rest ∧ IsPlain rest) := by
  obtain ⟨c, r, rfl, hc⟩ := h.begins
  obtain ⟨word, hword⟩ : ∃ word, (c :: r).takeWhile (fun c => !isGapOrBreak c) = word := ⟨_, rfl⟩
  obtain ⟨more, hmore⟩ : ∃ more, (c :: r).dropWhile (fun c => !isGapOrBreak c) = more := ⟨_, rfl⟩
  have hsplit : c :: r = word ++ more := by
    rw [← hword, ← hmore, List.takeWhile_append_dropWhile]
  refine ⟨word, more, hword, hsplit, ?_, ?_⟩
  · rw [← hword, List.takeWhile_cons, if_pos (by rw [hc]; rfl)]
    exact List.cons_ne_nil _ _
  · cases more with
    | nil => exact Or.inl rfl
    | cons d more =>
      -- the gap begins with a space, for a plain text has no other blanks
      have hgap := List.head?_dropWhile_not (fun c => !isGapOrBreak c) (c :: r)
      rw [hmore] at hgap
      have hmem : ∀ e ∈ d :: more, e ∈ c :: r := fun e he => by
        rw [hsplit]
        exact List.mem_append_right word he
      obtain rfl := h.spaced d (hmem d List.mem_cons_self) (by simpa using hgap)
      obtain ⟨n, rest, rfl, hrest⟩ := exists_spaces more
      have hwhole : c :: r = word ++ List.replicate n ' ' ++ ' ' :: rest := by
        rw [hsplit, ← List.cons_append, ← List.replicate_succ, List.replicate_succ']
        simp
      refine Or.inr ⟨n, rest, rfl, ?_, ?_, ?_, ?_⟩
      · cases rest with
        | nil =>
          refine absurd ?_ h.ends
          rw [hwhole, List.getLast?_concat]
        | cons e rest =>
          refine ⟨e, rest, rfl, Bool.eq_false_iff.mpr fun he => hrest ?_⟩
          rw [List.head?_cons, h.spaced e (hmem e (by simp)) he]
      · have hunmarked := h.unmarked
        rw [hwhole] at hunmarked
        exact hasMark_append hunmarked
      · exact fun e he => h.spaced e (hmem e (by simp [he]))
      · intro hlast
        refine h.ends ?_
        rw [hwhole, List.getLast?_append, List.getLast?_cons, hlast]
        rfl

/-- A round reads a word and the gap behind it. -/
theorem readPlainFrom_round (start : Place) {cs word more tail : List Char} {place : Place}
    (h : IsPlain cs) (hcolumn : place.column ≠ 0)
    (hword : cs.takeWhile (fun c => !isGapOrBreak c) = word) (hsplit : cs = word ++ more)
    (hne : word ≠ []) (hmore : ∀ c ∈ more.head?, isGapOrBreak c = true) {behind : Gap}
    {next : Cursor}
    (hread : readGap 1 .none (more ++ '\n' :: tail) (place.right word.length) = .ok (behind, next))
    (fuel : Nat) (text : List Char) (gap : Gap) :
    readPlainFrom false 1 start (fuel + 1) text gap ⟨cs ++ '\n' :: tail, place⟩ =
      if next.place.column < 1 then .ok (text ++ gap.text ++ word, behind.broken, next)
      else readPlainFrom false 1 start fuel (text ++ gap.text ++ word) behind next := by
  have hnumber : Cursor.nextIs (fun x => x == '#') ⟨cs ++ '\n' :: tail, place⟩ = false := by
    obtain ⟨c, r, rfl, -⟩ := h.begins
    have hunmarked := h.unmarked
    rw [hasMark, Bool.or_eq_false_iff, Bool.or_eq_false_iff, Bool.and_true] at hunmarked
    exact hunmarked.1.2
  have hskip : Cursor.skip ⟨cs ++ '\n' :: tail, place⟩ word.length =
      ⟨more ++ '\n' :: tail, place.right word.length⟩ := by
    rw [hsplit, List.append_assoc, skip_append]
  have hgap :
      Cursor.nextIs isGapOrBreak ⟨more ++ '\n' :: tail, place.right word.length⟩ = true := by
    cases more with
    | nil => rfl
    | cons c more => exact hmore c rfl
  rw [readPlainFrom, Cursor.atDocumentMarker, atMarker_of_column hcolumn,
    atMarker_of_column hcolumn, hnumber, plainRun_written h.unmarked, hword]
  simp only [Bool.or_self, Bool.false_eq_true, if_false, hne, hskip, hgap, Bool.not_true, hread]
  simp

/-- **A plain text** is read to the end of its line. -/
theorem readPlainFrom_written (start : Place) {tail : List Char} (htail : Solid tail) (fuel : Nat)
    {cs : List Char} (text : List Char) (gap : Gap) (place : Place) (h : IsPlain cs)
    (hfuel : cs.length ≤ fuel) (hcolumn : place.column ≠ 0) :
    ∃ place' : Place, place'.column = 0 ∧
      readPlainFrom false 1 start fuel text gap ⟨cs ++ '\n' :: tail, place⟩ =
        .ok (text ++ gap.text ++ cs, true, ⟨tail, place'⟩) := by
  induction fuel generalizing cs text gap place with
  | zero =>
    obtain ⟨c, r, rfl, -⟩ := h.begins
    rw [List.length_cons] at hfuel
    omega
  | succ fuel ih =>
    obtain ⟨word, more, hword, hsplit, hne, rfl | ⟨n, rest, rfl, hrest⟩⟩ := h.words
    · -- the break behind the last word
      have hfeed : ∀ d ∈ ['\n'], isShown d = true ∧ isBreak d = true :=
        List.forall_mem_singleton.mpr (by decide)
      obtain ⟨place', hcolumn', hread⟩ :=
        readGap_breaks 1 (place.right word.length) hfeed 0 htail
      rw [List.replicate_zero, List.nil_append, List.nil_append] at hread
      refine ⟨place', hcolumn', ?_⟩
      have hleft : place'.column < 1 := by omega
      rw [readPlainFrom_round start h hcolumn hword hsplit hne nofun hread, if_pos hleft, hsplit,
        List.append_nil]
    · have hsolid : Solid (rest ++ '\n' :: tail) := by
        obtain ⟨c, r, rfl, hc⟩ := hrest.begins
        exact solid_cons hc
      have hspaces := readGap_spaces 1 [] (place.right word.length) (n + 1) hsolid
      rw [← List.append_assoc, List.nil_append] at hspaces
      have hlength : rest.length ≤ fuel := by
        rw [hsplit, List.length_append, List.length_append, List.length_replicate] at hfuel
        omega
      have hinside : ((place.right word.length).right (n + 1)).column ≠ 0 := Nat.succ_ne_zero _
      have hright : ¬ ((place.right word.length).right (n + 1)).column < 1 := by omega
      obtain ⟨place', hcolumn', hread⟩ := ih
        (text ++ gap.text ++ word) ⟨List.replicate (n + 1) ' ', [], [], false⟩ _ hrest hlength
        hinside
      have hspace : ∀ c ∈ (List.replicate (n + 1) ' ' ++ rest).head?, isGapOrBreak c = true := by
        intro c hc
        obtain rfl := Option.some.inj hc
        rfl
      refine ⟨place', hcolumn', ?_⟩
      rw [readPlainFrom_round start h hcolumn hword hsplit hne hspace hspaces,
        if_neg hright, hread, hsplit]
      simp [Gap.text]

theorem readPlain_written {cs tail : List Char} {place : Place} (h : IsPlain cs)
    (htail : Solid tail) (hcolumn : place.column ≠ 0) :
    ∃ place' : Place, place'.column = 0 ∧
      readPlain false 1 ⟨cs ++ '\n' :: tail, place⟩ = .ok (cs, true, ⟨tail, place'⟩) := by
  have hfuel : cs.length ≤ (cs ++ '\n' :: tail).length + 1 := by
    rw [List.length_append]
    omega
  obtain ⟨place', hcolumn', hread⟩ := readPlainFrom_written place htail _ [] .none place h
    hfuel hcolumn
  exact ⟨place', hcolumn', hread⟩

/-- The texts that are written as they stand. -/
theorem isPlain_of_fitsPlain {cs : List Char} (hne : cs ≠ []) (h : fitsPlain cs = true) :
    IsPlain cs := by
  simp only [fitsPlain, Bool.and_eq_true, Bool.not_eq_true', List.all_eq_true,
    List.any_eq_false] at h
  obtain ⟨⟨⟨⟨⟨hstart, hmark⟩, hshown⟩, hbreak⟩, hfirst⟩, hlast⟩ := h
  have hspaced : ∀ c ∈ cs, isGapOrBreak c = true → c = ' ' := by
    intro c hc hgap
    rw [isGapOrBreak, Bool.or_eq_true] at hgap
    exact isSpace_of_isShown (hshown c hc) (hgap.resolve_right (hbreak c hc))
  refine ⟨?_, hmark, hspaced, ?_⟩
  · obtain ⟨c, r, rfl⟩ := List.exists_cons_of_ne_nil hne
    refine ⟨c, r, rfl, Bool.eq_false_iff.mpr fun hgap => ?_⟩
    obtain rfl := hspaced c List.mem_cons_self hgap
    cases hfirst
  · intro hspace
    rw [hspace] at hlast
    cases hlast

/-! ## Keys -/

/-- A character of a key. -/
def isKeyChar (c : Char) : Bool := c.isAlpha || c == '_'

theorem ne_of_isKeyChar {c d : Char} (hc : isKeyChar c = true) (hd : isKeyChar d = false) :
    c ≠ d := by
  rintro rfl
  rw [hd] at hc
  cases hc

theorem solid_of_isKeyChar {c : Char} (h : isKeyChar c = true) : isGapOrBreak c = false := by
  refine Bool.eq_false_iff.mpr fun hgap => ?_
  simp only [isGapOrBreak, isGap, isBreak, Bool.or_eq_true, beq_iff_eq] at hgap
  obtain (rfl | rfl) | (((rfl | rfl) | rfl) | rfl) | rfl := hgap
  all_goals exact absurd h (by decide)

theorem isShown_of_isKeyChar {c : Char} (h : isKeyChar c = true) : isShown c = true := by
  delta isKeyChar Char.isAlpha Char.isUpper Char.isLower at h
  simp only [isShown, Bool.or_eq_true, Bool.and_eq_true, decide_eq_true_eq, beq_iff_eq] at h ⊢
  obtain h | rfl := h
  · grind
  · decide

/-- **A key** ends in front of its colon. -/
theorem readPlain_key {key rest : List Char} {indent : Nat} {place : Place} (hne : key ≠ [])
    (hkey : ∀ c ∈ key, isKeyChar c = true) :
    readPlain false indent ⟨key ++ ':' :: ' ' :: rest, place⟩ =
      .ok (key, false, ⟨':' :: ' ' :: rest, place.right key.length⟩) := by
  have hrun : plainRun false (key ++ ':' :: ' ' :: rest) = (key, false) := by
    clear hne
    induction key with
    | nil => rfl
    | cons c key ih =>
      have hc := hkey c List.mem_cons_self
      rw [List.cons_append, plainRun, ih fun d hd => hkey d (List.mem_cons_of_mem c hd)]
      simp [solid_of_isKeyChar hc, ne_of_isKeyChar hc (d := ':') rfl]
  obtain ⟨c, r, rfl⟩ := List.exists_cons_of_ne_nil hne
  have hc := hkey c List.mem_cons_self
  have hnumber : Cursor.nextIs (fun x => x == '#') ⟨c :: r ++ ':' :: ' ' :: rest, place⟩ = false :=
    beq_eq_false_iff_ne.mpr (ne_of_isKeyChar hc rfl)
  rw [readPlain, readPlainFrom, Cursor.atDocumentMarker, List.cons_append,
    atMarker_of_ne (ne_of_isKeyChar hc rfl), atMarker_of_ne (ne_of_isKeyChar hc rfl),
    ← List.cons_append, hnumber, hrun]
  simp only [Bool.or_self, Bool.false_eq_true, if_false, skip_append, List.cons_ne_nil]
  rfl

end RunnerCatalog.Yaml
