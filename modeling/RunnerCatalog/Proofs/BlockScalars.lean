/-
  Block scalars that were written.

  A text with line feeds is written line by line, each with a margin of two columns unless it is
  empty.

  1. **Margins** - in front of a line the reader passes over breaks (`readMargin_breaks`) and the
     margin (`readMargin_margin`), and it stops where the text is over (`readMargin_end`).

  2. **Lines** - each round reads a line and the breaks behind it.  By induction on the rounds, what
     was read in the end is the text, taken apart into everything up to its last character that is
     no break, a break, and more breaks (`Block.Ended`, `readBlockLines_written`).

  3. **Ends** - the chomping mark says which of these breaks belong to the text
     (`Block.Ended.chomped`).

  4. **Texts** - so with its header the text is read as itself (`readBlock_written`).
-/
import Mathlib.Tactic.SplitIfs
import RunnerCatalog.Proofs.Gaps

namespace RunnerCatalog.Yaml

variable {start place : Place} {rest : List Char}

/-! ## Margins -/

theorem readMargin_break {indent widest : Nat} {breaks : List Char} {b : Char}
    (hshown : isShown b = true) (hbreak : isBreak b = true) :
    readMargin indent breaks widest (b :: rest) place =
      readMargin indent (breaks ++ [b]) (max widest place.column) rest (place.nextLine 1) := by
  obtain ⟨hreturn, htext⟩ := breakText_of_isShown hshown hbreak
  have hspace : b ≠ ' ' := by
    rintro rfl
    cases hbreak
  have htab : b ≠ '\t' := by
    rintro rfl
    cases hbreak
  rw [readMargin]
  · rw [if_neg (fun h => hspace h.2), if_neg (fun h => htab h.2), if_pos hbreak, htext]
  · exact fun _ heq => absurd heq hreturn

theorem readMargin_stop {indent widest : Nat} {breaks : List Char} {c : Char}
    (hbreak : isBreak c = false)
    (hgap : (indent = 0 ∨ place.column < indent) → isGap c = false) :
    readMargin indent breaks widest (c :: rest) place =
      .ok ⟨breaks, max widest place.column, ⟨c :: rest, place⟩⟩ := by
  have hreturn : c ≠ '\r' := by
    rintro rfl
    cases hbreak
  rw [readMargin]
  · rw [if_neg, if_neg, if_neg (by rw [hbreak]; exact Bool.false_ne_true)]
    · rintro ⟨hleft, rfl⟩
      cases hgap hleft
    · rintro ⟨hleft, rfl⟩
      cases hgap hleft
  · exact fun _ heq => absurd heq hreturn

/-- Breaks are empty lines. -/
theorem readMargin_breaks (indent widest : Nat) {breaks : List Char} (before rest : List Char)
    (place : Place) (hbreaks : ∀ c ∈ breaks, isShown c = true ∧ isBreak c = true)
    (hcolumn : place.column = 0) :
    ∃ place' : Place, place'.column = 0 ∧
      readMargin indent before widest (breaks ++ rest) place =
        readMargin indent (before ++ breaks) widest rest place' := by
  induction breaks generalizing before place with
  | nil => exact ⟨place, hcolumn, by rw [List.append_nil]; rfl⟩
  | cons b breaks ih =>
    obtain ⟨hshown, hbreak⟩ := hbreaks b List.mem_cons_self
    obtain ⟨place', hcolumn', hread⟩ := ih (before ++ [b]) (place.nextLine 1)
      (fun c hc => hbreaks c (List.mem_cons_of_mem b hc)) rfl
    refine ⟨place', hcolumn', ?_⟩
    rw [List.cons_append, readMargin_break hshown hbreak, hcolumn, Nat.max_zero, hread,
      List.append_assoc]
    rfl

theorem readMargin_space {indent widest : Nat} {breaks : List Char}
    (h : indent = 0 ∨ place.column < indent) :
    readMargin indent breaks widest (' ' :: rest) place =
      readMargin indent breaks widest rest (place.right 1) := by
  rw [readMargin]
  · rw [if_pos ⟨h, rfl⟩]
  · exact fun _ heq => absurd heq (by decide)

/-- **The margin** of a line is passed over.  Where the indentation is not given, the line itself
    begins with no blank. -/
theorem readMargin_margin {indent widest : Nat} {breaks : List Char} {c : Char}
    (hbreak : isBreak c = false) (hindent : indent = 2 ∨ (indent = 0 ∧ isGap c = false))
    (hcolumn : place.column = 0) :
    readMargin indent breaks widest (margin ++ c :: rest) place =
      .ok ⟨breaks, max widest 2, ⟨c :: rest, place.right 2⟩⟩ := by
  have hright : (place.right 1).right 1 = place.right 2 := rfl
  have htwo : (place.right 2).column = 2 := by
    show place.column + 2 = 2
    rw [hcolumn]
  have hleft : ∀ p : Place, p.column < 2 → indent = 0 ∨ p.column < indent := by omega
  show readMargin indent breaks widest (' ' :: ' ' :: c :: rest) place = _
  rw [readMargin_space (hleft place (by omega)),
    readMargin_space (hleft (place.right 1) (by show place.column + 1 < 2; omega)), hright,
    readMargin_stop hbreak, htwo]
  rintro (hzero | hright)
  · exact (hindent.resolve_left (by omega)).2
  · omega

/-- Where no line follows, the text is over. -/
theorem readMargin_end {indent widest : Nat} {breaks : List Char} (hrest : Solid rest)
    (hcolumn : place.column = 0) :
    readMargin indent breaks widest rest place = .ok ⟨breaks, widest, ⟨rest, place⟩⟩ := by
  cases rest with
  | nil => rw [readMargin, hcolumn, Nat.max_zero]
  | cons c rest =>
    have hc := isGapOrBreak_eq_false.mp (hrest c rfl)
    rw [readMargin_stop hc.2 fun _ => hc.1, hcolumn, Nat.max_zero]

/-! ## Lines -/

theorem skipBreak_shown {b : Char} (rest : List Char) (place : Place) (hshown : isShown b = true)
    (hbreak : isBreak b = true) :
    Cursor.skipBreak ⟨b :: rest, place⟩ = ⟨rest, place.nextLine 1⟩ ∧
      Cursor.nextBreak ⟨b :: rest, place⟩ = [b] := by
  obtain ⟨hreturn, htext⟩ := breakText_of_isShown hshown hbreak
  refine ⟨?_, ?_⟩
  · rw [Cursor.skipBreak]
    split
    · next heq => exact absurd (List.cons.inj heq).1 hreturn
    · next heq =>
      obtain ⟨rfl, rfl⟩ := List.cons.inj heq
      rw [if_pos hbreak]
    · next heq => cases heq
  · rw [Cursor.nextBreak]
    simp only [hbreak, if_true, htext]

/-- A cursor that does not stand at the indentation ends the block. -/
theorem readBlockLines_stop {indent : Nat} {b : Block} {c : Cursor} (h : c.place.column ≠ indent)
    (fuel : Nat) : readBlockLines true indent start fuel b c = .ok (b, c) := by
  cases fuel with
  | zero => rfl
  | succ fuel => rw [readBlockLines, if_pos (by simp [h])]

/-- A block that was read: its text ends with no break, and behind it there are a break and
    possibly more of them. -/
structure Block.Ended (b : Block) (whole : List Char) : Prop where
  whole : b.text ++ b.last ++ b.breaks = whole
  text : ∃ before z, b.text = before ++ [z] ∧ isBreak z = false
  last : ∃ y, b.last = [y] ∧ isBreak y = true
  breaks : ∀ c ∈ b.breaks, isBreak c = true

/-- What is written behind a text: the end of its last line, unless there is one. -/
def lineEnd (cs : List Char) : List Char := if endsLine cs then [] else ['\n']

theorem lineEnd_append {cs : List Char} (hne : cs ≠ []) (ds : List Char) :
    lineEnd (ds ++ cs) = lineEnd cs := by
  rw [lineEnd, lineEnd, endsLine_append hne]

theorem lineEnd_breaks {breaks : List Char} (hne : breaks ≠ [])
    (hbreaks : ∀ c ∈ breaks, isBreak c = true) : lineEnd breaks = [] := by
  rw [lineEnd, endsLine_breaks hne hbreaks]
  rfl

/-- A text begins with a line.  Behind that it ends, or there are breaks and another line, or the
    end. -/
theorem exists_line {c : Char} (hc : isBreak c = false) (r : List Char) :
    ∃ line more, c :: r = line ++ more ∧ line ≠ [] ∧ (∀ d ∈ line, isBreak d = false) ∧
      (more = [] ∨ ∃ y breaks rest, more = y :: (breaks ++ rest) ∧
        (∀ d ∈ y :: breaks, isBreak d = true) ∧ ∀ d ∈ rest.head?, isBreak d = false) := by
  obtain ⟨line, more, rfl, hline, hmore⟩ := exists_split isBreak r
  refine ⟨c :: line, more, rfl, List.cons_ne_nil _ _, List.forall_mem_cons.mpr ⟨hc, hline⟩, ?_⟩
  cases more with
  | nil => exact Or.inl rfl
  | cons y more =>
    obtain ⟨breaks, next, rfl, hbreaks, hnext⟩ := exists_breaks more
    exact Or.inr ⟨y, breaks, next, rfl, List.forall_mem_cons.mpr ⟨hmore y rfl, hbreaks⟩, hnext⟩

theorem writeLines_line {line : List Char} (h : ∀ c ∈ line, isBreak c = false) (more : List Char) :
    writeLines false (line ++ more) = line ++ writeLines false more := by
  induction line with
  | nil => rfl
  | cons c line ih =>
    rw [List.cons_append, writeLines, h c List.mem_cons_self,
      ih fun d hd => h d (List.mem_cons_of_mem c hd)]
    rfl

/-- A round reads a line and passes over what is in front of the next one. -/
theorem readBlockLines_round (start : Place) (b : Block) {line behind : List Char} {y : Char}
    {m : Margin} (hline : ∀ c ∈ line, isBreak c = false)
    (hy : isShown y = true ∧ isBreak y = true) (hcolumn : place.column = 2)
    (hmargin : readMargin 2 [] 0 behind ((place.right line.length).nextLine 1) = .ok m)
    (fuel : Nat) :
    ∃ blank, readBlockLines true 2 start (fuel + 1) b ⟨line ++ y :: behind, place⟩ =
      readBlockLines true 2 start fuel
        ⟨b.text ++ b.last ++ b.breaks ++ line, [y], m.breaks, blank⟩ m.cursor := by
  have htake : (line ++ y :: behind).takeWhile (fun c => !isBreak c) = line := by
    rw [List.takeWhile_append_of_pos fun c hc => by rw [hline c hc]; rfl,
      List.takeWhile_cons_of_neg (by rw [hy.2]; exact Bool.false_ne_true), List.append_nil]
  have hdrop : (line ++ y :: behind).dropWhile (fun c => !isBreak c) = y :: behind := by
    rw [List.dropWhile_append_of_pos fun c hc => by rw [hline c hc]; rfl,
      List.dropWhile_cons_of_neg (by rw [hy.2]; exact Bool.false_ne_true)]
  obtain ⟨hskip, hbreak⟩ := skipBreak_shown behind (place.right line.length) hy.1 hy.2
  refine ⟨Cursor.nextIs isGap ⟨line ++ y :: behind, place⟩, ?_⟩
  rw [readBlockLines, if_neg (by simp [hcolumn, Cursor.atEnd])]
  simp only [Cursor.takeWhile, Cursor.skipWhile, htake, hdrop, hskip, hbreak, hmargin]
  rfl

/-- A line is no break at its end. -/
theorem exists_last (before : List Char) {line : List Char} (hne : line ≠ [])
    (hline : ∀ c ∈ line, isBreak c = false) :
    ∃ before' z, before ++ line = before' ++ [z] ∧ isBreak z = false :=
  ⟨before ++ line.dropLast, line.getLast hne,
    by rw [List.append_assoc, List.dropLast_concat_getLast hne], hline _ (List.getLast_mem hne)⟩

/-- The last line of a text, whose end was written behind it. -/
theorem readBlockLines_last (start : Place) (b : Block) (hrest : Solid rest) {line : List Char}
    (hne : line ≠ []) (hline : ∀ c ∈ line, isBreak c = false) (hcolumn : place.column = 2)
    (fuel : Nat) :
    ∃ b' place', place'.column = 0 ∧
      b'.Ended (b.text ++ b.last ++ b.breaks ++ line ++ lineEnd line) ∧
      readBlockLines true 2 start (fuel + 1) b
          ⟨writeLines false line ++ lineEnd line ++ rest, place⟩ = .ok (b', ⟨rest, place'⟩) := by
  have hend : lineEnd line = ['\n'] := by
    rw [lineEnd, endsLine, List.getLast?_eq_some_getLast hne, Option.any_some,
      hline _ (List.getLast_mem hne)]
    rfl
  have hlines : writeLines false line = line := by
    have hwhole := writeLines_line hline []
    rwa [writeLines, List.append_nil] at hwhole
  obtain ⟨blank, hround⟩ := readBlockLines_round start b (y := '\n') hline (by decide) hcolumn
    (readMargin_end hrest rfl) fuel
  rw [hlines, hend, List.append_assoc line, List.singleton_append, hround,
    readBlockLines_stop (Nat.zero_ne_add_one 1)]
  exact ⟨_, _, rfl, ⟨by simp, exists_last _ hne hline, ⟨'\n', rfl, rfl⟩,
    fun c hc => absurd hc List.not_mem_nil⟩, rfl⟩

/-- The last line of a text that goes on with nothing but breaks. -/
theorem readBlockLines_ending (start : Place) (b : Block) (hrest : Solid rest)
    {line breaks : List Char} {y : Char} (hne : line ≠ [])
    (hline : ∀ c ∈ line, isBreak c = false)
    (hbreaks : ∀ c ∈ y :: breaks, isShown c = true ∧ isBreak c = true) (hcolumn : place.column = 2)
    (fuel : Nat) :
    ∃ b' place', place'.column = 0 ∧
      b'.Ended (b.text ++ b.last ++ b.breaks ++ (line ++ y :: breaks)) ∧
      readBlockLines true 2 start (fuel + 1) b ⟨line ++ y :: breaks ++ rest, place⟩ =
        .ok (b', ⟨rest, place'⟩) := by
  have hbehind : line ++ y :: breaks ++ rest = line ++ y :: (breaks ++ rest) := by simp
  obtain ⟨place', hcolumn', hread⟩ := readMargin_breaks 2 0 [] rest
    ((place.right line.length).nextLine 1) (fun c hc => hbreaks c (List.mem_cons_of_mem y hc)) rfl
  rw [readMargin_end hrest hcolumn'] at hread
  obtain ⟨blank, hround⟩ := readBlockLines_round start b hline (hbreaks y List.mem_cons_self)
    hcolumn hread fuel
  rw [hbehind, hround, readBlockLines_stop (by show place'.column ≠ 2; omega)]
  exact ⟨_, place', hcolumn', ⟨by simp, exists_last _ hne hline,
    ⟨y, rfl, (hbreaks y List.mem_cons_self).2⟩,
    fun c hc => (hbreaks c (List.mem_cons_of_mem y hc)).2⟩, rfl⟩

/-- A line with another one behind it, whose margin is passed over. -/
theorem readBlockLines_next (start : Place) (b : Block) {line breaks : List Char} {y d : Char}
    (hline : ∀ c ∈ line, isBreak c = false)
    (hbreaks : ∀ c ∈ y :: breaks, isShown c = true ∧ isBreak c = true) (hd : isBreak d = false)
    (hcolumn : place.column = 2) (behind : List Char) (fuel : Nat) :
    ∃ blank p, p.column = 2 ∧
      readBlockLines true 2 start (fuel + 1) b
          ⟨line ++ y :: (breaks ++ (margin ++ d :: behind)), place⟩ =
        readBlockLines true 2 start fuel
          ⟨b.text ++ b.last ++ b.breaks ++ line, [y], breaks, blank⟩ ⟨d :: behind, p⟩ := by
  obtain ⟨p, hcolumn', hread⟩ := readMargin_breaks 2 0 [] (margin ++ d :: behind)
    ((place.right line.length).nextLine 1)
    (fun c hc => hbreaks c (List.mem_cons_of_mem y hc)) rfl
  rw [readMargin_margin hd (Or.inl rfl) hcolumn'] at hread
  obtain ⟨blank, hround⟩ := readBlockLines_round start b hline (hbreaks y List.mem_cons_self)
    hcolumn hread fuel
  refine ⟨blank, p.right 2, ?_, hround⟩
  show p.column + 2 = 2
  rw [hcolumn']

/-- **The lines** of a text are read up to its end. -/
theorem readBlockLines_written (start : Place) (hrest : Solid rest) (fuel : Nat) {cs : List Char}
    (b : Block) (place : Place) (hshown : ∀ c ∈ cs, isShown c = true)
    (hbegins : ∃ c r, cs = c :: r ∧ isBreak c = false)
    (hfuel : cs.length ≤ fuel) (hcolumn : place.column = 2) :
    ∃ b' place', place'.column = 0 ∧
      b'.Ended (b.text ++ b.last ++ b.breaks ++ cs ++ lineEnd cs) ∧
      readBlockLines true 2 start fuel b ⟨writeLines false cs ++ lineEnd cs ++ rest, place⟩ =
        .ok (b', ⟨rest, place'⟩) := by
  induction fuel generalizing cs b place with
  | zero =>
    obtain ⟨c, r, rfl, -⟩ := hbegins
    rw [List.length_cons] at hfuel
    omega
  | succ fuel ih =>
    obtain ⟨c, r, rfl, hc⟩ := hbegins
    obtain ⟨line, more, hsplit, hne, hline, hmore⟩ := exists_line hc r
    rw [hsplit] at hshown hfuel ⊢
    obtain rfl | ⟨y, breaks, next, rfl, hbreaks, hnext⟩ := hmore
    · rw [List.append_nil]
      exact readBlockLines_last start b hrest hne hline hcolumn fuel
    · have hpair : ∀ d ∈ y :: breaks, isShown d = true ∧ isBreak d = true := fun d hd =>
        ⟨hshown d (List.mem_append_right line (by
          rw [← List.cons_append]
          exact List.mem_append_left next hd)), hbreaks d hd⟩
      have hlines : writeLines false (line ++ y :: (breaks ++ next)) =
          line ++ y :: (breaks ++ writeLines true next) := by
        rw [writeLines_line hline, writeLines, if_pos (hbreaks y List.mem_cons_self),
          writeLines_breaks fun d hd => hbreaks d (List.mem_cons_of_mem y hd)]
      cases next with
      | nil =>
        have hend : lineEnd (line ++ y :: breaks) = [] := by
          rw [lineEnd_append (List.cons_ne_nil y breaks),
            lineEnd_breaks (List.cons_ne_nil y breaks) hbreaks]
        rw [writeLines, List.append_nil] at hlines
        rw [List.append_nil, hend, hlines, List.append_nil, List.append_nil]
        exact readBlockLines_ending start b hrest hne hline hpair hcolumn fuel
      | cons d next =>
        have hd := hnext d rfl
        have hend : lineEnd (line ++ y :: (breaks ++ d :: next)) = lineEnd (d :: next) := by
          rw [← List.cons_append, ← List.append_assoc, lineEnd_append (List.cons_ne_nil d next)]
        have hwritten : writeLines false (line ++ y :: (breaks ++ d :: next)) ++
            lineEnd (d :: next) ++ rest =
              line ++ y :: (breaks ++
                (margin ++ d :: (writeLines false next ++ lineEnd (d :: next) ++ rest))) := by
          rw [hlines, writeLines_fresh hd, writeLines_cons hd]
          simp
        have hlength : (d :: next).length ≤ fuel := by
          rw [List.length_append, List.length_cons, List.length_append] at hfuel
          omega
        obtain ⟨blank, p, hcolumn', hround⟩ := readBlockLines_next start b hline hpair hd hcolumn
          (writeLines false next ++ lineEnd (d :: next) ++ rest) fuel
        obtain ⟨b', place', hcolumn'', hended, hlast⟩ := ih
          ⟨b.text ++ b.last ++ b.breaks ++ line, [y], breaks, blank⟩ p
          (fun e he => hshown e (by simp [List.mem_cons.mp he])) ⟨d, next, rfl, hd⟩ hlength hcolumn'
        refine ⟨b', place', hcolumn'', ?_, ?_⟩
        · rw [hend]
          simpa using hended
        · rw [hend, hwritten, hround, ← hlast, writeLines_cons hd]
          rfl

/-! ## Ends -/

/-- How a chomping is marked. -/
def Chomping.mark : Chomping → List Char
  | strip => ['-']
  | clip => []
  | keep => ['+']

/-- Where the text ends with no break, the break behind it does not belong to it. -/
theorem Block.Ended.strip {b : Block} {cs : List Char} (hends : endsLine cs = false)
    (h : b.Ended (cs ++ ['\n'])) : b.text = cs := by
  obtain ⟨y, hy, hybreak⟩ := h.last
  have hwhole := h.whole
  rw [hy] at hwhole
  obtain hnone | ⟨more, z, hmore⟩ := List.eq_nil_or_concat' b.breaks
  · rw [hnone, List.append_nil] at hwhole
    exact (List.append_inj' hwhole rfl).1
  · -- the break before the last one would end the text
    exfalso
    rw [hmore, ← List.append_assoc] at hwhole
    have hcs := (List.append_inj' hwhole rfl).1
    have htail : ∀ c ∈ y :: more, isBreak c = true := by
      intro c hc
      obtain rfl | hc := List.mem_cons.mp hc
      · exact hybreak
      · exact h.breaks c (by simp [hmore, hc])
    rw [← hcs, List.append_assoc, List.singleton_append,
      endsLine_append (List.cons_ne_nil y more), endsLine_breaks (List.cons_ne_nil y more) htail]
      at hends
    cases hends

theorem Chomping.mark_injective {a b : Chomping} (h : a.mark = b.mark) : a = b := by
  cases a with
  | strip => cases b with
    | strip => rfl
    | clip => cases h
    | keep => cases h
  | clip => cases b with
    | strip => cases h
    | clip => rfl
    | keep => cases h
  | keep => cases b with
    | strip => cases h
    | clip => cases h
    | keep => rfl

theorem exists_chomping (cs : List Char) :
    ∃ chomping : Chomping, chompingMark cs = chomping.mark := by
  rw [chompingMark]
  split
  · exact ⟨.strip, rfl⟩
  · split_ifs
    · exact ⟨.strip, rfl⟩
    · exact ⟨.keep, rfl⟩
    · exact ⟨.clip, rfl⟩

/-- How a text is chomped by its end. -/
theorem Block.Ended.chomped {b : Block} {cs : List Char} {chomping : Chomping}
    (h : b.Ended (cs ++ lineEnd cs)) (hmark : chompingMark cs = chomping.mark) :
    b.chomped chomping = cs := by
  rw [lineEnd] at h
  cases hends : endsLine cs with
  | false =>
    rw [hends] at h
    have hstrip : chompingMark cs = Chomping.strip.mark := by
      rw [chompingMark]
      cases hreverse : cs.reverse with
      | nil => rfl
      | cons c r =>
        rw [endsLine, ← List.head?_reverse, hreverse] at hends
        simp only [show isBreak c = false from hends]
        rfl
    obtain rfl := Chomping.mark_injective (hmark.symm.trans hstrip)
    exact h.strip hends
  | true =>
    rw [hends] at h
    obtain ⟨before, z, htext, hz⟩ := h.text
    obtain ⟨y, hy, hybreak⟩ := h.last
    have hwhole := h.whole
    rw [if_pos rfl, List.append_nil] at hwhole
    obtain hnone | ⟨more, w, hmore⟩ := List.eq_nil_or_concat' b.breaks
    · have hclip : chompingMark cs = Chomping.clip.mark := by
        rw [← hwhole, htext, hy, hnone, chompingMark]
        simp [hz, hybreak, Chomping.mark]
      obtain rfl := Chomping.mark_injective (hmark.symm.trans hclip)
      rw [← hwhole, hnone, List.append_nil]
      rfl
    · have hkeep : chompingMark cs = Chomping.keep.mark := by
        have hw : isBreak w = true := h.breaks w (by simp [hmore])
        rw [← hwhole, hy, hmore, chompingMark]
        obtain hnone | ⟨more', x, rfl⟩ := List.eq_nil_or_concat' more
        · simp [hnone, hw, hybreak, Chomping.mark]
        · have hx : isBreak x = true := h.breaks x (by simp [hmore])
          simp [hw, hx, Chomping.mark]
      obtain rfl := Chomping.mark_injective (hmark.symm.trans hkeep)
      exact hwhole

/-! ## Texts -/

/-- **A header** is read as it was written. -/
theorem readBlockHeader_written (start place : Place) (rest : List Char) (hinted : Bool)
    (chomping : Chomping) :
    ∃ place', readBlockHeader start
        ⟨(if hinted then ['2'] else []) ++ chomping.mark ++ '\n' :: rest, place⟩ =
      .ok (if hinted then 2 else 0, chomping, ⟨'\n' :: rest, place'⟩) := by
  cases hinted with
  | true =>
    cases chomping with
    | strip => exact ⟨_, rfl⟩
    | clip => exact ⟨_, rfl⟩
    | keep => exact ⟨_, rfl⟩
  | false =>
    cases chomping with
    | strip => exact ⟨_, rfl⟩
    | clip => exact ⟨_, rfl⟩
    | keep => exact ⟨_, rfl⟩

/-- What is read behind a header, within a block at column 0. -/
theorem readBlock_behind (place : Place) (hinted : Bool) (chomping : Chomping)
    (behind : List Char) :
    ∃ p : Place, p.column = 0 ∧ ∀ m : Margin,
      readMargin (if hinted then 2 else 0) [] 0 behind p = .ok m →
      (hinted = true ∨ m.widest = 2) →
      readBlock true (some 0)
          ⟨'|' :: ((if hinted then ['2'] else []) ++ chomping.mark ++ '\n' :: behind), place⟩ =
        (do
          let (b, c) ← readBlockLines true 2 place (behind.length + 1) ⟨[], [], m.breaks, false⟩
            m.cursor
          return (b.chomped chomping, c)) := by
  obtain ⟨p, hheader⟩ := readBlockHeader_written place (place.right 1) behind hinted
    chomping
  refine ⟨(p.right 0).nextLine 1, rfl, fun m hmargin hwidest => ?_⟩
  have hskip : skipToBreak ⟨'\n' :: behind, p⟩ = ⟨'\n' :: behind, p.right 0⟩ := rfl
  have hbreak : Cursor.skipBreak ⟨'\n' :: behind, p.right 0⟩ =
      ⟨behind, (p.right 0).nextLine 1⟩ := rfl
  have hat : Cursor.atBreak ⟨'\n' :: behind, p.right 0⟩ = true := rfl
  rw [readBlock]
  simp only [Cursor.skip, List.drop_succ_cons, List.drop_zero, hheader, bind, Except.bind, hskip,
    hat, hbreak]
  cases hinted with
  | true =>
    have hgiven : readMargin 2 [] 0 behind ((p.right 0).nextLine 1) = .ok m := hmargin
    simp [hgiven]
  | false =>
    have hgiven : readMargin 0 [] 0 behind ((p.right 0).nextLine 1) = .ok m := hmargin
    have htwo : m.widest = 2 := hwidest.resolve_left Bool.false_ne_true
    simp [hgiven, htwo]

/-- Whether the header of a text tells its indentation. -/
def isHinted (cs : List Char) : Bool := cs.head?.any fun c => isSpace c || isBreak c

theorem writeLiteral_eq (cs rest : List Char) {chomping : Chomping}
    (h : chompingMark cs = chomping.mark) :
    writeLiteral cs ++ rest =
      '|' :: ((if isHinted cs then ['2'] else []) ++ chomping.mark ++
        '\n' :: (writeLines true cs ++ rest)) := by
  rw [writeLiteral, h, isHinted]
  simp

/-- A text of nothing but breaks. -/
theorem readBlock_breaks {cs : List Char} (hrest : Solid rest) (hne : cs ≠ [])
    (hbreaks : ∀ c ∈ cs, isShown c = true ∧ isBreak c = true) :
    ∃ place', place'.column = 0 ∧
      readBlock true (some 0) ⟨writeLiteral cs ++ rest, place⟩ = .ok (cs, ⟨rest, place'⟩) := by
  have hhinted : isHinted cs = true := by
    obtain ⟨c, r, rfl⟩ := List.exists_cons_of_ne_nil hne
    simp [isHinted, (hbreaks c List.mem_cons_self).2]
  have hkeep : chompingMark cs = Chomping.keep.mark := by
    have hall : ∀ c ∈ cs.reverse, isBreak c = true := fun c hc =>
      (hbreaks c (List.mem_reverse.mp hc)).2
    rw [chompingMark]
    cases hreverse : cs.reverse with
    | nil => exact absurd (List.reverse_eq_nil_iff.mp hreverse) hne
    | cons c r =>
      rw [hreverse] at hall
      cases r with
      | nil => simp [hall c List.mem_cons_self, Chomping.mark]
      | cons d r => simp [hall c (by simp), hall d (by simp), Chomping.mark]
  obtain ⟨p, hcolumn, hread⟩ := readBlock_behind place (isHinted cs) .keep
    (writeLines true cs ++ rest)
  have hlines : writeLines true cs = cs := by
    have hnone := writeLines_breaks (fun c hc => (hbreaks c hc).2) []
    rwa [writeLines, List.append_nil] at hnone
  obtain ⟨place', hcolumn', hmargin⟩ := readMargin_breaks 2 0 [] rest p hbreaks hcolumn
  rw [readMargin_end hrest hcolumn'] at hmargin
  refine ⟨place', hcolumn', ?_⟩
  rw [writeLiteral_eq cs rest hkeep, hread _ (by rw [hhinted, hlines]; exact hmargin)
    (Or.inl hhinted), readBlockLines_stop (by show place'.column ≠ 2; omega)]
  rfl

/-- The indentation is told, unless the text begins with something else than a blank. -/
theorem indentation_told {breaks next : List Char} {d : Char}
    (hbreaks : ∀ c ∈ breaks, isBreak c = true) (hshown : isShown d = true) :
    (if isHinted (breaks ++ d :: next) then 2 else 0) = 2 ∨
      ((if isHinted (breaks ++ d :: next) then 2 else 0) = 0 ∧ isGap d = false) := by
  cases hhinted : isHinted (breaks ++ d :: next) with
  | true => exact Or.inl rfl
  | false =>
    refine Or.inr ⟨rfl, Bool.eq_false_iff.mpr fun hgap => ?_⟩
    have hspace := isSpace_of_isShown hshown hgap
    rw [isHinted] at hhinted
    cases breaks with
    | nil => simp [hspace, isSpace] at hhinted
    | cons b breaks => simp [hbreaks b List.mem_cons_self] at hhinted

/-- A text with lines that are not empty. -/
theorem readBlock_lines (place : Place) {breaks next : List Char} {d : Char} (hrest : Solid rest)
    (hshown : ∀ c ∈ breaks ++ d :: next, isShown c = true)
    (hbreaks : ∀ c ∈ breaks, isBreak c = true) (hd : isBreak d = false) :
    ∃ place', place'.column = 0 ∧
      readBlock true (some 0)
          ⟨writeLiteral (breaks ++ d :: next) ++ (lineEnd (d :: next) ++ rest), place⟩ =
        .ok (breaks ++ d :: next, ⟨rest, place'⟩) := by
  have hpair : ∀ c ∈ breaks, isShown c = true ∧ isBreak c = true := fun c hc =>
    ⟨hshown c (List.mem_append_left _ hc), hbreaks c hc⟩
  have hlines : writeLines true (breaks ++ d :: next) ++ (lineEnd (d :: next) ++ rest) =
      breaks ++ (margin ++ d :: (writeLines false next ++ lineEnd (d :: next) ++ rest)) := by
    rw [writeLines_breaks hbreaks, writeLines_fresh hd, writeLines_cons hd]
    simp
  obtain ⟨chomping, hmark⟩ := exists_chomping (breaks ++ d :: next)
  obtain ⟨p, hcolumn, hread⟩ := readBlock_behind place (isHinted (breaks ++ d :: next)) chomping
    (writeLines true (breaks ++ d :: next) ++ (lineEnd (d :: next) ++ rest))
  -- the breaks in front, and the margin of the first line
  obtain ⟨p', hcolumn', hmargin⟩ := readMargin_breaks
    (if isHinted (breaks ++ d :: next) then 2 else 0) 0 []
    (margin ++ d :: (writeLines false next ++ lineEnd (d :: next) ++ rest)) p hpair hcolumn
  rw [readMargin_margin hd
    (indentation_told hbreaks (hshown d (List.mem_append_right _ List.mem_cons_self))) hcolumn',
    ← hlines] at hmargin
  -- the lines
  have hfuel : (d :: next).length ≤
      (writeLines true (breaks ++ d :: next) ++ (lineEnd (d :: next) ++ rest)).length + 1 := by
    have hlength := length_writeLines_le true (breaks ++ d :: next)
    rw [List.length_append] at hlength ⊢
    omega
  obtain ⟨b, place', hcolumn'', hended, hlast⟩ := readBlockLines_written place hrest _
    ⟨[], [], [] ++ breaks, false⟩ (p'.right 2)
    (fun c hc => hshown c (List.mem_append_right _ hc)) ⟨d, next, rfl, hd⟩ hfuel
    (by show p'.column + 2 = 2; omega)
  rw [writeLines_cons hd] at hlast
  have hwhole : b.Ended (breaks ++ d :: next ++ lineEnd (breaks ++ d :: next)) := by
    rw [lineEnd_append (List.cons_ne_nil d next)]
    simpa using hended
  refine ⟨place', hcolumn'', ?_⟩
  rw [writeLiteral_eq _ _ hmark, hread _ hmargin (Or.inr rfl)]
  simp only [List.append_assoc, List.cons_append] at hlast ⊢
  rw [hlast]
  exact congrArg Except.ok (Prod.ext (hwhole.chomped hmark) rfl)

/-- **A text** of several lines is read as itself. -/
theorem readBlock_written (place : Place) {cs : List Char} (hrest : Solid rest) (hne : cs ≠ [])
    (hshown : ∀ c ∈ cs, isShown c = true) :
    ∃ place', place'.column = 0 ∧
      readBlock true (some 0) ⟨writeLiteral cs ++ (lineEnd cs ++ rest), place⟩ =
        .ok (cs, ⟨rest, place'⟩) := by
  obtain ⟨breaks, next, rfl, hbreaks, hnext⟩ := exists_breaks cs
  cases next with
  | nil =>
    rw [List.append_nil] at hne hshown ⊢
    rw [lineEnd_breaks hne hbreaks]
    exact readBlock_breaks hrest hne fun c hc => ⟨hshown c hc, hbreaks c hc⟩
  | cons d next =>
    rw [lineEnd_append (List.cons_ne_nil d next)]
    exact readBlock_lines place hrest hshown hbreaks (hnext d rfl)

end RunnerCatalog.Yaml
