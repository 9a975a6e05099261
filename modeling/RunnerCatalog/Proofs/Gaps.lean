/-
  Gaps between the words of a scalar, and lines.

  A written text has gaps of its own only where it has spaces and breaks: there is no other blank
  among the characters that are shown as they are.

  1. **Characters** - a shown character is allowed (`isAllowed_of_isShown`), a shown blank is a
     space (`isSpace_of_isShown`), and a shown break counts as itself (`breakText_of_isShown`).

  2. **Gaps** - a gap ends in front of anything else than a blank or a break (`readGap_stop`).
     Before that it takes in spaces (`readGap_spaces`) and breaks (`readGap_breaks`).

  3. **Lines** - in a text that is written over several lines the breaks stay as they are
     (`writeLines_breaks`), and every line that is not empty begins with a margin
     (`writeLines_fresh`).
-/
import Mathlib.Data.List.Basic
import RunnerCatalog.Yaml.Writer

namespace RunnerCatalog.Yaml

/-! ## Characters -/

theorem isAllowed_of_isShown {c : Char} (h : isShown c = true) : isAllowed c = true := by
  simp only [isShown, isAllowed, Bool.or_eq_true, Bool.and_eq_true, beq_iff_eq,
    decide_eq_true_eq] at h ⊢
  grind

/-- A break that is shown is no carriage return, and it counts as itself. -/
theorem breakText_of_isShown {c : Char} (hshown : isShown c = true) (hbreak : isBreak c = true) :
    c ≠ '\r' ∧ Cursor.breakText c = [c] := by
  simp only [isBreak, Bool.or_eq_true, beq_iff_eq] at hbreak
  obtain (((rfl | rfl) | rfl) | rfl) | rfl := hbreak
  · decide
  · exact absurd hshown (by decide)
  · exact absurd hshown (by decide)
  · decide
  · decide

theorem isSpace_of_isShown {c : Char} (hshown : isShown c = true) (hgap : isGap c = true) :
    c = ' ' := by
  simp only [isGap, Bool.or_eq_true, beq_iff_eq] at hgap
  obtain rfl | rfl := hgap
  · rfl
  · exact absurd hshown (by decide)

theorem isGapOrBreak_eq_false {c : Char} :
    isGapOrBreak c = false ↔ isGap c = false ∧ isBreak c = false := by
  rw [isGapOrBreak, Bool.or_eq_false_iff]

/-- No marker stands within a line. -/
theorem atMarker_of_column {x : Char} {c : Cursor} (h : c.place.column ≠ 0) :
    c.atMarker x = false := by
  simp [Cursor.atMarker, h]

/-- No marker begins with another character than its own. -/
theorem atMarker_of_ne {x c : Char} (h : c ≠ x) (r : List Char) (place : Place) :
    Cursor.atMarker x ⟨c :: r, place⟩ = false := by
  match r with
  | [] | [_] => simp [Cursor.atMarker]
  | _ :: _ :: _ => simp [Cursor.atMarker, h]

theorem skip_append (cs rest : List Char) (place : Place) :
    Cursor.skip ⟨cs ++ rest, place⟩ cs.length = ⟨rest, place.right cs.length⟩ := by
  rw [Cursor.skip, List.drop_left]

/-! ## Gaps -/

/-- The text begins neither with a blank nor with a break. -/
def Solid (text : List Char) : Prop := ∀ c ∈ text.head?, isGapOrBreak c = false

theorem solid_cons {c : Char} {r : List Char} (h : isGapOrBreak c = false) : Solid (c :: r) := by
  intro d hd
  obtain rfl := Option.some.inj hd
  exact h

/-- A text is taken apart in front of its first character that satisfies `p`. -/
theorem exists_split (p : Char → Bool) (cs : List Char) :
    ∃ front back, cs = front ++ back ∧ (∀ c ∈ front, p c = false) ∧
      ∀ c ∈ back.head?, p c = true := by
  refine ⟨cs.takeWhile fun c => !p c, cs.dropWhile fun c => !p c,
    List.takeWhile_append_dropWhile.symm, fun c hc => ?_, fun c hc => ?_⟩
  · simpa using List.all_eq_true.mp List.all_takeWhile c hc
  · have hstop := List.head?_dropWhile_not (fun c => !p c) cs
    rw [hc] at hstop
    simpa using hstop

/-- A text without the breaks that it begins with. -/
theorem exists_breaks (cs : List Char) :
    ∃ breaks next, cs = breaks ++ next ∧ (∀ c ∈ breaks, isBreak c = true) ∧
      ∀ c ∈ next.head?, isBreak c = false := by
  simpa using exists_split (fun c => !isBreak c) cs

/-- A text without the spaces that it begins with. -/
theorem exists_spaces (text : List Char) :
    ∃ n rest, text = List.replicate n ' ' ++ rest ∧ rest.head? ≠ some ' ' := by
  induction text with
  | nil => exact ⟨0, [], rfl, by simp⟩
  | cons c cs ih =>
    by_cases hc : c = ' '
    · obtain ⟨n, rest, rfl, hrest⟩ := ih
      exact ⟨n + 1, rest, by rw [hc, List.replicate_succ, List.cons_append], hrest⟩
    · exact ⟨0, c :: cs, rfl, by simpa using hc⟩

variable {limit : Nat} {gap : Gap} {rest : List Char} {place : Place}

theorem readGap_stop (h : Solid rest) :
    readGap limit gap rest place = .ok (gap, ⟨rest, place⟩) := by
  cases rest with
  | nil => rw [readGap]
  | cons c r =>
    have hc := isGapOrBreak_eq_false.mp (h c rfl)
    have hreturn : c ≠ '\r' := by
      rintro rfl
      exact absurd hc.2 (by decide)
    rw [readGap]
    · rw [if_neg (by rw [hc.1]; exact Bool.false_ne_true),
        if_neg (by rw [hc.2]; exact Bool.false_ne_true)]
    · exact fun _ heq => absurd heq hreturn

theorem readGap_space : readGap limit gap (' ' :: rest) place =
    readGap limit (if gap.broken then gap else { gap with blanks := gap.blanks ++ [' '] }) rest
      (place.right 1) := by
  rw [readGap]
  · cases hbroken : gap.broken with
    | true => simp [isGap]
    | false => simp [isGap]
  · exact fun _ heq => absurd heq (by decide)

theorem readGap_break {c : Char} (hshown : isShown c = true) (hbreak : isBreak c = true) :
    readGap limit gap (c :: rest) place =
      readGap limit
        (if gap.broken then { gap with more := gap.more ++ [c] } else ⟨[], [c], [], true⟩)
        rest (place.nextLine 1) := by
  obtain ⟨hreturn, htext⟩ := breakText_of_isShown hshown hbreak
  have hgap : isGap c = false := by
    cases hgap : isGap c with
    | false => rfl
    | true =>
      rw [isSpace_of_isShown hshown hgap] at hbreak
      exact absurd hbreak (by decide)
  rw [readGap]
  · rw [hgap, hbreak, htext]
    cases gap.broken with
    | true => simp
    | false => simp
  · exact fun _ heq => absurd heq hreturn

/-- **Spaces** between two words. -/
theorem readGap_spaces (limit : Nat) (blanks : List Char) (place : Place) (n : Nat)
    (h : Solid rest) :
    readGap limit ⟨blanks, [], [], false⟩ (List.replicate n ' ' ++ rest) place =
      .ok (⟨blanks ++ List.replicate n ' ', [], [], false⟩, ⟨rest, place.right n⟩) := by
  induction n generalizing blanks place with
  | zero => simpa [Place.right] using readGap_stop h
  | succ n ih =>
    rw [List.replicate_succ, List.cons_append, readGap_space, if_neg Bool.false_ne_true, ih]
    simp [Place.right, Nat.add_comm, Nat.add_left_comm]

/-- Spaces at the beginning of a line do not count. -/
theorem readGap_margin (hbroken : gap.broken = true) (n : Nat) (h : Solid rest) :
    readGap limit gap (List.replicate n ' ' ++ rest) place =
      .ok (gap, ⟨rest, place.right n⟩) := by
  induction n generalizing place with
  | zero => simpa [Place.right] using readGap_stop h
  | succ n ih =>
    rw [List.replicate_succ, List.cons_append, readGap_space, if_pos hbroken, ih]
    simp [Place.right, Nat.add_comm, Nat.add_left_comm]

/-- Breaks behind the first one, and the margin of the line behind them. -/
theorem readGap_more (limit : Nat) {c : Char} {breaks : List Char} (more : List Char)
    (place : Place) (hbreaks : ∀ d ∈ breaks, isShown d = true ∧ isBreak d = true)
    (hcolumn : place.column = 0) (n : Nat) (h : Solid rest) :
    ∃ place' : Place, place'.column = n ∧
      readGap limit ⟨[], [c], more, true⟩ (breaks ++ (List.replicate n ' ' ++ rest)) place =
        .ok (⟨[], [c], more ++ breaks, true⟩, ⟨rest, place'⟩) := by
  induction breaks generalizing more place with
  | nil =>
    refine ⟨place.right n, by simp [Place.right, hcolumn], ?_⟩
    rw [List.append_nil, List.nil_append, readGap_margin rfl n h]
  | cons d breaks ih =>
    obtain ⟨hshown, hbreak⟩ := hbreaks d List.mem_cons_self
    obtain ⟨place', hcolumn', hread⟩ := ih (more ++ [d]) (place.nextLine 1)
      (fun e he => hbreaks e (List.mem_cons_of_mem d he)) rfl
    refine ⟨place', hcolumn', ?_⟩
    rw [List.cons_append, readGap_break hshown hbreak, if_pos rfl, hread, List.append_assoc]
    rfl

/-- **Breaks** between two words, with a margin in front of the second one. -/
theorem readGap_breaks (limit : Nat) {c : Char} {breaks : List Char} (place : Place)
    (hbreaks : ∀ d ∈ c :: breaks, isShown d = true ∧ isBreak d = true) (n : Nat) (h : Solid rest) :
    ∃ place' : Place, place'.column = n ∧
      readGap limit .none (c :: (breaks ++ (List.replicate n ' ' ++ rest))) place =
        .ok (⟨[], [c], breaks, true⟩, ⟨rest, place'⟩) := by
  obtain ⟨hshown, hbreak⟩ := hbreaks c List.mem_cons_self
  obtain ⟨place', hcolumn', hread⟩ := readGap_more limit (c := c) [] (place.nextLine 1)
    (fun d hd => hbreaks d (List.mem_cons_of_mem c hd)) rfl n h
  refine ⟨place', hcolumn', ?_⟩
  rw [readGap_break hshown hbreak, if_neg (by simp [Gap.none]), hread, List.nil_append]

/-! ## Lines -/

theorem endsLine_append {cs : List Char} (hne : cs ≠ []) (ds : List Char) :
    endsLine (ds ++ cs) = endsLine cs := by
  rw [endsLine, endsLine, List.getLast?_append_of_ne_nil _ hne]

theorem endsLine_breaks {breaks : List Char} (hne : breaks ≠ [])
    (hbreaks : ∀ c ∈ breaks, isBreak c = true) : endsLine breaks = true := by
  rw [endsLine, List.getLast?_eq_some_getLast hne]
  exact hbreaks _ (List.getLast_mem hne)

theorem endsLine_cons {c : Char} (hbreak : isBreak c = false) (cs : List Char) :
    endsLine (c :: cs) = endsLine cs := by
  cases cs with
  | nil => simp [endsLine, hbreak]
  | cons d cs => rw [endsLine, endsLine, List.getLast?_cons_cons]

/-- Breaks are written as they are, and a margin in front of the line behind them. -/
theorem writeLines_breaks {breaks : List Char} (hbreaks : ∀ c ∈ breaks, isBreak c = true)
    (cs : List Char) : writeLines true (breaks ++ cs) = breaks ++ writeLines true cs := by
  induction breaks with
  | nil => rfl
  | cons b breaks ih =>
    rw [List.cons_append, writeLines, if_pos (hbreaks b List.mem_cons_self),
      ih fun c hc => hbreaks c (List.mem_cons_of_mem b hc)]
    rfl

theorem writeLines_cons {c : Char} (hbreak : isBreak c = false) (r : List Char) :
    writeLines false (c :: r) = c :: writeLines false r := by
  rw [writeLines, hbreak]
  rfl

theorem writeLines_fresh {c : Char} (hbreak : isBreak c = false) (r : List Char) :
    writeLines true (c :: r) = margin ++ writeLines false (c :: r) := by
  rw [writeLines, writeLines, hbreak]
  rfl

theorem length_writeLines_le (fresh : Bool) (cs : List Char) :
    cs.length ≤ (writeLines fresh cs).length := by
  induction cs generalizing fresh with
  | nil => exact Nat.zero_le _
  | cons c cs ih =>
    rw [writeLines]
    split
    · exact Nat.succ_le_succ (ih true)
    · have hmore := ih false
      rw [List.length_append, List.length_cons, List.length_cons]
      omega

theorem writeLines_ne_nil {cs : List Char} (hne : cs ≠ []) (fresh : Bool) :
    writeLines fresh cs ≠ [] := by
  have hlength := length_writeLines_le fresh cs
  have hpos := List.length_pos_iff.mpr hne
  exact List.length_pos_iff.mp (by omega)

/-- A text ends behind a break if and only if its lines do. -/
theorem endsLine_writeLines {cs : List Char} (hne : cs ≠ []) (fresh : Bool) :
    endsLine (writeLines fresh cs) = endsLine cs := by
  induction cs generalizing fresh with
  | nil => exact absurd rfl hne
  | cons c cs ih =>
    have hcons : ∀ (before : List Char) (next : Bool),
        endsLine (before ++ c :: writeLines next cs) = endsLine (c :: cs) := by
      intro before next
      rw [endsLine_append (List.cons_ne_nil _ _)]
      by_cases hcs : cs = []
      · rw [hcs, writeLines]
      · rw [← List.singleton_append, endsLine_append (writeLines_ne_nil hcs next), ih hcs next,
          ← endsLine_append hcs [c]]
        rfl
    rw [writeLines]
    split
    · exact hcons [] true
    · exact hcons _ false

end RunnerCatalog.Yaml
