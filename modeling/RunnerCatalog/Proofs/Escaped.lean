/-
  Strings that were written.

  1. **Blanks** - a reader passes over them, however many there are (`skipSpace_append`), and over
     nothing else (`skipSpace_cons`).

  2. **Characters** - a written character is read as itself (`readText_escapeChar`).  Seven
     characters have a short escape, the other control characters are written with their number,
     and all others as they are.

  3. **Strings** - so a written string is read as itself (`readText_written`), whatever follows.
     A reader that does not want it comes behind it, as behind every string that can be read
     (`skipText_of_readText`, `skipText_written`).
-/
import RunnerCatalog.Json.Shape
import RunnerCatalog.Json.Writer

namespace RunnerCatalog.Json

/-! ## Blanks -/

theorem skipSpace_append {pre : List Char} (h : ∀ c ∈ pre, isSpace c = true) (cs : List Char) :
    skipSpace (pre ++ cs) = skipSpace cs :=
  List.dropWhile_append_of_pos h

theorem skipSpace_cons {c : Char} (h : isSpace c = false) (cs : List Char) :
    skipSpace (c :: cs) = c :: cs :=
  List.dropWhile_cons_of_neg (by rw [h]; exact Bool.false_ne_true)

/-- Line breaks are blank. -/
theorem isSpace_breakLine (layout : Layout) (depth : Nat) :
    ∀ c ∈ breakLine layout depth, isSpace c = true := by
  intro c hc
  cases layout with
  | compact => cases hc
  | indented =>
    rcases List.mem_cons.mp hc with rfl | hc
    · rfl
    · rw [List.eq_of_mem_replicate hc]
      rfl

/-! ## Characters -/

/-- The four digits of a control character give its number. -/
theorem hexNumber?_control (n : Fin 32) :
    hexNumber? '0' '0' (hexDigit (n.val / 16)) (hexDigit (n.val % 16)) = some n.val := by
  revert n
  decide

theorem hexNumber?_of_lt {c : Char} (h : c.val < 0x20) :
    hexNumber? '0' '0' (hexDigit (c.toNat / 16)) (hexDigit (c.toNat % 16)) = some c.toNat :=
  hexNumber?_control ⟨c.toNat, h⟩

/-- A short escape is read as the character that it stands for. -/
theorem readText_simple {x c : Char} {cs s rest : List Char} (hx : simpleEscape? x = some c)
    (h : readText cs = .ok (s, rest)) : readText ('\\' :: x :: cs) = .ok (c :: s, rest) := by
  have hu : x ≠ 'u' := by
    rintro rfl
    cases hx
  simp [readText, hu, hx, h, Functor.map, Except.map]

/-- A control character is read from its number. -/
theorem readText_control {c : Char} {cs s rest : List Char} (hc : c.val < 0x20)
    (h : readText cs = .ok (s, rest)) :
    readText ('\\' :: 'u' :: '0' :: '0' ::
      hexDigit (c.toNat / 16) :: hexDigit (c.toNat % 16) :: cs) = .ok (c :: s, rest) := by
  have hn : c.toNat < 32 := hc
  have htrailing : isTrailing c.toNat = false := by simp [isTrailing]; omega
  have hleading : isLeading c.toNat = false := by simp [isLeading]; omega
  simp [readText, hexNumber?_of_lt hc, htrailing, hleading, h, Functor.map, Except.map]

/-- Any other character is read as it is. -/
theorem readText_plain {c : Char} {cs s rest : List Char} (hquote : c ≠ '"') (hslash : c ≠ '\\')
    (hc : ¬ c.val < 0x20) (h : readText cs = .ok (s, rest)) :
    readText (c :: cs) = .ok (c :: s, rest) := by
  simp [readText, hslash, hc, h, Functor.map, Except.map]

/-- **A written character** is read as itself. -/
theorem readText_escapeChar (c : Char) {cs s rest : List Char}
    (h : readText cs = .ok (s, rest)) : readText (escapeChar c ++ cs) = .ok (c :: s, rest) := by
  unfold escapeChar
  split
  · exact readText_simple rfl h
  · exact readText_simple rfl h
  · exact readText_simple rfl h
  · exact readText_simple rfl h
  · exact readText_simple rfl h
  · exact readText_simple rfl h
  · exact readText_simple rfl h
  · next hquote hslash _ _ _ _ _ =>
    split
    · next hc => exact readText_control hc h
    · next hc => exact readText_plain hquote hslash hc h

/-! ## Strings -/

/-- **A written string** is read as itself, from behind its opening quotation mark. -/
theorem readText_written (s rest : List Char) :
    readText (s.flatMap escapeChar ++ '"' :: rest) = .ok (s, rest) := by
  induction s with
  | nil => rfl
  | cons c s ih =>
    rw [List.flatMap_cons, List.append_assoc]
    exact readText_escapeChar c ih

/-- A string of which a part was read first was read. -/
theorem exists_readText {f : List Char → List Char} {cs s rest : List Char}
    (h : (do let (t, r) ← readText cs; return (f t, r)) = Except.ok (s, rest)) :
    ∃ t, readText cs = .ok (t, rest) := by
  cases hcs : readText cs with
  | error stop =>
    rw [hcs] at h
    cases h
  | ok p =>
    rw [hcs] at h
    cases h
    exact ⟨p.1, rfl⟩

/-- What can be read can be passed over. -/
theorem skipText_of_readText {cs s rest : List Char} (h : readText cs = .ok (s, rest)) :
    skipText cs = .ok rest := by
  fun_induction readText cs generalizing s with
  | case2 =>
    cases h
    rfl
  | case6 a b c d n hn _ _ a' b' c' d' r m hm _ ih =>
    -- two numbers that stand for one character
    obtain ⟨t, ht⟩ := exists_readText h
    simp [skipText, hn, hm, ih ht]
  | case10 a b c d r n hn _ _ ih =>
    obtain ⟨t, ht⟩ := exists_readText h
    simp [skipText, hn, ih ht]
  | case14 c r _ _ x hx ih =>
    obtain ⟨t, ht⟩ := exists_readText h
    simp [skipText, hx, ih ht]
  | case16 c r _ _ _ _ _ hc ih =>
    obtain ⟨t, ht⟩ := exists_readText h
    rw [skipText, if_neg hc, ih ht]
    all_goals assumption
  | _ => cases h

theorem skipText_written (s rest : List Char) :
    skipText (s.flatMap escapeChar ++ '"' :: rest) = .ok rest :=
  skipText_of_readText (readText_written s rest)

end RunnerCatalog.Json
