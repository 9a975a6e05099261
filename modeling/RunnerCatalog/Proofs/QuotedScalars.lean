/-
  Quoted scalars that were written.

  1. **Numbers** - the digits of a character's number give the number back
     (`hexNumber?_hexText`).  Powers are `Nat.pow`, the same whatever a module imports.

  2. **Characters** - between double quotation marks every character but a space belongs to a run,
     whether it is written as it stands, by a letter or by its number (`doubleRun_char`).  Between
     single ones the breaks end a run too, and only the mark itself is written twice
     (`singleRun_char`).

  3. **Parts** - so the text is a run, and behind it a gap and a text again (`Quotable.parts`).  A
     run is read as itself (`readRun_written`), and so is a gap of spaces or of breaks.

  4. **Texts** - by induction on the rounds, the whole text is read (`readQuoted_written`).
-/
import Mathlib.Tactic.SplitIfs
import RunnerCatalog.Proofs.Gaps

namespace RunnerCatalog.Yaml

/-! ## Numbers -/

/-- The number that digits give. -/
def hexSum (digits : List Nat) : Nat := digits.foldl (fun v d => v * 16 + d) 0

theorem hexSum_append (ds es : List Nat) :
    hexSum (ds ++ es) = es.foldl (fun v d => v * 16 + d) (hexSum ds) := List.foldl_append

theorem hexSum_zeros (n : Nat) (ds : List Nat) : hexSum (List.replicate n 0 ++ ds) = hexSum ds := by
  induction n with
  | zero => rfl
  | succ n ih => exact ih

theorem hexValue?_digitChar :
    ∀ d : Fin 16, hexValue? (Nat.digitChar d.val).toUpper = some d.val := by
  decide

/-- The digits of a number, and what they are worth. -/
theorem filterMap_toDigits (v : Nat) : ∃ ds,
    ((Nat.toDigits 16 v).map Char.toUpper).filterMap hexValue? = ds ∧
      ds.length = (Nat.toDigits 16 v).length ∧ hexSum ds = v := by
  induction v using Nat.strongRecOn with
  | ind v ih =>
    have hdigit : hexValue? (Nat.digitChar (v % 16)).toUpper = some (v % 16) :=
      hexValue?_digitChar ⟨v % 16, Nat.mod_lt v (by decide)⟩
    rw [Nat.toDigits_eq_if (by decide)]
    split
    · next hlt =>
      rw [Nat.mod_eq_of_lt hlt] at hdigit
      refine ⟨[v], by simp [hdigit], rfl, by simp [hexSum]⟩
    · next hge =>
      obtain ⟨ds, hds, hlength, hsum⟩ := ih (v / 16) (by omega)
      refine ⟨ds ++ [v % 16], by simp [hdigit, ← hds], by simp [hlength], ?_⟩
      rw [hexSum_append, hsum]
      show v / 16 * 16 + v % 16 = v
      omega

/-- **Digits** stand for the number that they were written for. -/
theorem hexNumber?_hexText {n v : Nat} (hn : 0 < n) (hv : v < Nat.pow 16 n) (rest : List Char) :
    (hexText n v).length = n ∧ hexNumber? n (hexText n v ++ rest) = some v := by
  obtain ⟨ds, hds, hlength, hsum⟩ := filterMap_toDigits v
  have hle : (Nat.toDigits 16 v).length ≤ n := (Nat.length_toDigits_le_iff (by decide) hn).mpr hv
  have htext : (hexText n v).length = n := by
    simp [hexText]
    omega
  have hvalues : (hexText n v).filterMap hexValue? =
      List.replicate (n - (Nat.toDigits 16 v).length) 0 ++ ds := by
    have hzero : hexValue? '0' = some 0 := by decide
    rw [hexText, List.filterMap_append, hds, List.length_map]
    simp [hzero]
  refine ⟨htext, ?_⟩
  rw [hexNumber?, List.take_left' htext, hvalues]
  simp only [List.length_append, List.length_replicate, hlength]
  rw [if_pos (by omega)]
  exact congrArg some ((hexSum_zeros _ ds).trans hsum)

/-! ## Characters -/

variable {start place : Place} {rest : List Char}

theorem escaped?_of_escapeLetter? {c letter : Char} (h : escapeLetter? c = some letter) :
    escaped? letter = some c ∧ isBreak letter = false := by
  unfold escapeLetter? at h
  split at h
  all_goals cases h
  all_goals exact ⟨rfl, rfl⟩

theorem isGapOrBreak_of_escapeLetter? {c : Char} (h : escapeLetter? c = none) (hspace : c ≠ ' ') :
    isGapOrBreak c = false := by
  refine Bool.eq_false_iff.mpr fun hgap => ?_
  simp only [isGapOrBreak, isGap, isBreak, Bool.or_eq_true, beq_iff_eq] at hgap
  obtain (rfl | rfl) | (((rfl | rfl) | rfl) | rfl) | rfl := hgap
  · exact hspace rfl
  all_goals exact absurd h (by decide)

theorem right_right (p : Place) (m n : Nat) : (p.right m).right n = p.right (m + n) := by
  simp [Place.right, Nat.add_assoc]

/-- An escape goes on behind what is read of it. -/
theorem doubleRun_escape {c letter : Char} {r : List Char} {next : Cursor}
    (hbreak : isBreak letter = false)
    (hread : readEscape start letter ⟨'\\' :: letter :: r, place⟩ = .ok (c, next)) (fuel : Nat) :
    doubleRun start (fuel + 1) ⟨'\\' :: letter :: r, place⟩ =
      (do return (← doubleRun start fuel next).cons c) := by
  rw [doubleRun]
  simp only [hbreak, hread]
  rfl

/-- The numbers of characters. -/
theorem toNat_scalar (c : Char) :
    ¬ (0xD800 ≤ c.toNat ∧ c.toNat ≤ 0xDFFF) ∧ c.toNat ≤ 0x10FFFF := by
  have hvalid := c.valid
  rw [UInt32.isValidChar, Nat.isValidChar] at hvalid
  show ¬ (0xD800 ≤ c.val.toNat ∧ c.val.toNat ≤ 0xDFFF) ∧ c.val.toNat ≤ 0x10FFFF
  omega

/-- An escape by number is read as its character. -/
theorem readEscape_number {c letter : Char} {n : Nat} (hletter : escaped? letter = none)
    (hdigits : escapeDigits? letter = some n) (hn : 0 < n) (hc : c.toNat < Nat.pow 16 n) :
    readEscape start letter ⟨'\\' :: letter :: (hexText n c.toNat ++ rest), place⟩ =
      .ok (c, ⟨rest, place.right (['\\', letter] ++ hexText n c.toNat).length⟩) := by
  obtain ⟨hlength, hnumber⟩ := hexNumber?_hexText hn hc rest
  have hvalid : ¬ ((0xD800 ≤ c.toNat ∧ c.toNat ≤ 0xDFFF) ∨ 0x10FFFF < c.toNat) :=
    not_or.mpr ⟨(toNat_scalar c).1, Nat.not_lt.mpr (toNat_scalar c).2⟩
  rw [readEscape, hletter]
  simp only [hdigits, Cursor.skip, List.drop_succ_cons, List.drop_zero, hnumber]
  rw [if_neg hvalid, List.drop_left' hlength, right_right, Char.ofNat_toNat, List.length_append,
    hlength]
  rfl

/-- **A character** between double quotation marks, unless it is a space. -/
theorem doubleRun_char {c : Char} (hspace : c ≠ ' ') (hrest : rest ≠ []) (fuel : Nat) :
    doubleRun start (fuel + 1) ⟨writeDoubleChar c ++ rest, place⟩ =
      (do return (← doubleRun start fuel
        ⟨rest, place.right (writeDoubleChar c).length⟩).cons c) := by
  cases hletter : escapeLetter? c with
  | some letter =>
    obtain ⟨hread, hbreak⟩ := escaped?_of_escapeLetter? hletter
    have hwritten : writeDoubleChar c = ['\\', letter] := by rw [writeDoubleChar, hletter]
    rw [hwritten]
    refine doubleRun_escape hbreak ?_ fuel
    rw [readEscape, hread]
    rfl
  | none =>
    rw [writeDoubleChar, hletter]
    simp only
    split_ifs with hshown hbyte hword
    · obtain ⟨y, ys, rfl⟩ := List.exists_cons_of_ne_nil hrest
      have hgap := isGapOrBreak_of_escapeLetter? hletter hspace
      have hquote : c ≠ '"' := by
        rintro rfl
        cases hletter
      have hback : c ≠ '\\' := by
        rintro rfl
        cases hletter
      show doubleRun start (fuel + 1) ⟨c :: y :: ys, place⟩ = _
      rw [doubleRun]
      simp only [hgap, hquote, hback]
      rfl
    · have hdigits : c.toNat < Nat.pow 16 2 := Nat.lt_of_le_of_lt hbyte (by decide)
      exact doubleRun_escape (by decide) (readEscape_number rfl rfl (by decide) hdigits) fuel
    · have hdigits : c.toNat < Nat.pow 16 4 := Nat.lt_of_le_of_lt hword (by decide)
      exact doubleRun_escape (by decide) (readEscape_number rfl rfl (by decide) hdigits) fuel
    · have hdigits : c.toNat < Nat.pow 16 8 :=
        Nat.lt_of_le_of_lt (toNat_scalar c).2 (by decide)
      exact doubleRun_escape (by decide) (readEscape_number rfl rfl (by decide) hdigits) fuel

/-- A character between single quotation marks. -/
def quotedChar (c : Char) : List Char := if c = '\'' then ['\'', '\''] else [c]

/-- **A character** between single quotation marks, unless it is a blank or a break. -/
theorem singleRun_char {c : Char} (hgap : isGapOrBreak c = false) :
    singleRun (quotedChar c ++ rest) place =
      (singleRun rest (place.right (quotedChar c).length)).cons c := by
  rw [quotedChar]
  split_ifs with hquote
  · rw [hquote]
    rfl
  · show singleRun (c :: rest) place = _
    rw [singleRun]
    · rw [if_neg (by rw [hgap]; simpa using hquote)]
      rfl
    · exact fun _ heq => absurd heq hquote

/-! ## Parts -/

/-- What is written of a text behind the opening mark. -/
def inside : Bool → List Char → List Char
  | true, cs =>
    writeLines false (cs.flatMap quotedChar) ++ (if endsLine cs then margin else []) ++ ['\'']
  | false, cs => cs.flatMap writeDoubleChar ++ ['"']

theorem writeSingle_eq (cs : List Char) : writeSingle cs = '\'' :: inside true cs := rfl

theorem writeDouble_eq (cs : List Char) : writeDouble cs = '"' :: inside false cs := rfl

/-- Whether a character ends a run. -/
def endsRun : Bool → Char → Bool
  | true, c => isGapOrBreak c
  | false, c => isSpace c

theorem flatMap_quotedChar {cs : List Char} (h : '\'' ∉ cs) : cs.flatMap quotedChar = cs := by
  induction cs with
  | nil => rfl
  | cons c cs ih =>
    rw [List.mem_cons, not_or] at h
    rw [List.flatMap_cons, ih h.2, quotedChar, if_neg (Ne.symm h.1)]
    rfl

theorem writeLines_quotedChar {c : Char} (hbreak : isBreak c = false) (r : List Char) :
    writeLines false (quotedChar c ++ r) = quotedChar c ++ writeLines false r := by
  rw [quotedChar]
  split_ifs with hquote
  · rfl
  · show writeLines false (c :: r) = c :: writeLines false r
    rw [writeLines, hbreak]
    rfl

theorem inside_single_cons {c : Char} (hbreak : isBreak c = false) (cs : List Char) :
    inside true (c :: cs) = quotedChar c ++ inside true cs := by
  rw [inside, inside, endsLine_cons hbreak, List.flatMap_cons, writeLines_quotedChar hbreak]
  simp only [List.append_assoc]

theorem inside_space (single : Bool) (cs : List Char) :
    inside single (' ' :: cs) = ' ' :: inside single cs := by
  cases single with
  | true => exact inside_single_cons rfl cs
  | false => rfl

theorem inside_spaces (single : Bool) (n : Nat) (cs : List Char) :
    inside single (List.replicate n ' ' ++ cs) = List.replicate n ' ' ++ inside single cs := by
  induction n with
  | zero => rfl
  | succ n ih =>
    rw [List.replicate_succ, List.cons_append, inside_space, ih]
    rfl

/-- Between single quotation marks there is a margin behind breaks. -/
theorem inside_breaks {b : Char} {breaks cs : List Char} (hb : ∀ c ∈ b :: breaks, isBreak c = true)
    (hcs : ∀ c ∈ cs.head?, isBreak c = false) :
    inside true (b :: (breaks ++ cs)) =
      b :: (breaks ++ (List.replicate 2 ' ' ++ inside true cs)) := by
  have hplain : '\'' ∉ b :: breaks := fun hquote => absurd (hb _ hquote) (by decide)
  have hlines : writeLines false (b :: (breaks ++ cs.flatMap quotedChar)) =
      b :: (breaks ++ writeLines true (cs.flatMap quotedChar)) := by
    rw [writeLines, if_pos (hb b List.mem_cons_self),
      writeLines_breaks fun c hc => hb c (List.mem_cons_of_mem b hc)]
  rw [inside, ← List.cons_append, List.flatMap_append, flatMap_quotedChar hplain, List.cons_append,
    hlines]
  cases cs with
  | nil =>
    rw [List.append_nil, endsLine_breaks (List.cons_ne_nil _ _) hb]
    simp [writeLines, inside, endsLine, margin]
  | cons c cs =>
    have hc := hcs c rfl
    have hfresh : writeLines true ((c :: cs).flatMap quotedChar) =
        margin ++ writeLines false ((c :: cs).flatMap quotedChar) := by
      rw [List.flatMap_cons, quotedChar]
      split_ifs
      · rfl
      · exact writeLines_fresh hc _
    rw [endsLine_append (List.cons_ne_nil c cs), hfresh, inside]
    simp [margin]

/-- A character that ends a run is written as it is. -/
theorem inside_head {single : Bool} {c : Char} (h : endsRun single c = true) (cs : List Char) :
    ∃ r, inside single (c :: cs) = c :: r := by
  cases single with
  | false =>
    obtain rfl : c = ' ' := by simpa [endsRun, isSpace] using h
    exact ⟨_, inside_space false cs⟩
  | true =>
    cases hbreak : isBreak c with
    | true =>
      have hquote : c ≠ '\'' := by
        rintro rfl
        cases h
      refine ⟨writeLines true (cs.flatMap quotedChar) ++
        (if endsLine (c :: cs) then margin else []) ++ ['\''], ?_⟩
      rw [inside, List.flatMap_cons, quotedChar, if_neg hquote, List.singleton_append, writeLines,
        if_pos hbreak]
      rfl
    | false =>
      have hquote : c ≠ '\'' := by
        rintro rfl
        cases h
      refine ⟨inside true cs, ?_⟩
      rw [inside_single_cons hbreak, quotedChar, if_neg hquote]
      rfl

/-- A text that begins with a run, or is at its end, is not written with a gap in front. -/
theorem solid_inside {single : Bool} {cs : List Char} (h : ∀ c ∈ cs.head?, endsRun single c = false)
    (tail : List Char) : Solid (inside single cs ++ tail) := by
  cases cs with
  | nil =>
    cases single with
    | true => exact solid_cons rfl
    | false => exact solid_cons rfl
  | cons c cs =>
    have hc := h c rfl
    cases single with
    | true =>
      rw [inside_single_cons (isGapOrBreak_eq_false.mp hc).2, quotedChar]
      split_ifs
      · exact solid_cons rfl
      · exact solid_cons hc
    | false =>
      have hspace : c ≠ ' ' := by simpa [endsRun, isSpace] using hc
      rw [inside, List.flatMap_cons, writeDoubleChar]
      cases hletter : escapeLetter? c with
      | some letter => exact solid_cons rfl
      | none =>
        simp only
        split_ifs
        · exact solid_cons (isGapOrBreak_of_escapeLetter? hletter hspace)
        all_goals exact solid_cons rfl

/-- The beginning of what is written behind a run: the closing mark, with something behind it, or
    a character that ends the run. -/
theorem inside_behind {single : Bool} {more : List Char}
    (hmore : ∀ c ∈ more.head?, endsRun single c = true) (tail : List Char) :
    ∃ x y r, inside single more ++ '\n' :: tail = x :: y :: r ∧
      ((x = (if single then '\'' else '"') ∧ y = '\n') ∨ endsRun single x = true) := by
  cases more with
  | nil =>
    cases single with
    | true => exact ⟨'\'', '\n', tail, rfl, Or.inl ⟨rfl, rfl⟩⟩
    | false => exact ⟨'"', '\n', tail, rfl, Or.inl ⟨rfl, rfl⟩⟩
  | cons c more =>
    have hc := hmore c rfl
    obtain ⟨r, hr⟩ := inside_head hc more
    obtain ⟨y, ys, hys⟩ := List.exists_cons_of_ne_nil
      (List.append_ne_nil_of_right_ne_nil r (List.cons_ne_nil '\n' tail))
    exact ⟨c, y, ys, by rw [hr, List.cons_append, hys], Or.inr hc⟩

/-- **A run** between single quotation marks. -/
theorem singleRun_written {word more : List Char} (place : Place)
    (hword : ∀ c ∈ word, endsRun true c = false)
    (hmore : ∀ c ∈ more.head?, endsRun true c = true) (tail : List Char) :
    ∃ n, singleRun (inside true (word ++ more) ++ '\n' :: tail) place =
      ⟨word, .stop, ⟨inside true more ++ '\n' :: tail, place.right n⟩⟩ := by
  induction word generalizing place with
  | nil =>
    refine ⟨0, ?_⟩
    obtain ⟨x, y, r, hrest, hx⟩ := inside_behind hmore tail
    rw [List.nil_append, hrest, singleRun]
    · rw [if_pos]
      · rfl
      · exact hx.imp And.left id
    · rintro r' rfl hr'
      obtain ⟨-, rfl⟩ | hx := hx
      · exact absurd (List.cons.inj hr').1 (by decide)
      · cases hx
  | cons c word ih =>
    have hc := hword c List.mem_cons_self
    obtain ⟨n, hread⟩ := ih (place.right (quotedChar c).length)
      fun d hd => hword d (List.mem_cons_of_mem c hd)
    refine ⟨(quotedChar c).length + n, ?_⟩
    rw [List.cons_append, inside_single_cons (isGapOrBreak_eq_false.mp hc).2, List.append_assoc,
      singleRun_char hc, hread, right_right]
    rfl

/-- **A run** between double quotation marks. -/
theorem doubleRun_written {word more : List Char} (start place : Place)
    (hword : ∀ c ∈ word, endsRun false c = false)
    (hmore : ∀ c ∈ more.head?, endsRun false c = true) (tail : List Char) {fuel : Nat}
    (hfuel : word.length < fuel) :
    ∃ n, doubleRun start fuel ⟨inside false (word ++ more) ++ '\n' :: tail, place⟩ =
      .ok ⟨word, .stop, ⟨inside false more ++ '\n' :: tail, place.right n⟩⟩ := by
  induction word generalizing place fuel with
  | nil =>
    obtain ⟨fuel, rfl⟩ := Nat.exists_eq_succ_of_ne_zero (Nat.ne_of_gt hfuel)
    refine ⟨0, ?_⟩
    obtain ⟨x, y, r, hrest, hx⟩ := inside_behind hmore tail
    rw [List.nil_append, hrest, doubleRun]
    simp only
    rw [if_pos]
    · rfl
    · obtain ⟨rfl, -⟩ | hx := hx
      · exact Or.inl rfl
      · obtain rfl : x = ' ' := by simpa [endsRun, isSpace] using hx
        exact Or.inr rfl
  | cons c word ih =>
    obtain ⟨fuel, rfl⟩ := Nat.exists_eq_succ_of_ne_zero (Nat.ne_of_gt (Nat.zero_lt_of_lt hfuel))
    have hspace : c ≠ ' ' := by simpa [endsRun, isSpace] using hword c List.mem_cons_self
    obtain ⟨n, hread⟩ := ih (place.right (writeDoubleChar c).length)
      (fun d hd => hword d (List.mem_cons_of_mem c hd)) (Nat.lt_of_succ_lt_succ hfuel)
    refine ⟨(writeDoubleChar c).length + n, ?_⟩
    have hwritten : inside false (c :: word ++ more) ++ '\n' :: tail =
        writeDoubleChar c ++ (inside false (word ++ more) ++ '\n' :: tail) := by
      simp [inside]
    rw [hwritten, doubleRun_char hspace (List.append_ne_nil_of_right_ne_nil _
      (List.cons_ne_nil _ _)), hread, right_right]
    rfl

/-! ## Texts -/

theorem length_flatMap_le {f : Char → List Char} (hf : ∀ c, f c ≠ []) (cs : List Char) :
    cs.length ≤ (cs.flatMap f).length := by
  induction cs with
  | nil => exact Nat.zero_le _
  | cons c cs ih =>
    have hone := List.length_pos_iff.mpr (hf c)
    rw [List.flatMap_cons, List.length_append, List.length_cons]
    omega

theorem quotedChar_ne_nil (c : Char) : quotedChar c ≠ [] := by
  rw [quotedChar]
  split_ifs
  all_goals exact List.cons_ne_nil _ _

theorem writeDoubleChar_ne_nil (c : Char) : writeDoubleChar c ≠ [] := by
  rw [writeDoubleChar]
  split
  · exact List.cons_ne_nil _ _
  · split_ifs
    all_goals exact List.cons_ne_nil _ _

/-- What is written has more characters than the text, for there is the closing mark. -/
theorem length_inside_lt (single : Bool) (cs : List Char) :
    cs.length < (inside single cs).length := by
  cases single with
  | true =>
    have hquoted := length_flatMap_le quotedChar_ne_nil cs
    have hlines := length_writeLines_le false (cs.flatMap quotedChar)
    rw [inside, List.length_append, List.length_append, List.length_singleton]
    omega
  | false =>
    have hquoted := length_flatMap_le writeDoubleChar_ne_nil cs
    rw [inside, List.length_append, List.length_singleton]
    omega

/-- Between single quotation marks there may be only shown characters, no line feeds, and no space
    beside a break, as it would not count. -/
def Quotable : Bool → List Char → Prop
  | true, cs => (∀ c ∈ cs, isShown c = true ∧ c ≠ '\n') ∧ hasAdjacent isBreak isSpace cs = false ∧
      hasAdjacent isSpace isBreak cs = false
  | false, _ => True

theorem hasAdjacent_append {p q : Char → Bool} {cs ds : List Char}
    (h : hasAdjacent p q (cs ++ ds) = false) : hasAdjacent p q ds = false := by
  induction cs with
  | nil => exact h
  | cons c cs ih =>
    refine ih ?_
    cases hrest : cs ++ ds with
    | nil => rfl
    | cons d rest =>
      rw [List.cons_append, hrest, hasAdjacent, Bool.or_eq_false_iff] at h
      exact h.2

theorem Quotable.append {single : Bool} {cs ds : List Char} (h : Quotable single (cs ++ ds)) :
    Quotable single ds := by
  cases single with
  | false => trivial
  | true =>
    obtain ⟨hshown, hbefore, hbehind⟩ := h
    exact ⟨fun c hc => hshown c (List.mem_append_right cs hc), hasAdjacent_append hbefore,
      hasAdjacent_append hbehind⟩

/-- Behind a character of one kind there is none of the other kind. -/
theorem of_hasAdjacent {p q : Char → Bool} {cs ds : List Char} {c d : Char}
    (h : hasAdjacent p q (cs ++ c :: d :: ds) = false) (hc : p c = true) : q d = false := by
  have hpair := hasAdjacent_append h
  rw [hasAdjacent, hc, Bool.true_and, Bool.or_eq_false_iff] at hpair
  exact hpair.1

/-- A gap of a text: spaces, or, between single quotation marks, breaks. -/
inductive IsGap : Bool → List Char → Prop
  | spaces (single : Bool) (n : Nat) : IsGap single (List.replicate (n + 1) ' ')
  | breaks {b : Char} {more : List Char}
      (h : ∀ c ∈ b :: more, (isShown c = true ∧ isBreak c = true) ∧ c ≠ '\n') :
      IsGap true (b :: more)

theorem IsGap.ne_nil {single : Bool} {gap : List Char} (h : IsGap single gap) : gap ≠ [] := by
  cases h with
  | spaces _ n => exact List.cons_ne_nil _ _
  | breaks h => exact List.cons_ne_nil _ _

/-- Behind spaces there is the beginning of a run, or the end. -/
theorem Quotable.behind_spaces {single : Bool} {n : Nat} {rest : List Char}
    (h : Quotable single (' ' :: (List.replicate n ' ' ++ rest))) (hrest : rest.head? ≠ some ' ') :
    ∀ c ∈ rest.head?, endsRun single c = false := by
  cases rest with
  | nil => exact fun c hc => absurd hc (by simp)
  | cons d rest =>
    intro c hc
    obtain rfl := Option.some.inj hc
    have hspace : d ≠ ' ' := fun heq => hrest (by rw [heq]; rfl)
    cases single with
    | false => simpa [endsRun, isSpace] using hspace
    | true =>
      obtain ⟨hshown, -, hbehind⟩ := h
      rw [← List.cons_append, ← List.replicate_succ, List.replicate_succ', List.append_assoc]
        at hbehind
      refine isGapOrBreak_eq_false.mpr ⟨?_, of_hasAdjacent hbehind rfl⟩
      refine Bool.eq_false_iff.mpr fun hgap => hspace (isSpace_of_isShown ?_ hgap)
      exact (hshown d (by simp)).1

/-- Behind breaks, too. -/
theorem Quotable.behind_breaks {b : Char} {breaks rest : List Char}
    (h : Quotable true (b :: (breaks ++ rest))) (hbreaks : ∀ c ∈ b :: breaks, isBreak c = true)
    (hrest : ∀ c ∈ rest.head?, isBreak c = false) :
    ∀ c ∈ rest.head?, endsRun true c = false := by
  cases rest with
  | nil => exact fun c hc => absurd hc (by simp)
  | cons d rest =>
    intro c hc
    obtain rfl := Option.some.inj hc
    obtain ⟨hshown, hbefore, -⟩ := h
    refine isGapOrBreak_eq_false.mpr ⟨Bool.eq_false_iff.mpr fun hgap => ?_, hrest d rfl⟩
    have hspace := isSpace_of_isShown (hshown d (by simp)).1 hgap
    have hlast : b :: breaks ≠ [] := List.cons_ne_nil _ _
    rw [← List.cons_append, ← List.dropLast_concat_getLast hlast, List.append_assoc] at hbefore
    have hnot := of_hasAdjacent hbefore (hbreaks _ (List.getLast_mem hlast))
    rw [hspace] at hnot
    exact absurd hnot (by decide)

/-- **A text** begins with a run, which may be empty.  Behind that it ends, or there is a gap and a
    text again. -/
theorem Quotable.parts {single : Bool} {cs : List Char} (h : Quotable single cs) :
    ∃ word more, cs = word ++ more ∧ (∀ c ∈ word, endsRun single c = false) ∧
      (∀ c ∈ more.head?, endsRun single c = true) ∧
      (more = [] ∨ ∃ gap rest, more = gap ++ rest ∧ IsGap single gap ∧
        ∀ c ∈ rest.head?, endsRun single c = false) := by
  obtain ⟨word, more, rfl, hword, hhead⟩ := exists_split (endsRun single) cs
  refine ⟨word, more, rfl, hword, hhead, ?_⟩
  cases more with
  | nil => exact Or.inl rfl
  | cons d more =>
    refine Or.inr ?_
    have hd := hhead d rfl
    have hmore := h.append
    by_cases hspace : d = ' '
    · obtain ⟨n, rest, rfl, hrest⟩ := exists_spaces more
      rw [hspace] at hmore ⊢
      exact ⟨List.replicate (n + 1) ' ', rest, rfl, .spaces single n, hmore.behind_spaces hrest⟩
    · cases single with
      | false => exact absurd (by simpa [endsRun, isSpace] using hd) hspace
      | true =>
        have hbreak : isBreak d = true := by
          rw [endsRun, isGapOrBreak, Bool.or_eq_true] at hd
          refine hd.resolve_left fun hgap => hspace (isSpace_of_isShown ?_ hgap)
          exact (hmore.1 d List.mem_cons_self).1
        obtain ⟨breaks, rest, rfl, hbreaks, hrest⟩ := exists_breaks more
        have hall : ∀ c ∈ d :: breaks, isBreak c = true :=
          List.forall_mem_cons.mpr ⟨hbreak, hbreaks⟩
        refine ⟨d :: breaks, rest, rfl, .breaks fun c hc => ?_, hmore.behind_breaks hall hrest⟩
        obtain ⟨hshown, hfeed⟩ := hmore.1 c (List.mem_append_left rest hc)
        exact ⟨⟨hshown, hall c hc⟩, hfeed⟩

/-- **A gap** is read as itself, and the text goes on within a line. -/
theorem readGap_inside {single : Bool} {gap cs : List Char} (place : Place)
    (hgap : IsGap single gap) (hcs : ∀ c ∈ cs.head?, endsRun single c = false) (tail : List Char) :
    ∃ (g : Gap) (place' : Place), g.text = gap ∧ place'.column ≠ 0 ∧
      readGap 0 .none (inside single (gap ++ cs) ++ tail) place =
        .ok (g, ⟨inside single cs ++ tail, place'⟩) := by
  have hsolid := solid_inside hcs tail
  cases hgap with
  | spaces _ n =>
    refine ⟨⟨List.replicate (n + 1) ' ', [], [], false⟩, place.right (n + 1), rfl, ?_, ?_⟩
    · show place.column + (n + 1) ≠ 0
      omega
    · rw [inside_spaces, List.append_assoc]
      exact readGap_spaces 0 [] place (n + 1) hsolid
  | @breaks b more h =>
    have hnot : ∀ c ∈ cs.head?, isBreak c = false :=
      fun c hc => (isGapOrBreak_eq_false.mp (hcs c hc)).2
    obtain ⟨place', hcolumn', hread⟩ := readGap_breaks 0 place
      (fun c hc => (h c hc).1) 2 hsolid
    refine ⟨⟨[], [b], more, true⟩, place', ?_, by omega, ?_⟩
    · have hfeed : [b] ≠ ['\n'] := fun heq =>
        (h b List.mem_cons_self).2 (List.cons.inj heq).1
      rw [Gap.text, if_pos rfl, if_neg hfeed]
      rfl
    · rw [List.cons_append, inside_breaks (fun c hc => (h c hc).1.2) hnot, ← hread]
      simp only [List.append_assoc, List.cons_append]

/-- The run that a round reads. -/
def readRun (single : Bool) (start : Place) (c : Cursor) : Except Fault Run :=
  if single then .ok (singleRun c.rest c.place) else doubleRun start (c.rest.length + 1) c

/-- **A run** between quotation marks of either kind. -/
theorem readRun_written {single : Bool} {word more : List Char} (start place : Place)
    (hword : ∀ c ∈ word, endsRun single c = false)
    (hmore : ∀ c ∈ more.head?, endsRun single c = true) (tail : List Char) :
    ∃ n, readRun single start ⟨inside single (word ++ more) ++ '\n' :: tail, place⟩ =
      .ok ⟨word, .stop, ⟨inside single more ++ '\n' :: tail, place.right n⟩⟩ := by
  cases single with
  | true =>
    obtain ⟨n, hread⟩ := singleRun_written place hword hmore tail
    exact ⟨n, by rw [readRun, if_pos rfl, hread]⟩
  | false =>
    have hfuel : word.length < (inside false (word ++ more) ++ '\n' :: tail).length + 1 := by
      have hlength := length_inside_lt false (word ++ more)
      rw [List.length_append] at hlength ⊢
      omega
    obtain ⟨n, hread⟩ := doubleRun_written start place hword hmore tail hfuel
    exact ⟨n, by rw [readRun, if_neg Bool.false_ne_true, hread]⟩

/-- A round within a line. -/
theorem readQuotedFrom_round {single : Bool} {text word : List Char} {c next : Cursor}
    (hcolumn : c.place.column ≠ 0) (hend : c.atEnd = false)
    (hrun : readRun single start c = .ok ⟨word, .stop, next⟩) (fuel : Nat) :
    readQuotedFrom single start (fuel + 1) text c =
      if next.nextIs (fun x => x == (if single then '\'' else '"')) then
        .ok (text ++ word, next.skip 1)
      else
        match readGap 0 .none next.rest next.place with
        | .error place => .error (.within .quotedScalar start .quotedEnd place)
        | .ok (gap, c) => readQuotedFrom single start fuel (text ++ word ++ gap.text) c := by
  rw [readQuotedFrom, Cursor.atDocumentMarker, atMarker_of_column hcolumn,
    atMarker_of_column hcolumn, hend]
  rw [readRun] at hrun
  cases single with
  | true =>
    have hsingle : singleRun c.rest c.place = ⟨word, .stop, next⟩ := Except.ok.inj hrun
    simp only [Bool.or_self, Bool.false_eq_true, if_false, if_true, bind, Except.bind, pure,
      Except.pure, hsingle]
    rfl
  | false =>
    rw [if_neg Bool.false_ne_true] at hrun
    simp only [Bool.or_self, Bool.false_eq_true, if_false, bind, Except.bind, pure, Except.pure,
      hrun]
    rfl

/-- **A quoted text** is read up to its closing mark. -/
theorem readQuotedFrom_written {single : Bool} {cs : List Char} (start : Place)
    (tail : List Char) (fuel : Nat) (text : List Char) (place : Place)
    (h : Quotable single cs) (hfuel : cs.length < fuel) (hcolumn : place.column ≠ 0) :
    ∃ place', readQuotedFrom single start fuel text ⟨inside single cs ++ '\n' :: tail, place⟩ =
      .ok (text ++ cs, ⟨'\n' :: tail, place'⟩) := by
  induction fuel generalizing cs text place with
  | zero => omega
  | succ fuel ih =>
    obtain ⟨word, more, rfl, hword, hmore, hbehind⟩ := h.parts
    obtain ⟨n, hrun⟩ := readRun_written start place hword hmore tail
    have hend : Cursor.atEnd ⟨inside single (word ++ more) ++ '\n' :: tail, place⟩ = false := by
      simp [Cursor.atEnd]
    rw [readQuotedFrom_round hcolumn hend hrun]
    obtain rfl | ⟨gap, rest, rfl, hgap, hrest⟩ := hbehind
    · refine ⟨(place.right n).right 1, ?_⟩
      cases single with
      | true => rw [List.append_nil]; rfl
      | false => rw [List.append_nil]; rfl
    · obtain ⟨g, place', htext, hcolumn', hread⟩ := readGap_inside (place.right n) hgap
        hrest ('\n' :: tail)
      have hmark : Cursor.nextIs (fun x => x == (if single then '\'' else '"'))
          ⟨inside single (gap ++ rest) ++ '\n' :: tail, place.right n⟩ = false := by
        obtain ⟨b, more, rfl⟩ := List.exists_cons_of_ne_nil hgap.ne_nil
        have hb := hmore b rfl
        obtain ⟨r, hr⟩ := inside_head hb (more ++ rest)
        rw [List.cons_append, hr]
        refine beq_eq_false_iff_ne.mpr ?_
        rintro rfl
        cases single with
        | true => cases hb
        | false => cases hb
      have hlength : rest.length < fuel := by
        have hpos := List.length_pos_iff.mpr hgap.ne_nil
        rw [List.length_append, List.length_append] at hfuel
        omega
      obtain ⟨place'', hmore⟩ := ih (text ++ word ++ gap) place' h.append.append hlength
        hcolumn'
      refine ⟨place'', ?_⟩
      rw [hmark, if_neg Bool.false_ne_true]
      simp only [hread, htext]
      rw [hmore, List.append_assoc, List.append_assoc]

theorem readQuoted_written {single : Bool} {cs : List Char} (place : Place) (mark : Char)
    (tail : List Char) (h : Quotable single cs) :
    ∃ place', readQuoted single ⟨mark :: (inside single cs ++ '\n' :: tail), place⟩ =
      .ok (cs, ⟨'\n' :: tail, place'⟩) := by
  have hfuel : cs.length < (mark :: (inside single cs ++ '\n' :: tail)).length + 1 := by
    have hlength := length_inside_lt single cs
    rw [List.length_cons, List.length_append]
    omega
  obtain ⟨place', hread⟩ := readQuotedFrom_written place tail _ [] (place.right 1) h hfuel
    (Nat.succ_ne_zero _)
  exact ⟨place', hread⟩

/-- The texts that are written between single quotation marks. -/
theorem quotable_of_fitsSingle {cs : List Char} (hfeed : '\n' ∉ cs) (h : fitsSingle cs = true) :
    Quotable true cs := by
  simp only [fitsSingle, Bool.and_eq_true, Bool.not_eq_true', List.all_eq_true] at h
  refine ⟨fun c hc => ⟨h.1.1 c hc, ?_⟩, h.1.2, h.2⟩
  rintro rfl
  exact hfeed hc

end RunnerCatalog.Yaml
