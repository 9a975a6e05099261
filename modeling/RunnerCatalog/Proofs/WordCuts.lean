/-
  Words are cut out whole.

  The word at a column is looked for among the bytes of the line, from any byte, inside a character
  as well.  It is then cut out of the text, which can be done between characters only.

  1. **Characters** - a byte of ASCII is a character, so the text can be cut before it
     (`Text.exists_split`): no longer character has such a byte (`Text.high_of_mem`).

  2. **Cuts** - a word of the bytes is therefore a piece of the text (`IsWord.exists_piece`), and
     cutting the span that was found never fails (`IsWord.cutWord?_eq`).

  3. **The word at a column** - one span belongs to all columns that touch a word, and every span
     that is found is that of a word (`wordSpan_eq_some_iff`); all of it in `word_cut_whole`.
-/
import RunnerCatalog.Proofs.Words

namespace RunnerCatalog

/-! ## Characters -/

namespace Text

variable {cs : List Char} {before rest : List UInt8} {b : UInt8}

/-- **A byte of ASCII** begins a character: the text can be cut before it. -/
theorem exists_split (hb : b.toNat < 128) (h : bytes cs = before ++ b :: rest) :
    ∃ xs ys, cs = xs ++ ys ∧ bytes xs = before ∧ bytes ys = b :: rest := by
  induction cs generalizing before with
  | nil => exact absurd h.symm (List.append_ne_nil_of_right_ne_nil _ (List.cons_ne_nil _ _))
  | cons c cs ih =>
    rw [bytes_cons] at h
    rcases List.append_eq_append_iff.mp h with ⟨more, rfl, hmore⟩ | ⟨inner, hchar, hinner⟩
    · obtain ⟨xs, ys, rfl, rfl, hys⟩ := ih hmore
      exact ⟨c :: xs, ys, rfl, bytes_cons c xs, hys⟩
    · cases inner with
      | nil =>
        rw [List.append_nil] at hchar
        exact ⟨[c], cs, rfl, (bytes_singleton c).trans hchar, hinner.symm⟩
      | cons b' inner =>
        -- the byte is one of the character, which has no other then
        obtain ⟨rfl, -⟩ := List.cons.inj hinner
        have hc : c.toNat < 128 := by
          by_contra hc
          exact high_of_mem hc (hchar ▸ List.mem_append_right _ List.mem_cons_self) hb
        rw [utf8EncodeChar_of_ascii hc, List.singleton_eq_append_iff] at hchar
        rcases hchar with ⟨rfl, -⟩ | ⟨-, hnil⟩
        · refine ⟨[], c :: cs, rfl, rfl, ?_⟩
          rw [bytes_cons, h, List.nil_append]
        · cases hnil

end Text

namespace Script

/-! ## Cuts -/

variable {line : List Char} {l before word behind : List UInt8} {column start stop : Nat}

/-- The text of a span, if it can be cut out. -/
def cutWord? (line : List Char) (span : Nat × Nat) : Option String :=
  (Text.slice? line span.1 span.2).map String.ofList

/-- **A word is a piece** of the text. -/
theorem IsWord.exists_piece (h : IsWord (Text.bytes line) before word behind) :
    ∃ xs ws ys, line = xs ++ (ws ++ ys) ∧ Text.bytes xs = before ∧ Text.bytes ws = word := by
  obtain ⟨b, rest, rfl⟩ := List.exists_cons_of_ne_nil h.ne
  have hlow : b.toNat < 128 := sameClass_word.low (h.form b List.mem_cons_self)
  obtain ⟨xs, zs, rfl, hxs, hzs⟩ := Text.exists_split hlow h.split
  replace hzs : Text.bytes zs = b :: rest ++ behind := hzs
  refine ⟨xs, zs.takeWhile isWordChar, zs.dropWhile isWordChar, ?_, hxs, ?_⟩
  · rw [List.takeWhile_append_dropWhile]
  · rw [← sameClass_word.takeWhile_bytes, hzs, takeWhile_run h.form h.right]

/-- **Cutting a word out** never fails, and gives the text of its bytes. -/
theorem IsWord.cutWord?_eq (h : IsWord (Text.bytes line) before word behind) :
    cutWord? line (before.length, before.length + word.length) = some (Text.ofAscii word) := by
  obtain ⟨xs, ws, ys, rfl, rfl, rfl⟩ := h.exists_piece
  have hascii : ∀ c ∈ ws, c.toNat < 128 :=
    fun c hc => sameClass_word.ascii c (sameClass_word.of_forall_bytes h.form c hc)
  rw [cutWord?, Text.slice?_append, Option.map_some, Text.ofAscii, Text.map_bytes hascii]

/-! ## The word at a column -/

/-- The span of a word is found at every column that the word touches. -/
theorem IsWord.wordSpan_eq (h : IsWord l before word behind) (hstart : before.length ≤ column)
    (hstop : column ≤ before.length + word.length) :
    wordSpan l column = some (before.length, before.length + word.length) := by
  obtain ⟨k, rfl⟩ := Nat.exists_eq_add_of_le hstart
  rw [h.split]
  exact wordSpan_of_word h.ne h.form h.left h.right (Nat.le_of_add_le_add_left hstop)

/-- **What is found at a column** is the span of the word that touches the column. -/
theorem wordSpan_eq_some_iff :
    wordSpan l column = some (start, stop) ↔ ∃ before word behind,
      IsWord l before word behind ∧ before.length = start ∧ before.length + word.length = stop ∧
        start ≤ column ∧ column ≤ stop := by
  constructor
  · intro h
    have hfound : wordAt l column ≠ none := by
      rw [wordAt, h]
      exact Option.some_ne_none _
    obtain ⟨w, hw⟩ := Option.ne_none_iff_exists'.mp hfound
    obtain ⟨before, behind, hword, hstart, hstop⟩ := wordAt_eq_some_iff.mp hw
    rw [hword.wordSpan_eq hstart hstop] at h
    obtain ⟨rfl, rfl⟩ := Prod.mk.inj (Option.some.inj h)
    exact ⟨before, _, behind, hword, rfl, rfl, hstart, hstop⟩
  · rintro ⟨before, word, behind, hword, rfl, rfl, hstart, hstop⟩
    exact hword.wordSpan_eq hstart hstop

/-- **The word at a column is cut out whole**, in all lines and at all columns, also inside a
    character and past the end.  What is found in the bytes is what cutting the span out of the text
    gives, and that never cuts a character in two.  Nothing is found past the end, or where neither
    the byte at the column nor the one before it is part of a word; and what is found is the word
    that touches the column, the same at all columns of it, its start and its end included. -/
theorem word_cut_whole (line : List Char) (column : Nat) :
    (wordAt (Text.bytes line) column =
        (wordSpan (Text.bytes line) column).bind (cutWord? line) ∧
      ∀ span ∈ wordSpan (Text.bytes line) column, (Text.slice? line span.1 span.2).isSome) ∧
    (wordAt (Text.bytes line) column = none ↔
      (Text.bytes line).length < column ∨
        ∀ i b, (i = column ∨ i + 1 = column) → (Text.bytes line)[i]? = some b →
          isWordByte b = false) ∧
    (∀ word : String, wordAt (Text.bytes line) column = some word ↔ ∃ before behind,
      IsWord (Text.bytes line) before (Text.bytes word.toList) behind ∧
        before.length ≤ column ∧ column ≤ before.length + (Text.bytes word.toList).length) ∧
    ∀ start stop, wordSpan (Text.bytes line) column = some (start, stop) →
      start ≤ column ∧ column ≤ stop ∧ ∀ other, start ≤ other → other ≤ stop →
        wordSpan (Text.bytes line) other = some (start, stop) ∧
          wordAt (Text.bytes line) other = wordAt (Text.bytes line) column := by
  refine ⟨⟨?_, ?_⟩, ?_, fun word => wordAt_eq_some_iff, ?_⟩
  · cases hspan : wordSpan (Text.bytes line) column with
    | none => rw [wordAt, hspan, Option.map_none, Option.bind_none]
    | some span =>
      obtain ⟨before, word, behind, hword, hstart, hstop, hle, hge⟩ :=
        wordSpan_eq_some_iff.mp hspan
      rw [← hstart] at hle
      rw [← hstop] at hge
      rw [hword.wordAt_eq hle hge, Option.bind_some, show span = (span.1, span.2) from rfl,
        ← hstop, ← hstart, hword.cutWord?_eq]
  · intro span hspan
    obtain ⟨before, word, behind, hword, hstart, hstop, -, -⟩ := wordSpan_eq_some_iff.mp hspan
    obtain ⟨cs, hcut, -⟩ := Option.map_eq_some_iff.mp hword.cutWord?_eq
    rw [← hstop, ← hstart]
    exact Option.isSome_iff_exists.mpr ⟨cs, hcut⟩
  · constructor
    · intro h
      exact .inr (wordAt_eq_none_iff.mp h)
    · rintro (hpast | hnone)
      · exact wordAt_eq_none (.inl hpast)
      · exact wordAt_eq_none_iff.mpr hnone
  · intro start stop hspan
    obtain ⟨before, word, behind, hword, rfl, rfl, hstart, hstop⟩ := wordSpan_eq_some_iff.mp hspan
    refine ⟨hstart, hstop, fun other hle hge => ⟨hword.wordSpan_eq hle hge, ?_⟩⟩
    rw [hword.wordAt_eq hle hge, hword.wordAt_eq hstart hstop]

/-- From inside `é` no word is seen, nor behind it; from its end on there is one. -/
example : (List.range 6).map (wordAt (Text.bytes "aé_1".toList)) =
    [some "a", some "a", none, some "_1", some "_1", some "_1"] := by
  decide +kernel

end Script

end RunnerCatalog
