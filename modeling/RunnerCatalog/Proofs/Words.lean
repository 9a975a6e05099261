/-
  Words of a line.

  The word at a column is read from the column outwards, to the left and to the right.  A word is a
  run of the line that cannot be made longer (`IsWord`), wherever it has been read from: the column
  only says which one is meant, the one that touches it.

  1. **Words** - what is read to the left and to the right of a column is one run, and nothing can
     be added to it at either end (`exists_run`).  So the word at a column is the one that touches
     the column (`wordAt_eq_some_iff`), and there is none if neither the byte at the column nor the
     one before it is part of a word (`wordAt_eq_none_iff`).

  2. **Dots** - in front of a dot the column is two bytes back, which a word touches in two ways: it
     ends at the dot, or one byte earlier (`scopeBeforeDot_words`).  So the word is found across a
     blank as well (`scope_across_blank`).
-/
import RunnerCatalog.Proofs.Scanning

namespace RunnerCatalog.Script

/-! ## Words -/

/-- A word of the line, with what stands before and behind it: a run of word bytes that is not empty
    and that cannot be made longer. -/
structure IsWord (l before word behind : List UInt8) : Prop where
  split : l = before ++ (word ++ behind)
  ne : word ≠ []
  form : ∀ b ∈ word, isWordByte b = true
  left : ∀ b ∈ before.getLast?, isWordByte b = false
  right : ∀ b ∈ behind.head?, isWordByte b = false

variable {l before word behind : List UInt8} {column cursor : Nat}

/-- **A word is found** at every column that it touches. -/
theorem IsWord.wordAt_eq (h : IsWord l before word behind) (hstart : before.length ≤ column)
    (hstop : column ≤ before.length + word.length) :
    wordAt l column = some (Text.ofAscii word) := by
  obtain ⟨k, rfl⟩ := Nat.exists_eq_add_of_le hstart
  rw [h.split]
  exact wordAt_of_word h.ne h.form h.left h.right (Nat.le_of_add_le_add_left hstop)

/-- A word is the bytes of the text that it stands for. -/
theorem IsWord.bytes_ofAscii (h : IsWord l before word behind) :
    Text.bytes (Text.ofAscii word).toList = word :=
  Text.bytes_ofAscii fun b hb => sameClass_word.low (h.form b hb)

/-- A text whose bytes are a word is what the word stands for. -/
theorem IsWord.ofAscii_bytes {w : String} (h : IsWord l before (Text.bytes w.toList) behind) :
    Text.ofAscii (Text.bytes w.toList) = w := by
  have hascii : ∀ c ∈ w.toList, c.toNat < 128 :=
    fun c hc => sameClass_word.ascii c (sameClass_word.of_forall_bytes h.form c hc)
  rw [Text.ofAscii, Text.map_bytes hascii, String.ofList_toList]

/-- The bytes at the places of a word are its bytes. -/
theorem IsWord.isWordByte_of_mem (h : IsWord l before word behind) {i : Nat}
    (hstart : before.length ≤ i) (hstop : i < before.length + word.length) :
    ∃ b, l[i]? = some b ∧ isWordByte b = true := by
  obtain ⟨k, rfl⟩ := Nat.exists_eq_add_of_le hstart
  have hk : k < word.length := Nat.lt_of_add_lt_add_left hstop
  refine ⟨word[k], ?_, h.form _ (List.getElem_mem hk)⟩
  rw [h.split, List.getElem?_append_right (Nat.le_add_right _ _), Nat.add_sub_cancel_left,
    List.getElem?_append_left hk, List.getElem?_eq_getElem hk]

/-- A word that touches a column has a byte there or before it. -/
theorem IsWord.exists_byte (h : IsWord l before word behind) (hstart : before.length ≤ column)
    (hstop : column ≤ before.length + word.length) :
    ∃ i b, (i = column ∨ i + 1 = column) ∧ l[i]? = some b ∧ isWordByte b = true := by
  have hpos : 0 < word.length := List.length_pos_iff.mpr h.ne
  by_cases hinside : column < before.length + word.length
  · obtain ⟨b, hb, hword⟩ := h.isWordByte_of_mem hstart hinside
    exact ⟨column, b, .inl rfl, hb, hword⟩
  · obtain ⟨b, hb, hword⟩ := h.isWordByte_of_mem (show before.length ≤ column - 1 by omega)
      (by omega)
    exact ⟨column - 1, b, .inr (by omega), hb, hword⟩

/-- **What is read at a column** is one run, and it cannot be made longer. -/
theorem exists_run (h : column ≤ l.length) :
    ∃ before behind, l = before ++ (wordBefore l column ++ wordBehind l column ++ behind) ∧
      before.length + (wordBefore l column).length = column ∧
      (∀ b ∈ before.getLast?, isWordByte b = false) ∧
      ∀ b ∈ behind.head?, isWordByte b = false := by
  have hleft : l.take column =
      ((l.take column).reverse.dropWhile isWordByte).reverse ++ wordBefore l column := by
    rw [wordBefore, ← List.reverse_append, List.takeWhile_append_dropWhile, List.reverse_reverse]
  have hright : l.drop column =
      wordBehind l column ++ (l.drop column).dropWhile isWordByte :=
    (List.takeWhile_append_dropWhile).symm
  refine ⟨((l.take column).reverse.dropWhile isWordByte).reverse,
    (l.drop column).dropWhile isWordByte, ?_, ?_, ?_, head?_dropWhile isWordByte _⟩
  · rw [List.append_assoc, ← hright, ← List.append_assoc, ← hleft, List.take_append_drop]
  · rw [← List.length_append, ← hleft, List.length_take, Nat.min_eq_left h]
  · rw [List.getLast?_reverse]
    exact head?_dropWhile isWordByte _

/-- Where something is read at a column, there is a word that touches it. -/
theorem exists_isWord (h : column ≤ l.length)
    (hne : wordBefore l column ++ wordBehind l column ≠ []) :
    ∃ before behind, IsWord l before (wordBefore l column ++ wordBehind l column) behind ∧
      before.length ≤ column ∧
      column ≤ before.length + (wordBefore l column ++ wordBehind l column).length := by
  obtain ⟨before, behind, hsplit, hcolumn, hbefore, hbehind⟩ := exists_run h
  have hword : ∀ b ∈ wordBefore l column ++ wordBehind l column, isWordByte b = true :=
    List.forall_mem_append.mpr
      ⟨fun b hb => List.mem_takeWhile_imp (List.mem_reverse.mp hb),
        fun b hb => List.mem_takeWhile_imp hb⟩
  rw [List.length_append]
  exact ⟨before, behind, ⟨hsplit, hne, hword, hbefore, hbehind⟩, by omega, by omega⟩

/-- Something is read where the byte at the column or the one before it is part of a word. -/
theorem read_ne_nil {i : Nat} {b : UInt8} (hi : i = column ∨ i + 1 = column)
    (hb : l[i]? = some b) (hbyte : isWordByte b = true) :
    wordBefore l column ++ wordBehind l column ≠ [] := by
  obtain ⟨hlt, hget⟩ := List.getElem?_eq_some_iff.mp hb
  rcases hi with rfl | rfl
  · refine List.append_ne_nil_of_right_ne_nil _ ?_
    rw [wordBehind, List.drop_eq_getElem_cons hlt, hget, List.takeWhile_cons_of_pos hbyte]
    exact List.cons_ne_nil _ _
  · refine List.append_ne_nil_of_left_ne_nil ?_ _
    rw [wordBefore, List.take_succ_eq_append_getElem hlt, hget, List.reverse_append,
      List.reverse_singleton, List.singleton_append, List.takeWhile_cons_of_pos hbyte, Ne,
      List.reverse_eq_nil_iff]
    exact List.cons_ne_nil _ _

/-- Where nothing is read, no word is found. -/
theorem wordAt_eq_none (hlength : l.length < column ∨
    wordBefore l column ++ wordBehind l column = []) : wordAt l column = none := by
  rw [wordAt, wordSpan]
  split
  · rfl
  next hcolumn =>
  obtain ⟨hbefore, hbehind⟩ := List.append_eq_nil_iff.mp (hlength.resolve_left hcolumn)
  rw [hbefore, hbehind]
  exact congrArg _ (if_pos rfl)

/-- **The word at a column** is the one that touches the column. -/
theorem wordAt_eq_some_iff {w : String} :
    wordAt l column = some w ↔ ∃ before behind,
      IsWord l before (Text.bytes w.toList) behind ∧ before.length ≤ column ∧
        column ≤ before.length + (Text.bytes w.toList).length := by
  constructor
  · intro h
    by_cases hnone : l.length < column ∨ wordBefore l column ++ wordBehind l column = []
    · rw [wordAt_eq_none hnone] at h
      cases h
    obtain ⟨hcolumn, hne⟩ := not_or.mp hnone
    obtain ⟨before, behind, hword, hstart, hstop⟩ := exists_isWord (Nat.le_of_not_lt hcolumn) hne
    rw [hword.wordAt_eq hstart hstop] at h
    obtain rfl := Option.some.inj h
    rw [hword.bytes_ofAscii]
    exact ⟨before, behind, hword, hstart, hstop⟩
  · rintro ⟨before, behind, hword, hstart, hstop⟩
    rw [hword.wordAt_eq hstart hstop, hword.ofAscii_bytes]

/-- **No word touches a column** if and only if the bytes at the column and before it, if there are
    any, are not part of one. -/
theorem wordAt_eq_none_iff :
    wordAt l column = none ↔
      ∀ i b, (i = column ∨ i + 1 = column) → l[i]? = some b → isWordByte b = false := by
  constructor
  · intro h i b hi hb
    have hcolumn : column ≤ l.length := by
      have hlt := (List.getElem?_eq_some_iff.mp hb).1
      omega
    rw [← Bool.not_eq_true]
    intro hbyte
    obtain ⟨before, behind, hword, hstart, hstop⟩ := exists_isWord hcolumn (read_ne_nil hi hb hbyte)
    rw [hword.wordAt_eq hstart hstop] at h
    cases h
  · intro h
    refine wordAt_eq_none ?_
    by_contra hsome
    obtain ⟨hcolumn, hne⟩ := not_or.mp hsome
    obtain ⟨before, behind, hword, hstart, hstop⟩ := exists_isWord (Nat.le_of_not_lt hcolumn) hne
    obtain ⟨i, b, hi, hb, hbyte⟩ := hword.exists_byte hstart hstop
    rw [h i b hi hb] at hbyte
    cases hbyte

/-! ## Dots -/

/-- A word that touches the byte in front of a dot ends there or at the dot. -/
theorem IsWord.touches_iff (h : IsWord l before word behind) (hcursor : 2 ≤ cursor)
    (hdot : l[cursor - 1]? = some 0x2E) :
    (before.length ≤ cursor - 2 ∧ cursor - 2 ≤ before.length + word.length) ↔
      (before.length + word.length + 1 = cursor ∨ before.length + word.length + 2 = cursor) := by
  have hpos : 0 < word.length := List.length_pos_iff.mpr h.ne
  constructor
  · rintro ⟨hstart, hstop⟩
    have hends : ¬ cursor - 1 < before.length + word.length := by
      intro hlt
      obtain ⟨b, hb, hbyte⟩ := h.isWordByte_of_mem (show before.length ≤ cursor - 1 by omega) hlt
      rw [hdot] at hb
      obtain rfl := Option.some.inj hb
      exact absurd hbyte (by decide)
    omega
  · intro hends
    omega

/-- **The scope in front of a dot** is the word that ends at the dot, or one byte before it.  There
    is none if neither of the two bytes in front of the dot, as far as there are any, is part of a
    word. -/
theorem scopeBeforeDot_words (hdot : l[cursor - 1]? = some 0x2E) :
    (∀ scope : String, scopeBeforeDot l cursor = some scope ↔ ∃ before behind,
      IsWord l before (Text.bytes scope.toList) behind ∧
        (before.length + (Text.bytes scope.toList).length + 1 = cursor ∨
          before.length + (Text.bytes scope.toList).length + 2 = cursor)) ∧
    (scopeBeforeDot l cursor = none ↔
      ∀ i b, (i + 2 = cursor ∨ i + 3 = cursor) → l[i]? = some b → isWordByte b = false) := by
  rw [scopeBeforeDot]
  by_cases hcursor : cursor < 2
  · rw [if_pos hcursor]
    refine ⟨fun scope => iff_of_false (Option.some_ne_none scope).symm ?_,
      iff_of_true rfl fun i b hi => by omega⟩
    rintro ⟨before, behind, hword, hends⟩
    have hpos := List.length_pos_iff.mpr hword.ne
    omega
  · rw [if_neg hcursor]
    have htwo : 2 ≤ cursor := Nat.le_of_not_lt hcursor
    refine ⟨fun scope => ?_, ?_⟩
    · rw [wordAt_eq_some_iff]
      exact exists_congr fun before => exists_congr fun behind =>
        and_congr_right fun hword => hword.touches_iff htwo hdot
    · rw [wordAt_eq_none_iff]
      have hplaces : ∀ i, (i = cursor - 2 ∨ i + 1 = cursor - 2) ↔
          (i + 2 = cursor ∨ i + 3 = cursor) := fun i => by omega
      simp only [hplaces]

/-- One blank between the word and the dot makes no difference, but two do. -/
theorem scopeBeforeDot_util :
    scopeBeforeDot (Text.bytes "@x: Util .".toList) 10 = some "Util" ∧
      scopeBeforeDot (Text.bytes "@x: Util  .".toList) 11 = none := by
  have hword : IsWord (Text.bytes "@x: Util .".toList) (Text.bytes "@x: ".toList)
      (Text.bytes "Util".toList) (Text.bytes " .".toList) :=
    ⟨by decide +kernel, by decide +kernel, by decide +kernel, by decide +kernel,
      by decide +kernel⟩
  have hdot : (Text.bytes "@x: Util .".toList)[9]? = some 0x2E := by decide +kernel
  have hdot' : (Text.bytes "@x: Util  .".toList)[10]? = some 0x2E := by decide +kernel
  have hblanks : ∀ i, (i = 9 ∨ i = 8) → (Text.bytes "@x: Util  .".toList)[i]? = some 0x20 := by
    rintro i (rfl | rfl) <;> decide +kernel
  refine ⟨((scopeBeforeDot_words hdot).1 "Util").mpr ⟨_, _, hword, .inr (by decide +kernel)⟩,
    (scopeBeforeDot_words hdot').2.mpr fun i b hi hb => ?_⟩
  rw [hblanks i (by omega)] at hb
  obtain rfl := Option.some.inj hb
  decide

/-- So the word need not end at the dot: it is found across a blank. -/
theorem scope_across_blank :
    ¬ ∀ (line : List Char) (cursor : Nat), 1 ≤ cursor → cursor ≤ (Text.bytes line).length →
      (Text.bytes line)[cursor - 1]? = some 0x2E →
      (∀ scope : String, scopeBeforeDot (Text.bytes line) cursor = some scope ↔
        ∃ before behind, IsWord (Text.bytes line) before (Text.bytes scope.toList) behind ∧
          before.length + (Text.bytes scope.toList).length + 1 = cursor) ∧
      ((∀ i b, i + 2 = cursor → (Text.bytes line)[i]? = some b → isWordByte b = false) →
        scopeBeforeDot (Text.bytes line) cursor = none) := by
  intro hall
  obtain ⟨-, hnone⟩ := hall "Util .".toList 6 (by decide) (by decide +kernel) (by decide +kernel)
  have hblank : ∀ i b, i + 2 = 6 → (Text.bytes "Util .".toList)[i]? = some b →
      isWordByte b = false := by
    intro i b hi hb
    have hread : (Text.bytes "Util .".toList)[4]? = some 0x20 := by decide +kernel
    rw [show i = 4 by omega, hread] at hb
    obtain rfl := Option.some.inj hb
    decide
  have hsome : scopeBeforeDot (Text.bytes "Util .".toList) 6 = some "Util" := by decide +kernel
  rw [hnone hblank] at hsome
  cases hsome

end RunnerCatalog.Script
