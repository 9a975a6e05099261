/-
  What the scanners make of names in capitals.

  The scanners work on the bytes of a line, while names, scopes and places are given in characters.
  For plain names (capitals, digits and `_`) there is nothing between the two.

  1. **Bytes** - characters of ASCII are one byte each, which stands for the character
     (`map_bytes`, `bytes_ofAscii`).  A place given in UTF-16 units behind some whole
     characters is the number of their bytes (`byteOffset_append`).

  2. **Classes** - the scanners tell apart classes of bytes, each of which is a class of characters
     of ASCII (`SameClass`).  A run of such bytes at the start of a text is a run of characters
     (`takeWhile_bytes`, `dropWhile_bytes`).

  3. **Plain names** - a plain character is a byte of names and of words, and its own uppercase form
     (`upper_of_plain`).

  4. **Calls** - a line that holds nothing but a name is a call of it (`callAt_name`), with the
     scope before the dot or with none (`splitName_dotted`, `splitName_bare`).

  5. **Words** - a run of word bytes with none at its two sides is the word at each of its columns
     (`wordAt_of_word`); so the scope in front of a dot is found (`scopeBeforeDot_of_scope`).
-/
import Mathlib.Data.List.Basic
import Mathlib.Data.List.TakeWhile
import RunnerCatalog.Script.Call

namespace RunnerCatalog

/-! ## Bytes -/

namespace Text

theorem bytes_append (cs ds : List Char) : bytes (cs ++ ds) = bytes cs ++ bytes ds :=
  List.flatMap_append

theorem bytes_cons (c : Char) (cs : List Char) :
    bytes (c :: cs) = String.utf8EncodeChar c ++ bytes cs :=
  List.flatMap_cons

theorem bytes_singleton (c : Char) : bytes [c] = String.utf8EncodeChar c :=
  List.flatMap_singleton _ c

theorem length_bytes_cons (c : Char) (cs : List Char) :
    (bytes (c :: cs)).length = c.utf8Size + (bytes cs).length := by
  rw [bytes_cons, List.length_append, String.length_utf8EncodeChar]

theorem bytes_eq_nil_iff {cs : List Char} : bytes cs = [] ↔ cs = [] := by
  cases cs with
  | nil => exact ⟨fun _ => rfl, fun _ => rfl⟩
  | cons c cs =>
    have hpos := c.utf8Size_pos
    rw [← List.length_eq_zero_iff, length_bytes_cons]
    exact ⟨fun h => by omega, nofun⟩

theorem isEmpty_bytes {cs : List Char} (h : cs ≠ []) : (bytes cs).isEmpty = false :=
  List.isEmpty_eq_false_iff.mpr (mt bytes_eq_nil_iff.mp h)

/-- A character of ASCII is one byte. -/
theorem utf8EncodeChar_of_ascii {c : Char} (h : c.toNat < 128) :
    String.utf8EncodeChar c = [UInt8.ofNat c.toNat] :=
  if_pos (Nat.lt_succ_iff.mp h)

theorem toNat_byte {c : Char} (h : c.toNat < 128) : (UInt8.ofNat c.toNat).toNat = c.toNat :=
  UInt8.toNat_ofNat_of_lt (show c.toNat < 256 by omega)

theorem ofNat_byte {c : Char} (h : c.toNat < 128) :
    Char.ofNat (UInt8.ofNat c.toNat).toNat = c := by
  rw [toNat_byte h, Char.ofNat_toNat]

theorem bytes_of_ascii {cs : List Char} (h : ∀ c ∈ cs, c.toNat < 128) :
    bytes cs = cs.map fun c => UInt8.ofNat c.toNat := by
  induction cs with
  | nil => rfl
  | cons c cs ih =>
    rw [bytes_cons, utf8EncodeChar_of_ascii (h c List.mem_cons_self),
      ih fun d hd => h d (List.mem_cons_of_mem _ hd)]
    rfl

/-- The bytes of a text in ASCII stand for its characters. -/
theorem map_bytes {cs : List Char} (h : ∀ c ∈ cs, c.toNat < 128) :
    (bytes cs).map (fun b => Char.ofNat b.toNat) = cs := by
  rw [bytes_of_ascii h, List.map_map]
  have hmap : cs.map ((fun b => Char.ofNat b.toNat) ∘ fun c => UInt8.ofNat c.toNat) = cs.map id :=
    List.map_congr_left fun c hc => ofNat_byte (h c hc)
  rw [hmap, List.map_id]

/-- Bytes of ASCII are those of the text they stand for. -/
theorem bytes_ofAscii {bs : List UInt8} (h : ∀ b ∈ bs, b.toNat < 128) :
    bytes (ofAscii bs).toList = bs := by
  have hchar : ∀ b ∈ bs, (Char.ofNat b.toNat).toNat = b.toNat := by
    intro b hb
    have hvalid : b.toNat.isValidChar := .inl ((h b hb).trans (by decide))
    rw [Char.ofNat, dif_pos hvalid]
    rfl
  have hascii : ∀ c ∈ bs.map fun b => Char.ofNat b.toNat, c.toNat < 128 := by
    intro c hc
    obtain ⟨b, hb, rfl⟩ := List.mem_map.mp hc
    exact (hchar b hb).symm ▸ h b hb
  have hmap : bs.map ((fun c => UInt8.ofNat c.toNat) ∘ fun b => Char.ofNat b.toNat) = bs.map id :=
    List.map_congr_left fun b hb => by rw [Function.comp_apply, hchar b hb, UInt8.ofNat_toNat, id]
  rw [ofAscii, String.toList_ofList, bytes_of_ascii hascii, List.map_map, hmap, List.map_id]

theorem utf8EncodeChar_ne_nil (c : Char) : String.utf8EncodeChar c ≠ [] := by
  rw [← List.length_pos_iff, String.length_utf8EncodeChar]
  exact c.utf8Size_pos

/-- A longer character has bytes above ASCII only. -/
theorem high_of_mem {c : Char} (h : ¬ c.toNat < 128) {b : UInt8}
    (hb : b ∈ String.utf8EncodeChar c) : ¬ b.toNat < 128 := by
  have hascii : ¬ c.val.toNat ≤ 127 := fun hle => h (Nat.lt_succ_iff.mpr hle)
  unfold String.utf8EncodeChar at hb
  rw [if_neg hascii] at hb
  split at hb
  · simp only [List.mem_cons, List.not_mem_nil, or_false] at hb
    rcases hb with rfl | rfl <;> rw [UInt8.toNat_ofNat'] <;> omega
  · split at hb
    · simp only [List.mem_cons, List.not_mem_nil, or_false] at hb
      rcases hb with rfl | rfl | rfl <;> rw [UInt8.toNat_ofNat'] <;> omega
    · simp only [List.mem_cons, List.not_mem_nil, or_false] at hb
      rcases hb with rfl | rfl | rfl | rfl <;> rw [UInt8.toNat_ofNat'] <;> omega

/-- So has its first byte. -/
theorem exists_utf8EncodeChar {c : Char} (h : ¬ c.toNat < 128) :
    ∃ b rest, String.utf8EncodeChar c = b :: rest ∧ ¬ b.toNat < 128 := by
  obtain ⟨b, rest, heq⟩ := List.exists_cons_of_ne_nil (utf8EncodeChar_ne_nil c)
  refine ⟨b, rest, heq, high_of_mem h ?_⟩
  rw [heq]
  exact List.mem_cons_self

/-- A text that begins with a byte of ASCII begins with its character. -/
theorem exists_of_bytes_eq_cons {d : Char} (hd : d.toNat < 128) {cs : List Char} {r : List UInt8}
    (h : bytes cs = UInt8.ofNat d.toNat :: r) : ∃ ds, cs = d :: ds ∧ r = bytes ds := by
  cases cs with
  | nil => cases h
  | cons c cs =>
    rw [bytes_cons] at h
    by_cases hc : c.toNat < 128
    · rw [utf8EncodeChar_of_ascii hc, List.singleton_append] at h
      obtain ⟨hbyte, rfl⟩ := List.cons.inj h
      refine ⟨cs, ?_, rfl⟩
      rw [← ofNat_byte hc, hbyte, ofNat_byte hd]
    · obtain ⟨b, rest, heq, hb⟩ := exists_utf8EncodeChar hc
      rw [heq, List.cons_append] at h
      rw [(List.cons.inj h).1, toNat_byte hd] at hb
      exact absurd hd hb

/-- The last byte of a longer character continues it. -/
theorem getLast?_utf8EncodeChar {c : Char} (h : ¬ c.toNat < 128) :
    (String.utf8EncodeChar c).getLast? = some (UInt8.ofNat (c.toNat % 64 + 128)) := by
  have hascii : ¬ c.val.toNat ≤ 127 := fun hle => h (Nat.lt_succ_iff.mpr hle)
  unfold String.utf8EncodeChar
  rw [if_neg hascii]
  split
  · rfl
  · split <;> rfl

/-- A text ends with the last byte of its last character. -/
theorem getLast?_bytes (cs : List Char) (c : Char) :
    (bytes (cs ++ [c])).getLast? = (String.utf8EncodeChar c).getLast? := by
  rw [bytes_append, bytes_singleton, List.getLast?_append_of_ne_nil _ (utf8EncodeChar_ne_nil c)]

theorem charUnits_pos (c : Char) : 0 < charUnits c := by
  unfold charUnits
  split <;> decide

theorem byteOffset_zero (cs : List Char) : byteOffset cs 0 = 0 := by
  cases cs <;> rfl

/-- **A place behind whole characters** is counted in their bytes. -/
theorem byteOffset_append (cs ds : List Char) :
    byteOffset (cs ++ ds) (unitLength cs) = (bytes cs).length := by
  induction cs with
  | nil => exact byteOffset_zero ds
  | cons c cs ih =>
    have hunits : unitLength (c :: cs) = charUnits c + unitLength cs := rfl
    have hpos := charUnits_pos c
    rw [hunits, List.cons_append, byteOffset, if_neg (by omega), Nat.add_sub_cancel_left, ih,
      length_bytes_cons]

theorem slice?_prefix (cs ds : List Char) : slice? (cs ++ ds) 0 (bytes cs).length = some cs := by
  induction cs with
  | nil => cases ds <;> rfl
  | cons c cs ih =>
    have hpos := c.utf8Size_pos
    rw [List.cons_append, length_bytes_cons, slice?, if_pos rfl, if_neg (by omega),
      if_pos (by omega), Nat.add_sub_cancel_left, ih, Option.map_some]

/-- **A piece of the text** is cut out where its bytes are. -/
theorem slice?_append (before cs behind : List Char) :
    slice? (before ++ (cs ++ behind)) (bytes before).length
      ((bytes before).length + (bytes cs).length) = some cs := by
  induction before with
  | nil =>
    have hnil : (bytes []).length = 0 := rfl
    rw [hnil, Nat.zero_add]
    exact slice?_prefix cs behind
  | cons c before ih =>
    have hpos := c.utf8Size_pos
    rw [List.cons_append, length_bytes_cons, slice?, if_neg (by omega), if_pos (by omega),
      Nat.add_sub_cancel_left, Nat.add_assoc, Nat.add_sub_cancel_left, ih]

/-! ## Splitting -/

theorem splitOn_of_notMem {sep : Char} {cs : List Char} (h : sep ∉ cs) : splitOn sep cs = [cs] := by
  induction cs with
  | nil => rfl
  | cons c cs ih =>
    rw [List.mem_cons, not_or] at h
    rw [splitOn, if_neg (fun he => h.1 he.symm), ih h.2]

/-- The first piece ends at the first separator. -/
theorem exists_splitOn (sep : Char) (cs : List Char) :
    ∃ more, splitOn sep cs = cs.takeWhile (· ≠ sep) :: more := by
  induction cs with
  | nil => exact ⟨[], rfl⟩
  | cons c cs ih =>
    obtain ⟨more, ih⟩ := ih
    by_cases hc : c = sep
    · exact ⟨splitOn sep cs, by simp [splitOn, hc]⟩
    · exact ⟨more, by simp [splitOn, hc, ih]⟩

theorem splitOn_ne_nil {sep : Char} (cs : List Char) : splitOn sep cs ≠ [] := by
  obtain ⟨more, hsplit⟩ := exists_splitOn sep cs
  rw [hsplit]
  exact List.cons_ne_nil _ _

theorem splitOn_cons_of_ne {sep c : Char} (hc : c ≠ sep) (cs : List Char) :
    ∃ piece more, splitOn sep cs = piece :: more ∧
      splitOn sep (c :: cs) = (c :: piece) :: more := by
  obtain ⟨piece, more, hsplit⟩ := List.exists_cons_of_ne_nil
    (splitOn_ne_nil cs : splitOn sep cs ≠ [])
  exact ⟨piece, more, hsplit, by rw [splitOn, if_neg hc, hsplit]⟩

/-- **A separator** ends the pieces before it. -/
theorem splitOn_append {sep : Char} (cs ds : List Char) :
    splitOn sep (cs ++ sep :: ds) = splitOn sep cs ++ splitOn sep ds := by
  induction cs with
  | nil => exact if_pos rfl
  | cons c cs ih =>
    by_cases hc : c = sep
    · rw [List.cons_append, splitOn, if_pos hc, ih, splitOn, if_pos hc, List.cons_append]
    · obtain ⟨piece, more, hsplit, hcons⟩ := splitOn_cons_of_ne hc cs
      rw [List.cons_append, splitOn, if_neg hc, ih, hsplit, hcons]
      rfl

theorem splitOn_append_sep {sep : Char} {cs : List Char} (h : sep ∉ cs) (ds : List Char) :
    splitOn sep (cs ++ sep :: ds) = cs :: splitOn sep ds := by
  rw [splitOn_append, splitOn_of_notMem h, List.singleton_append]

end Text

namespace Script

/-! ## Classes -/

/-- A run of members of a class is taken as far as it goes. -/
theorem takeWhile_run {α : Type} {p : α → Bool} {run rest : List α} (hrun : ∀ b ∈ run, p b = true)
    (hrest : ∀ b ∈ rest.head?, p b = false) : (run ++ rest).takeWhile p = run := by
  have hstop : rest.takeWhile p = [] := by
    cases rest with
    | nil => rfl
    | cons b r => rw [List.takeWhile_cons, hrest b rfl, if_neg (by decide)]
  rw [List.takeWhile_append_of_pos hrun, hstop, List.append_nil]

/-- And it is dropped as far as it goes. -/
theorem dropWhile_run {α : Type} {p : α → Bool} {run rest : List α} (hrun : ∀ b ∈ run, p b = true)
    (hrest : ∀ b ∈ rest.head?, p b = false) : (run ++ rest).dropWhile p = rest := by
  rw [List.dropWhile_append_of_pos hrun]
  cases rest with
  | nil => rfl
  | cons b r => rw [List.dropWhile_cons, hrest b rfl, if_neg (by decide)]

/-- And what comes next does not belong to it. -/
theorem head?_dropWhile {α : Type} (p : α → Bool) (l : List α) :
    ∀ b ∈ (l.dropWhile p).head?, p b = false := by
  intro b hb
  have hnot := List.head?_dropWhile_not p l
  rwa [Option.mem_def.mp hb] at hnot

theorem isUpper_ascii {c : Char} (h : c.isUpper = true) : c.toNat < 128 := by
  obtain ⟨-, hle⟩ : 'A'.val ≤ c.val ∧ c.val ≤ 'Z'.val := of_decide_eq_true h
  exact Nat.lt_of_le_of_lt (UInt32.le_iff_toNat_le.mp hle) (by decide)

theorem isDigit_ascii {c : Char} (h : c.isDigit = true) : c.toNat < 128 := by
  obtain ⟨-, hle⟩ := (Bool.and_eq_true _ _).mp h
  exact Nat.lt_of_le_of_lt (UInt32.le_iff_toNat_le.mp (of_decide_eq_true hle)) (by decide)

theorem isAlphanum_ascii {c : Char} (h : c.isAlphanum = true) : c.toNat < 128 := by
  rcases (Bool.or_eq_true _ _).mp h with hletter | hdigit
  · rcases (Bool.or_eq_true _ _).mp hletter with hupper | hlower
    · exact isUpper_ascii hupper
    · obtain ⟨-, hle⟩ := (Bool.and_eq_true _ _).mp hlower
      exact Nat.lt_of_le_of_lt (UInt32.le_iff_toNat_le.mp (of_decide_eq_true hle)) (by decide)
  · exact isDigit_ascii hdigit

/-- A class of bytes and a class of characters of ASCII that are the same. -/
structure SameClass (p : UInt8 → Bool) (q : Char → Bool) : Prop where
  byte : ∀ n : Fin 256, p (UInt8.ofNat n) = (decide (n.val < 128) && q (Char.ofNat n))
  ascii : ∀ c, q c = true → c.toNat < 128

namespace SameClass

variable {p : UInt8 → Bool} {q : Char → Bool}

theorem low (h : SameClass p q) {b : UInt8} (hb : p b = true) : b.toNat < 128 := by
  have hbyte := h.byte ⟨b.toNat, b.toNat_lt⟩
  rw [UInt8.ofNat_toNat, hb] at hbyte
  exact of_decide_eq_true ((Bool.and_eq_true _ _).mp hbyte.symm).1

theorem apply_ofNat (h : SameClass p q) {c : Char} (hc : c.toNat < 128) :
    p (UInt8.ofNat c.toNat) = q c := by
  have hbyte := h.byte ⟨c.toNat, by omega⟩
  rwa [Char.ofNat_toNat, decide_eq_true hc, Bool.true_and] at hbyte

/-- A text begins with a byte of the class if it begins with a character of the class. -/
theorem bytes_cons (h : SameClass p q) (c : Char) (cs : List Char) :
    ∃ b rest, Text.bytes (c :: cs) = b :: rest ∧ p b = q c ∧
      (q c = true → rest = Text.bytes cs) := by
  rw [Text.bytes_cons]
  by_cases hc : c.toNat < 128
  · rw [Text.utf8EncodeChar_of_ascii hc]
    exact ⟨_, _, rfl, h.apply_ofNat hc, fun _ => rfl⟩
  · obtain ⟨b, rest, heq, hb⟩ := Text.exists_utf8EncodeChar hc
    have hp : p b = false := Bool.eq_false_iff.mpr fun hpb => hb (h.low hpb)
    have hq : q c = false := Bool.eq_false_iff.mpr fun hqc => hc (h.ascii c hqc)
    rw [heq]
    exact ⟨b, rest ++ Text.bytes cs, rfl, hp.trans hq.symm, fun hqc => by simp [hq] at hqc⟩

/-- **A run of the class** is the same in characters and in bytes. -/
theorem takeWhile_bytes (h : SameClass p q) (cs : List Char) :
    (Text.bytes cs).takeWhile p = Text.bytes (cs.takeWhile q) := by
  induction cs with
  | nil => rfl
  | cons c cs ih =>
    obtain ⟨b, rest, heq, hb, hrest⟩ := h.bytes_cons c cs
    by_cases hc : q c = true
    · rw [hrest hc] at heq
      rw [List.takeWhile_cons_of_pos hc, heq, List.takeWhile_cons_of_pos (hb.trans hc), ih]
      have hascii := h.ascii c hc
      rw [Text.bytes_cons, Text.utf8EncodeChar_of_ascii hascii] at heq ⊢
      rw [(List.cons.inj heq).1]
      rfl
    · rw [List.takeWhile_cons_of_neg hc, heq, List.takeWhile_cons_of_neg (hb ▸ hc)]
      rfl

/-- What stands behind a run of the class is the same in characters and in bytes. -/
theorem dropWhile_bytes (h : SameClass p q) (cs : List Char) :
    (Text.bytes cs).dropWhile p = Text.bytes (cs.dropWhile q) := by
  induction cs with
  | nil => rfl
  | cons c cs ih =>
    obtain ⟨b, rest, heq, hb, hrest⟩ := h.bytes_cons c cs
    by_cases hc : q c = true
    · rw [hrest hc] at heq
      rw [List.dropWhile_cons_of_pos hc, heq, List.dropWhile_cons_of_pos (hb.trans hc), ih]
    · rw [List.dropWhile_cons_of_neg hc, heq, List.dropWhile_cons_of_neg (hb ▸ hc), ← heq]

theorem forall_bytes (h : SameClass p q) {cs : List Char} (hcs : ∀ c ∈ cs, q c = true) :
    ∀ b ∈ Text.bytes cs, p b = true := by
  intro b hb
  rw [Text.bytes_of_ascii fun c hc => h.ascii c (hcs c hc)] at hb
  obtain ⟨c, hc, rfl⟩ := List.mem_map.mp hb
  rw [h.apply_ofNat (h.ascii c (hcs c hc)), hcs c hc]

theorem of_forall_bytes (h : SameClass p q) {cs : List Char}
    (hcs : ∀ b ∈ Text.bytes cs, p b = true) : ∀ c ∈ cs, q c = true := by
  induction cs with
  | nil => nofun
  | cons c cs ih =>
    obtain ⟨b, rest, heq, hb, hrest⟩ := h.bytes_cons c cs
    rw [heq, List.forall_mem_cons] at hcs
    have hc : q c = true := hb.symm.trans hcs.1
    exact List.forall_mem_cons.mpr ⟨hc, ih (hrest hc ▸ hcs.2)⟩

end SameClass

/-! ## Plain names -/

/-- A capital letter, a digit, or `_`. -/
def isPlainChar (c : Char) : Bool := c.isUpper || c.isDigit || c == '_'

/-- A name in capitals: it is not empty, and has nothing but capitals, digits and `_`. -/
def IsPlain (name : String) : Prop := name ≠ "" ∧ ∀ c ∈ name.toList, isPlainChar c = true

instance (name : String) : Decidable (IsPlain name) :=
  decidable_of_iff (name ≠ "" ∧ name.toList.all isPlainChar = true)
    (and_congr_right fun _ => List.all_eq_true)

theorem toNat_of_plain {c : Char} (h : isPlainChar c = true) : c.toNat < 128 := by
  rw [isPlainChar, Bool.or_eq_true, Bool.or_eq_true, beq_iff_eq] at h
  rcases h with (hupper | hdigit) | rfl
  · exact isUpper_ascii hupper
  · exact isDigit_ascii hdigit
  · decide

/-- What the scanners see in a character of ASCII that is plain. -/
theorem plain_classes : ∀ n : Fin 128, isPlainChar (Char.ofNat n) = true →
    isNameByte (UInt8.ofNat n) = true ∧ isWordByte (UInt8.ofNat n) = true ∧
      Char.ofNat n ≠ '.' ∧ (Char.ofNat n).toUpper = Char.ofNat n := by
  decide

theorem classes_of_plain {c : Char} (h : isPlainChar c = true) :
    isNameByte (UInt8.ofNat c.toNat) = true ∧ isWordByte (UInt8.ofNat c.toNat) = true ∧
      c ≠ '.' ∧ c.toUpper = c := by
  have hclasses := plain_classes ⟨c.toNat, toNat_of_plain h⟩
  rw [Char.ofNat_toNat] at hclasses
  exact hclasses h

theorem upper_of_plain {cs : List Char} (h : ∀ c ∈ cs, isPlainChar c = true) :
    Text.upper cs = cs := by
  induction cs with
  | nil => rfl
  | cons c cs ih =>
    have hc := h c List.mem_cons_self
    have hascii : c.val < 0x80 := toNat_of_plain hc
    have hchar : Text.upperChar c = [c] := by
      rw [Text.upperChar, if_pos hascii, (classes_of_plain hc).2.2.2]
    rw [Text.upper, List.flatMap_cons, hchar]
    exact congrArg (c :: ·) (ih fun d hd => h d (List.mem_cons_of_mem _ hd))

/-- A plain name is its own uppercase form. -/
theorem uppercase_of_plain {name : String} (h : IsPlain name) : Text.uppercase name = name := by
  rw [Text.uppercase, upper_of_plain h.2, String.ofList_toList]

/-- The bytes of plain characters are of one class, if each plain character is. -/
theorem forall_bytes_of_plain {p : UInt8 → Bool} {cs : List Char}
    (hp : ∀ c, isPlainChar c = true → p (UInt8.ofNat c.toNat) = true)
    (h : ∀ c ∈ cs, isPlainChar c = true) : ∀ b ∈ Text.bytes cs, p b = true := by
  intro b hb
  rw [Text.bytes_of_ascii fun c hc => toNat_of_plain (h c hc)] at hb
  obtain ⟨c, hc, rfl⟩ := List.mem_map.mp hb
  exact hp c (h c hc)

theorem dot_notMem {cs : List Char} (h : ∀ c ∈ cs, isPlainChar c = true) : '.' ∉ cs :=
  fun hdot => (classes_of_plain (h '.' hdot)).2.2.1 rfl

/-! ## Calls -/

/-- **A line that is a name** is a call of it, and the place at its start lies inside. -/
theorem callAt_name {name : List UInt8} (hne : name ≠ []) (h : ∀ b ∈ name, isNameByte b = true) :
    callAt name 0 = some ⟨(splitName name).1, (splitName name).2, name.length⟩ := by
  have hlabel : afterLabel name = some name := by
    unfold afterLabel
    split
    · next r =>
      -- a label would begin with `@`, which no name does
      exact absurd (h 0x40 List.mem_cons_self) (by decide)
    · rfl
  have htake : name.takeWhile isNameByte = name := List.takeWhile_eq_self_iff.mpr h
  have hdrop : name.dropWhile isNameByte = [] := List.dropWhile_eq_nil_iff.mpr h
  have hempty : name.isEmpty = false := List.isEmpty_eq_false_iff.mpr hne
  have hcall : callOf name = some ⟨(splitName name).1, (splitName name).2, name.length⟩ := by
    simp [callOf, hlabel, htake, hdrop, hempty]
  have hlength : 0 < name.length := List.length_pos_iff.mpr hne
  rw [callAt, hcall]
  simp [Option.filter, hlength]

theorem splitName_bare {cs : List Char} (h : ∀ c ∈ cs, isPlainChar c = true) :
    splitName (Text.bytes cs) = (baseScope, String.ofList cs) := by
  rw [splitName, Text.map_bytes fun c hc => toNat_of_plain (h c hc),
    Text.splitOn_of_notMem (dot_notMem h)]

theorem splitName_dotted {cs ds : List Char} (hcs : ∀ c ∈ cs, isPlainChar c = true)
    (hds : ∀ c ∈ ds, isPlainChar c = true) :
    splitName (Text.bytes (cs ++ '.' :: ds)) = (String.ofList cs, String.ofList ds) := by
  have hascii : ∀ c ∈ cs ++ '.' :: ds, c.toNat < 128 := by
    intro c hc
    rcases List.mem_append.mp hc with hc | hc
    · exact toNat_of_plain (hcs c hc)
    rcases List.mem_cons.mp hc with rfl | hc
    · decide
    · exact toNat_of_plain (hds c hc)
  rw [splitName, Text.map_bytes hascii, Text.splitOn_append_sep (dot_notMem hcs),
    Text.splitOn_of_notMem (dot_notMem hds)]

theorem isNameByte_of_plain {cs : List Char} (h : ∀ c ∈ cs, isPlainChar c = true) :
    ∀ b ∈ Text.bytes cs, isNameByte b = true :=
  forall_bytes_of_plain (fun _ hc => (classes_of_plain hc).1) h

theorem isWordByte_of_plain {cs : List Char} (h : ∀ c ∈ cs, isPlainChar c = true) :
    ∀ b ∈ Text.bytes cs, isWordByte b = true :=
  forall_bytes_of_plain (fun _ hc => (classes_of_plain hc).2.1) h

theorem bytes_ne_nil {name : String} (h : IsPlain name) : Text.bytes name.toList ≠ [] := by
  rw [Ne, Text.bytes_eq_nil_iff]
  simpa using h.1

/-- **A plain name** alone in its line calls a command of `BASE`. -/
theorem callAt_bare {name : String} (h : IsPlain name) :
    callAt (Text.bytes name.toList) 0 =
      some ⟨baseScope, name, (Text.bytes name.toList).length⟩ := by
  rw [callAt_name (bytes_ne_nil h) (isNameByte_of_plain h.2), splitName_bare h.2,
    String.ofList_toList]

/-- **Two plain names** with a dot between them call a command of a scope. -/
theorem callAt_dotted {scope name : String} (hs : IsPlain scope) (hn : IsPlain name) :
    callAt (Text.bytes (scope.toList ++ '.' :: name.toList)) 0 =
      some ⟨scope, name, (Text.bytes (scope.toList ++ '.' :: name.toList)).length⟩ := by
  have hbytes : ∀ b ∈ Text.bytes (scope.toList ++ '.' :: name.toList), isNameByte b = true := by
    intro b hb
    rw [Text.bytes_append, List.mem_append, Text.bytes_cons, List.mem_append] at hb
    rcases hb with hb | hb | hb
    · exact isNameByte_of_plain hs.2 b hb
    · obtain rfl := List.mem_singleton.mp hb
      decide
    · exact isNameByte_of_plain hn.2 b hb
  have hne : Text.bytes (scope.toList ++ '.' :: name.toList) ≠ [] := by
    rw [Text.bytes_append]
    exact List.append_ne_nil_of_left_ne_nil (bytes_ne_nil hs) _
  rw [callAt_name hne hbytes, splitName_dotted hs.2 hn.2, String.ofList_toList,
    String.ofList_toList]

/-! ## Words -/

/-- The span of a word is found at each of its columns, and at its end: a run of word bytes with no
    such byte before it and none behind. -/
theorem wordSpan_of_word {before word behind : List UInt8} {k : Nat} (hne : word ≠ [])
    (hword : ∀ b ∈ word, isWordByte b = true)
    (hbefore : ∀ b ∈ before.getLast?, isWordByte b = false)
    (hbehind : ∀ b ∈ behind.head?, isWordByte b = false) (hk : k ≤ word.length) :
    wordSpan (before ++ (word ++ behind)) (before.length + k) =
      some (before.length, before.length + word.length) := by
  have hstart : wordBefore (before ++ (word ++ behind)) (before.length + k) = word.take k := by
    rw [wordBefore, List.take_length_add_append, List.take_append_of_le_length hk,
      List.reverse_append, takeWhile_run, List.reverse_reverse]
    · exact fun b hb => hword b (List.mem_of_mem_take (List.mem_reverse.mp hb))
    · rwa [List.head?_reverse]
  have hstop : wordBehind (before ++ (word ++ behind)) (before.length + k) = word.drop k := by
    rw [wordBehind, List.drop_length_add_append, List.drop_append_of_le_length hk]
    exact takeWhile_run (fun b hb => hword b (List.mem_of_mem_drop hb)) hbehind
  have hlength : 0 < word.length := List.length_pos_iff.mpr hne
  rw [wordSpan, hstart, hstop, List.length_take, List.length_drop, Nat.min_eq_left hk,
    if_neg (by simp only [List.length_append]; omega)]
  simp only [Nat.add_sub_cancel]
  rw [if_neg (by omega), show before.length + k + (word.length - k) = before.length + word.length
    by omega]

/-- **A word** is found where its span is. -/
theorem wordAt_of_word {before word behind : List UInt8} {k : Nat} (hne : word ≠ [])
    (hword : ∀ b ∈ word, isWordByte b = true)
    (hbefore : ∀ b ∈ before.getLast?, isWordByte b = false)
    (hbehind : ∀ b ∈ behind.head?, isWordByte b = false) (hk : k ≤ word.length) :
    wordAt (before ++ (word ++ behind)) (before.length + k) = some (Text.ofAscii word) := by
  rw [wordAt, wordSpan_of_word hne hword hbefore hbehind hk, Option.map_some, List.drop_left,
    Nat.add_sub_cancel_left, List.take_left]

/-- A letter or digit of ASCII, or `_`. -/
def isWordChar (c : Char) : Bool := c.isAlphanum || c == '_'

theorem sameClass_word : SameClass isWordByte isWordChar where
  byte := by decide +kernel
  ascii := by
    intro c h
    simp only [isWordChar, Bool.or_eq_true, beq_iff_eq] at h
    rcases h with h | rfl
    · exact isAlphanum_ascii h
    · decide

/-- A character that is not part of a word ends with a byte that is not, be it of ASCII or not. -/
theorem isWordByte_getLast {cs : List Char} (h : ∀ c ∈ cs.getLast?, isWordChar c = false) :
    ∀ b ∈ (Text.bytes cs).getLast?, isWordByte b = false := by
  intro b hb
  cases hlast : cs.getLast? with
  | none =>
    rw [List.getLast?_eq_none_iff.mp hlast] at hb
    cases hb
  | some c =>
    obtain ⟨rest, rfl⟩ := List.getLast?_eq_some_iff.mp hlast
    rw [Text.getLast?_bytes] at hb
    by_cases hascii : c.toNat < 128
    · rw [Text.utf8EncodeChar_of_ascii hascii] at hb
      obtain rfl := Option.some.inj hb
      exact (sameClass_word.apply_ofNat hascii).trans (h c hlast)
    · rw [Text.getLast?_utf8EncodeChar hascii] at hb
      obtain rfl := Option.some.inj hb
      have hmod := Nat.mod_lt c.toNat (show 0 < 64 by decide)
      refine Bool.eq_false_iff.mpr fun hword => ?_
      have hlow := sameClass_word.low hword
      rw [UInt8.toNat_ofNat'] at hlow
      omega

/-- **The scope in front of a dot** is found when the dot has just been typed. -/
theorem scopeBeforeDot_of_scope {scope : String} (hs : IsPlain scope) {before : List Char}
    (hbefore : ∀ c ∈ before.getLast?, isWordChar c = false) (behind : List Char) :
    scopeBeforeDot (Text.bytes (before ++ scope.toList ++ '.' :: behind))
      (Text.bytes (before ++ scope.toList ++ ['.'])).length = some scope := by
  have hpos : 0 < (Text.bytes scope.toList).length := List.length_pos_iff.mpr (bytes_ne_nil hs)
  have hcursor : (Text.bytes (before ++ scope.toList ++ ['.'])).length =
      (Text.bytes before).length + (Text.bytes scope.toList).length + 1 := by
    rw [Text.bytes_append, Text.bytes_append, List.length_append, List.length_append]
    rfl
  have hline : Text.bytes (before ++ scope.toList ++ '.' :: behind) =
      Text.bytes before ++ (Text.bytes scope.toList ++ 0x2E :: Text.bytes behind) := by
    rw [Text.bytes_append, Text.bytes_append, List.append_assoc, Text.bytes_cons]
    rfl
  have hcolumn : (Text.bytes before).length + (Text.bytes scope.toList).length + 1 - 2 =
      (Text.bytes before).length + ((Text.bytes scope.toList).length - 1) := by omega
  have hbehind : ∀ b ∈ (0x2E :: Text.bytes behind).head?, isWordByte b = false := by
    intro b hb
    obtain rfl := Option.some.inj hb
    decide
  rw [scopeBeforeDot, hcursor, if_neg (by omega), hcolumn, hline,
    wordAt_of_word (bytes_ne_nil hs) (isWordByte_of_plain hs.2) (isWordByte_getLast hbefore) hbehind
      (Nat.sub_le _ _), Text.ofAscii, Text.map_bytes fun c hc => toNat_of_plain (hs.2 c hc),
    String.ofList_toList]

end Script

end RunnerCatalog
