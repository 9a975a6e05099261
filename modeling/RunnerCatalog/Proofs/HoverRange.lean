/-
  The range of a hover.

  A cursor comes in UTF-16 units, the scanner counts bytes, and the range that is shown goes out as
  the scanner counted it.  That is right because a call is made of ASCII, whatever stands behind it.

  1. **Units** - `Text.units` are the units of a text.  In ASCII, units and bytes are equally many
     (`length_units_of_ascii`), so a column lies inside a text of ASCII that begins a line if and
     only if its byte does (`byteOffset_lt_iff`).

  2. **Calls** - openings are ASCII (`Opening.ascii`).  So the call at a column is the one at the
     start of the line, if the column is less than its stop (`callAt_column`).

  3. **Hovers** - `hover_range`.
-/
import RunnerCatalog.Proofs.Agreement
import RunnerCatalog.Proofs.Openings

namespace RunnerCatalog

/-! ## Units -/

namespace Text

/-- The UTF-16 units of a character: its number, or two surrogates. -/
def utf16 (c : Char) : List UInt16 :=
  if c.val < 0x10000 then [UInt16.ofNat c.toNat]
  else
    [UInt16.ofNat (0xD800 + (c.toNat - 0x10000) / 0x400),
      UInt16.ofNat (0xDC00 + (c.toNat - 0x10000) % 0x400)]

/-- The UTF-16 units of a text. -/
def units (cs : List Char) : List UInt16 := cs.flatMap utf16

theorem units_append (cs ds : List Char) : units (cs ++ ds) = units cs ++ units ds :=
  List.flatMap_append

theorem length_utf16 (c : Char) : (utf16 c).length = charUnits c := by
  unfold utf16 charUnits
  split <;> rfl

theorem length_units_cons (c : Char) (cs : List Char) :
    (units (c :: cs)).length = charUnits c + (units cs).length := by
  show (utf16 c ++ units cs).length = _
  rw [List.length_append, length_utf16]

/-- There are as many units as are counted. -/
theorem length_units (cs : List Char) : (units cs).length = unitLength cs := by
  induction cs with
  | nil => rfl
  | cons c cs ih =>
    rw [length_units_cons, ih]
    rfl

theorem charUnits_of_ascii {c : Char} (h : c.toNat < 128) : charUnits c = 1 := by
  have hlow : c.val < 0x10000 := UInt32.lt_iff_toNat_lt.mpr (Nat.lt_trans h (by decide))
  exact if_pos hlow

theorem utf8Size_of_ascii {c : Char} (h : c.toNat < 128) : c.utf8Size = 1 := by
  rw [← String.length_utf8EncodeChar, utf8EncodeChar_of_ascii h, List.length_singleton]

/-- **In ASCII** a text has as many units as bytes. -/
theorem length_units_of_ascii {cs : List Char} (h : ∀ c ∈ cs, c.toNat < 128) :
    (units cs).length = (bytes cs).length := by
  induction cs with
  | nil => rfl
  | cons c cs ih =>
    have hc := h c List.mem_cons_self
    rw [length_units_cons, length_bytes_cons, charUnits_of_ascii hc, utf8Size_of_ascii hc,
      ih fun d hd => h d (List.mem_cons_of_mem _ hd)]

/-- **A column** lies inside a text of ASCII that begins the line if and only if its byte does. -/
theorem byteOffset_lt_iff {cs : List Char} (h : ∀ c ∈ cs, c.toNat < 128) (ds : List Char)
    (column : Nat) :
    byteOffset (cs ++ ds) column < (bytes cs).length ↔ column < (bytes cs).length := by
  induction cs generalizing column with
  | nil =>
    constructor
    · intro hlt
      cases hlt
    · intro hlt
      cases hlt
  | cons c cs ih =>
    have hc := h c List.mem_cons_self
    rw [List.cons_append, length_bytes_cons, byteOffset, utf8Size_of_ascii hc,
      charUnits_of_ascii hc]
    by_cases hzero : column = 0
    · rw [if_pos hzero]
      omega
    · have hrest := ih (fun d hd => h d (List.mem_cons_of_mem _ hd)) (column - 1)
      rw [if_neg hzero]
      omega

end Text

namespace Script

/-! ## Calls -/

theorem IsLabel.ascii {label : List Char} (h : IsLabel label) : ∀ c ∈ label, c.toNat < 128 := by
  rcases h with rfl | ⟨name, blanks, rfl, ⟨-, hname⟩, -, hblanks⟩
  · exact fun c hc => absurd hc List.not_mem_nil
  · intro c hc
    rw [List.cons_append, List.mem_cons, List.mem_append, List.mem_cons] at hc
    rcases hc with rfl | hc | rfl | hc
    · decide
    · exact sameClass_label.ascii c (hname c hc)
    · decide
    · exact sameClass_blank.ascii c (hblanks c hc)

/-- An opening is ASCII, its label and its `!` included. -/
theorem Opening.ascii (o : Opening) : ∀ c ∈ o.text, c.toNat < 128 := by
  intro c hc
  rw [Opening.text, List.mem_append, List.mem_append] at hc
  rcases hc with hc | hc | hc
  · exact o.label_form.ascii c hc
  · exact sameClass_name.ascii c (o.name_form c hc)
  · rcases o.bang_form with hbang | hbang
    · rw [hbang] at hc
      cases hc
    · rw [hbang] at hc
      obtain rfl := List.mem_singleton.mp hc
      decide

theorem Opening.stop_pos (o : Opening) : 0 < o.stop := by
  have hname := o.name_ne
  rw [Opening.stop, List.length_pos_iff, Ne, Text.bytes_eq_nil_iff, Opening.text,
    List.append_eq_nil_iff, List.append_eq_nil_iff]
  exact fun hnil => hname hnil.2.1

/-- **The call at a column** is the one at the start of the line, if the column lies before its
    stop. -/
theorem callAt_column (line : List Char) (column : Nat) :
    callAt (Text.bytes line) (Text.byteOffset line column) =
      (callAt (Text.bytes line) 0).filter (column < ·.stop) := by
  rw [callAt, callAt]
  cases hcall : callOf (Text.bytes line) with
  | none => rfl
  | some call =>
    obtain ⟨o, rest, rfl, -, rfl⟩ := exists_opening hcall
    have hinside : (Text.byteOffset (o.text ++ rest) column < o.call.stop) =
        (column < o.call.stop) :=
      propext (Text.byteOffset_lt_iff o.ascii rest column)
    have hpos : 0 < o.call.stop := o.stop_pos
    simp only [Option.filter_some, hinside, hpos, decide_true, if_true]

/-! ## Hovers -/

variable {settings : Settings} {n : Nat} {shown : Hover}

/-- What is shown depends on the line, the call at the place and the runner. -/
theorem hover_value (source : Source) (settings : Settings) (cache : Cache) (text : String)
    (place : Place) :
    (hover source settings cache text place).value =
      (Text.lineAt text.toList place.line).bind fun line =>
        (callAt (Text.bytes line) (Text.byteOffset line place.character)).bind fun call =>
          (runnerFor source settings cache text).value.bind (hoverOn settings place.line call) := by
  unfold hover
  split
  · next hline => rw [hline, Option.bind_none]
  · next line hline =>
    rw [hline, Option.bind_some]
    split
    · next hcall => rw [hcall, Option.bind_none]
    · next call hcall => rw [hcall, Option.bind_some, withValue]

/-- A hover is about the whole call. -/
theorem range_of_hoverOn {call : Call} {r : Runner} (h : hoverOn settings n call r = some shown) :
    shown.start = ⟨n, 0⟩ ∧ shown.stop = ⟨n, call.stop⟩ := by
  obtain ⟨d, -, rfl⟩ := Option.map_eq_some_iff.mp h
  exact ⟨rfl, rfl⟩

/-- **The range of a hover is right in the editor's units**, for all documents and whatever the line
    has behind the call.  As long as the runner is the same, hovering at a column shows something if
    and only if hovering at the start of the line does, with a range that begins there and ends
    behind the column, and then it shows the same.  Up to where the range ends, the units of the
    line are those of the opening that is its call, and so are its bytes. -/
theorem hover_range (settings : Settings) (text : String) (n : Nat) {source source' : Source}
    {cache cache' : Cache}
    (hsame : (runnerFor source settings cache text).value =
      (runnerFor source' settings cache' text).value) :
    (∀ column shown, (hover source settings cache text ⟨n, column⟩).value = some shown ↔
        (hover source' settings cache' text ⟨n, 0⟩).value = some shown ∧
          column < shown.stop.character) ∧
      ∀ shown, (hover source' settings cache' text ⟨n, 0⟩).value = some shown →
        shown.start = ⟨n, 0⟩ ∧ shown.stop.line = n ∧
          ∃ line, Text.lineAt text.toList n = some line ∧
            shown.stop.character ≤ (Text.units line).length ∧
            ∃ o : Opening, o.Longest line ∧
              (Text.units line).take shown.stop.character = Text.units o.text ∧
              (Text.bytes line).take shown.stop.character = Text.bytes o.text := by
  constructor
  · intro column shown
    rw [hover_value, hover_value, ← hsame]
    cases Text.lineAt text.toList n with
    | none => exact ⟨nofun, fun h => nomatch h.1⟩
    | some line =>
      simp only [Option.bind_some, Text.byteOffset_zero, callAt_column]
      cases callAt (Text.bytes line) 0 with
      | none => exact ⟨nofun, fun h => nomatch h.1⟩
      | some call =>
        rw [Option.bind_some, Option.filter_some]
        constructor
        · intro h
          split at h
          · next hinside =>
            rw [Option.bind_some] at h
            obtain ⟨r, hr, hon⟩ := Option.bind_eq_some_iff.mp h
            refine ⟨h, ?_⟩
            rw [(range_of_hoverOn hon).2]
            exact of_decide_eq_true hinside
          · cases h
        · rintro ⟨h, hinside⟩
          obtain ⟨r, hr, hon⟩ := Option.bind_eq_some_iff.mp h
          rw [(range_of_hoverOn hon).2] at hinside
          rw [if_pos (decide_eq_true hinside)]
          exact h
  · intro shown h
    rw [hover_value] at h
    obtain ⟨line, hline, h⟩ := Option.bind_eq_some_iff.mp h
    obtain ⟨call, hcall, h⟩ := Option.bind_eq_some_iff.mp h
    obtain ⟨r, -, hon⟩ := Option.bind_eq_some_iff.mp h
    obtain ⟨hstart, hstop⟩ := range_of_hoverOn hon
    obtain ⟨o, rest, rfl, hstops, rfl⟩ := exists_opening (Option.filter_eq_some_iff.mp hcall).1
    have hunits : o.call.stop = (Text.units o.text).length :=
      (Text.length_units_of_ascii o.ascii).symm
    have hlongest : o.Longest (o.text ++ rest) := longest_iff.mpr ⟨rest, rfl, hstops⟩
    rw [hstop]
    refine ⟨hstart, rfl, _, hline, ?_, o, hlongest, ?_, ?_⟩
    · show o.call.stop ≤ _
      rw [hunits, Text.units_append, List.length_append]
      exact Nat.le_add_right _ _
    · show List.take o.call.stop _ = _
      rw [hunits, Text.units_append, List.take_left]
    · show List.take o.stop _ = _
      rw [Opening.stop, Text.bytes_append, List.take_left]

/-- Before and after the runner was loaded, the last unit of the `!` is inside and the blank behind it
    is not; the character at the end of the line has two units and four bytes. -/
theorem hover_range_surrogates :
    let text := "// runner: log\n@x: UTIL.LOG! 😀"
    let known := Cache.after [⟨.resolve "log", logging.source, .arrival⟩]
    (runnerFor logging.source {} OrderedMap.empty text).value =
        (runnerFor logging.source {} known text).value ∧
      ∃ shown, (hover logging.source {} known text ⟨1, 0⟩).value = some shown ∧
        shown.stop = ⟨1, 13⟩ ∧
        (hover logging.source {} OrderedMap.empty text ⟨1, 12⟩).value = some shown ∧
        (hover logging.source {} OrderedMap.empty text ⟨1, 13⟩).value ≠ some shown := by
  intro text known
  have hsame : (runnerFor logging.source {} OrderedMap.empty text).value =
      (runnerFor logging.source {} known text).value := by decide +kernel
  have hstop : (hover logging.source {} known text ⟨1, 0⟩).value.map Hover.stop = some ⟨1, 13⟩ := by
    decide +kernel
  obtain ⟨shown, hshown, hstop⟩ := Option.map_eq_some_iff.mp hstop
  have hiff := (hover_range {} text 1 hsame).1
  refine ⟨hsame, shown, hshown, hstop, (hiff 12 shown).mpr ⟨hshown, ?_⟩, fun hbehind => ?_⟩
  · rw [hstop]
    decide
  · have hlt := ((hiff 13 shown).mp hbehind).2
    rw [hstop] at hlt
    exact absurd hlt (by decide)

end Script

end RunnerCatalog
