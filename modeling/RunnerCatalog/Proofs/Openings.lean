/-
  The grammar of a call.

  The scanner goes through the bytes of a line in four loops and gives up early where a loop finds
  nothing.  What it accepts is said here without it, as a grammar on the characters of the line.

  1. **Openings** - an opening is a label or nothing, a name, and a `!` or nothing (`Opening`).  An
     opening of a line goes as far as it can if no longer one begins the line (`Opening.Longest`).

  2. **Labels** - the loop over a label ends where the label does (`afterLabel_of_label`,
     `exists_label`).

  3. **Stops** - an opening that is followed by nothing that could belong to it is found
     (`callOf_of_stops`), and whatever is found is one (`exists_opening`).  So every opening of a
     line can be made longer until it stops (`exists_stops`), and those that stop are the longest
     ones (`longest_iff`).

  4. **Names** - the name is made of whole characters, so it can be cut out of the text
     (`callOf_eq_cut`), and it is taken apart at its dots (`standsFor_splitName`).

  5. **Calls** - `callAt_grammar`.
-/
import RunnerCatalog.Proofs.Scanning

namespace RunnerCatalog.Script

/-! ## Openings -/

/-- A character of a name: a capital letter, a digit, `_` or `.`. -/
def isNameChar (c : Char) : Bool := c.isUpper || c.isDigit || c == '_' || c == '.'

/-- A character of a label: a letter, a digit, `_` or `-`. -/
def isLabelChar (c : Char) : Bool := c.isAlphanum || c == '_' || c == '-'

/-- A blank of ASCII, of which the vertical tab is none. -/
def isAsciiBlankChar (c : Char) : Bool :=
  c == ' ' || c == '\t' || c == '\n' || c == '\x0C' || c == '\r'

/-- Nothing, or `@`, a name, a colon and blanks. -/
def IsLabel (label : List Char) : Prop :=
  label = [] ∨ ∃ name blanks, label = '@' :: name ++ ':' :: blanks ∧
    (name ≠ [] ∧ ∀ c ∈ name, isLabelChar c = true) ∧
    (blanks ≠ [] ∧ ∀ c ∈ blanks, isAsciiBlankChar c = true)

/-- How a statement begins. -/
structure Opening where
  label : List Char
  name : List Char
  bang : List Char
  label_form : IsLabel label
  name_ne : name ≠ []
  name_form : ∀ c ∈ name, isNameChar c = true
  bang_form : bang = [] ∨ bang = ['!']

namespace Opening

/-- An opening as it is written. -/
def text (o : Opening) : List Char := o.label ++ (o.name ++ o.bang)

/-- The byte behind an opening that begins its line. -/
def stop (o : Opening) : Nat := (Text.bytes o.text).length

/-- The opening begins the line, and no longer one does. -/
def Longest (o : Opening) (line : List Char) : Prop :=
  o.text <+: line ∧ ∀ other : Opening, other.text <+: line → other.stop ≤ o.stop

/-- What the name stands for: a command of `BASE` if it has no dot, and otherwise a scope, which
    ends at the first dot, and a command, which ends at the second one or with the name. -/
def StandsFor (o : Opening) (scope command : String) : Prop :=
  ('.' ∉ o.name → scope = baseScope ∧ command = String.ofList o.name) ∧
    ∀ first rest, o.name = first ++ '.' :: rest → '.' ∉ first →
      scope = String.ofList first ∧ command = String.ofList (rest.takeWhile (· ≠ '.'))

/-- What comes next does not belong to the opening. -/
def Stops (o : Opening) (rest : List Char) : Prop :=
  o.bang = [] → ∀ c ∈ rest.head?, isNameChar c = false ∧ c ≠ '!'

/-- The call that the opening makes. -/
def call (o : Opening) : Call :=
  ⟨(splitName (Text.bytes o.name)).1, (splitName (Text.bytes o.name)).2, o.stop⟩

end Opening

/-! ## Classes -/

theorem sameClass_name : SameClass isNameByte isNameChar where
  byte := by decide +kernel
  ascii := by
    intro c h
    simp only [isNameChar, Bool.or_eq_true, beq_iff_eq] at h
    rcases h with ((hupper | hdigit) | rfl) | rfl
    · exact isUpper_ascii hupper
    · exact isDigit_ascii hdigit
    · decide
    · decide

theorem sameClass_label : SameClass isLabelByte isLabelChar where
  byte := by decide +kernel
  ascii := by
    intro c h
    simp only [isLabelChar, Bool.or_eq_true, beq_iff_eq] at h
    rcases h with (h | rfl) | rfl
    · exact isAlphanum_ascii h
    · decide
    · decide

theorem sameClass_blank : SameClass Text.isAsciiBlank isAsciiBlankChar where
  byte := by decide +kernel
  ascii := by
    intro c h
    simp only [isAsciiBlankChar, Bool.or_eq_true, beq_iff_eq] at h
    rcases h with (((rfl | rfl) | rfl) | rfl) | rfl <;> decide

theorem isNameChar_of_blank {c : Char} (h : isAsciiBlankChar c = true) : isNameChar c = false := by
  simp only [isAsciiBlankChar, Bool.or_eq_true, beq_iff_eq] at h
  rcases h with (((rfl | rfl) | rfl) | rfl) | rfl <;> decide

/-! ## Labels -/

variable {label rest line : List Char}

/-- **A label** is passed over, if a name follows. -/
theorem afterLabel_of_label (hlabel : IsLabel label) (hne : rest ≠ [])
    (hrest : ∀ c ∈ rest.head?, isNameChar c = true) :
    afterLabel (Text.bytes (label ++ rest)) = some (Text.bytes rest) := by
  obtain ⟨c, r, rfl⟩ := List.exists_cons_of_ne_nil hne
  have hc := hrest c rfl
  rcases hlabel with rfl | ⟨name, blanks, rfl, ⟨hname, hname'⟩, hblanks, hblanks'⟩
  · unfold afterLabel
    split
    · next r' h =>
      -- a name does not begin with `@`
      obtain ⟨ds, heq, -⟩ := Text.exists_of_bytes_eq_cons (d := '@') (by decide) h
      rw [(List.cons.inj heq).1] at hc
      exact absurd hc (by decide)
    · rfl
  · have hblank : isAsciiBlankChar c = false := by
      refine Bool.eq_false_iff.mpr fun hblank => ?_
      rw [isNameChar_of_blank hblank] at hc
      cases hc
    have hcolon : ∀ d ∈ (':' :: (blanks ++ c :: r)).head?, isLabelChar d = false := by
      intro d hd
      obtain rfl := Option.some.inj hd
      decide
    have hbehind : ∀ d ∈ (c :: r).head?, isAsciiBlankChar d = false :=
      fun d hd => Option.some.inj hd ▸ hblank
    have hline : Text.bytes ('@' :: name ++ ':' :: blanks ++ c :: r) =
        0x40 :: Text.bytes (name ++ ':' :: (blanks ++ c :: r)) := by
      simp only [List.cons_append, List.append_assoc]
      rfl
    have hrest' : Text.bytes (':' :: (blanks ++ c :: r)) = 0x3A :: Text.bytes (blanks ++ c :: r) :=
      rfl
    rw [hline, afterLabel]
    simp only [sameClass_label.takeWhile_bytes, sameClass_label.dropWhile_bytes,
      takeWhile_run hname' hcolon, dropWhile_run hname' hcolon, hrest', Text.isEmpty_bytes hname,
      sameClass_blank.takeWhile_bytes, sameClass_blank.dropWhile_bytes,
      takeWhile_run hblanks' hbehind, dropWhile_run hblanks' hbehind, Text.isEmpty_bytes hblanks,
      Bool.false_eq_true, if_false]

/-- Whatever is passed over is a label. -/
theorem exists_label {r : List UInt8} (h : afterLabel (Text.bytes line) = some r) :
    ∃ label rest, line = label ++ rest ∧ IsLabel label ∧ r = Text.bytes rest := by
  unfold afterLabel at h
  split at h
  · next r' hat =>
    obtain ⟨cs, rfl, rfl⟩ := Text.exists_of_bytes_eq_cons (d := '@') (by decide) hat
    rw [sameClass_label.takeWhile_bytes, sameClass_label.dropWhile_bytes] at h
    split at h
    · cases h
    next hname =>
    split at h
    · next r'' hcolon =>
      obtain ⟨ds, hds, rfl⟩ := Text.exists_of_bytes_eq_cons (d := ':') (by decide) hcolon
      rw [sameClass_blank.takeWhile_bytes, sameClass_blank.dropWhile_bytes] at h
      split at h
      · cases h
      next hblanks =>
      obtain rfl := Option.some.inj h
      refine ⟨'@' :: cs.takeWhile isLabelChar ++ ':' :: ds.takeWhile isAsciiBlankChar,
        ds.dropWhile isAsciiBlankChar, ?_, .inr ⟨_, _, rfl, ⟨?_, ?_⟩, ?_, ?_⟩, rfl⟩
      · rw [List.append_assoc, List.cons_append, List.cons_append, List.takeWhile_append_dropWhile,
          ← hds, List.takeWhile_append_dropWhile]
      · rintro heq
        rw [heq] at hname
        exact hname rfl
      · exact fun c hc => List.mem_takeWhile_imp hc
      · rintro heq
        rw [heq] at hblanks
        exact hblanks rfl
      · exact fun c hc => List.mem_takeWhile_imp hc
    · cases h
  · exact ⟨[], line, rfl, .inl rfl, (Option.some.inj h).symm⟩

/-! ## Stops -/

namespace Opening

variable {o : Opening}

theorem text_append (o : Opening) (rest : List Char) :
    o.text ++ rest = o.label ++ (o.name ++ (o.bang ++ rest)) := by
  rw [text, List.append_assoc, List.append_assoc]

theorem stop_eq (o : Opening) :
    o.stop = (Text.bytes o.label).length + (Text.bytes o.name).length +
      (Text.bytes o.bang).length := by
  rw [stop, text, Text.bytes_append, Text.bytes_append, List.length_append, List.length_append,
    Nat.add_assoc]

/-- Behind the name of an opening that stops there is no character of names. -/
theorem Stops.name_ends (h : o.Stops rest) :
    ∀ c ∈ (o.bang ++ rest).head?, isNameChar c = false := by
  intro c hc
  rcases o.bang_form with hbang | hbang
  · rw [hbang] at hc
    exact (h hbang c hc).1
  · rw [hbang] at hc
    obtain rfl := Option.some.inj hc
    decide

/-- What follows the name, without the `!`. -/
theorem Stops.rest_eq (h : o.Stops rest) :
    (match Text.bytes (o.bang ++ rest) with
      | 0x21 :: r => r
      | r => r) = Text.bytes rest := by
  rcases o.bang_form with hbang | hbang
  · rw [hbang, List.nil_append]
    split
    · next r hr =>
      obtain ⟨ds, rfl, -⟩ := Text.exists_of_bytes_eq_cons (d := '!') (by decide) hr
      exact absurd rfl (h hbang '!' rfl).2
    · rfl
  · rw [hbang]
    rfl

end Opening

/-- Behind the label of an opening comes its name. -/
theorem afterLabel_text (o : Opening) (rest : List Char) :
    afterLabel (Text.bytes (o.text ++ rest)) =
      some (Text.bytes (o.name ++ (o.bang ++ rest))) := by
  obtain ⟨c, r, hname⟩ := List.exists_cons_of_ne_nil o.name_ne
  have hhead : ∀ d ∈ (o.name ++ (o.bang ++ rest)).head?, isNameChar d = true := by
    intro d hd
    rw [hname] at hd
    obtain rfl := Option.some.inj hd
    exact o.name_form _ (hname ▸ List.mem_cons_self)
  rw [o.text_append]
  exact afterLabel_of_label o.label_form (List.append_ne_nil_of_left_ne_nil o.name_ne _) hhead

/-- **An opening that stops** is the one that is found. -/
theorem callOf_of_stops {o : Opening} (h : o.Stops rest) :
    callOf (Text.bytes (o.text ++ rest)) = some o.call := by
  have hstop : (Text.bytes (o.text ++ rest)).length - (Text.bytes rest).length = o.stop := by
    rw [Text.bytes_append, List.length_append, Nat.add_sub_cancel, Opening.stop]
  simp only [callOf, afterLabel_text, sameClass_name.takeWhile_bytes,
    sameClass_name.dropWhile_bytes, takeWhile_run o.name_form h.name_ends,
    dropWhile_run o.name_form h.name_ends, Text.isEmpty_bytes o.name_ne, Bool.false_eq_true,
    if_false]
  rw [Opening.call, ← hstop]
  exact congrArg (fun r : List UInt8 =>
    some (Call.mk _ _ ((Text.bytes (o.text ++ rest)).length - r.length))) h.rest_eq

/-- Behind a label, a name can be read as far as it goes. -/
theorem exists_stops_behind (hlabel : IsLabel label) (hne : rest.takeWhile isNameChar ≠ []) :
    ∃ (o : Opening) (behind : List Char), o.label = label ∧ o.name = rest.takeWhile isNameChar ∧
      rest = o.name ++ (o.bang ++ behind) ∧ o.Stops behind := by
  have hform : ∀ c ∈ rest.takeWhile isNameChar, isNameChar c = true :=
    fun c hc => List.mem_takeWhile_imp hc
  have hsplit : rest = rest.takeWhile isNameChar ++ rest.dropWhile isNameChar :=
    (List.takeWhile_append_dropWhile).symm
  have hends := head?_dropWhile isNameChar rest
  by_cases hbang : ∃ behind, rest.dropWhile isNameChar = '!' :: behind
  · obtain ⟨behind, hbehind⟩ := hbang
    refine ⟨⟨label, _, ['!'], hlabel, hne, hform, .inr rfl⟩, behind, rfl, rfl, ?_, nofun⟩
    rw [List.singleton_append, ← hbehind]
    exact hsplit
  · refine ⟨⟨label, _, [], hlabel, hne, hform, .inl rfl⟩, rest.dropWhile isNameChar, rfl, rfl,
      hsplit, fun _ c hc => ⟨hends c hc, ?_⟩⟩
    rintro rfl
    obtain ⟨behind, hbehind⟩ := List.head?_eq_some_iff.mp hc
    exact hbang ⟨behind, hbehind⟩

/-- **Whatever is found** is an opening that stops. -/
theorem exists_opening {call : Call} (h : callOf (Text.bytes line) = some call) :
    ∃ (o : Opening) (rest : List Char), line = o.text ++ rest ∧ o.Stops rest ∧ call = o.call := by
  have hopening : ∃ (o : Opening) (rest : List Char), line = o.text ++ rest ∧ o.Stops rest := by
    rw [callOf] at h
    split at h
    · cases h
    next r hr =>
    obtain ⟨label, rest, rfl, hlabel, rfl⟩ := exists_label hr
    have hne : rest.takeWhile isNameChar ≠ [] := by
      intro hempty
      rw [sameClass_name.takeWhile_bytes, hempty] at h
      cases h
    obtain ⟨o, behind, rfl, -, hrest, hstops⟩ := exists_stops_behind hlabel hne
    exact ⟨o, behind, by rw [o.text_append, ← hrest], hstops⟩
  obtain ⟨o, rest, rfl, hstops⟩ := hopening
  exact ⟨o, rest, rfl, hstops, Option.some.inj (h.symm.trans (callOf_of_stops hstops))⟩

/-- An opening that does not stop can be made longer until it does. -/
theorem exists_stops (o : Opening) (rest : List Char) :
    ∃ (longer : Opening) (behind : List Char), o.text ++ rest = longer.text ++ behind ∧
      longer.Stops behind ∧ o.stop ≤ longer.stop := by
  have hrun : (o.name ++ (o.bang ++ rest)).takeWhile isNameChar =
      o.name ++ (o.bang ++ rest).takeWhile isNameChar :=
    List.takeWhile_append_of_pos o.name_form
  have hne : (o.name ++ (o.bang ++ rest)).takeWhile isNameChar ≠ [] :=
    hrun ▸ List.append_ne_nil_of_left_ne_nil o.name_ne _
  obtain ⟨longer, behind, hlabel, hname, hrest, hstops⟩ := exists_stops_behind o.label_form hne
  refine ⟨longer, behind, by rw [o.text_append, longer.text_append, hlabel, hrest], hstops, ?_⟩
  rw [o.stop_eq, longer.stop_eq, hlabel]
  rw [hrun] at hname
  rcases o.bang_form with hbang | hbang
  · have hnil : (Text.bytes []).length = 0 := rfl
    rw [hname, hbang, Text.bytes_append, List.length_append]
    omega
  · -- the name ends at the `!`, so the longer opening has it too
    rw [hbang] at hname hrest
    have hsame : longer.name = o.name := by
      rw [hname]
      exact List.append_nil _
    rw [hsame, List.append_cancel_left_eq] at hrest
    rcases longer.bang_form with hbang' | hbang'
    · rw [hbang', List.nil_append] at hrest
      exact absurd rfl (hstops hbang' '!' (hrest ▸ rfl)).2
    · rw [hsame, hbang, hbang']

/-- What follows a longest opening cannot make it longer. -/
theorem Opening.Longest.stops {o : Opening} (h : o.Longest (o.text ++ rest)) : o.Stops rest := by
  intro hbang c hc
  obtain ⟨r, rfl⟩ := List.head?_eq_some_iff.mp hc
  obtain ⟨-, hlongest⟩ := h
  have hbegins : ∀ other : Opening, other.text = o.text ++ [c] → False := by
    intro other htext
    have hle : other.stop ≤ o.stop :=
      hlongest other ⟨r, by rw [htext, List.append_assoc, List.singleton_append]⟩
    have hpos := c.utf8Size_pos
    rw [Opening.stop, Opening.stop, htext, Text.bytes_append, List.length_append,
      Text.length_bytes_cons] at hle
    omega
  constructor
  · by_contra hnamed
    rw [Bool.not_eq_false] at hnamed
    refine hbegins {
      label := o.label
      name := o.name ++ [c]
      bang := []
      label_form := o.label_form
      name_ne := List.append_ne_nil_of_left_ne_nil o.name_ne _
      name_form := List.forall_mem_append.mpr
        ⟨o.name_form, List.forall_mem_singleton.mpr hnamed⟩
      bang_form := .inl rfl } ?_
    rw [Opening.text, Opening.text, hbang, List.append_nil, List.append_nil, List.append_assoc]
  · rintro rfl
    refine hbegins { o with bang := ['!'], bang_form := .inr rfl } ?_
    rw [Opening.text, Opening.text, hbang, List.append_nil, List.append_assoc]

/-- **The longest opening** of a line is the one that stops. -/
theorem longest_iff {o : Opening} :
    o.Longest line ↔ ∃ rest, line = o.text ++ rest ∧ o.Stops rest := by
  constructor
  · intro h
    obtain ⟨rest, rfl⟩ := h.1
    exact ⟨rest, rfl, h.stops⟩
  · rintro ⟨rest, rfl, hstops⟩
    refine ⟨List.prefix_append _ _, fun other hother => ?_⟩
    obtain ⟨rest', hrest'⟩ := hother
    obtain ⟨longer, behind, hbehind, hstops', hle⟩ := exists_stops other rest'
    have hsame : longer.call = o.call := by
      have hlonger := callOf_of_stops hstops'
      rw [← hbehind, hrest', callOf_of_stops hstops] at hlonger
      exact (Option.some.inj hlonger).symm
    exact hle.trans_eq (congrArg Call.stop hsame)

/-! ## Names -/

/-- The bytes that are cut out of the line as the name of a call: the first one, and the one behind
    the last. -/
def nameSpan (line : List UInt8) : Option (Nat × Nat) :=
  (afterLabel line).bind fun r =>
    let name := r.takeWhile isNameByte
    if name.isEmpty then none
    else some (line.length - r.length, line.length - r.length + name.length)

/-- The call of a line whose name has been cut out of the text, if it can be cut out. -/
def cutCall? (line : List Char) (span : Nat × Nat) : Option Call :=
  (Text.slice? line span.1 span.2).map fun name =>
    ⟨(splitName (Text.bytes name)).1, (splitName (Text.bytes name)).2,
      span.2 + if (Text.bytes line)[span.2]? = some 0x21 then 1 else 0⟩

theorem nameSpan_of_stops {o : Opening} (h : o.Stops rest) :
    nameSpan (Text.bytes (o.text ++ rest)) = some ((Text.bytes o.label).length,
      (Text.bytes o.label).length + (Text.bytes o.name).length) := by
  have hstart : (Text.bytes (o.text ++ rest)).length -
      (Text.bytes (o.name ++ (o.bang ++ rest))).length = (Text.bytes o.label).length := by
    rw [o.text_append, Text.bytes_append, List.length_append, Nat.add_sub_cancel]
  simp only [nameSpan, afterLabel_text, Option.bind_some, sameClass_name.takeWhile_bytes,
    takeWhile_run o.name_form h.name_ends, Text.isEmpty_bytes o.name_ne, Bool.false_eq_true,
    if_false, hstart]

theorem nameSpan_eq_none {l : List UInt8} (h : callOf l = none) : nameSpan l = none := by
  rw [callOf] at h
  rw [nameSpan]
  cases hafter : afterLabel l with
  | none => rfl
  | some r =>
    rw [hafter] at h
    rw [Option.bind_some]
    simp only at h
    split at h
    · next hempty => exact if_pos hempty
    · cases h

/-- The byte behind the name tells whether there is a `!`. -/
theorem Opening.Stops.bang_eq {o : Opening} (h : o.Stops rest) :
    (if (Text.bytes (o.bang ++ rest)).head? = some 0x21 then 1 else 0) =
      (Text.bytes o.bang).length := by
  rcases o.bang_form with hbang | hbang
  · rw [hbang, List.nil_append]
    refine if_neg fun hhead => ?_
    obtain ⟨r, hr⟩ := List.head?_eq_some_iff.mp hhead
    obtain ⟨ds, rfl, -⟩ := Text.exists_of_bytes_eq_cons (d := '!') (by decide) hr
    exact (h hbang '!' rfl).2 rfl
  · rw [hbang]
    rfl

/-- Cutting out the name of an opening that stops gives its call. -/
theorem cutCall?_of_stops {o : Opening} (h : o.Stops rest) :
    cutCall? (o.text ++ rest) ((Text.bytes o.label).length,
      (Text.bytes o.label).length + (Text.bytes o.name).length) = some o.call := by
  have hbyte : (Text.bytes (o.text ++ rest))[(Text.bytes o.label).length +
      (Text.bytes o.name).length]? = (Text.bytes (o.bang ++ rest)).head? := by
    rw [o.text_append, Text.bytes_append, Text.bytes_append, ← List.append_assoc,
      ← List.length_append, List.getElem?_append_right (Nat.le_refl _), Nat.sub_self,
      List.head?_eq_getElem?]
  rw [cutCall?]
  simp only [hbyte, h.bang_eq]
  rw [o.text_append, Text.slice?_append, Option.map_some, Opening.call, o.stop_eq]

/-- **The name is cut out** of the text without cutting a character in two, and so the call is found
    that is found in the bytes. -/
theorem callOf_eq_cut (line : List Char) :
    callOf (Text.bytes line) = (nameSpan (Text.bytes line)).bind (cutCall? line) := by
  cases h : callOf (Text.bytes line) with
  | none => rw [nameSpan_eq_none h, Option.bind_none]
  | some call =>
    obtain ⟨o, rest, rfl, hstops, rfl⟩ := exists_opening h
    rw [nameSpan_of_stops hstops, Option.bind_some, cutCall?_of_stops hstops]

theorem isSome_slice? {span : Nat × Nat} (h : nameSpan (Text.bytes line) = some span) :
    (Text.slice? line span.1 span.2).isSome := by
  cases hcall : callOf (Text.bytes line) with
  | none =>
    rw [nameSpan_eq_none hcall] at h
    cases h
  | some call =>
    rw [callOf_eq_cut, h, Option.bind_some, cutCall?, Option.map_eq_some_iff] at hcall
    obtain ⟨name, hname, -⟩ := hcall
    exact Option.isSome_iff_exists.mpr ⟨name, hname⟩

/-- The dots of a name take it apart. -/
theorem standsFor_splitName (o : Opening) :
    o.StandsFor (splitName (Text.bytes o.name)).1 (splitName (Text.bytes o.name)).2 := by
  have hascii : ∀ c ∈ o.name, c.toNat < 128 :=
    fun c hc => sameClass_name.ascii c (o.name_form c hc)
  rw [splitName, Text.map_bytes hascii]
  refine ⟨fun hdot => ?_, fun first rest hname hfirst => ?_⟩
  · rw [Text.splitOn_of_notMem hdot]
    exact ⟨rfl, rfl⟩
  · obtain ⟨more, hmore⟩ := Text.exists_splitOn '.' rest
    rw [hname, Text.splitOn_append_sep hfirst, hmore]
    exact ⟨rfl, rfl⟩

/-! ## Calls -/

/-- **A call is found** in exactly the lines that begin with an opening, at the places inside the
    longest one, which there is.  It goes as far as that, and its scope and command are those that
    the name stands for.  The name is cut out of the text between two characters, whatever the
    place. -/
theorem callAt_grammar (line : List Char) (offset : Nat) :
    (callAt (Text.bytes line) offset =
        ((nameSpan (Text.bytes line)).bind (cutCall? line)).filter (offset < ·.stop) ∧
      ∀ span ∈ nameSpan (Text.bytes line), (Text.slice? line span.1 span.2).isSome) ∧
    ((∃ o : Opening, o.text <+: line) → ∃ o : Opening, o.Longest line) ∧
    ((callAt (Text.bytes line) offset).isSome ↔
      ∃ o : Opening, o.Longest line ∧ offset < o.stop) ∧
    ∀ call, callAt (Text.bytes line) offset = some call → ∀ o : Opening, o.Longest line →
      call.stop = o.stop ∧ o.StandsFor call.scope call.command := by
  have hlongest : ∀ o : Opening, o.Longest line → callOf (Text.bytes line) = some o.call := by
    intro o ho
    obtain ⟨rest, rfl, hstops⟩ := longest_iff.mp ho
    exact callOf_of_stops hstops
  refine ⟨⟨by rw [callAt, callOf_eq_cut], fun span hspan => isSome_slice? hspan⟩,
    fun ⟨o, rest, hline⟩ => ?_, ⟨fun h => ?_, ?_⟩, fun call hcall o ho => ?_⟩
  · obtain ⟨longer, behind, heq, hstops, -⟩ := exists_stops o rest
    exact ⟨longer, longest_iff.mpr ⟨behind, hline.symm.trans heq, hstops⟩⟩
  · obtain ⟨call, hcall⟩ := Option.isSome_iff_exists.mp h
    obtain ⟨hfound, hinside⟩ := Option.filter_eq_some_iff.mp hcall
    obtain ⟨o, rest, rfl, hstops, rfl⟩ := exists_opening hfound
    exact ⟨o, longest_iff.mpr ⟨rest, rfl, hstops⟩, of_decide_eq_true hinside⟩
  · rintro ⟨o, ho, hinside⟩
    exact Option.isSome_iff_exists.mpr
      ⟨o.call, Option.filter_eq_some_iff.mpr ⟨hlongest o ho, decide_eq_true hinside⟩⟩
  · obtain ⟨hfound, -⟩ := Option.filter_eq_some_iff.mp hcall
    obtain rfl := Option.some.inj (hfound.symm.trans (hlongest o ho))
    exact ⟨rfl, standsFor_splitName o⟩

/-- The label is part of the call, and so is the `!`; of the name, the third piece is left out. -/
example : callAt (Text.bytes "@é: A".toList) 0 = none ∧
    callAt (Text.bytes "@x-1:\t UTIL.LOG.X! é".toList) 16 = some ⟨"UTIL", "LOG", 18⟩ := by
  decide +kernel

end RunnerCatalog.Script
