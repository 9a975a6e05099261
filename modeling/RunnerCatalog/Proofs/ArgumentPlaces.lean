/-
  Places behind a call.

  Two scanners know where a call ends: the one that finds it, and the one that keeps quiet in its
  arguments.  The second one goes by names and blanks alone, and what it has seen last is all that
  it remembers.

  1. **Scans** - what is left of the scan behind a name (`scan_name`), behind a label (`scan_label`)
     and so behind an opening with a blank (`scan_opening`): with a `!` it is as if nothing had been
     seen yet.

  2. **Places** - so the places behind a call are in its arguments if and only if it has no `!`
     (`inArguments_behind_call_iff`), and a call with one is overlooked (`bang_hides_arguments`).
-/
import RunnerCatalog.Proofs.Openings

namespace RunnerCatalog.Script

/-! ## Scans -/

theorem isNameByte_of_blank {b : UInt8} (h : Text.isAsciiBlank b = true) :
    isNameByte b = false := by
  simp only [Text.isAsciiBlank, Bool.or_eq_true, beq_iff_eq] at h
  rcases h with (((rfl | rfl) | rfl) | rfl) | rfl <;> decide

theorem isAsciiBlank_of_label {b : UInt8} (h : isLabelByte b = true) :
    Text.isAsciiBlank b = false := by
  refine Bool.eq_false_iff.mpr fun hblank => ?_
  simp only [Text.isAsciiBlank, Bool.or_eq_true, beq_iff_eq] at hblank
  rcases hblank with (((rfl | rfl) | rfl) | rfl) | rfl <;> exact absurd h (by decide)

variable {run r : List UInt8} {b : UInt8}

theorem scan_more_name (h : ∀ b ∈ run, isNameByte b = true) :
    hasNameAndBlank .name (run ++ r) = hasNameAndBlank .name r := by
  induction run with
  | nil => rfl
  | cons b run ih =>
    obtain ⟨hb, h⟩ := List.forall_mem_cons.mp h
    rw [List.cons_append, hasNameAndBlank, if_pos hb, ih h]

/-- A name is taken as a whole. -/
theorem scan_name (hne : run ≠ []) (h : ∀ b ∈ run, isNameByte b = true) :
    hasNameAndBlank .edge (run ++ r) = hasNameAndBlank .name r := by
  obtain ⟨b, run, rfl⟩ := List.exists_cons_of_ne_nil hne
  obtain ⟨hb, h⟩ := List.forall_mem_cons.mp h
  rw [List.cons_append, hasNameAndBlank, if_pos hb, scan_more_name h]

/-- Up to the next blank nothing counts. -/
theorem scan_other (h : ∀ b ∈ run, Text.isAsciiBlank b = false) :
    hasNameAndBlank .other (run ++ r) = hasNameAndBlank .other r := by
  induction run with
  | nil => rfl
  | cons b run ih =>
    obtain ⟨hb, h⟩ := List.forall_mem_cons.mp h
    rw [List.cons_append, hasNameAndBlank, if_neg (by rw [hb]; decide), ih h]

theorem scan_more_blanks (h : ∀ b ∈ run, Text.isAsciiBlank b = true) :
    hasNameAndBlank .edge (run ++ r) = hasNameAndBlank .edge r := by
  induction run with
  | nil => rfl
  | cons b run ih =>
    obtain ⟨hb, h⟩ := List.forall_mem_cons.mp h
    rw [List.cons_append, hasNameAndBlank, isNameByte_of_blank hb, if_neg (by decide), if_pos hb,
      ih h]

/-- Behind blanks everything begins anew. -/
theorem scan_blanks (hne : run ≠ []) (h : ∀ b ∈ run, Text.isAsciiBlank b = true) :
    hasNameAndBlank .other (run ++ r) = hasNameAndBlank .edge r := by
  obtain ⟨b, run, rfl⟩ := List.exists_cons_of_ne_nil hne
  obtain ⟨hb, h⟩ := List.forall_mem_cons.mp h
  rw [List.cons_append, hasNameAndBlank, if_pos hb, scan_more_blanks h]

/-- **A label** leaves nothing behind. -/
theorem scan_label {label : List Char} (h : IsLabel label) :
    hasNameAndBlank .edge (Text.bytes label ++ r) = hasNameAndBlank .edge r := by
  rcases h with rfl | ⟨name, blanks, rfl, ⟨-, hname⟩, hne, hblanks⟩
  · rfl
  have hbytes : Text.bytes ('@' :: name ++ ':' :: blanks) ++ r =
      0x40 :: (Text.bytes name ++ ([0x3A] ++ (Text.bytes blanks ++ r))) := by
    rw [Text.bytes_append, List.append_assoc]
    rfl
  have hcolon : ∀ b ∈ [(0x3A : UInt8)], Text.isAsciiBlank b = false :=
    List.forall_mem_singleton.mpr (by decide)
  calc hasNameAndBlank .edge (Text.bytes ('@' :: name ++ ':' :: blanks) ++ r)
      = hasNameAndBlank .other (Text.bytes name ++ ([0x3A] ++ (Text.bytes blanks ++ r))) := by
        rw [hbytes]
        rfl
    _ = hasNameAndBlank .other ([0x3A] ++ (Text.bytes blanks ++ r)) :=
        scan_other fun b hb => isAsciiBlank_of_label (sameClass_label.forall_bytes hname b hb)
    _ = hasNameAndBlank .other (Text.bytes blanks ++ r) := scan_other hcolon
    _ = hasNameAndBlank .edge r :=
        scan_blanks (mt Text.bytes_eq_nil_iff.mp hne) (sameClass_blank.forall_bytes hblanks)

/-- **An opening and a blank** are a name and a blank, unless a `!` stands between the two. -/
theorem scan_opening (o : Opening) (hb : Text.isAsciiBlank b = true) :
    hasNameAndBlank .edge (Text.bytes o.text ++ b :: r) =
      if o.bang = [] then true else hasNameAndBlank .edge r := by
  have hname : hasNameAndBlank .edge (Text.bytes o.text ++ b :: r) =
      hasNameAndBlank .name (Text.bytes o.bang ++ b :: r) := by
    rw [Opening.text, Text.bytes_append, Text.bytes_append, List.append_assoc, List.append_assoc,
      scan_label o.label_form, scan_name (mt Text.bytes_eq_nil_iff.mp o.name_ne)
        (sameClass_name.forall_bytes o.name_form)]
  rcases o.bang_form with hbang | hbang
  · rw [hname, hbang, if_pos rfl, show Text.bytes [] = [] from rfl, List.nil_append,
      hasNameAndBlank, isNameByte_of_blank hb, if_neg (by decide), if_pos hb]
  · rw [hname, hbang, if_neg (by decide)]
    show hasNameAndBlank .other (b :: r) = hasNameAndBlank .edge r
    rw [hasNameAndBlank, if_pos hb]

/-! ## Places -/

theorem inArguments_behind (o : Opening) {cursor : Nat} (hb : Text.isAsciiBlank b = true)
    (hcursor : o.stop + 2 ≤ cursor) :
    inArguments (Text.bytes o.text ++ b :: r) cursor =
      if o.bang = [] then true else hasNameAndBlank .edge (r.take (cursor - (o.stop + 2))) := by
  obtain ⟨k, rfl⟩ := Nat.exists_eq_add_of_le hcursor
  have htake : (Text.bytes o.text ++ b :: r).take (o.stop + 2 + k - 1) =
      Text.bytes o.text ++ b :: r.take k := by
    rw [show o.stop + 2 + k - 1 = (Text.bytes o.text).length + (k + 1) by rw [Opening.stop]; omega,
      List.take_length_add_append, List.take_succ_cons]
  rw [inArguments, htake, scan_opening o hb, Nat.add_sub_cancel_left]

/-- The last byte of an opening tells whether it has a `!`. -/
theorem Opening.getLast?_bytes (o : Opening) :
    (Text.bytes o.text).getLast? = some 0x21 ↔ o.bang ≠ [] := by
  rcases o.bang_form with hbang | hbang
  · refine iff_of_false (fun hlast => ?_) (not_not_intro hbang)
    rw [Opening.text, hbang, List.append_nil, Text.bytes_append,
      List.getLast?_append_of_ne_nil _ (mt Text.bytes_eq_nil_iff.mp o.name_ne)] at hlast
    -- it would be a byte of the name
    have hname := sameClass_name.forall_bytes o.name_form _ (List.mem_of_getLast? hlast)
    exact absurd hname (by decide)
  · refine iff_of_true ?_ (hbang ▸ List.cons_ne_nil _ _)
    rw [Opening.text, hbang, Text.bytes_append, Text.bytes_append, ← List.append_assoc]
    exact List.getLast?_concat

/-- **The places behind a call** and a blank, but for the one right behind the blank, are in its
    arguments, all of them, if and only if the call does not end with a `!`. -/
theorem inArguments_behind_call_iff {line : List Char} {call : Call} {b : UInt8}
    (hcall : callAt (Text.bytes line) 0 = some call) (hb : (Text.bytes line)[call.stop]? = some b)
    (hblank : Text.isAsciiBlank b = true) :
    (∀ cursor, call.stop + 2 ≤ cursor → inArguments (Text.bytes line) cursor = true) ↔
      (Text.bytes line)[call.stop - 1]? ≠ some 0x21 := by
  obtain ⟨hfound, hinside⟩ := Option.filter_eq_some_iff.mp hcall
  obtain ⟨o, rest, rfl, -, rfl⟩ := exists_opening hfound
  have hpos : 0 < (Text.bytes o.text).length := of_decide_eq_true hinside
  rw [Text.bytes_append, show o.call.stop = (Text.bytes o.text).length from rfl] at hb ⊢
  rw [List.getElem?_append_right (Nat.le_refl _), Nat.sub_self, ← List.head?_eq_getElem?] at hb
  obtain ⟨r, hr⟩ := List.head?_eq_some_iff.mp hb
  have hlast : (Text.bytes o.text ++ b :: r)[(Text.bytes o.text).length - 1]? = some 0x21 ↔
      o.bang ≠ [] := by
    rw [List.getElem?_append_left (Nat.sub_lt hpos Nat.one_pos), ← List.getLast?_eq_getElem?,
      o.getLast?_bytes]
  rw [hr, Ne, hlast, not_not]
  constructor
  · -- with a `!` and one blank nothing has been seen yet
    intro hall
    have hfirst := hall (o.stop + 2) (Nat.le_refl _)
    rw [inArguments_behind o hblank (Nat.le_refl _), Nat.sub_self] at hfirst
    by_contra hbang
    rw [if_neg hbang] at hfirst
    cases hfirst
  · intro hbang cursor hcursor
    rw [inArguments_behind o hblank hcursor, if_pos hbang]

/-- With a label and without a `!` all places are in the arguments. -/
theorem inArguments_behind_labelled :
    callAt (Text.bytes "@x: UTIL.LOG a".toList) 0 = some ⟨"UTIL", "LOG", 12⟩ ∧
      ∀ cursor, 14 ≤ cursor → inArguments (Text.bytes "@x: UTIL.LOG a".toList) cursor = true :=
  have hcall : callAt (Text.bytes "@x: UTIL.LOG a".toList) 0 = some ⟨"UTIL", "LOG", 12⟩ := by
    decide +kernel
  have hb : (Text.bytes "@x: UTIL.LOG a".toList)[12]? = some 0x20 := by decide +kernel
  ⟨hcall, (inArguments_behind_call_iff hcall hb (by decide)).mpr (by decide +kernel)⟩

/-- So it does not hold of all calls: the `!` of `RUN! 1` hides its arguments. -/
theorem bang_hides_arguments :
    ¬ ∀ (line : List Char) (call : Call) (b : UInt8),
      callAt (Text.bytes line) 0 = some call → (Text.bytes line)[call.stop]? = some b →
      Text.isAsciiBlank b = true →
      ∀ cursor, call.stop + 2 ≤ cursor → inArguments (Text.bytes line) cursor = true := by
  intro hall
  have harguments : inArguments (Text.bytes "RUN! 1".toList) 6 = true :=
    hall "RUN! 1".toList ⟨"BASE", "RUN", 4⟩ 0x20 (by decide +kernel) (by decide +kernel)
      (by decide) 6 (by decide)
  exact absurd harguments (by decide +kernel)

end RunnerCatalog.Script
