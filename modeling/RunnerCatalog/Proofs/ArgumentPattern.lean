/-
  The pattern of the arguments.

  Whether a place lies in the arguments of a command is found by a scan that goes through the bytes
  once and remembers no more than what it has seen last.  The rule that it stands for looks at two
  bytes of the line at once: a name begins at the first one, behind an edge, and the second one is
  the blank behind that name (`NameAndBlank`).

  1. **What has been seen** - each of the three things that a scan can remember says something of
     the bytes before it (`Seen.At`): an edge, a name that began at an edge, or that no name did.
     One byte further on it still does (`at_edge_succ`, `at_name_succ`, `at_other_succ`).

  2. **The scan** - so by induction on the bytes that are left a scan finds a name and a blank
     exactly if the blank is still to come (`scan_iff`).

  3. **Places** - the place itself only says how many bytes are looked at, so a place behind one in
     the arguments is in them too (`inArguments_pattern`).
-/
import RunnerCatalog.Proofs.ArgumentPlaces

namespace RunnerCatalog.Script

/-! ## What has been seen -/

/-- Byte `i` is the first of the line, or the one before it is a blank. -/
def EdgeAt (l : List UInt8) (i : Nat) : Prop :=
  i = 0 ∨ ∃ b, l[i - 1]? = some b ∧ Text.isAsciiBlank b = true

/-- All bytes from `i` on and before `j` are bytes of names. -/
def NameBetween (l : List UInt8) (i j : Nat) : Prop :=
  ∀ k, i ≤ k → k < j → ∃ b, l[k]? = some b ∧ isNameByte b = true

/-- A name begins at byte `i`, at an edge, and goes on up to the blank at byte `j`. -/
structure NameAndBlank (l : List UInt8) (i j : Nat) : Prop where
  lt : i < j
  edge : EdgeAt l i
  name : NameBetween l i j
  blank : ∃ b, l[j]? = some b ∧ Text.isAsciiBlank b = true

/-- What a scan in front of byte `n` remembers is so. -/
def Seen.At (l : List UInt8) (n : Nat) : Seen → Prop
  | .edge => EdgeAt l n
  | .name => ∃ i < n, EdgeAt l i ∧ NameBetween l i n
  | .other => ∀ i ≤ n, EdgeAt l i → ¬ NameBetween l i n

variable {l : List UInt8} {b : UInt8} {i j n : Nat}

theorem edgeAt_succ_iff (hb : l[n]? = some b) :
    EdgeAt l (n + 1) ↔ Text.isAsciiBlank b = true := by
  constructor
  · rintro (hzero | ⟨c, hc, hblank⟩)
    · omega
    · rw [Nat.add_sub_cancel, hb] at hc
      obtain rfl := Option.some.inj hc
      exact hblank
  · intro hblank
    exact .inr ⟨b, by rwa [Nat.add_sub_cancel], hblank⟩

theorem nameBetween_succ_iff (hb : l[n]? = some b) (hi : i ≤ n) :
    NameBetween l i (n + 1) ↔ NameBetween l i n ∧ isNameByte b = true := by
  constructor
  · intro h
    refine ⟨fun k hk hkn => h k hk (by omega), ?_⟩
    obtain ⟨c, hc, hname⟩ := h n hi (by omega)
    rw [hb] at hc
    obtain rfl := Option.some.inj hc
    exact hname
  · rintro ⟨h, hname⟩ k hk hkn
    by_cases hlast : k = n
    · exact ⟨b, hlast ▸ hb, hname⟩
    · exact h k hk (by omega)

theorem nameBetween_self : NameBetween l n n := fun k hk hkn => by omega

/-- Behind an edge no name has begun. -/
theorem not_at_name_of_edge (h : Seen.edge.At l n) : ¬ Seen.name.At l n := by
  rintro ⟨i, hi, -, hname⟩
  rcases h with hzero | ⟨b, hb, hblank⟩
  · omega
  · obtain ⟨c, hc, hbyte⟩ := hname (n - 1) (by omega) (by omega)
    rw [hb] at hc
    obtain rfl := Option.some.inj hc
    rw [isNameByte_of_blank hblank] at hbyte
    cases hbyte

theorem not_at_name_of_other (h : Seen.other.At l n) : ¬ Seen.name.At l n := by
  rintro ⟨i, hi, hedge, hname⟩
  exact h i (Nat.le_of_lt hi) hedge hname

/-- **A blank** is an edge. -/
theorem at_edge_succ (hb : l[n]? = some b) (hblank : Text.isAsciiBlank b = true) :
    Seen.edge.At l (n + 1) :=
  (edgeAt_succ_iff hb).mpr hblank

/-- **A byte of names** at an edge begins a name, and behind a byte of one it goes on with it. -/
theorem at_name_succ (hb : l[n]? = some b) (hname : isNameByte b = true)
    (h : Seen.edge.At l n ∨ Seen.name.At l n) : Seen.name.At l (n + 1) := by
  rcases h with hedge | ⟨i, hi, hedge, hbetween⟩
  · exact ⟨n, by omega, hedge,
      (nameBetween_succ_iff hb (Nat.le_refl n)).mpr ⟨nameBetween_self, hname⟩⟩
  · exact ⟨i, by omega, hedge,
      (nameBetween_succ_iff hb (Nat.le_of_lt hi)).mpr ⟨hbetween, hname⟩⟩

/-- **Any other byte** ends a name, and where none has begun, no byte but a blank changes that. -/
theorem at_other_succ (hb : l[n]? = some b) (hblank : ¬ Text.isAsciiBlank b = true)
    (h : ¬ isNameByte b = true ∨ Seen.other.At l n) : Seen.other.At l (n + 1) := by
  intro i hi hedge hbetween
  by_cases hlast : i = n + 1
  · subst hlast
    exact hblank ((edgeAt_succ_iff hb).mp hedge)
  · have hin : i ≤ n := by omega
    obtain ⟨hbefore, hname⟩ := (nameBetween_succ_iff hb hin).mp hbetween
    rcases h with hbyte | hother
    · exact hbyte hname
    · exact hother i hin hedge hbefore

/-! ## The scan -/

/-- The blank is the next byte, or it comes later. -/
theorem exists_blank_iff (hb : l[n]? = some b) :
    (∃ i j, n ≤ j ∧ NameAndBlank l i j) ↔
      (Text.isAsciiBlank b = true ∧ Seen.name.At l n) ∨
        ∃ i j, n + 1 ≤ j ∧ NameAndBlank l i j := by
  constructor
  · rintro ⟨i, j, hj, h⟩
    by_cases hnext : j = n
    · subst hnext
      obtain ⟨c, hc, hblank⟩ := h.blank
      rw [hb] at hc
      obtain rfl := Option.some.inj hc
      exact .inl ⟨hblank, i, h.lt, h.edge, h.name⟩
    · exact .inr ⟨i, j, by omega, h⟩
  · rintro (⟨hblank, i, hi, hedge, hname⟩ | ⟨i, j, hj, h⟩)
    · exact ⟨i, n, Nat.le_refl n, hi, hedge, hname, b, hb, hblank⟩
    · exact ⟨i, j, by omega, h⟩

/-- **A scan** in front of byte `n` finds a name and a blank if and only if the blank is still to
    come; the induction is on the bytes that are left, over whatever has been seen. -/
theorem scan_iff {seen : Seen} {rest : List UInt8} (hrest : l.drop n = rest)
    (hseen : seen.At l n) :
    hasNameAndBlank seen rest = true ↔ ∃ i j, n ≤ j ∧ NameAndBlank l i j := by
  induction rest generalizing n seen with
  | nil =>
    have hend : l.length ≤ n := List.drop_eq_nil_iff.mp hrest
    rw [show hasNameAndBlank seen [] = false by cases seen <;> rfl]
    refine iff_of_false Bool.false_ne_true ?_
    rintro ⟨i, j, hj, h⟩
    obtain ⟨b, hb, -⟩ := h.blank
    have hlt : j < l.length := (List.getElem?_eq_some_iff.mp hb).1
    omega
  | cons b r ih =>
    have hb : l[n]? = some b := by
      rw [← List.head?_drop, hrest]
      rfl
    have hr : l.drop (n + 1) = r := by
      rw [← List.drop_drop, hrest]
      rfl
    rw [exists_blank_iff hb]
    cases seen with
    | edge =>
      have hnone := not_at_name_of_edge hseen
      rw [hasNameAndBlank, or_iff_right fun h => hnone h.2]
      split
      · next hname => exact ih hr (at_name_succ hb hname (.inl hseen))
      · next hname =>
        split
        · next hblank => exact ih hr (at_edge_succ hb hblank)
        · next hblank => exact ih hr (at_other_succ hb hblank (.inl hname))
    | name =>
      rw [hasNameAndBlank]
      split
      · next hname =>
        have hblank : ¬ Text.isAsciiBlank b = true := fun h => by
          rw [isNameByte_of_blank h] at hname
          cases hname
        rw [or_iff_right fun h => hblank h.1]
        exact ih hr (at_name_succ hb hname (.inr hseen))
      · next hname =>
        split
        · next hblank => exact iff_of_true rfl (.inl ⟨hblank, hseen⟩)
        · next hblank =>
          rw [or_iff_right fun h => hblank h.1]
          exact ih hr (at_other_succ hb hblank (.inl hname))
    | other =>
      have hnone := not_at_name_of_other hseen
      rw [hasNameAndBlank, or_iff_right fun h => hnone h.2]
      split
      · next hblank => exact ih hr (at_edge_succ hb hblank)
      · next hblank => exact ih hr (at_other_succ hb hblank (.inr hseen))

/-! ## Places -/

theorem inArguments_iff {line : List UInt8} {cursor : Nat} :
    inArguments line cursor = true ↔ ∃ i j, NameAndBlank (line.take (cursor - 1)) i j := by
  have hstart : Seen.edge.At (line.take (cursor - 1)) 0 := .inl rfl
  rw [inArguments, scan_iff List.drop_zero hstart]
  exact exists_congr fun i => exists_congr fun j => and_iff_right (Nat.zero_le j)

/-- More bytes behind a name and its blank change nothing. -/
theorem NameAndBlank.append (h : NameAndBlank l i j) (more : List UInt8) :
    NameAndBlank (l ++ more) i j := by
  have hmore : ∀ {k : Nat} {b : UInt8}, l[k]? = some b → (l ++ more)[k]? = some b := by
    intro k b hk
    rw [List.getElem?_append_left (List.getElem?_eq_some_iff.mp hk).1, hk]
  obtain ⟨b, hb, hblank⟩ := h.blank
  refine ⟨h.lt, ?_, fun k hk hkj => ?_, b, hmore hb, hblank⟩
  · rcases h.edge with hzero | ⟨c, hc, hedge⟩
    · exact .inl hzero
    · exact .inr ⟨c, hmore hc, hedge⟩
  · obtain ⟨c, hc, hname⟩ := h.name k hk hkj
    exact ⟨c, hmore hc, hname⟩

/-- **The places in the arguments** of a command are those behind a name and a blank, the byte just
    before the place left out.  So every place behind one of them is another. -/
theorem inArguments_pattern (line : List UInt8) :
    (∀ cursor, inArguments line cursor = true ↔
      ∃ i j, NameAndBlank (line.take (cursor - 1)) i j) ∧
    ∀ cursor cursor', cursor ≤ cursor' → inArguments line cursor = true →
      inArguments line cursor' = true := by
  refine ⟨fun cursor => inArguments_iff, fun cursor cursor' hle h => ?_⟩
  obtain ⟨i, j, hfound⟩ := inArguments_iff.mp h
  obtain ⟨more, hmore⟩ : line.take (cursor - 1) <+: line.take (cursor' - 1) :=
    List.take_prefix_take_left (by omega)
  exact inArguments_iff.mpr ⟨i, j, hmore ▸ hfound.append more⟩

/-- Two bytes behind `WAIT` its arguments begin, even where the line has a character of two bytes
    that the place cuts in two. -/
theorem inArguments_behind_wait :
    inArguments (Text.bytes "é WAIT é".toList) 9 = true ∧
      ∀ cursor, 9 ≤ cursor → inArguments (Text.bytes "é WAIT é".toList) cursor = true :=
  have hfirst : inArguments (Text.bytes "é WAIT é".toList) 9 = true := by decide +kernel
  ⟨hfirst, fun cursor hle =>
    (inArguments_pattern (Text.bytes "é WAIT é".toList)).2 9 cursor hle hfirst⟩

end RunnerCatalog.Script
