/-
  Columns of a line.

  An editor counts UTF-16 units.  A column that it gives stands behind whole characters, inside a
  character of two units, or past the end of the line; `Text.byteOffset` makes a byte of it in all
  three cases.

  1. **Before a column** - `StandsBefore` says what of the line counts as standing before a column:
     the shortest beginning of whole characters with so many units (`Covers`), or the whole line if
     it has fewer.  There always is such a beginning (`exists_standsBefore`, by induction on the
     line), and only one.

  2. **Bytes** - the byte of a column is the length of what stands before it (`byteOffset_eq`), so a
     later column has no earlier byte, and behind whole characters no byte is lost
     (`byteOffset_inverts_units`).
-/
import RunnerCatalog.Proofs.HoverRange

namespace RunnerCatalog.Text

/-! ## Before a column -/

/-- The shortest beginning of the line that has as many units as `column` tells. -/
structure Covers (line : List Char) (column : Nat) (cs : List Char) : Prop where
  begins : cs <+: line
  enough : column ≤ (units cs).length
  shortest : ∀ ds, ds <+: line → column ≤ (units ds).length → cs <+: ds

/-- What of the line stands before a column. -/
inductive StandsBefore (line : List Char) (column : Nat) : List Char → Prop
  /-- The line goes as far as the column. -/
  | within {cs : List Char} (h : Covers line column cs) : StandsBefore line column cs
  /-- No beginning of the line goes so far. -/
  | beyond (h : ∀ ds, ds <+: line → (units ds).length < column) : StandsBefore line column line

variable {line cs ds : List Char} {c : Char} {column column' : Nat}

theorem covers_zero (line : List Char) : Covers line 0 [] :=
  ⟨List.nil_prefix, Nat.zero_le _, fun _ _ _ => List.nil_prefix⟩

/-- Behind its first character a line is covered as the rest of it is. -/
theorem Covers.cons (hpos : 0 < column) (h : Covers line (column - charUnits c) cs) :
    Covers (c :: line) column (c :: cs) := by
  have henough := h.enough
  refine ⟨List.cons_prefix_cons.mpr ⟨rfl, h.begins⟩, ?_, fun ds hds hcolumn => ?_⟩
  · rw [length_units_cons]
    omega
  · cases ds with
    | nil =>
      have hnone : (units []).length = 0 := rfl
      omega
    | cons d ds =>
      obtain ⟨rfl, htail⟩ := List.cons_prefix_cons.mp hds
      rw [length_units_cons] at hcolumn
      exact List.cons_prefix_cons.mpr ⟨rfl, h.shortest ds htail (by omega)⟩

/-- **Something stands before every column**, inside a character and past the end as well. -/
theorem exists_standsBefore (line : List Char) (column : Nat) :
    ∃ cs, StandsBefore line column cs ∧ byteOffset line column = (bytes cs).length := by
  induction line generalizing column with
  | nil =>
    rcases Nat.eq_zero_or_pos column with rfl | hpos
    · exact ⟨[], .within (covers_zero []), rfl⟩
    · refine ⟨[], .beyond fun ds hds => ?_, rfl⟩
      obtain rfl := List.prefix_nil.mp hds
      exact hpos
  | cons c line ih =>
    rcases Nat.eq_zero_or_pos column with rfl | hpos
    · exact ⟨[], .within (covers_zero _), byteOffset_zero _⟩
    · obtain ⟨cs, hstands, hbytes⟩ := ih (column - charUnits c)
      refine ⟨c :: cs, ?_, ?_⟩
      · cases hstands with
        | within h => exact .within (h.cons hpos)
        | beyond h =>
          refine .beyond fun ds hds => ?_
          cases ds with
          | nil => exact hpos
          | cons d ds =>
            obtain ⟨rfl, htail⟩ := List.cons_prefix_cons.mp hds
            have hrest := h ds htail
            rw [length_units_cons]
            omega
      · rw [byteOffset, if_neg (by omega), hbytes, length_bytes_cons]

theorem StandsBefore.begins (h : StandsBefore line column cs) : cs <+: line := by
  cases h with
  | within h => exact h.begins
  | beyond h => exact List.prefix_rfl

/-- What stands before a column stands before every later one. -/
theorem StandsBefore.mono (h : StandsBefore line column cs) (h' : StandsBefore line column' ds)
    (hle : column ≤ column') : cs <+: ds := by
  cases h' with
  | within h' =>
    have henough := h'.enough
    cases h with
    | within h => exact h.shortest ds h'.begins (by omega)
    | beyond h =>
      have hfewer := h ds h'.begins
      omega
  | beyond h' => exact h.begins

/-! ## Bytes -/

/-- A beginning has no more bytes than the text. -/
theorem length_bytes_mono (h : cs <+: ds) : (bytes cs).length ≤ (bytes ds).length := by
  obtain ⟨rest, rfl⟩ := h
  rw [bytes_append, List.length_append]
  exact Nat.le_add_right _ _

/-- **The byte of a column** is the length of what stands before it. -/
theorem byteOffset_eq (h : StandsBefore line column cs) :
    byteOffset line column = (bytes cs).length := by
  obtain ⟨ds, hds, hbytes⟩ := exists_standsBefore line column
  have hle := length_bytes_mono (h.mono hds (Nat.le_refl column))
  have hge := length_bytes_mono (hds.mono h (Nat.le_refl column))
  omega

/-- A beginning is cut out of the text at its last byte. -/
theorem slice?_begins (h : cs <+: line) : slice? line 0 (bytes cs).length = some cs := by
  obtain ⟨rest, rfl⟩ := h
  exact slice?_prefix cs rest

/-- **Counting units is inverted**, on all lines.  Something stands before each column, the byte of
    the column is the length of it, and it is cut out there without cutting a character in two.  A
    later column has no earlier byte; and the column behind whole characters, however many units
    they have, is the byte behind them. -/
theorem byteOffset_inverts_units (line : List Char) :
    (∀ column, ∃ cs, StandsBefore line column cs) ∧
      (∀ column cs, StandsBefore line column cs →
        byteOffset line column = (bytes cs).length ∧
          slice? line 0 (byteOffset line column) = some cs) ∧
      Monotone (byteOffset line) ∧
      ∀ cs, cs <+: line → byteOffset line (units cs).length = (bytes cs).length := by
  refine ⟨fun column => ?_, fun column cs h => ?_, fun column column' hle => ?_, fun cs h => ?_⟩
  · obtain ⟨cs, h, -⟩ := exists_standsBefore line column
    exact ⟨cs, h⟩
  · rw [byteOffset_eq h]
    exact ⟨rfl, slice?_begins h.begins⟩
  · obtain ⟨cs, h, hbytes⟩ := exists_standsBefore line column
    obtain ⟨ds, h', hbytes'⟩ := exists_standsBefore line column'
    rw [hbytes, hbytes']
    exact length_bytes_mono (h.mono h' hle)
  · obtain ⟨rest, rfl⟩ := h
    rw [length_units, byteOffset_append]

/-- A column inside a pair of surrogates stands behind the character, as one past the end does. -/
example : (List.range 5).map (byteOffset "é😀".toList) = [0, 2, 6, 6, 6] := by decide +kernel

end RunnerCatalog.Text
