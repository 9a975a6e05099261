/-
  Full uppercase, one character at a time.

  Command names are compared without regard to case, by their uppercase forms.  The form is
  the full one of the Unicode character database: it depends on no language and no context,
  and one character may become several ("straße" and "STRASSE" name the same command).
-/
import RunnerCatalog.Text.CaseTable

namespace RunnerCatalog.Text

/-- Whether the run gives an uppercase form to character number `n`. -/
def CaseRun.covers (r : CaseRun) (n : Nat) : Bool :=
  r.first ≤ n && n ≤ r.last && (n - r.first) % r.step == 0

/-- The uppercase form of one character. -/
def upperChar (c : Char) : List Char :=
  if c.val < 0x80 then [c.toUpper]
  else
    match expandingCases.lookup c.toNat with
    | some codes => codes.map Char.ofNat
    | none =>
      match caseRuns.find? (fun r => r.covers c.toNat) with
      | some r => [Char.ofNat (c.toNat + r.up - r.down)]
      | none => [c]

/-- The uppercase form of a text. -/
def upper (cs : List Char) : List Char := cs.flatMap upperChar

/-- The uppercase form of a text. -/
def uppercase (s : String) : String := String.ofList (upper s.toList)

end RunnerCatalog.Text
