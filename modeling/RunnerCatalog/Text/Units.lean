/-
  Lengths of a text in bytes of UTF-8 and in units of UTF-16, and positions in it.

  An editor names a place in a line by UTF-16 units; the scanners of this library work on the
  bytes of the line.  `byteOffset` goes from the first to the second.  `slice?` cuts a range
  of bytes out of a text, and refuses to cut a character in two.
-/

namespace RunnerCatalog.Text

/-- The bytes of a text in UTF-8. -/
def bytes (cs : List Char) : List UInt8 := cs.flatMap String.utf8EncodeChar

/-- The number of bytes of a text in UTF-8. -/
def byteLength (cs : List Char) : Nat := (cs.map Char.utf8Size).foldr (· + ·) 0

/-- The number of UTF-16 units of a character. -/
def charUnits (c : Char) : Nat := if c.val < 0x10000 then 1 else 2

/-- The number of UTF-16 units of a text. -/
def unitLength (cs : List Char) : Nat := (cs.map charUnits).foldr (· + ·) 0

/-- The byte length of the shortest prefix of whole characters with at least `units` UTF-16
    units, or of the whole text if it is shorter. -/
def byteOffset : List Char → Nat → Nat
  | [], _ => 0
  | c :: r, units => if units = 0 then 0 else c.utf8Size + byteOffset r (units - charUnits c)

/-- The characters of `cs` that begin after byte `start` and before byte `stop`, if both are
    boundaries between characters. -/
def slice? : List Char → Nat → Nat → Option (List Char)
  | [], start, stop => if start = 0 ∧ stop = 0 then some [] else none
  | c :: r, start, stop =>
    if start = 0 then
      if stop = 0 then some []
      else if c.utf8Size ≤ stop then (slice? r 0 (stop - c.utf8Size)).map (c :: ·)
      else none
    else if c.utf8Size ≤ start ∧ c.utf8Size ≤ stop then
      slice? r (start - c.utf8Size) (stop - c.utf8Size)
    else none

/-- The text of a list of ASCII bytes. -/
def ofAscii (bs : List UInt8) : String := String.ofList (bs.map (fun b => Char.ofNat b.toNat))

/-! ## Splitting -/

/-- The pieces between the occurrences of `sep`; there is one more of them than of `sep`. -/
def splitOn (sep : Char) : List Char → List (List Char)
  | [] => [[]]
  | c :: r =>
    if c = sep then [] :: splitOn sep r
    else
      match splitOn sep r with
      | [] => [[c]]
      | piece :: more => (c :: piece) :: more

/-- Line number `n` without its end.  A final line feed is followed by one more, empty,
    line. -/
def lineAt (text : List Char) (n : Nat) : Option (List Char) :=
  (splitOn '\n' text)[n]?.map fun line =>
    if line.getLast? = some '\r' then line.dropLast else line

end RunnerCatalog.Text
