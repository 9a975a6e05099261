/-
  The tokens of a pair that was written.

  1. **Scans between tokens** - a scan of a mapping whose keys begin in column 0 (`Scan.flat`) comes
     to rest in front of the next key or value (`Scan.next_flat`).

  2. **Single tokens** - a key is a plain scalar that is remembered (`Scan.fetch_key`), and the
     colon behind it puts the tokens of a key in at the place that was remembered
     (`Scan.fetch_colon`).

  3. **Values** - a value of any style is one token (`Scan.fetch_text`), and the next pair begins
     behind it, or behind one more break (`Scan.AtPair`).

  4. **Pairs** - so three rounds of the scan read a pair (`Scan.run_pair`).
-/
import RunnerCatalog.Proofs.BlockScalars
import RunnerCatalog.Proofs.PlainScalars
import RunnerCatalog.Proofs.QuotedScalars

namespace RunnerCatalog.Yaml

/-! ## Scans between tokens -/

/-- The text begins with nothing that is passed over between tokens. -/
def Still (text : List Char) : Prop :=
  ∀ c ∈ text.head?, isGapOrBreak c = false ∧ c ≠ '#' ∧ c ≠ '\ufeff'

theorem Still.solid {text : List Char} (h : Still text) : Solid text := fun c hc => (h c hc).1

theorem still_nil : Still [] := fun _ h => absurd h (by simp)

theorem still_cons {c : Char} {r : List Char} (h : isGapOrBreak c = false) (hnumber : c ≠ '#')
    (horder : c ≠ '\ufeff') : Still (c :: r) := by
  intro d hd
  obtain rfl := Option.some.inj hd
  exact ⟨h, hnumber, horder⟩

namespace Scan

theorem nextIs_still {r : List Char} {p : Char → Bool} (h : ∀ c ∈ r.head?, p c = false)
    (place : Place) : Cursor.nextIs p ⟨r, place⟩ = false := by
  cases r with
  | nil => rfl
  | cons c r => exact h c rfl

theorem skipWhile_spaces (tabs : Bool) (n : Nat) {r : List Char} (h : Solid r) (place : Place) :
    Cursor.skipWhile ⟨List.replicate n ' ' ++ r, place⟩
      (fun x => x == ' ' || (tabs && x == '\t')) = ⟨r, place.right n⟩ := by
  have hstop : ∀ c ∈ r.head?, (c == ' ' || (tabs && c == '\t')) = false := by
    intro c hc
    have hgap := (isGapOrBreak_eq_false.mp (h c hc)).1
    rw [isGap, Bool.or_eq_false_iff] at hgap
    rw [hgap.1, hgap.2, Bool.and_false]
    rfl
  have htake : r.takeWhile (fun x => x == ' ' || (tabs && x == '\t')) = [] ∧
      r.dropWhile (fun x => x == ' ' || (tabs && x == '\t')) = r := by
    cases r with
    | nil => exact ⟨rfl, rfl⟩
    | cons c r => simp [hstop c rfl]
  rw [Cursor.skipWhile, List.takeWhile_append_of_pos (by simp),
    List.dropWhile_append_of_pos (by simp), htake.1, htake.2, List.append_nil,
    List.length_replicate]

/-- Spaces in front of a token are passed over. -/
theorem skipBlanks_spaces {s : Scan} {n : Nat} {r : List Char}
    (hrest : s.cursor.rest = List.replicate n ' ' ++ r) (h : Still r) (fuel : Nat) :
    skipBlanks (fuel + 1) s = { s with cursor := ⟨r, s.cursor.place.right n⟩ } := by
  obtain ⟨⟨rest, place⟩, ts, blocks, allowed, outer, inner⟩ := s
  obtain rfl : rest = List.replicate n ' ' ++ r := hrest
  have horder :
      Cursor.nextIs (fun x => x == '\ufeff') ⟨List.replicate n ' ' ++ r, place⟩ = false := by
    cases n with
    | zero => exact nextIs_still (fun c hc => beq_eq_false_iff_ne.mpr (h c hc).2.2) place
    | succ n => rfl
  have hnumber : Cursor.nextIs (fun x => x == '#') ⟨r, place.right n⟩ = false :=
    nextIs_still (fun c hc => beq_eq_false_iff_ne.mpr (h c hc).2.1) _
  have hbreak : Cursor.nextIs isBreak ⟨r, place.right n⟩ = false :=
    nextIs_still (fun c hc => (isGapOrBreak_eq_false.mp (h c hc).1).2) _
  rw [skipBlanks]
  simp only [horder, Bool.and_false, Bool.false_eq_true, if_false, skipWhile_spaces _ n h.solid,
    hnumber, hbreak]

theorem skipBlanks_feed {s : Scan} {r : List Char} (hrest : s.cursor.rest = '\n' :: r)
    (fuel : Nat) :
    skipBlanks (fuel + 1) s = skipBlanks fuel { s with
      cursor := ⟨r, s.cursor.place.nextLine 1⟩
      keyAllowed := s.keyAllowed || !s.inFlow } := by
  obtain ⟨⟨rest, place⟩, ts, blocks, allowed, outer, inner⟩ := s
  obtain rfl : rest = '\n' :: r := hrest
  simp [skipBlanks, Cursor.nextIs, Cursor.skipWhile, Place.right, Place.nextLine,
    Cursor.skipBreak, isBreak]

/-- A scan of a mapping whose keys begin in column 0, outside of brackets. -/
def flat (begun allowed : Bool) (candidate : Option Candidate) (ts : List (Placed Token))
    (c : Cursor) : Scan :=
  ⟨c, ts, if begun then [0] else [], allowed, candidate, []⟩

variable {begun allowed : Bool} {candidate : Option Candidate} {ts : List (Placed Token)}
  {c : Cursor} {s : Scan} {x : Char} {r : List Char}

/-- A candidate is kept on its line, as long as it is not too far back. -/
def Fresh (candidate : Option Candidate) (place : Place) : Prop :=
  ∀ k ∈ candidate, k.place.line = place.line ∧ place.index ≤ k.place.index + 1024

theorem dropStale_flat (h : Fresh candidate c.place) :
    (flat begun allowed candidate ts c).dropStale = .ok (flat begun allowed candidate ts c) := by
  cases candidate with
  | none => rfl
  | some k =>
    obtain ⟨hline, hindex⟩ := h k rfl
    have hstale : (flat begun allowed (some k) ts c).isStale k = false := by
      show (decide (k.place.line < c.place.line) ||
        decide (k.place.index + 1024 < c.place.index)) = false
      rw [hline, decide_eq_false (Nat.lt_irrefl _), decide_eq_false (Nat.not_lt.mpr hindex)]
      rfl
    have hfresh : (flat begun allowed (some k) ts c).freshen (some k) = .ok (some k) := by
      rw [freshen, hstale]
      rfl
    show (do
      let outer ← (flat begun allowed (some k) ts c).freshen (some k)
      let inner ← ([] : List (Option Candidate)).reverse.mapM
        (flat begun allowed (some k) ts c).freshen
      return { flat begun allowed (some k) ts c with outer, inner := inner.reverse }) = _
    rw [hfresh]
    rfl

theorem unindent_flat (column : Nat) :
    (flat begun allowed candidate ts c).unindent (some column) =
      flat begun allowed candidate ts c := by
  cases begun with
  | true => simp [flat, unindent, closeBlocks, inFlow]
  | false => simp [flat, unindent, closeBlocks, inFlow]

/-- **The next token** begins behind the spaces. -/
theorem next_flat {n : Nat} {r : List Char} {place : Place} (hr : Still r)
    (h : Fresh candidate (place.right n)) :
    (flat begun allowed candidate ts ⟨List.replicate n ' ' ++ r, place⟩).next =
      (flat begun allowed candidate ts ⟨r, place.right n⟩).fetch := by
  have hskip := skipBlanks_spaces
    (s := flat begun allowed candidate ts ⟨List.replicate n ' ' ++ r, place⟩)
    rfl hr (List.replicate n ' ' ++ r).length
  have hstale : (flat begun allowed candidate ts ⟨r, place.right n⟩).dropStale = .ok _ :=
    dropStale_flat h
  show (do
    let s ← (skipBlanks ((List.replicate n ' ' ++ r).length + 1)
      (flat begun allowed candidate ts ⟨List.replicate n ' ' ++ r, place⟩)).dropStale
    (s.unindent (some s.place.column)).fetch) = _
  rw [hskip]
  show (do
    let s ← (flat begun allowed candidate ts ⟨r, place.right n⟩).dropStale
    (s.unindent (some s.place.column)).fetch) = _
  rw [hstale]
  show ((flat begun allowed candidate ts ⟨r, place.right n⟩).unindent _).fetch = _
  rw [unindent_flat]

/-! ## Single tokens -/

/-- **The text** is over. -/
theorem fetch_nil (hrest : s.cursor.rest = []) : s.fetch = s.fetchEnd := by
  rw [fetch]
  simp only [hrest]

/-- **A plain scalar** that is read becomes a token. -/
theorem fetchPlain_flat {saved : Option Candidate} {text : List Char} {broken : Bool}
    {next : Cursor} (hsave : (flat begun allowed candidate ts c).saveCandidate =
      .ok (flat begun allowed saved ts c))
    (hread : readPlain false (if begun then 1 else 0) c = .ok (text, broken, next)) :
    (flat begun allowed candidate ts c).fetchPlain =
      .ok (flat begun broken saved (ts ++ [⟨.scalar text true, c.place⟩]) next) := by
  rw [fetchPlain, hsave]
  cases begun with
  | true =>
    have hread : readPlain (flat true allowed saved ts c).inFlow (0 + 1)
        (flat true allowed saved ts c).cursor = _ := hread
    have hhead : (flat true allowed saved ts c).blocks.head? = some 0 := rfl
    simp only [bind, Except.bind, hhead, hread]
    rfl
  | false =>
    have hread : readPlain (flat false allowed saved ts c).inFlow 0
        (flat false allowed saved ts c).cursor = _ := hread
    have hhead : (flat false allowed saved ts c).blocks.head? = none := rfl
    simp only [bind, Except.bind, hhead, hread]
    rfl

/-- **A quoted scalar** that is read becomes a token. -/
theorem fetchQuoted_flat {single : Bool} {text : List Char} {next : Cursor}
    (hread : readQuoted single c = .ok (text, next)) :
    (flat begun false candidate ts c).fetchQuoted single =
      .ok (flat begun false candidate (ts ++ [⟨.scalar text false, c.place⟩]) next) := by
  have hsave : (flat begun false candidate ts c).saveCandidate =
      .ok (flat begun false candidate ts c) := rfl
  have hread : readQuoted single (flat begun false candidate ts c).cursor = _ := hread
  rw [fetchQuoted, hsave]
  simp only [bind, Except.bind, hread]
  rfl

/-- **A block scalar** that is read becomes a token. -/
theorem fetchBlock_flat {text : List Char} {next : Cursor}
    (hread : readBlock true (some 0) c = .ok (text, next)) :
    (flat true allowed none ts c).fetchBlock true =
      .ok (flat true true none (ts ++ [⟨.scalar text false, c.place⟩]) next) := by
  have hdrop : (flat true allowed none ts c).dropCandidate =
      .ok (flat true allowed none ts c) := rfl
  have hread : readBlock true (flat true allowed none ts c).blocks.head?
      (flat true allowed none ts c).cursor = _ := hread
  rw [fetchBlock, hdrop]
  simp only [bind, Except.bind, hread]
  rfl

/-- What begins like a plain scalar. -/
structure BeginsPlain (c : Cursor) (x : Char) (r : List Char) : Prop where
  rest : c.rest = x :: r
  indicator : isIndicator x = false
  solid : isGapOrBreak x = false
  sign : x = '-' ∨ x = '?' ∨ x = ':' → followedByGap r = false
  dash : c.atMarker '-' = false
  dot : c.atMarker '.' = false

theorem fetch_plain (hinner : s.inner = []) (h : BeginsPlain s.cursor x r) :
    s.fetch = s.fetchPlain := by
  have hflow : s.inFlow = false := by rw [inFlow, hinner]; rfl
  have hne : ∀ y, isIndicator y = true → x ≠ y := by
    rintro y hy rfl
    rw [h.indicator] at hy
    cases hy
  have hsign : ∀ y, (y = '-' ∨ y = '?' ∨ y = ':') → ¬ (x = y ∧ followedByGap r = true) := by
    rintro y hy ⟨rfl, hgap⟩
    rw [h.sign hy] at hgap
    cases hgap
  have hstarts : startsPlain false s.cursor = true := by
    rw [startsPlain, h.rest]
    simp only
    split_ifs with hdash hmark
    · have hr := h.sign (Or.inl (beq_iff_eq.mp hdash))
      cases r with
      | nil => rfl
      | cons y r => simp [(isGapOrBreak_eq_false.mp hr).1]
    · have hmark : x = '?' ∨ x = ':' := by simpa using hmark
      rw [h.sign (Or.inr hmark)]
      rfl
    · rw [h.solid, h.indicator]
      rfl
  have hdash := hsign '-' (Or.inl rfl)
  have hquestion := hsign '?' (Or.inr (Or.inl rfl))
  have hcolon := hsign ':' (Or.inr (Or.inr rfl))
  simp [fetch, h.rest, h.dash, h.dot, hflow, hne '%' rfl, hne '[' rfl, hne '\x7b' rfl, hne ']' rfl,
    hne '\x7d' rfl, hne ',' rfl, hne '*' rfl, hne '&' rfl, hne '!' rfl, hne '|' rfl, hne '>' rfl,
    hne '\'' rfl, hne '"' rfl, hdash, hquestion, hcolon, hstarts]

/-- The key of a pair. -/
structure IsKey (key : List Char) : Prop where
  ne : key ≠ []
  chars : ∀ c ∈ key, isKeyChar c = true
  short : key.length ≤ 1024

theorem isIndicator_of_isKeyChar (hx : isKeyChar x = true) : isIndicator x = false := by
  refine Bool.eq_false_iff.mpr fun hind => ?_
  simp only [isIndicator, List.contains_cons, List.contains_nil, Bool.or_false, Bool.or_eq_true,
    beq_iff_eq] at hind
  obtain rfl | rfl | rfl | rfl | rfl | rfl | rfl | rfl | rfl | rfl | rfl | rfl | rfl | rfl | rfl |
    rfl := hind
  all_goals exact absurd hx (by decide)

/-- A key may begin where the line does. -/
theorem saveCandidate_flat (hcolumn : c.place.column = 0) :
    (flat begun true none ts c).saveCandidate =
      .ok (flat begun true (some ⟨ts.length, c.place, begun⟩) ts c) := by
  have hrequired : (!(flat begun true none ts c).inFlow &&
      (flat begun true none ts c).blocks.head? == some (flat begun true none ts c).place.column) =
        begun := by
    show ((if begun then [0] else []).head? == some c.place.column) = begun
    rw [hcolumn]
    cases begun with
    | true => rfl
    | false => rfl
  simp only [saveCandidate, hrequired]
  rfl

theorem fetch_key {key rest : List Char} {place : Place} (h : IsKey key)
    (hcolumn : place.column = 0) :
    (flat begun true none ts ⟨key ++ ':' :: ' ' :: rest, place⟩).fetch =
      .ok (flat begun false (some ⟨ts.length, place, begun⟩) (ts ++ [⟨.scalar key true, place⟩])
        ⟨':' :: ' ' :: rest, place.right key.length⟩) := by
  have hread : ∀ indent, readPlain false indent ⟨key ++ ':' :: ' ' :: rest, place⟩ =
      .ok (key, false, ⟨':' :: ' ' :: rest, place.right key.length⟩) :=
    fun indent => readPlain_key h.ne h.chars
  obtain ⟨x, k, hkey⟩ := List.exists_cons_of_ne_nil h.ne
  have hx := h.chars x (by rw [hkey]; exact List.mem_cons_self)
  have hbegins : BeginsPlain ⟨key ++ ':' :: ' ' :: rest, place⟩ x (k ++ ':' :: ' ' :: rest) := by
    rw [hkey, List.cons_append]
    refine ⟨rfl, isIndicator_of_isKeyChar hx, solid_of_isKeyChar hx, ?_,
      atMarker_of_ne (ne_of_isKeyChar hx rfl) _ _, atMarker_of_ne (ne_of_isKeyChar hx rfl) _ _⟩
    rintro (rfl | rfl | rfl)
    all_goals exact absurd hx (by decide)
  exact (fetch_plain rfl hbegins).trans (fetchPlain_flat (saveCandidate_flat hcolumn) (hread _))

theorem insertAt_length {α : Type} (before after : List α) (t : α) :
    insertAt before.length t (before ++ after) = before ++ t :: after := by
  induction before with
  | nil => rfl
  | cons b before ih => exact congrArg (b :: ·) ih

/-- The token that begins a mapping, unless it has begun. -/
def opening (begun : Bool) : List Token :=
  if begun then [] else [.blockMappingStart]

/-- What a scan fetches within a line, where a colon, a quotation mark or a bar comes next. -/
theorem fetch_mark (hrest : s.cursor.rest = x :: r) (hcolumn : s.cursor.place.column ≠ 0)
    (hinner : s.inner = []) :
    (x = ':' → followedByGap r = true → s.fetch = s.fetchValue) ∧
      (x = '\'' → s.fetch = s.fetchQuoted true) ∧ (x = '"' → s.fetch = s.fetchQuoted false) ∧
      (x = '|' → s.fetch = s.fetchBlock true) := by
  have hflow : s.inFlow = false := by rw [inFlow, hinner]; rfl
  have hdash : s.cursor.atMarker '-' = false := atMarker_of_column hcolumn
  have hdot : s.cursor.atMarker '.' = false := atMarker_of_column hcolumn
  refine ⟨?_, ?_, ?_, ?_⟩
  · rintro rfl hgap
    simp [fetch, hrest, hdash, hdot, hgap]
  · rintro rfl
    simp [fetch, hrest, hdash, hdot]
  · rintro rfl
    simp [fetch, hrest, hdash, hdot]
  · rintro rfl
    simp [fetch, hrest, hdash, hdot, hflow]

/-- **The colon** makes what stands before it a key. -/
theorem fetch_colon (begun : Bool) (ts : List (Placed Token)) (t : Placed Token)
    (rest : List Char) {place keyPlace : Place}
    (hkey : keyPlace.column = 0) (hplace : place.column ≠ 0) :
    (flat begun false (some ⟨ts.length, keyPlace, begun⟩) (ts ++ [t])
        ⟨':' :: ' ' :: rest, place⟩).fetch =
      .ok (flat true false none
        (ts ++ ((opening begun).map (⟨·, keyPlace⟩) ++ [⟨.key, keyPlace⟩, t, ⟨.value, place⟩]))
        ⟨' ' :: rest, place.right 1⟩) := by
  rw [(fetch_mark rfl hplace rfl).1 rfl rfl]
  cases begun
  all_goals
    simp [fetchValue, flat, Scan.candidate, setCandidate, Scan.indent, inFlow, insertAt_length,
      hkey, opening, emitSkip, emit, Scan.place, Cursor.skip]

/-! ## Values -/

/-- A value with the end of its line. -/
def writeValue (cs : List Char) : List Char :=
  writeText cs ++ (if Style.ofText cs = .literal ∧ endsLine (writeText cs) then [] else ['\n'])

theorem writePair_eq (key cs : List Char) :
    writePair (key, cs) = key ++ ':' :: ' ' :: writeValue cs := by
  simp [writePair, writeValue]

/-- A scan in front of a pair, or of the break before it. -/
inductive AtPair (begun : Bool) (rest : List Char) : Scan → Prop
  | line {ts : List (Placed Token)} {place : Place} (hcolumn : place.column = 0) :
      AtPair begun rest (flat begun true none ts ⟨rest, place⟩)
  | feed (ts : List (Placed Token)) (place : Place) :
      AtPair begun rest (flat begun false none ts ⟨'\n' :: rest, place⟩)

theorem isPlain_of_style {cs : List Char} (h : Style.ofText cs = .plain) :
    IsPlain cs ∧ startsAsMark cs = false ∧ ∀ c ∈ cs, isShown c = true := by
  rw [Style.ofText] at h
  split_ifs at h with hfeed hliteral hplain
  rw [Bool.and_eq_true, Bool.not_eq_true'] at hplain
  have hfits := hplain.1
  simp only [fitsPlain, Bool.and_eq_true, Bool.not_eq_true', List.all_eq_true] at hfits
  refine ⟨isPlain_of_fitsPlain ?_ hplain.1, hfits.1.1.1.1.1, hfits.1.1.1.2⟩
  rintro rfl
  exact absurd hplain.2 (by decide)

/-- A plain value. -/
theorem fetch_plainText (ts : List (Placed Token)) {cs rest : List Char} {place : Place}
    (h : Style.ofText cs = .plain)
    (hrest : Solid rest) (hplace : place.column ≠ 0) :
    ∃ place', place'.column = 0 ∧
      (flat true false none ts ⟨cs ++ '\n' :: rest, place⟩).fetch =
        .ok (flat true true none (ts ++ [⟨.scalar cs true, place⟩]) ⟨rest, place'⟩) := by
  obtain ⟨hplain, hstart, -⟩ := isPlain_of_style h
  obtain ⟨place', hcolumn', hread⟩ := readPlain_written hplain hrest hplace
  obtain ⟨x, r, hcs, hx⟩ := hplain.begins
  have hbegins : BeginsPlain ⟨cs ++ '\n' :: rest, place⟩ x (r ++ '\n' :: rest) := by
    rw [hcs, startsAsMark] at hstart
    simp only [Bool.or_eq_false_iff] at hstart
    have hmark := hplain.unmarked
    rw [hcs, hasMark, Bool.or_eq_false_iff, Bool.or_eq_false_iff] at hmark
    refine ⟨by rw [hcs]; rfl, hstart.1.1.1, hx, fun hsign => ?_, atMarker_of_column hplace,
      atMarker_of_column hplace⟩
    rw [followedByGap_append]
    obtain rfl | rfl | rfl := hsign
    · exact hstart.1.1.2
    · exact hstart.1.1.2
    · exact hmark.1.1
  refine ⟨place', hcolumn', ?_⟩
  exact (fetch_plain rfl hbegins).trans (fetchPlain_flat rfl hread)

/-- A quoted value. -/
theorem fetch_quotedText (ts : List (Placed Token)) {single : Bool} {cs : List Char}
    (rest : List Char) {place : Place} (h : Quotable single cs) (hplace : place.column ≠ 0) :
    ∃ place',
      (flat true false none ts
          ⟨(if single then '\'' else '"') :: (inside single cs ++ '\n' :: rest), place⟩).fetch =
        .ok (flat true false none (ts ++ [⟨.scalar cs false, place⟩]) ⟨'\n' :: rest, place'⟩) := by
  obtain ⟨place', hread⟩ :=
    readQuoted_written place (if single then '\'' else '"') rest h
  refine ⟨place', ?_⟩
  have hfetch := fetch_mark (s := flat true false none ts
    ⟨(if single then '\'' else '"') :: (inside single cs ++ '\n' :: rest), place⟩) rfl hplace rfl
  have hquoted : (flat true false none ts
      ⟨(if single then '\'' else '"') :: (inside single cs ++ '\n' :: rest), place⟩).fetch =
        (flat true false none ts
          ⟨(if single then '\'' else '"') :: (inside single cs ++ '\n' :: rest), place⟩).fetchQuoted
            single := by
    cases single with
    | true => exact hfetch.2.1 rfl
    | false => exact hfetch.2.2.1 rfl
  exact hquoted.trans (fetchQuoted_flat hread)

/-- A value of several lines. -/
theorem fetch_blockText (ts : List (Placed Token)) {cs rest : List Char} {place : Place}
    (hne : cs ≠ []) (hshown : ∀ c ∈ cs, isShown c = true) (hrest : Solid rest)
    (hplace : place.column ≠ 0) :
    ∃ place', place'.column = 0 ∧
      (flat true false none ts ⟨writeLiteral cs ++ (lineEnd cs ++ rest), place⟩).fetch =
        .ok (flat true true none (ts ++ [⟨.scalar cs false, place⟩]) ⟨rest, place'⟩) := by
  obtain ⟨place', hcolumn', hread⟩ := readBlock_written place hrest hne hshown
  refine ⟨place', hcolumn', ?_⟩
  exact ((fetch_mark rfl hplace rfl).2.2.2 rfl).trans (fetchBlock_flat hread)

/-- The style of a text says what the text is like. -/
theorem style_spec (cs : List Char) :
    (Style.ofText cs = .single → Quotable true cs) ∧
      (Style.ofText cs = .literal → cs ≠ [] ∧ ∀ c ∈ cs, isShown c = true) := by
  rw [Style.ofText]
  split_ifs with hfeed hliteral hplain hsingle
  · refine ⟨nofun, fun _ => ⟨List.ne_nil_of_mem hfeed, ?_⟩⟩
    simp only [fitsLiteral, Bool.and_eq_true, List.all_eq_true] at hliteral
    exact hliteral.1.1
  · exact ⟨nofun, nofun⟩
  · exact ⟨nofun, nofun⟩
  · exact ⟨fun _ => quotable_of_fitsSingle hfeed hsingle, nofun⟩
  · exact ⟨nofun, nofun⟩

/-- The end of a text over several lines. -/
theorem endsLine_writeLiteral {cs : List Char} (hne : cs ≠ []) :
    endsLine (writeLiteral cs) = endsLine cs := by
  rw [writeLiteral, endsLine_append (writeLines_ne_nil hne true), endsLine_writeLines hne]

/-- **A value** is read, and behind it there is the next pair. -/
theorem fetch_text (ts : List (Placed Token)) (cs : List Char) {rest : List Char} {place : Place}
    (hrest : Solid rest) (hplace : place.column ≠ 0) :
    ∃ s', (flat true false none ts ⟨writeValue cs ++ rest, place⟩).fetch = .ok s' ∧
      s'.tokens = ts ++ [⟨.scalar cs (Style.ofText cs = .plain), place⟩] ∧ AtPair true rest s' := by
  rw [writeValue, writeText]
  cases hstyle : Style.ofText cs with
  | plain =>
    obtain ⟨place', hcolumn', hfetch⟩ := fetch_plainText ts hstyle hrest hplace
    exact ⟨_, by simpa using hfetch, rfl, .line hcolumn'⟩
  | single =>
    obtain ⟨place', hfetch⟩ := fetch_quotedText ts rest ((style_spec cs).1 hstyle) hplace
    exact ⟨_, by simpa [writeSingle_eq] using hfetch, rfl, .feed _ place'⟩
  | double =>
    have hquotable : Quotable false cs := trivial
    obtain ⟨place', hfetch⟩ := fetch_quotedText ts rest hquotable hplace
    exact ⟨_, by simpa [writeDouble_eq] using hfetch, rfl, .feed _ place'⟩
  | literal =>
    obtain ⟨hne, hshown⟩ := (style_spec cs).2 hstyle
    obtain ⟨place', hcolumn', hfetch⟩ := fetch_blockText ts hne hshown hrest hplace
    refine ⟨_, ?_, rfl, .line hcolumn'⟩
    simpa [endsLine_writeLiteral hne, lineEnd] using hfetch

/-- A value begins with nothing that is passed over. -/
theorem still_writeValue (cs rest : List Char) : Still (writeValue cs ++ rest) := by
  rw [writeValue, writeText]
  cases hstyle : Style.ofText cs with
  | plain =>
    obtain ⟨hplain, hstart, hshown⟩ := isPlain_of_style hstyle
    obtain ⟨x, r, rfl, hx⟩ := hplain.begins
    rw [startsAsMark] at hstart
    simp only [Bool.or_eq_false_iff] at hstart
    refine still_cons hx ?_ ?_
    · rintro rfl
      exact absurd hstart.1.1.1 (by decide)
    · rintro rfl
      exact absurd (hshown _ List.mem_cons_self) (by decide)
  | single => exact still_cons rfl (by decide) (by decide)
  | double => exact still_cons rfl (by decide) (by decide)
  | literal => exact still_cons rfl (by decide) (by decide)

/-! ## Pairs -/

/-- The tokens of a pair. -/
def pairTokens (pair : List Char × List Char) : List Token :=
  [.key, .scalar pair.1 true, .value, .scalar pair.2 (Style.ofText pair.2 = .plain)]

/-- A text behind a pair: it is over, or goes on with a key. -/
def BeginsKey (rest : List Char) : Prop := ∀ c ∈ rest.head?, isKeyChar c = true

theorem BeginsKey.still {rest : List Char} (h : BeginsKey rest) : Still rest := fun c hc =>
  ⟨solid_of_isKeyChar (h c hc), ne_of_isKeyChar (h c hc) rfl, ne_of_isKeyChar (h c hc) rfl⟩

/-- Behind a break a line begins. -/
theorem next_feed (ts : List (Placed Token)) (rest : List Char) (place : Place) :
    (flat begun false none ts ⟨'\n' :: rest, place⟩).next =
      (flat begun true none ts ⟨rest, place.nextLine 1⟩).next := by
  rw [next, next, skipBlanks_feed rfl]
  rfl

/-- In front of a pair a line begins, and the scan fetches the token there. -/
theorem AtPair.next {rest : List Char} (h : AtPair begun rest s) (hrest : Still rest) :
    s.dropStale = .ok s ∧ ∃ place, place.column = 0 ∧
      s.next = (flat begun true none s.tokens ⟨rest, place⟩).fetch := by
  have hfresh : ∀ place, Fresh none place := fun place k hk => absurd hk (by simp)
  have hline : ∀ (ts : List (Placed Token)) (place : Place),
      (flat begun true none ts ⟨rest, place⟩).next =
        (flat begun true none ts ⟨rest, place⟩).fetch := by
    intro ts place
    exact next_flat (n := 0) hrest (hfresh _)
  cases h with
  | @line ts place hcolumn => exact ⟨dropStale_flat (hfresh _), place, hcolumn, hline ts place⟩
  | feed ts place =>
    exact ⟨dropStale_flat (hfresh _), place.nextLine 1, rfl,
      (next_feed ts rest place).trans (hline ts _)⟩

/-- A round that finds a token, which does not end the text. -/
theorem run_round {s' : Scan} (hstale : s.dropStale = .ok s) (hnext : s.next = .ok s')
    (hlast : ∀ t ∈ s'.tokens.getLast?, t.value ≠ .streamEnd) (fuel : Nat) :
    run (fuel + 1) s = run fuel s' := by
  have hgoes : (s'.tokens.getLast?.any fun t => t.value == .streamEnd) = false := by
    cases hlast' : s'.tokens.getLast? with
    | none => rfl
    | some t => exact beq_eq_false_iff_ne.mpr (hlast t hlast')
  rw [run, hstale]
  simp only [hnext, hgoes]
  rfl

/-- A round of a scan of a mapping. -/
theorem run_flat {n : Nat} {place : Place} {s' : Scan} (hr : Still r)
    (hfresh : Fresh candidate (place.right n))
    (hfetch : (flat begun allowed candidate ts ⟨r, place.right n⟩).fetch = .ok s')
    (hlast : ∀ t ∈ s'.tokens.getLast?, t.value ≠ .streamEnd) (fuel : Nat) :
    run (fuel + 1) (flat begun allowed candidate ts ⟨List.replicate n ' ' ++ r, place⟩) =
      run fuel s' := by
  refine run_round (dropStale_flat fun k hk => ?_) ((next_flat hr hfresh).trans hfetch) hlast fuel
  obtain ⟨hline, hindex⟩ := hfresh k hk
  exact ⟨hline, Nat.le_of_add_right_le hindex⟩

theorem IsKey.still {key : List Char} (h : IsKey key) (rest : List Char) : Still (key ++ rest) := by
  obtain ⟨c, k, rfl⟩ := List.exists_cons_of_ne_nil h.ne
  have hc := h.chars c List.mem_cons_self
  exact still_cons (solid_of_isKeyChar hc) (ne_of_isKeyChar hc rfl) (ne_of_isKeyChar hc rfl)

/-- **A pair** takes three rounds: its key, the colon, and the value. -/
theorem run_pair {key cs rest : List Char} (hkey : IsKey key) (hrest : Solid rest)
    (h : AtPair begun (writePair (key, cs) ++ rest) s) :
    ∃ s', AtPair true rest s' ∧
      s'.tokens.map Placed.value = s.tokens.map Placed.value ++
        (opening begun ++ pairTokens (key, cs)) ∧
      ∀ fuel, run (fuel + 3) s = run fuel s' := by
  have hwritten : writePair (key, cs) ++ rest = key ++ ':' :: ' ' :: (writeValue cs ++ rest) := by
    rw [writePair_eq, List.append_assoc]
    rfl
  rw [hwritten] at h
  -- the key
  obtain ⟨hstale, p, hcolumn, hnext⟩ := h.next (hkey.still _)
  rw [fetch_key hkey hcolumn] at hnext
  have hfirst : ∀ fuel, run (fuel + 1) s = run fuel _ :=
    run_round hstale hnext (by simp [flat])
  -- the colon
  have hpos : 0 < key.length := List.length_pos_iff.mpr hkey.ne
  have hright : (p.right key.length).column ≠ 0 := by
    show p.column + key.length ≠ 0
    omega
  have hfresh : Fresh (some ⟨s.tokens.length, p, begun⟩) ((p.right key.length).right 0) := by
    intro k hk
    obtain rfl := Option.some.inj hk
    exact ⟨rfl, Nat.add_le_add_left hkey.short _⟩
  have hcolon := fetch_colon begun s.tokens ⟨.scalar key true, p⟩ (writeValue cs ++ rest) hcolumn
    hright
  have hsecond := run_flat (n := 0) (still_cons rfl (by decide) (by decide)) hfresh hcolon
    (by simp [flat])
  -- the value
  have hinside : (((p.right key.length).right 1).right 1).column ≠ 0 := Nat.succ_ne_zero _
  obtain ⟨s', hfetch, htokens, hbehind⟩ := fetch_text (s.tokens ++ ((opening begun).map (⟨·, p⟩) ++
    [⟨.key, p⟩, ⟨.scalar key true, p⟩, ⟨.value, p.right key.length⟩])) cs hrest hinside
  have hthird := run_flat (n := 1) (still_writeValue cs rest) (fun k hk => absurd hk (by simp))
    hfetch (by simp [htokens])
  refine ⟨s', hbehind, ?_, fun fuel => ?_⟩
  · simp [htokens, pairTokens, Function.comp_def]
  · rw [hfirst (fuel + 2)]
    exact (hsecond (fuel + 1)).trans (hthird fuel)

end Scan

end RunnerCatalog.Yaml
