/-
  Reading a mapping that was written.

  1. **Characters** - every text is written in characters that a text may hold (`all_writeText`).

  2. **Tokens** - by induction on the pairs, a scan in front of them reads all of their tokens
     (`Scan.run_pairs`); the first pair begins the mapping, and the end of the text ends it
     (`tokens_writeMapping`).

  3. **Events** - the four tokens of a pair give the two events of its texts (`Parse.run_pair`), so
     by induction the text reads as a mapping of the pairs (`ofText_writeMapping`).
-/
import Mathlib.Data.List.TakeWhile
import RunnerCatalog.Proofs.PairTokens
import RunnerCatalog.Yaml.Event

namespace RunnerCatalog.Yaml

/-! ## Characters -/

theorem isAllowed_digitChar : ∀ d : Fin 16, isAllowed (Nat.digitChar d.val).toUpper = true := by
  decide

theorem all_toDigits (v : Nat) :
    ((Nat.toDigits 16 v).map Char.toUpper).all isAllowed = true := by
  induction v using Nat.strongRecOn with
  | ind v ih =>
    have hdigit : isAllowed (Nat.digitChar (v % 16)).toUpper = true :=
      isAllowed_digitChar ⟨v % 16, Nat.mod_lt v (by decide)⟩
    rw [Nat.toDigits_eq_if (by decide)]
    split
    · next hlt =>
      rw [Nat.mod_eq_of_lt hlt] at hdigit
      simp [hdigit]
    · next hge =>
      rw [List.map_append, List.all_append, ih (v / 16) (by omega)]
      simp [hdigit]

theorem all_hexText (n v : Nat) : (hexText n v).all isAllowed = true := by
  have hzero : isAllowed '0' = true := by decide
  rw [hexText, List.all_append, all_toDigits]
  simp [hzero]

theorem isAllowed_of_escapeLetter? {c letter : Char} (h : escapeLetter? c = some letter) :
    isAllowed letter = true := by
  unfold escapeLetter? at h
  split at h
  all_goals cases h
  all_goals rfl

theorem all_writeDoubleChar (c : Char) : (writeDoubleChar c).all isAllowed = true := by
  have hmarks : isAllowed '\\' = true ∧ isAllowed 'x' = true ∧ isAllowed 'u' = true ∧
      isAllowed 'U' = true := by decide
  rw [writeDoubleChar]
  cases hletter : escapeLetter? c with
  | some letter => simp [hmarks, isAllowed_of_escapeLetter? hletter]
  | none =>
    simp only
    split_ifs with hshown hbyte hword
    · simp [isAllowed_of_isShown hshown]
    all_goals simp only [List.all_append, all_hexText]
    all_goals simp [hmarks]

theorem all_writeLines (fresh : Bool) (cs : List Char) :
    (writeLines fresh cs).all isAllowed = cs.all isAllowed := by
  have hmargin : margin.all isAllowed = true := by decide
  induction cs generalizing fresh with
  | nil => rfl
  | cons c r ih =>
    rw [writeLines]
    cases isBreak c with
    | true => exact congrArg (isAllowed c && ·) (ih true)
    | false =>
      cases fresh with
      | true =>
        show (margin ++ c :: writeLines false r).all isAllowed = _
        rw [List.all_append, hmargin, Bool.true_and]
        exact congrArg (isAllowed c && ·) (ih false)
      | false => exact congrArg (isAllowed c && ·) (ih false)

theorem all_of_isShown {cs : List Char} (h : ∀ c ∈ cs, isShown c = true) :
    cs.all isAllowed = true :=
  List.all_eq_true.mpr fun c hc => isAllowed_of_isShown (h c hc)

theorem all_writeSingle {cs : List Char} (h : cs.all isShown = true) :
    (writeSingle cs).all isAllowed = true := by
  have hmarks : isAllowed '\'' = true ∧ margin.all isAllowed = true := by decide
  have hdoubled : (cs.flatMap fun c => if c = '\'' then ['\'', '\''] else [c]).all isAllowed =
      true := by
    rw [List.all_flatMap]
    refine List.all_eq_true.mpr fun c hc => ?_
    split_ifs with hquote
    · decide
    · simpa using isAllowed_of_isShown (List.all_eq_true.mp h c hc)
  rw [writeSingle]
  simp only [List.all_append, all_writeLines, hdoubled]
  split_ifs
  all_goals simp [hmarks]

theorem all_writeLiteral {cs : List Char} (h : ∀ c ∈ cs, isShown c = true) :
    (writeLiteral cs).all isAllowed = true := by
  have hmark : (chompingMark cs).all isAllowed = true := by
    rw [chompingMark]
    split
    · rfl
    · split_ifs
      all_goals rfl
  rw [writeLiteral]
  simp only [List.all_append, all_writeLines, all_of_isShown h, hmark]
  split_ifs
  all_goals decide

/-- **A text** is written in characters that a text may hold. -/
theorem all_writeText (cs : List Char) : (writeText cs).all isAllowed = true := by
  rw [writeText]
  cases hstyle : Style.ofText cs with
  | plain => exact all_of_isShown (Scan.isPlain_of_style hstyle).2.2
  | single =>
    have hfits : fitsSingle cs = true := by
      rw [Style.ofText] at hstyle
      split_ifs at hstyle with hfeed hliteral hplain hsingle
      exact hsingle
    simp only [fitsSingle, Bool.and_eq_true] at hfits
    exact all_writeSingle hfits.1.1
  | double =>
    have hmark : isAllowed '"' = true := by decide
    simp only [writeDouble, List.all_append, List.all_flatMap]
    simp [hmark, all_writeDoubleChar]
  | literal => exact all_writeLiteral ((Scan.style_spec cs).2 hstyle).2

theorem all_writePair {key : List Char} (hkey : Scan.IsKey key) (cs : List Char) :
    (writePair (key, cs)).all isAllowed = true := by
  have hcolon : ([':', ' '] : List Char).all isAllowed = true := by decide
  have hchars : key.all isAllowed = true :=
    all_of_isShown fun c hc => isShown_of_isKeyChar (hkey.chars c hc)
  rw [writePair]
  simp only [List.all_append, all_writeText, hcolon, hchars]
  split_ifs
  all_goals decide

namespace Scan

/-! ## Tokens -/

variable {s : Scan}

/-- **The end** of the text ends the mapping. -/
theorem run_over (h : AtPair true [] s) (fuel : Nat) :
    ∃ ts, run (fuel + 1) s = (ts, none) ∧
      ts.map Placed.value = s.tokens.map Placed.value ++ [.blockEnd, .streamEnd] := by
  obtain ⟨hstale, place, hcolumn, hnext⟩ := h.next still_nil
  rw [fetch_nil rfl] at hnext
  have hend : (flat true true none s.tokens ⟨[], place⟩).fetchEnd =
      .ok (flat false false none (s.tokens ++ [⟨.blockEnd, place⟩, ⟨.streamEnd, place⟩])
        ⟨[], place⟩) := by
    simp [fetchEnd, flat, Scan.place, hcolumn, unindent, closeBlocks, inFlow, dropCandidate,
      Scan.candidate, emit]
  rw [hend] at hnext
  refine ⟨s.tokens ++ [⟨.blockEnd, place⟩, ⟨.streamEnd, place⟩], ?_, by simp⟩
  rw [run, hstale]
  simp [hnext, flat]

/-- What is written of pairs begins with a key, if it is not over. -/
theorem beginsKey_writeMapping {pairs : List (List Char × List Char)}
    (hkeys : ∀ pair ∈ pairs, IsKey pair.1) : BeginsKey (writeMapping pairs) := by
  cases pairs with
  | nil => exact fun c hc => absurd hc (by simp [writeMapping])
  | cons pair pairs =>
    have hkey := hkeys pair List.mem_cons_self
    obtain ⟨c, k, hc⟩ := List.exists_cons_of_ne_nil hkey.ne
    intro d hd
    rw [writeMapping, List.flatMap_cons, writePair, hc] at hd
    obtain rfl := Option.some.inj hd
    exact hkey.chars _ (by rw [hc]; exact List.mem_cons_self)

/-- **All pairs** are read, each in three rounds, and then the end of the mapping. -/
theorem run_pairs {pairs : List (List Char × List Char)} (hkeys : ∀ pair ∈ pairs, IsKey pair.1)
    (h : AtPair true (writeMapping pairs) s) (fuel : Nat) :
    ∃ ts, run (fuel + 1 + 3 * pairs.length) s = (ts, none) ∧
      ts.map Placed.value =
        s.tokens.map Placed.value ++ (pairs.flatMap pairTokens ++ [.blockEnd, .streamEnd]) := by
  induction pairs generalizing s with
  | nil => exact run_over h fuel
  | cons pair pairs ih =>
    have hmore : ∀ p ∈ pairs, IsKey p.1 := fun p hp => hkeys p (List.mem_cons_of_mem pair hp)
    obtain ⟨s', hbehind, htokens, hrun⟩ := run_pair (hkeys pair List.mem_cons_self)
      (beginsKey_writeMapping hmore).still.solid h
    obtain ⟨ts, hts, hvalues⟩ := ih hmore hbehind
    refine ⟨ts, (hrun _).trans hts, ?_⟩
    rw [hvalues, htokens]
    simp [opening]

end Scan

/-- A pair takes three characters at least: a part of the key, and what is behind it. -/
theorem length_writeMapping {pairs : List (List Char × List Char)}
    (hkeys : ∀ pair ∈ pairs, Scan.IsKey pair.1) :
    3 * pairs.length ≤ (writeMapping pairs).length := by
  induction pairs with
  | nil => exact Nat.zero_le _
  | cons pair pairs ih =>
    have hkey := List.length_pos_iff.mpr (hkeys pair List.mem_cons_self).ne
    have hmore := ih fun p hp => hkeys p (List.mem_cons_of_mem pair hp)
    rw [writeMapping] at hmore ⊢
    rw [List.flatMap_cons, List.length_append, List.length_cons, writePair]
    simp only [List.length_append, List.length_cons]
    omega

/-- **A mapping** that was written consists of the tokens of its pairs. -/
theorem tokens_writeMapping {pairs : List (List Char × List Char)} (hne : pairs ≠ [])
    (hkeys : ∀ pair ∈ pairs, Scan.IsKey pair.1) :
    ∃ ts, tokens (writeMapping pairs) = (ts, none) ∧
      ts.map Placed.value =
        .blockMappingStart :: (pairs.flatMap Scan.pairTokens ++ [.blockEnd, .streamEnd]) := by
  have hall : (writeMapping pairs).takeWhile isAllowed = writeMapping pairs := by
    refine List.takeWhile_eq_self_iff.mpr fun c hc => ?_
    obtain ⟨pair, hpair, hc⟩ := List.mem_flatMap.mp hc
    exact List.all_eq_true.mp (all_writePair (hkeys pair hpair) pair.2) c hc
  have hlength := length_writeMapping hkeys
  obtain ⟨pair, pairs, rfl⟩ := List.exists_cons_of_ne_nil hne
  have hmore : ∀ p ∈ pairs, Scan.IsKey p.1 := fun p hp => hkeys p (List.mem_cons_of_mem pair hp)
  have hstart : Scan.AtPair false (writePair pair ++ writeMapping pairs)
      (Scan.ofText (writeMapping (pair :: pairs))) := .line rfl
  obtain ⟨s', hbehind, htokens, hrun⟩ := Scan.run_pair (hkeys pair List.mem_cons_self)
    (Scan.beginsKey_writeMapping hmore).still.solid hstart
  obtain ⟨fuel, hfuel⟩ := Nat.exists_eq_add_of_le hlength
  obtain ⟨ts, hts, hvalues⟩ := Scan.run_pairs hmore hbehind (fuel + 1)
  refine ⟨ts, ?_, ?_⟩
  · rw [tokens, hall, if_neg (Nat.lt_irrefl _), hfuel, List.length_cons,
      show 3 * (pairs.length + 1) + fuel + 2 = fuel + 1 + 1 + 3 * pairs.length + 3 by omega]
    exact (hrun _).trans hts
  · rw [hvalues, htokens]
    simp [Scan.opening, Scan.ofText]

/-! ## Events -/

/-- The events of a pair. -/
def pairEvents (pair : List Char × List Char) : List Event :=
  [.scalar pair.1 true, .scalar pair.2 (Style.ofText pair.2 = .plain)]

namespace Parse

/-- **A pair** takes four rounds: its mark, the key, the colon, and the value. -/
theorem run_pair {key value : List Char} {plain : Bool} (start p q r t : Place)
    (goals : List Goal) (ts : List (Placed Token)) (es : List (Placed Event)) (fuel : Nat) :
    run (fuel + 4) ⟨.blockPairs start :: goals,
        ⟨.key, p⟩ :: ⟨.scalar key true, q⟩ :: ⟨.value, r⟩ :: ⟨.scalar value plain, t⟩ :: ts,
        es, [], knownHandles⟩ =
      run fuel ⟨.blockPairs start :: goals, ts,
        es ++ [⟨.scalar key true, q⟩] ++ [⟨.scalar value plain, t⟩], [], knownHandles⟩ := rfl

/-- **All pairs** give their events, and then the end of the mapping. -/
theorem run_pairs {pairs : List (List Char × List Char)} {ts : List (Placed Token)}
    (h : ts.map Placed.value = pairs.flatMap Scan.pairTokens ++ [.blockEnd, .streamEnd])
    (start : Place) (es : List (Placed Event)) (fuel : Nat) :
    ∃ place es', run (fuel + 2 + 4 * pairs.length)
        ⟨[.blockPairs start], ts, es, [], knownHandles⟩ =
          (es', .complete [⟨.streamEnd, place⟩]) ∧
      es'.map Placed.value =
        es.map Placed.value ++ (pairs.flatMap pairEvents ++ [.mappingEnd]) := by
  induction pairs generalizing ts es with
  | nil =>
    simp only [List.flatMap_nil, List.nil_append, List.map_eq_cons_iff] at h
    obtain ⟨⟨-, p⟩, -, rfl, rfl, ⟨-, place⟩, rest, rfl, rfl, hnil⟩ := h
    obtain rfl := List.map_eq_nil_iff.mp hnil
    exact ⟨place, es ++ [⟨.mappingEnd, p⟩], rfl, by simp⟩
  | cons pair pairs ih =>
    simp only [List.flatMap_cons, Scan.pairTokens, List.cons_append, List.nil_append,
      List.map_eq_cons_iff] at h
    obtain ⟨⟨-, p⟩, -, rfl, rfl, ⟨-, q⟩, -, rfl, rfl, ⟨-, r⟩, -, rfl, rfl, ⟨-, t⟩, ts, rfl, rfl,
      h⟩ := h
    obtain ⟨place, es', hrun, hvalues⟩ := ih h _
    refine ⟨place, es', (run_pair start p q r t [] ts es _).trans hrun, ?_⟩
    rw [hvalues]
    simp [pairEvents]

end Parse

/-- The tokens of a pair are four. -/
theorem length_pairTokens (pairs : List (List Char × List Char)) :
    (pairs.flatMap Scan.pairTokens).length = 4 * pairs.length := by
  induction pairs with
  | nil => rfl
  | cons pair pairs ih =>
    rw [List.flatMap_cons, List.length_append, ih]
    simp only [Scan.pairTokens, List.length_cons, List.length_nil]
    omega

/-- **A mapping** that was written reads as a mapping of its pairs. -/
theorem ofText_writeMapping {pairs : List (List Char × List Char)} (hne : pairs ≠ [])
    (hkeys : ∀ pair ∈ pairs, Scan.IsKey pair.1) :
    ∃ es, Reading.ofText (writeMapping pairs) = ⟨es, none⟩ ∧
      es.map Placed.value = .mappingStart :: (pairs.flatMap pairEvents ++ [.mappingEnd]) := by
  obtain ⟨ts, hts, hvalues⟩ := tokens_writeMapping hne hkeys
  have hlength : ts.length = 4 * pairs.length + 3 := by
    rw [← List.length_map Placed.value, hvalues, List.length_cons, List.length_append,
      length_pairTokens]
    rfl
  obtain ⟨fuel, hfuel⟩ : ∃ fuel, 8 * (ts.length + 1) = fuel + 2 + 4 * pairs.length + 1 :=
    ⟨8 * (ts.length + 1) - (2 + 4 * pairs.length + 1), by omega⟩
  obtain ⟨⟨-, start⟩, rest, rfl, rfl, hrest⟩ := List.map_eq_cons_iff.mp hvalues
  obtain ⟨place, es, hrun, hes⟩ := Parse.run_pairs hrest start [⟨.mappingStart, start⟩] fuel
  have hfirst : Parse.run (8 * ((⟨.blockMappingStart, start⟩ :: rest).length + 1))
      ⟨[.node .bare], ⟨.blockMappingStart, start⟩ :: rest, [], [], knownHandles⟩ =
        (es, .complete [⟨.streamEnd, place⟩]) := by
    rw [hfuel, ← hrun]
    rfl
  refine ⟨es, ?_, hes⟩
  rw [Reading.ofText, hts]
  simp only [Reading.ofTokens, readDocumentStart, hfirst]
  rfl

end RunnerCatalog.Yaml
