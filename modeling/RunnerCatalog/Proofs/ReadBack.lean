/-
  Values that were written.

  What a writer writes, the reader of its type reads back (`ReadsBack`): in either layout, at every
  depth, behind any blanks and whatever follows.  For lists, maps and records this is shown
  of their elements first.

  1. **Scalars** - strings and booleans (`readsBack_string`, `readsBack_boolean`).

  2. **Elements** - in a list the elements behind the first one follow a comma each
     (`writeMore`).  A reader that stands before such a comma, or before the closing bracket, reads
     the rest of the elements (`readElements_more`, `readEntries_more`, `readFields_more`), by
     induction on them.  It has fuel enough, because each element takes a character at least.

  3. **Values** - lists, maps and records are read back (`readsBack_list`, `readsBack_map`,
     `readsBack_record`).  A record may be written with fields that its reader does not know
     (`Fills`).
-/
import Mathlib.Data.List.Forall2
import RunnerCatalog.Proofs.Escaped
import RunnerCatalog.Proofs.Merge

namespace RunnerCatalog.Json

variable {α β δ : Type}

/-- The text begins neither with a blank nor with the end of a list. -/
def BeginsValue (text : List Char) : Prop :=
  ∃ c cs, text = c :: cs ∧ isSpace c = false ∧ c ≠ ']'

theorem BeginsValue.append {text : List Char} (h : BeginsValue text) (rest : List Char) :
    BeginsValue (text ++ rest) := by
  obtain ⟨c, cs, rfl, hc⟩ := h
  exact ⟨c, cs ++ rest, rfl, hc⟩

/-- What `write` writes is read as `v`. -/
structure ReadsBack (read : Reader α) (write : Writer) (v : α) : Prop where
  begins : ∀ layout depth, BeginsValue (write layout depth)
  reads : ∀ layout depth (pre rest : List Char), (∀ c ∈ pre, isSpace c = true) →
    read (pre ++ (write layout depth ++ rest)) = .ok (v, rest)

/-- Without blanks before it. -/
theorem ReadsBack.read {read : Reader α} {write : Writer} {v : α} (h : ReadsBack read write v)
    (layout : Layout) (depth : Nat) (rest : List Char) :
    read (write layout depth ++ rest) = .ok (v, rest) :=
  h.reads layout depth [] rest (fun _ hc => absurd hc List.not_mem_nil)

/-- A reader passes over what `write` writes. -/
def PassedOver (write : Writer) : Prop :=
  ∀ layout depth (pre rest : List Char), (∀ c ∈ pre, isSpace c = true) →
    skipValue (pre ++ (write layout depth ++ rest)) = .ok rest

/-! ## Scalars -/

/-- The blanks before a value end with its first character. -/
theorem skipSpace_before {pre : List Char} (h : ∀ c ∈ pre, isSpace c = true) {c : Char}
    (hc : isSpace c = false) (cs : List Char) : skipSpace (pre ++ c :: cs) = c :: cs := by
  rw [skipSpace_append h, skipSpace_cons hc]

theorem writeChars_append (s rest : List Char) :
    writeChars s ++ rest = '"' :: (s.flatMap escapeChar ++ '"' :: rest) := by
  simp [writeChars]

theorem readsBack_string (s : String) : ReadsBack readString (writeString s) s where
  begins := fun _ _ => ⟨'"', _, rfl, rfl, by decide⟩
  reads := by
    intro layout depth pre rest hpre
    rw [writeString, writeChars_append, readString, skipSpace_before hpre rfl]
    simp [readText_written, bind, Except.bind, pure, Except.pure]

/-- A string where none need be. -/
theorem readsBack_optional (s : String) :
    ReadsBack (readOptional readString) (writeString s) (some s) where
  begins := (readsBack_string s).begins
  reads := by
    intro layout depth pre rest hpre
    have h := (readsBack_string s).read layout depth rest
    rw [writeString, writeChars_append] at h ⊢
    rw [readOptional, skipSpace_before hpre rfl]
    simp [h, bind, Except.bind, pure, Except.pure]

theorem readsBack_boolean (b : Bool) : ReadsBack readBoolean (writeBoolean b) b where
  begins := by
    intro layout depth
    cases b with
    | true => exact ⟨'t', _, rfl, rfl, by decide⟩
    | false => exact ⟨'f', _, rfl, rfl, by decide⟩
  reads := by
    intro layout depth pre rest hpre
    cases b with
    | true =>
      show readBoolean (pre ++ 't' :: 'r' :: 'u' :: 'e' :: rest) = _
      rw [readBoolean, skipSpace_before hpre rfl]
      rfl
    | false =>
      show readBoolean (pre ++ 'f' :: 'a' :: 'l' :: 's' :: 'e' :: rest) = _
      rw [readBoolean, skipSpace_before hpre rfl]
      rfl

/-- A string that nobody wants. -/
theorem passedOver_string (s : String) : PassedOver (writeString s) := by
  intro layout depth pre rest hpre
  have hstart : skipStart (pre ++ (writeString s layout depth ++ rest)) = .ok (none, rest) := by
    rw [writeString, writeChars_append, skipStart, skipSpace_before hpre rfl]
    simp [skipText_written, bind, Except.bind, pure, Except.pure]
  rw [skipValue, skipWithin, hstart]
  rfl

/-! ## Elements -/

/-- The elements behind the first one, with a comma before each. -/
def writeMore (layout : Layout) (depth : Nat) : List Writer → List Char
  | [] => []
  | ws => ',' :: writeElements layout depth ws

theorem writeElements_cons (layout : Layout) (depth : Nat) (w : Writer) (ws : List Writer) :
    writeElements layout depth (w :: ws) =
      breakLine layout depth ++ (w layout depth ++ writeMore layout depth ws) := by
  cases ws with
  | nil => rw [writeElements, writeMore, List.append_nil]
  | cons w' ws => simp [writeElements, writeMore]

theorem writeMore_cons (layout : Layout) (depth : Nat) (w : Writer) (ws : List Writer) :
    writeMore layout depth (w :: ws) =
      ',' :: (breakLine layout depth ++ (w layout depth ++ writeMore layout depth ws)) := by
  rw [← writeElements_cons]
  rfl

/-- Each element takes a character at least. -/
theorem length_le_writeMore (layout : Layout) (depth : Nat) (ws : List Writer) :
    ws.length ≤ (writeMore layout depth ws).length := by
  induction ws with
  | nil => exact Nat.zero_le _
  | cons w ws ih =>
    rw [writeMore_cons]
    simp only [List.length_cons, List.length_append]
    omega

theorem writeBrackets_nil (left right : Char) (layout : Layout) (depth : Nat) (rest : List Char) :
    writeBrackets left right [] layout depth ++ rest = left :: right :: rest :=
  rfl

theorem writeBrackets_cons (left right : Char) (w : Writer) (ws : List Writer) (layout : Layout)
    (depth : Nat) (rest : List Char) :
    writeBrackets left right (w :: ws) layout depth ++ rest =
      left :: (breakLine layout (depth + 1) ++ (w layout (depth + 1) ++
        (writeMore layout (depth + 1) ws ++ (breakLine layout depth ++ right :: rest)))) := by
  rw [writeBrackets, writeElements_cons]
  · simp
  · exact nofun

/-! ## Lists -/

theorem nextElement_close {pre : List Char} (hpre : ∀ c ∈ pre, isSpace c = true) (first : Bool)
    (rest : List Char) : nextElement first (pre ++ ']' :: rest) = .ok none := by
  rw [nextElement, skipSpace_before hpre rfl]
  rfl

theorem nextElement_first {pre : List Char} (hpre : ∀ c ∈ pre, isSpace c = true)
    {text : List Char} (h : BeginsValue text) :
    nextElement true (pre ++ text) = .ok (some text) := by
  obtain ⟨c, cs, rfl, hc, hclose⟩ := h
  rw [nextElement, skipSpace_before hpre hc]
  simp [hclose]

theorem nextElement_comma {pre : List Char} (hpre : ∀ c ∈ pre, isSpace c = true)
    {text : List Char} (h : BeginsValue text) :
    nextElement false (',' :: (pre ++ text)) = .ok (some text) := by
  obtain ⟨c, cs, rfl, hc, hclose⟩ := h
  rw [nextElement, skipSpace_cons rfl]
  simp [skipSpace_before hpre hc, hclose]

theorem skipClosing_before {pre : List Char} (hpre : ∀ c ∈ pre, isSpace c = true) {c : Char}
    (hc : isSpace c = false) (rest : List Char) : skipClosing c (pre ++ c :: rest) = rest := by
  rw [skipClosing, skipSpace_before hpre hc]
  simp

variable {read : Reader α}

/-- One element and those behind it. -/
theorem readElements_step {fuel : Nat} {first : Bool} {cs r r' rest : List Char} {v : α}
    {vs : List α} (hnext : nextElement first cs = .ok (some r)) (hread : read r = .ok (v, r'))
    (hmore : readElements read fuel false r' = .ok (vs, rest)) :
    readElements read (fuel + 1) first cs = .ok (v :: vs, rest) := by
  simp [readElements, hnext, hread, hmore, bind, Except.bind, pure, Except.pure]

/-- The closing bracket. -/
theorem readElements_close {pre : List Char} (hpre : ∀ c ∈ pre, isSpace c = true) (fuel : Nat)
    (first : Bool) (rest : List Char) :
    readElements read (fuel + 1) first (pre ++ ']' :: rest) = .ok ([], rest) := by
  rw [readElements, nextElement_close hpre]
  show Except.ok ([], skipClosing ']' (pre ++ ']' :: rest)) = _
  rw [skipClosing_before hpre rfl]

/-- The elements behind the first one, by induction on them. -/
theorem readElements_more {ws : List Writer} {vs : List α}
    (h : List.Forall₂ (ReadsBack read) ws vs) (layout : Layout) (depth : Nat) {fuel : Nat}
    (hfuel : ws.length < fuel) {pre : List Char} (hpre : ∀ c ∈ pre, isSpace c = true)
    (rest : List Char) :
    readElements read fuel false (writeMore layout depth ws ++ (pre ++ ']' :: rest)) =
      .ok (vs, rest) := by
  induction h generalizing fuel with
  | nil =>
    obtain ⟨fuel, rfl⟩ := Nat.exists_eq_add_of_lt hfuel
    exact readElements_close hpre _ false rest
  | @cons w v ws vs hw _ ih =>
    rw [List.length_cons] at hfuel
    obtain ⟨fuel, rfl⟩ := Nat.exists_eq_add_of_lt hfuel
    rw [writeMore_cons, List.cons_append, List.append_assoc, List.append_assoc]
    exact readElements_step
      (nextElement_comma (isSpace_breakLine layout depth) ((hw.begins layout depth).append _))
      (hw.read layout depth _) (ih (by omega))

/-- **A written list** is read back if its elements are. -/
theorem readsBack_list {ws : List Writer} {vs : List α}
    (h : List.Forall₂ (ReadsBack read) ws vs) :
    ReadsBack (readList read) (writeList ws) vs where
  begins := by
    intro layout depth
    cases ws with
    | nil => exact ⟨'[', _, rfl, rfl, by decide⟩
    | cons w ws => exact ⟨'[', _, rfl, rfl, by decide⟩
  reads := by
    intro layout depth pre rest hpre
    rw [writeList]
    cases h with
    | nil =>
      rw [writeBrackets_nil, readList, skipSpace_before hpre rfl]
      exact readElements_close (fun c hc => absurd hc List.not_mem_nil) _ true rest
    | @cons w v ws vs hw hws =>
      rw [writeBrackets_cons, readList, skipSpace_before hpre rfl]
      refine readElements_step
        (nextElement_first (isSpace_breakLine layout _) ((hw.begins layout _).append _))
        (hw.read layout _ _)
        (readElements_more hws layout _ ?_ (isSpace_breakLine layout depth) rest)
      have hlength := length_le_writeMore layout (depth + 1) ws
      simp only [List.length_append, List.length_cons]
      omega

/-! ## Maps -/

/-- The blanks between a colon and its value. -/
def gap (layout : Layout) : List Char := if layout = .indented then [' '] else []

theorem isSpace_gap (layout : Layout) : ∀ c ∈ gap layout, isSpace c = true := by
  cases layout with
  | compact => exact fun c hc => absurd hc List.not_mem_nil
  | indented =>
    intro c hc
    rw [List.mem_singleton.mp hc]
    rfl

theorem writeEntry_append (key : String) (w : Writer) (layout : Layout) (depth : Nat)
    (rest : List Char) :
    writeEntry key w layout depth ++ rest =
      '"' :: (key.toList.flatMap escapeChar ++
        '"' :: ':' :: (gap layout ++ (w layout depth ++ rest))) := by
  simp [writeEntry, writeChars, gap]

theorem nextKey_close {pre : List Char} (hpre : ∀ c ∈ pre, isSpace c = true) (first : Bool)
    (rest : List Char) : nextKey first (pre ++ '\x7d' :: rest) = .ok none := by
  rw [nextKey, skipSpace_before hpre rfl]
  rfl

/-- The key of the first entry. -/
theorem nextKey_first {pre : List Char} (hpre : ∀ c ∈ pre, isSpace c = true) (key : String)
    (w : Writer) (layout : Layout) (depth : Nat) (rest : List Char) :
    nextKey true (pre ++ (writeEntry key w layout depth ++ rest)) =
      .ok (some (key, ':' :: (gap layout ++ (w layout depth ++ rest)))) := by
  rw [writeEntry_append, nextKey, skipSpace_before hpre rfl]
  simp [readText_written, bind, Except.bind, pure, Except.pure]

/-- The key of another entry, behind its comma. -/
theorem nextKey_comma {pre : List Char} (hpre : ∀ c ∈ pre, isSpace c = true) (key : String)
    (w : Writer) (layout : Layout) (depth : Nat) (rest : List Char) :
    nextKey false (',' :: (pre ++ (writeEntry key w layout depth ++ rest))) =
      .ok (some (key, ':' :: (gap layout ++ (w layout depth ++ rest)))) := by
  rw [writeEntry_append, nextKey, skipSpace_cons rfl]
  simp [skipSpace_before hpre (c := '"') rfl, readText_written, bind, Except.bind, pure,
    Except.pure]

/-- One entry and those behind it. -/
theorem readEntries_step {fuel : Nat} {first : Bool} {cs r r' rest : List Char} {key : String}
    {v : α} {es : List (String × α)} (hnext : nextKey first cs = .ok (some (key, ':' :: r)))
    (hread : read r = .ok (v, r')) (hmore : readEntries read fuel false r' = .ok (es, rest)) :
    readEntries read (fuel + 1) first cs = .ok ((key, v) :: es, rest) := by
  have hcolon : skipColon (':' :: r) = .ok r := rfl
  simp [readEntries, hnext, hcolon, hread, hmore, bind, Except.bind, pure, Except.pure]

/-- The closing bracket. -/
theorem readEntries_close {pre : List Char} (hpre : ∀ c ∈ pre, isSpace c = true) (fuel : Nat)
    (first : Bool) (rest : List Char) :
    readEntries read (fuel + 1) first (pre ++ '\x7d' :: rest) = .ok ([], rest) := by
  rw [readEntries, nextKey_close hpre]
  show Except.ok ([], skipClosing '\x7d' (pre ++ '\x7d' :: rest)) = _
  rw [skipClosing_before hpre rfl]

/-- An entry that is written is read back under its key. -/
def EntryReadsBack (read : Reader α) (written : String × Writer) (entry : String × α) : Prop :=
  written.1 = entry.1 ∧ ReadsBack read written.2 entry.2

/-- The entries behind the first one, by induction on them. -/
theorem readEntries_more {ws : List (String × Writer)} {es : List (String × α)}
    (h : List.Forall₂ (EntryReadsBack read) ws es) (layout : Layout) (depth : Nat) {fuel : Nat}
    (hfuel : ws.length < fuel) {pre : List Char} (hpre : ∀ c ∈ pre, isSpace c = true)
    (rest : List Char) :
    readEntries read fuel false
        (writeMore layout depth (ws.map fun e => writeEntry e.1 e.2) ++ (pre ++ '\x7d' :: rest)) =
      .ok (es, rest) := by
  induction h generalizing fuel with
  | nil =>
    obtain ⟨fuel, rfl⟩ := Nat.exists_eq_add_of_lt hfuel
    exact readEntries_close hpre _ false rest
  | @cons w e ws es hw _ ih =>
    obtain ⟨key, w⟩ := w
    obtain ⟨_, v⟩ := e
    obtain ⟨rfl, hw⟩ := hw
    rw [List.length_cons] at hfuel
    obtain ⟨fuel, rfl⟩ := Nat.exists_eq_add_of_lt hfuel
    rw [List.map_cons, writeMore_cons, List.cons_append, List.append_assoc, List.append_assoc]
    exact readEntries_step (nextKey_comma (isSpace_breakLine layout depth) key w layout depth _)
      (hw.reads layout depth _ _ (isSpace_gap layout)) (ih (by omega))

theorem beginsValue_object (entries : List (String × Writer)) (layout : Layout) (depth : Nat) :
    BeginsValue (writeObject entries layout depth) := by
  cases entries with
  | nil => exact ⟨'\x7b', _, rfl, rfl, by decide⟩
  | cons e entries => exact ⟨'\x7b', _, rfl, rfl, by decide⟩

/-- **A written map** is read back if its entries are. -/
theorem readsBack_map {ws : List (String × Writer)} {m : OrderedMap String α}
    (h : List.Forall₂ (EntryReadsBack read) ws m.entries) :
    ReadsBack (readMap read) (writeObject ws) m where
  begins := beginsValue_object ws
  reads := by
    intro layout depth pre rest hpre
    have hmap : OrderedMap.ofList m.entries = m := OrderedMap.empty_override m
    obtain ⟨es, hes⟩ : ∃ es, m.entries = es := ⟨_, rfl⟩
    rw [hes] at h hmap
    suffices hentries : ∃ cs, writeObject ws layout depth ++ rest = '\x7b' :: cs ∧
        readEntries read (cs.length + 1) true cs = .ok (es, rest) by
      obtain ⟨cs, hcs, hread⟩ := hentries
      rw [hcs, readMap, skipSpace_before hpre rfl]
      simp [hread, hmap, bind, Except.bind, pure, Except.pure]
    rw [writeObject]
    cases h with
    | nil =>
      refine ⟨_, writeBrackets_nil _ _ layout depth rest, ?_⟩
      exact readEntries_close (fun c hc => absurd hc List.not_mem_nil) _ true rest
    | @cons w e ws es hw hws =>
      obtain ⟨key, w⟩ := w
      obtain ⟨_, v⟩ := e
      obtain ⟨rfl, hw⟩ := hw
      refine ⟨_, writeBrackets_cons _ _ _ _ layout depth rest, ?_⟩
      refine readEntries_step (nextKey_first (isSpace_breakLine layout _) key w layout _ _)
        (hw.reads layout _ _ _ (isSpace_gap layout))
        (readEntries_more hws layout _ ?_ (isSpace_breakLine layout depth) rest)
      have hlength := length_le_writeMore layout (depth + 1) (ws.map fun e => writeEntry e.1 e.2)
      simp only [List.length_map, List.length_append, List.length_cons] at hlength ⊢
      omega

/-! ## Records -/

/-- Reading the fields of `ws` one after the other takes one draft to another.  Fields that the
    reader does not know are passed over. -/
inductive Fills (fields : List (Field δ)) : δ → List (String × Writer) → δ → Prop
  | done {draft : δ} : Fills fields draft [] draft
  | known {draft draft' last : δ} {key : String} {w : Writer} {ws : List (String × Writer)}
      {f : Field δ} (hf : fields.find? (fun f => f.name = key) = some f)
      (hnew : f.given draft = false) (hw : ReadsBack (f.read draft) w draft')
      (more : Fills fields draft' ws last) : Fills fields draft ((key, w) :: ws) last
  | unknown {draft last : δ} {key : String} {w : Writer} {ws : List (String × Writer)}
      (hf : fields.find? (fun f => f.name = key) = none) (hw : PassedOver w)
      (more : Fills fields draft ws last) : Fills fields draft ((key, w) :: ws) last

variable {fields : List (Field δ)}

theorem readFields_known {fuel : Nat} {first : Bool} {cs r r' rest : List Char} {key : String}
    {f : Field δ} {draft draft' last : δ}
    (hnext : nextKey first cs = .ok (some (key, ':' :: r)))
    (hf : fields.find? (fun f => f.name = key) = some f) (hnew : f.given draft = false)
    (hread : f.read draft r = .ok (draft', r'))
    (hmore : readFields fields fuel false draft' r' = .ok (last, rest)) :
    readFields fields (fuel + 1) first draft cs = .ok (last, rest) := by
  have hcolon : skipColon (':' :: r) = .ok r := rfl
  simp [readFields, hnext, hf, hnew, hcolon, hread, hmore, bind, Except.bind]

theorem readFields_unknown {fuel : Nat} {first : Bool} {cs r r' rest : List Char} {key : String}
    {draft last : δ} (hnext : nextKey first cs = .ok (some (key, ':' :: r)))
    (hf : fields.find? (fun f => f.name = key) = none) (hskip : skipValue r = .ok r')
    (hmore : readFields fields fuel false draft r' = .ok (last, rest)) :
    readFields fields (fuel + 1) first draft cs = .ok (last, rest) := by
  have hcolon : skipColon (':' :: r) = .ok r := rfl
  simp [readFields, hnext, hf, hcolon, hskip, hmore, bind, Except.bind]

/-- The closing bracket is left to the record. -/
theorem readFields_close {pre : List Char} (hpre : ∀ c ∈ pre, isSpace c = true) (fuel : Nat)
    (first : Bool) (draft : δ) (rest : List Char) :
    readFields fields (fuel + 1) first draft (pre ++ '\x7d' :: rest) =
      .ok (draft, pre ++ '\x7d' :: rest) := by
  rw [readFields, nextKey_close hpre]
  rfl

/-- The fields behind the first one, by induction on them. -/
theorem readFields_more {ws : List (String × Writer)} {draft last : δ}
    (h : Fills fields draft ws last) (layout : Layout) (depth : Nat) {fuel : Nat}
    (hfuel : ws.length < fuel) {pre : List Char} (hpre : ∀ c ∈ pre, isSpace c = true)
    (rest : List Char) :
    readFields fields fuel false draft
        (writeMore layout depth (ws.map fun e => writeEntry e.1 e.2) ++ (pre ++ '\x7d' :: rest)) =
      .ok (last, pre ++ '\x7d' :: rest) := by
  induction h generalizing fuel with
  | done =>
    obtain ⟨fuel, rfl⟩ := Nat.exists_eq_add_of_lt hfuel
    exact readFields_close hpre _ false _ rest
  | @known draft draft' last key w ws f hf hnew hw _ ih =>
    rw [List.length_cons] at hfuel
    obtain ⟨fuel, rfl⟩ := Nat.exists_eq_add_of_lt hfuel
    rw [List.map_cons, writeMore_cons, List.cons_append, List.append_assoc, List.append_assoc]
    exact readFields_known (nextKey_comma (isSpace_breakLine layout depth) key w layout depth _)
      hf hnew (hw.reads layout depth _ _ (isSpace_gap layout)) (ih (by omega))
  | @unknown draft last key w ws hf hw _ ih =>
    rw [List.length_cons] at hfuel
    obtain ⟨fuel, rfl⟩ := Nat.exists_eq_add_of_lt hfuel
    rw [List.map_cons, writeMore_cons, List.cons_append, List.append_assoc, List.append_assoc]
    exact readFields_unknown (nextKey_comma (isSpace_breakLine layout depth) key w layout depth _)
      hf (hw layout depth _ _ (isSpace_gap layout)) (ih (by omega))

/-- All fields of an object. -/
theorem readFields_written {ws : List (String × Writer)} {draft last : δ}
    (h : Fills fields draft ws last) (layout : Layout) (depth : Nat) (rest : List Char) :
    ∃ cs pre, writeObject ws layout depth ++ rest = '\x7b' :: cs ∧
      (∀ c ∈ pre, isSpace c = true) ∧
      readFields fields (cs.length + 1) true draft cs = .ok (last, pre ++ '\x7d' :: rest) := by
  rw [writeObject]
  have hblank := isSpace_breakLine layout depth
  have hfirst := isSpace_breakLine layout (depth + 1)
  have hlength (ws : List (String × Writer)) :=
    length_le_writeMore layout (depth + 1) (ws.map fun e => writeEntry e.1 e.2)
  simp only [List.length_map] at hlength
  cases h with
  | done =>
    refine ⟨_, [], writeBrackets_nil _ _ layout depth rest, fun c hc => absurd hc List.not_mem_nil,
      ?_⟩
    exact readFields_close (fun c hc => absurd hc List.not_mem_nil) _ true _ rest
  | @known _ draft' _ key w ws f hf hnew hw more =>
    refine ⟨_, _, writeBrackets_cons _ _ _ _ layout depth rest, hblank, ?_⟩
    refine readFields_known (nextKey_first hfirst key w layout _ _) hf hnew
      (hw.reads layout _ _ _ (isSpace_gap layout)) (readFields_more more layout _ ?_ hblank rest)
    have := hlength ws
    simp only [List.length_append, List.length_cons]
    omega
  | @unknown _ _ key w ws hf hw more =>
    refine ⟨_, _, writeBrackets_cons _ _ _ _ layout depth rest, hblank, ?_⟩
    refine readFields_unknown (nextKey_first hfirst key w layout _ _) hf
      (hw layout _ _ _ (isSpace_gap layout)) (readFields_more more layout _ ?_ hblank rest)
    have := hlength ws
    simp only [List.length_append, List.length_cons]
    omega

/-- **A written record** is read back if its fields fill the draft of one. -/
theorem readsBack_record {name : String} {ws : List (String × Writer)} {draft : δ}
    {finish : Form → δ → Except Fault α} {v : α} (last : δ) (h : Fills fields draft ws last)
    (hfinish : finish .object last = .ok v) :
    ReadsBack (readRecord name fields draft finish) (writeObject ws) v where
  begins := beginsValue_object ws
  reads := by
    intro layout depth pre rest hpre
    obtain ⟨cs, pre', hcs, hpre', hread⟩ := readFields_written h layout depth rest
    rw [hcs, readRecord, skipSpace_before hpre rfl]
    simp [hread, skipClosing_before hpre' (c := '\x7d') rfl, hfinish, bind, Except.bind, pure,
      Except.pure]

theorem ReadsBack.map {read : Reader α} {write : Writer} {v : α} (h : ReadsBack read write v)
    (f : α → β) :
    ReadsBack (fun cs => do let (v, r) ← read cs; return (f v, r)) write (f v) where
  begins := h.begins
  reads := by
    intro layout depth pre rest hpre
    simp [h.reads layout depth pre rest hpre, bind, Except.bind, pure, Except.pure]

/-- A field that holds what a reader read. -/
theorem Fills.set {read : Reader α} {w : Writer} {v : α} (h : ReadsBack read w v) (put : α → δ)
    {draft last : δ} {key : String} {ws : List (String × Writer)} {f : Field δ}
    (hf : fields.find? (fun f => f.name = key) = some f) (hnew : f.given draft = false)
    (hread : f.read draft = fun cs => do let (v, r) ← read cs; return (put v, r))
    (more : Fills fields (put v) ws last) : Fills fields draft ((key, w) :: ws) last :=
  .known hf hnew (hread ▸ h.map put) more

end RunnerCatalog.Json
