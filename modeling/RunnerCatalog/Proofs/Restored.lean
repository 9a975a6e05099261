/-
  Settings that were saved are loaded again.

  1. **Fields** - the events of a list of different settings are read as these settings, by
     induction on the list (`readPairs_written`).

  2. **Texts** - the text of settings is a mapping of three of them, so it gives them back
     (`ofText_written`).

  3. **Files** - what was saved is in the file that is loaded, whatever was there
     (`load_of_save`).
-/
import RunnerCatalog.Proofs.Filed
import RunnerCatalog.Proofs.WrittenMapping
import RunnerCatalog.Settings.File

namespace RunnerCatalog

/-- Trimming leaves something of a text that is not blank. -/
theorem Text.trim_ne_nil {c : Char} {cs : List Char} (hc : c ∈ cs) (h : isBlank c = false) :
    trim cs ≠ [] := by
  have hkept : ∀ ds : List Char, c ∈ ds → c ∈ ds.dropWhile isBlank := by
    intro ds hds
    rw [← List.takeWhile_append_dropWhile (p := isBlank) (l := ds)] at hds
    refine (List.mem_append.mp hds).resolve_left fun hblank => ?_
    rw [List.mem_takeWhile_imp hblank] at h
    cases h
  refine List.ne_nil_of_mem (a := c) ?_
  rw [trim, trimEnd, List.mem_reverse]
  exact hkept _ (List.mem_reverse.mpr (hkept cs hc))

namespace Settings

/-! ## Fields -/

theorem Field.isKey (f : Field) : Yaml.Scan.IsKey f.key.toList := by
  cases f
  all_goals exact ⟨by decide, List.all_eq_true.mp (by decide), by decide⟩

theorem Field.ofKey?_key (f : Field) : Field.ofKey? f.key.toList = some f := by
  cases f
  all_goals decide

/-- The pair that is written for a setting. -/
def writtenPair (given : Field × String) : List Char × List Char :=
  (given.1.key.toList, given.2.toList)

/-- A round that reads a setting which was not given yet. -/
theorem readPairs_setting (r : Yaml.Reading) (start p q : Yaml.Place) {f : Field}
    (text : List Char) (plain : Bool) {given : List (Field × String)}
    (h : given.lookup f = none) (es : List (Yaml.Placed Yaml.Event)) (fuel : Nat) :
    readPairs r start (fuel + 1) given
        (⟨.scalar f.key.toList true, p⟩ :: ⟨.scalar text plain, q⟩ :: es) =
      readPairs r start fuel ((f, String.ofList text) :: given) es := by
  rw [readPairs]
  simp only [textAt, reduceCtorEq, if_false, bind, Except.bind, Field.ofKey?_key, h,
    Option.isSome_none, Bool.false_eq_true]

/-- **Different settings** are read from their events. -/
theorem readPairs_written (r : Yaml.Reading) (start : Yaml.Place) {settings : List (Field × String)}
    (hdifferent : (settings.map Prod.fst).Nodup) {given : List (Field × String)}
    (hnew : ∀ f ∈ settings.map Prod.fst, given.lookup f = none)
    {es : List (Yaml.Placed Yaml.Event)}
    (h : es.map Yaml.Placed.value =
      (settings.map writtenPair).flatMap Yaml.pairEvents ++ [.mappingEnd]) (fuel : Nat) :
    readPairs r start (fuel + 1 + settings.length) given es = .ok (settings.reverse ++ given) := by
  induction settings generalizing given es with
  | nil =>
    obtain ⟨⟨-, p⟩, rest, rfl, rfl, -⟩ := List.map_eq_cons_iff.mp h
    rfl
  | cons s settings ih =>
    simp only [List.map_cons, List.flatMap_cons, Yaml.pairEvents, List.cons_append, List.nil_append,
      List.map_eq_cons_iff] at h
    obtain ⟨⟨-, p⟩, -, rfl, rfl, ⟨-, q⟩, es, rfl, rfl, h⟩ := h
    obtain ⟨hother, hdifferent⟩ := List.nodup_cons.mp hdifferent
    have hmore : ∀ f ∈ settings.map Prod.fst, (s :: given).lookup f = none := by
      intro f hf
      have hne : (f == s.1) = false := beq_eq_false_iff_ne.mpr fun heq => hother (heq ▸ hf)
      rw [List.lookup_cons, hne]
      exact hnew f (List.mem_cons_of_mem _ hf)
    have hread := readPairs_setting r start p q s.2.toList (Yaml.Style.ofText s.2.toList = .plain)
      (hnew s.1 List.mem_cons_self) es (fuel + 1 + settings.length)
    rw [String.ofList_toList] at hread
    rw [List.length_cons, ← Nat.add_assoc, List.reverse_cons, List.append_assoc]
    exact hread.trans (ih hdifferent hmore h)

/-! ## Texts -/

/-- All settings with their values. -/
def fields (s : Settings) : List (Field × String) :=
  [(.defaultRunner, s.defaultRunner), (.schemaDir, s.schemaDir), (.languageId, s.languageId)]

theorem fields_nodup (s : Settings) : (s.fields.map Prod.fst).Nodup := by
  show [Field.defaultRunner, Field.schemaDir, Field.languageId].Nodup
  decide

theorem text_eq (s : Settings) :
    s.text.toList = Yaml.writeMapping (s.fields.map writtenPair) := String.toList_ofList

theorem readDocument_text (s : Settings) :
    readDocument (Yaml.Reading.ofText s.text.toList) = .ok s := by
  have hkeys : ∀ pair ∈ s.fields.map writtenPair, Yaml.Scan.IsKey pair.1 := by
    intro pair hpair
    obtain ⟨f, -, rfl⟩ := List.mem_map.mp hpair
    exact f.1.isKey
  have hne : s.fields.map writtenPair ≠ [] := List.cons_ne_nil _ _
  obtain ⟨es, hes, hvalues⟩ := Yaml.ofText_writeMapping hne hkeys
  obtain ⟨⟨-, start⟩, es, rfl, rfl, hpairs⟩ := List.map_eq_cons_iff.mp hvalues
  have hlength : es.length + 1 = 4 + 1 + s.fields.length := by
    rw [← List.length_map Yaml.Placed.value, hpairs]
    rfl
  have hread := readPairs_written ⟨⟨.mappingStart, start⟩ :: es, none⟩ start s.fields_nodup
    (fun _ _ => List.lookup_nil) hpairs 4
  rw [text_eq, hes, readDocument]
  simp only [hlength, hread]
  rfl

/-- **The text** of settings gives them. -/
theorem ofText_written (s : Settings) : ofText s.text = .ok s := by
  have hcolon : ':' ∈ s.text.toList := by
    rw [text_eq]
    exact List.mem_flatMap.mpr ⟨_, List.mem_cons_self, by simp [Yaml.writePair]⟩
  have hne : Text.trim s.text.toList ≠ [] := Text.trim_ne_nil hcolon (by decide)
  rw [ofText, if_neg hne, readDocument_text]

/-! ## Files -/

/-- **Settings that were saved** are loaded again, and nothing is wrong with them. -/
theorem load_of_save {s : Settings} {tree tree' : Files.Tree} {root : String}
    (h : s.save tree root = .ok tree') : load tree' root = (s, []) := by
  rw [save] at h
  split at h
  · cases h
  · next made hmade =>
    split at h
    · cases h
    · next written hwritten =>
      obtain rfl := Except.ok.inj h
      rw [load, Files.Tree.readText_writeFile hwritten]
      simp only [ofText_written]

/-- Settings that look like something else are loaded again. -/
theorem load_of_save_null : ∃ tree,
    save ⟨"null", " a: b\n\n # c\n", "'\u2028 x"⟩ Files.Tree.empty "ws" = .ok tree ∧
      load tree "ws" = (⟨"null", " a: b\n\n # c\n", "'\u2028 x"⟩, []) := by
  have hsaved : (save ⟨"null", " a: b\n\n # c\n", "'\u2028 x"⟩ Files.Tree.empty
      "ws").toOption.isSome = true := by decide +kernel
  cases hsave : save ⟨"null", " a: b\n\n # c\n", "'\u2028 x"⟩ Files.Tree.empty "ws" with
  | error e =>
    rw [hsave] at hsaved
    cases hsaved
  | ok tree => exact ⟨tree, rfl, load_of_save hsave⟩

end Settings

end RunnerCatalog
