/-
  How documents change, one at a time.

  An edit gives a document another text (`Edit`), a creation adds a document (`Creation`).  If no
  two names share a document (`Source.Distinct`), either one changes what the documents say about
  one name only.  Putting a text on a shelf is one or the other.
-/
import RunnerCatalog.Proofs.Ascent

namespace RunnerCatalog

/-! ## Sources -/

namespace Source

/-- No two names have the same document. -/
def Distinct (source : Source) : Prop :=
  ∀ a b d e, source.locate a = .ok (some d) → source.locate b = .ok (some e) → d.Same e → a = b

/-- What is said about a name depends on its document and on the text of that document alone. -/
theorem own?_congr {before after : Source} {id : String} (hl : after.locate id = before.locate id)
    (hr : ∀ d, before.locate id = .ok (some d) → after.read d = before.read d) :
    after.own? id = before.own? id := by
  unfold own?
  rw [hl]
  cases hd : before.locate id with
  | error failure => rfl
  | ok found =>
    cases found with
    | none => rfl
    | some d =>
      have hload : after.load id d = before.load id d := by rw [load, load, hr d hd]
      simp only [hload]

end Source

/-- The document `d` of `id` has another text `after` an edit; every other document has the text
    that it had. -/
structure Edit (before after : Source) (id : String) (d : DocumentId) : Prop where
  located : before.locate id = .ok (some d)
  locate : after.locate = before.locate
  read : ∀ e, ¬ e.Same d → after.read e = before.read e

/-- The document `d` of `id` is there `after` a creation, and was not before. -/
structure Creation (before after : Source) (id : String) (d : DocumentId) : Prop where
  absent : before.locate id = .ok none
  located : after.locate id = .ok (some d)
  locate : ∀ k, k ≠ id → after.locate k = before.locate k
  read : ∀ e, ¬ e.Same d → after.read e = before.read e

variable {before after : Source} {id : String} {d : DocumentId}

theorem Edit.own? (h : Edit before after id d) (hd : before.Distinct) {k : String} (hk : k ≠ id) :
    after.own? k = before.own? k := by
  refine Source.own?_congr (congrFun h.locate k) (fun e he => h.read e (fun hsame => hk ?_))
  exact hd k id e d he h.located hsame

theorem Creation.own? (h : Creation before after id d) (hd : after.Distinct) {k : String}
    (hk : k ≠ id) : after.own? k = before.own? k := by
  refine Source.own?_congr (h.locate k hk) (fun e he => h.read e (fun hsame => hk ?_))
  exact hd k id e d ((h.locate k hk).trans he) h.located hsame

/-! ## Shelves -/

namespace Shelf

theorem locate_source (shelf : Shelf) (hfail : shelf.failing = []) (id : String) :
    shelf.source.locate id = .ok ((shelf.documents.get? id).map fun _ => documentOf id) := by
  refine if_neg ?_
  rw [hfail]
  exact List.not_mem_nil

/-- Names have different documents if their paths differ in some component. -/
theorem distinct {shelf : Shelf} (hfail : shelf.failing = [])
    (h : ∀ a ∈ shelf.documents.keys, ∀ b ∈ shelf.documents.keys,
      (documentOf a).Same (documentOf b) → a = b) : shelf.source.Distinct := by
  have hlocated : ∀ a d, shelf.source.locate a = .ok (some d) →
      a ∈ shelf.documents.keys ∧ d = documentOf a := by
    intro a d hd
    rw [locate_source shelf hfail, Except.ok.injEq, Option.map_eq_some_iff] at hd
    obtain ⟨t, ht, rfl⟩ := hd
    exact ⟨OrderedMap.mem_keys_of_get? ht, rfl⟩
  intro a b d e ha hb hsame
  obtain ⟨hka, rfl⟩ := hlocated a d ha
  obtain ⟨hkb, rfl⟩ := hlocated b e hb
  exact h a hka b hkb hsame

/-- A text on the shelf can be read from its own document only. -/
theorem read_put (shelf : Shelf) (id text : String) {e : DocumentId}
    (he : ¬ e.Same (documentOf id)) : (shelf.put id text).source.read e = shelf.source.read e := by
  have hfind : ∀ l : List (String × String),
      ((putEntry id text l).find? fun x => (documentOf x.1).Same e).map Prod.snd =
        (l.find? fun x => (documentOf x.1).Same e).map Prod.snd := by
    have hid : ¬ (documentOf id).Same e := fun h => he h.symm
    intro l
    induction l with
    | nil => simp [putEntry, hid]
    | cons x rest ih =>
      by_cases hx : x.1 = id
      · subst hx
        simp [putEntry, hid]
      · rw [putEntry, if_neg hx, List.find?_cons, List.find?_cons]
        split
        · rfl
        · exact ih
  have htext : (shelf.put id text).text? e = shelf.text? e := hfind shelf.documents.entries
  show (shelf.put id text).read e = shelf.read e
  rw [read, read, htext]

/-- Putting another text in the place of one is an edit. -/
theorem edit_put {shelf : Shelf} (hfail : shelf.failing = []) {id : String} (text : String)
    (hid : id ∈ shelf.documents.keys) :
    Edit shelf.source (shelf.put id text).source id (documentOf id) where
  located := by
    obtain ⟨t, ht⟩ := Option.ne_none_iff_exists'.mp
      (fun hnone => OrderedMap.get?_eq_none_iff.mp hnone hid)
    rw [locate_source shelf hfail, ht]
    rfl
  locate := by
    funext k
    rw [locate_source shelf hfail, locate_source (shelf.put id text) hfail]
    show Except.ok (((shelf.documents.insert id text).get? k).map _) = _
    rw [OrderedMap.get?_insert]
    split
    · next hk =>
      obtain ⟨t, ht⟩ := Option.ne_none_iff_exists'.mp
        (fun hnone => OrderedMap.get?_eq_none_iff.mp hnone hid)
      rw [← hk, ht]
      rfl
    · rfl
  read := fun _ he => shelf.read_put id text he

/-- Putting a first text is a creation. -/
theorem creation_put {shelf : Shelf} (hfail : shelf.failing = []) {id : String} (text : String)
    (hid : id ∉ shelf.documents.keys) :
    Creation shelf.source (shelf.put id text).source id (documentOf id) where
  absent := by
    rw [locate_source shelf hfail, OrderedMap.get?_eq_none_iff.mpr hid]
    rfl
  located := by
    rw [locate_source (shelf.put id text) hfail]
    show Except.ok (((shelf.documents.insert id text).get? id).map _) = _
    rw [OrderedMap.get?_insert, if_pos rfl]
    rfl
  locate := by
    intro k hk
    rw [locate_source shelf hfail, locate_source (shelf.put id text) hfail]
    show Except.ok (((shelf.documents.insert id text).get? k).map _) = _
    rw [OrderedMap.get?_insert, if_neg (fun heq => hk heq.symm)]
  read := fun _ he => shelf.read_put id text he

end Shelf

end RunnerCatalog
