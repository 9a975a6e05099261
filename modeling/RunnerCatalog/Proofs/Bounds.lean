/-
  How far a load goes.

  A load goes from document to document, so how many runners may wait depends on how many documents
  there are; how often each of them is met depends on how many names it has.

  1. **Documents** - `Source.Documents` lists the documents of a source, each under one name.  What
     they extend are no more names than there are documents (`length_parents_le`).

  2. **Waiting runners** - each runner that waits, but the first one, is extended by the next one
     below it (`extended_below`).  So all names but one are extended by documents, and when a runner
     is rebuilt that extended something else before, all names but two.  With one name for each
     document the first one is enough to know (`Load.Sound.length_le_of_distinct`).

  3. **Turns** - so every turn ends within these bounds (`turn_ends`); two names for one document
     reach the larger one (`stack_outgrows_documents`).
-/
import RunnerCatalog.Proofs.Loads

namespace RunnerCatalog

/-! ## Documents -/

/-- The documents of a source: all that are found for some name, and others that count.  A list has
    each of them, if it can be read, under one name. -/
structure Source.Documents (source : Source) where
  has : DocumentId → Prop
  located : ∀ id d, source.locate id = .ok (some d) → has d
  list : List DocumentId
  /-- The name under which a document is listed. -/
  listed : DocumentId → DocumentId
  mem : ∀ d text, has d → source.read d = .ok text → listed d ∈ list
  read_listed : ∀ d text, has d → source.read d = .ok text → source.read (listed d) = .ok text

namespace Source

namespace Documents

variable {source : Source} (docs : source.Documents)

/-- No document is found for two runners. -/
def Distinct : Prop :=
  ∀ x y d e, source.locate x = .ok (some d) → source.locate y = .ok (some e) →
    docs.listed d = docs.listed e → x = y

/-- The names that the documents extend. -/
def parents : List String := docs.list.filterMap fun d => (source.read d).toOption.bind parentIn

theorem length_parents_le : docs.parents.length ≤ docs.list.length := List.length_filterMap_le _ _

theorem parent_mem {id parent : String} {d : DocumentId} {r : Runner} (hd : docs.has d)
    (h : source.load id d = .ok r) (hp : r.parent = some parent) : parent ∈ docs.parents := by
  obtain ⟨text, ht, hr⟩ := exists_text_of_load h
  obtain ⟨-, -, -, hparent⟩ := ofText_facts hr
  refine List.mem_filterMap.mpr ⟨docs.listed d, docs.mem d text hd ht, ?_⟩
  rw [docs.read_listed d text hd ht]
  exact hparent.trans hp

theorem parent_mem_of_own? {id parent : String} {r : Runner}
    (h : source.own? id = some r) (hp : r.parent = some parent) : parent ∈ docs.parents := by
  obtain ⟨d, hl, hload⟩ := load_of_own? h hp
  exact docs.parent_mem (docs.located id d hl) hload hp

end Documents

end Source

namespace Shelf

/-- A document that can be read is that of a runner on the shelf. -/
theorem find_of_read {shelf : Shelf} {d : DocumentId} {text : String}
    (h : shelf.read d = .ok text) :
    ∃ e ∈ shelf.documents.entries, (documentOf e.1).Same d ∧
      (shelf.documents.entries.find? fun e => (documentOf e.1).Same d) = some e := by
  unfold read at h
  split at h
  · next s hs =>
    obtain ⟨e, he, -⟩ := Option.map_eq_some_iff.mp hs
    exact ⟨e, List.mem_of_find?_eq_some he, by simpa using List.find?_some he, he⟩
  · cases h

/-- A document is read the same under all of its names. -/
theorem text?_congr (shelf : Shelf) {d e : DocumentId} (h : d.Same e) :
    shelf.text? d = shelf.text? e := by
  have hsame : (fun f : String × String => decide ((documentOf f.1).Same d)) =
      fun f => decide ((documentOf f.1).Same e) := by
    funext f
    exact decide_eq_decide.mpr ⟨fun hd => hd.trans h, fun he => he.trans h.symm⟩
  rw [text?, text?, hsame]

/-- The documents on a shelf, one for each runner. -/
def docs (shelf : Shelf) : shelf.source.Documents where
  has _ := True
  located _ _ _ := trivial
  list := shelf.documents.keys.map documentOf
  listed d :=
    match shelf.documents.entries.find? fun e => (documentOf e.1).Same d with
    | some e => documentOf e.1
    | none => d
  mem d text _ h := by
    obtain ⟨e, hmem, -, he⟩ := find_of_read h
    simp only [he]
    exact List.mem_map_of_mem (List.mem_map_of_mem hmem)
  read_listed d text _ h := by
    obtain ⟨e, -, hsame, he⟩ := find_of_read h
    simp only [he]
    replace h : shelf.read d = .ok text := h
    show shelf.read (documentOf e.1) = .ok text
    unfold read at h ⊢
    rw [shelf.text?_congr hsame]
    split at h
    · exact h
    · cases h

theorem same_listed (shelf : Shelf) (d : DocumentId) : (shelf.docs.listed d).Same d := by
  unfold docs
  dsimp only
  split
  · next e he => simpa using List.find?_some he
  · exact .refl d

/-- Runners whose documents are different have one name each. -/
theorem distinct_docs (shelf : Shelf)
    (h : ∀ x ∈ shelf.documents.keys, ∀ y ∈ shelf.documents.keys,
      (documentOf x).Same (documentOf y) → x = y) : shelf.docs.Distinct := by
  have hfound : ∀ x d, shelf.locate x = .ok (some d) →
      x ∈ shelf.documents.keys ∧ documentOf x = d := by
    intro x d hl
    unfold locate at hl
    split_ifs at hl
    obtain ⟨text, htext, hd⟩ := Option.map_eq_some_iff.mp (Except.ok.inj hl)
    exact ⟨OrderedMap.mem_keys_of_get? htext, hd⟩
  intro x y d e hx hy heq
  obtain ⟨hxkeys, rfl⟩ := hfound x d hx
  obtain ⟨hykeys, rfl⟩ := hfound y e hy
  exact h x hxkeys y hykeys ((shelf.same_listed _).symm.trans (heq ▸ shelf.same_listed _))

end Shelf

/-! ## Waiting runners -/

/-- In a stack, each runner above the first one is extended by the next one below it. -/
theorem extended_below {upper : List Runner} {r w : Runner}
    (hchain : (upper ++ [r]).IsChain Runner.ExtendedBy) (hw : w ∈ upper) :
    r.parent = some w.name ∨ ∃ b ∈ upper, b.parent = some w.name := by
  obtain ⟨pre, post, rfl⟩ := List.append_of_mem hw
  rw [List.append_assoc, List.cons_append] at hchain
  cases post with
  | nil => exact .inl (List.isChain_append_cons_cons.mp hchain).2.1
  | cons b rest =>
    exact .inr ⟨b, by simp, (List.isChain_append_cons_cons.mp hchain).2.1⟩

/-- Everybody on a stack extends somebody. -/
theorem Awaits.extends {stack : List Runner} {s : String} (h : Awaits stack s) {w : Runner}
    (hw : w ∈ stack) : ∃ parent, w.parent = some parent := by
  obtain ⟨pre, post, rfl⟩ := List.append_of_mem hw
  rcases List.eq_nil_or_concat pre with rfl | ⟨pre, u, rfl⟩
  · exact ⟨s, h.head w rfl⟩
  · have hchain := h.chain
    rw [List.concat_eq_append, List.append_assoc, List.singleton_append] at hchain
    exact ⟨u.name, (List.isChain_append_cons_cons.mp hchain).2.1⟩

/-- A document that is read again counts. -/
def Source.Documents.Cover {source : Source} (docs : source.Documents) (load : Load) : Prop :=
  ∀ id d, load.cause = .reread id d → docs.has d

/-- How many more runners may wait in a load than there are documents. -/
def Cause.spare : Cause → Nat
  | lookup _ => 1
  | reread _ _ => 1
  | rebuild _ => 2

namespace Load.Sound

variable {source : Source} {load : Load}

/-- The runners above the first one have different names. -/
theorem nodup_upper (h : load.Sound source) {upper : List Runner} {r : Runner}
    (hstack : load.stack = upper ++ [r]) : (upper.map Runner.name).Nodup := by
  obtain ⟨s, hawaits, -⟩ := h.sought
  have hnodup := hawaits.nodup
  rw [hstack, List.map_append] at hnodup
  exact (List.nodup_append.mp hnodup).1

/-- Unless a runner is rebuilt, a document says what the first runner extends. -/
theorem parent_mem (h : load.Sound source) (docs : source.Documents) (hdocs : docs.Cover load)
    {upper : List Runner} {r : Runner} (hstack : load.stack = upper ++ [r]) {parent : String}
    (hp : r.parent = some parent) : parent ∈ docs.parents ∨ load.cause.spare = 2 := by
  obtain ⟨hname, hbegins, -⟩ := h.began upper r hstack
  unfold BeginsWith at hbegins
  cases hcause : load.cause with
  | lookup id =>
    rw [hcause] at hbegins
    exact .inl (docs.parent_mem_of_own? hbegins.1 hp)
  | reread id d =>
    rw [hcause] at hbegins
    exact .inl (docs.parent_mem (hdocs id d hcause) hbegins hp)
  | rebuild id => exact .inr rfl

/-- **No more runners wait** than there are documents, and one; or two, if the load rebuilds a runner
    that was known. -/
theorem length_le (h : load.Sound source) (docs : source.Documents) (hdocs : docs.Cover load) :
    load.stack.length ≤ docs.list.length + load.cause.spare := by
  rcases List.eq_nil_or_concat load.stack with hnil | ⟨upper, r, hstack⟩
  · rw [hnil]
    exact Nat.zero_le _
  rw [List.concat_eq_append] at hstack
  obtain ⟨-, -, hown⟩ := h.began upper r hstack
  obtain ⟨s, hawaits, -⟩ := h.sought
  rw [hstack] at hawaits
  obtain ⟨parent, hp⟩ := hawaits.extends (List.mem_append_right _ (List.mem_singleton_self r))
  have hsub : upper.map Runner.name ⊆ parent :: docs.parents := by
    intro x hx
    obtain ⟨w, hw, rfl⟩ := List.mem_map.mp hx
    rcases extended_below hawaits.chain hw with hbelow | ⟨b, hb, hbelow⟩
    · exact Option.some.inj (hp.symm.trans hbelow) ▸ List.mem_cons_self
    · exact List.mem_cons_of_mem _ (docs.parent_mem_of_own? (hown b hb).1 hbelow)
  have hparents := docs.length_parents_le
  rw [hstack, List.length_append, List.length_singleton, ← List.length_map Runner.name]
  rcases h.parent_mem docs hdocs hstack hp with hmem | hspare
  · have hsub' := List.Subset.trans hsub (List.cons_subset.mpr ⟨hmem, List.Subset.refl _⟩)
    have hle := ((h.nodup_upper hstack).subperm hsub').length_le
    have hspare : 1 ≤ load.cause.spare := by
      unfold Cause.spare
      split <;> omega
    omega
  · have hle := ((h.nodup_upper hstack).subperm hsub).length_le
    rw [List.length_cons] at hle
    omega

/-- **With one name for each document**, no more runners wait than there are documents, and one: each
    but the first one was loaded from a document of its own. -/
theorem length_le_of_distinct (h : load.Sound source) (docs : source.Documents)
    (hd : docs.Distinct) : load.stack.length ≤ docs.list.length + 1 := by
  rcases List.eq_nil_or_concat load.stack with hnil | ⟨upper, r, hstack⟩
  · rw [hnil]
    exact Nat.zero_le _
  rw [List.concat_eq_append] at hstack
  obtain ⟨-, -, hown⟩ := h.began upper r hstack
  obtain ⟨s, hawaits, -⟩ := h.sought
  have hfound : ∀ w ∈ upper, ∃ d,
      source.locate w.name = .ok (some d) ∧ docs.listed d ∈ docs.list := by
    intro w hw
    obtain ⟨parent, hp⟩ := hawaits.extends (hstack ▸ List.mem_append_left _ hw)
    obtain ⟨d, hl, hload⟩ := Source.load_of_own? (hown w hw).1 hp
    obtain ⟨text, htext, -⟩ := Source.exists_text_of_load hload
    exact ⟨d, hl, docs.mem d text (docs.located w.name d hl) htext⟩
  have : Nonempty DocumentId := ⟨⟨""⟩⟩
  choose! document hlocated hlisted using hfound
  have hnodup : (upper.map fun w => docs.listed (document w)).Nodup := by
    refine List.Nodup.map_on (fun w hw v hv heq => ?_) (List.Nodup.of_map _ (h.nodup_upper hstack))
    have hname := hd _ _ _ _ (hlocated w hw) (hlocated v hv) heq
    exact List.inj_on_of_nodup_map (h.nodup_upper hstack) hw hv hname
  have hle := (hnodup.subperm fun d hd => by
    obtain ⟨w, hw, rfl⟩ := List.mem_map.mp hd
    exact hlisted w hw).length_le
  rw [List.length_map] at hle
  rw [hstack, List.length_append, List.length_singleton]
  omega

end Load.Sound

/-! ## Turns -/

/-- **Every turn ends**, whatever was asked before and whatever the documents were then, also where
    cached links form cycles.  However it ends, no refresh takes up a name twice; and in each of its
    loads no name waits twice, and no more runners wait than there are documents, and one - or two,
    if the load rebuilds a known runner while some document is found for two names. -/
theorem turn_ends (turns : List Turn) (turn : Turn) :
    (∃ loads takes, Turn.Ends turn.source turn.order (Cache.after turns) turn.request
      (turn.apply (Cache.after turns)) (turn.trace (Cache.after turns)) loads takes) ∧
    ∀ after trace loads takes,
      Turn.Ends turn.source turn.order (Cache.after turns) turn.request after trace loads takes →
      (∀ taken ∈ takes, taken.Nodup) ∧
      ∀ load ∈ loads, (chainOf load.stack).Nodup ∧ ∀ docs : turn.source.Documents,
        (docs.Cover load → (chainOf load.stack).length ≤ docs.list.length + load.cause.spare) ∧
        (docs.Distinct → (chainOf load.stack).length ≤ docs.list.length + 1) := by
  refine ⟨exists_ends turn (Cache.filed_after turns), fun after trace loads takes hends => ?_⟩
  refine ⟨hends.nodup, fun load hload => ?_⟩
  have hsound := hends.recorded.sound load hload
  obtain ⟨s, hawaits, -⟩ := hsound.sought
  refine ⟨List.nodup_reverse.mpr hawaits.nodup, fun docs => ?_⟩
  rw [chainOf, List.length_reverse, List.length_map]
  exact ⟨hsound.length_le docs, hsound.length_le_of_distinct docs⟩

/-- `r` and `q` extend each other, and each has a document of its own. -/
theorem turn_ends_cycle :
    let shelf : Shelf := ⟨OrderedMap.ofList [
      ("r", "\x7b\"extends\": \"q\"\x7d"), ("q", "\x7b\"extends\": \"r\"\x7d")], []⟩
    shelf.docs.Distinct ∧ ∃ after trace loads takes,
      Turn.Ends shelf.source .arrival OrderedMap.empty (.resolve "r") after trace loads takes ∧
      ∀ load ∈ loads, shelf.docs.Cover load ∧
        (chainOf load.stack).length ≤ 2 + load.cause.spare ∧ (chainOf load.stack).length ≤ 3 := by
  intro shelf
  have hdistinct : shelf.docs.Distinct := shelf.distinct_docs (by decide +kernel)
  obtain ⟨⟨loads, takes, hends⟩, hbounds⟩ := turn_ends [] ⟨.resolve "r", shelf.source, .arrival⟩
  refine ⟨hdistinct, _, _, loads, takes, hends, fun load hload => ?_⟩
  obtain ⟨hspare, hsingle⟩ := ((hbounds _ _ loads takes hends).2 load hload).2 shelf.docs
  have hcover : shelf.docs.Cover load := fun _ _ _ => trivial
  exact ⟨hcover, hspare hcover, hsingle hdistinct⟩

/-- A workspace whose directory of schemas has some files. -/
def schemaFiles (files : List (String × String)) : Source :=
  Workspace.source ⟨"ws", ".catscript/schemas", []⟩
    (files.foldl (fun tree f => tree.put ["ws", ".catscript", "schemas"] f.1 (.file f.2.toUTF8))
      (((Files.Tree.empty.put [] "ws" .directory).put ["ws"] ".catscript" .directory).put
        ["ws", ".catscript"] "schemas" .directory))

/-- Two files that extend each other; each names the other one as it is not listed. -/
def crossed : Source :=
  schemaFiles [("r.json", "\x7b\"extends\": \"./q\"\x7d"),
    ("q.json", "\x7b\"extends\": \"./r\"\x7d")]

/-- The two files; what can be read has the text of one or the other. -/
def crossedDocuments : crossed.Documents where
  has _ := True
  located _ _ _ := trivial
  list := [⟨"ws/.catscript/schemas/r.json"⟩, ⟨"ws/.catscript/schemas/q.json"⟩]
  listed d :=
    if crossed.read d = crossed.read ⟨"ws/.catscript/schemas/r.json"⟩ then
      ⟨"ws/.catscript/schemas/r.json"⟩
    else ⟨"ws/.catscript/schemas/q.json"⟩
  mem d text _ h := by
    split
    · exact List.mem_cons_self
    · exact List.mem_cons_of_mem _ List.mem_cons_self
  read_listed d text _ h := by
    split
    · next hr => rw [← hr, h]
    · next hr =>
      have htexts : crossed.texts =
          ["\x7b\"extends\": \"./q\"\x7d", "\x7b\"extends\": \"./r\"\x7d"] := by
        decide +kernel
      have hmem := crossed.mem_texts d text h
      rw [htexts, List.mem_pair] at hmem
      rcases hmem with rfl | rfl
      · exact absurd (h.trans (by decide +kernel)) hr
      · decide +kernel

/-- **Two names for each document** make one more runner wait.  `r` was known to extend `q`, which
    had no document; now `r` and `q` extend each other by other names. -/
theorem stack_outgrows_documents :
    let before := schemaFiles [("r.json", "\x7b\"extends\": \"q\"\x7d")]
    let cache := Cache.after [⟨.resolve "r", before, .arrival⟩]
    crossedDocuments.list.length = 2 ∧ ∃ now trace loads takes,
      Turn.Ends crossed .arrival cache .forgetMissing now trace loads takes ∧
      ∃ load ∈ loads, crossedDocuments.list.length + 1 < (chainOf load.stack).length := by
  intro before cache
  let kept : Cache := cache.filter fun _ e => decide (e ≠ .missing)
  let r := Runner.ofDeclared "r" (some "q") (some ⟨"ws/.catscript/schemas/r.json"⟩)
    OrderedMap.empty
  have hr : kept.get? r.name = some (.loaded r) := by decide +kernel
  have hmissing : Order.arrival.arrange .missing cache.missingIds = ["q"] := by decide +kernel
  have hfirst : Order.arrival.arrange (.dependents ["q"]) (kept.dependents ["q"] "q") =
      [r.name] := by decide +kernel
  obtain ⟨s, now, trace, hmerges, hrelink⟩ := merges_relink crossed kept r
  have hsecond : Order.arrival.arrange (.dependents ["r", "q"])
      ((now.store s).dependents ["r", "q"] "r") = [] := by
    rw [show now.store s = (Cache.relink crossed kept r).cache by rw [hrelink]]
    decide +kernel
  have hrest : Refreshes .arrival crossed ["r"] ["q"] (now.store s) ["r"] (now.store s) [] [] :=
    .takesUp (by decide) hsecond .done .done
  have hrefreshes : Refreshes .arrival crossed ["q"] [] kept ["q", "r"] (now.store s) _ _ :=
    .takesUp List.not_mem_nil hfirst (.next hr hmerges .done) hrest
  refine ⟨rfl, _, _, _, _, .forgetMissing hmissing (.next hrefreshes .done), _,
    List.mem_cons_self, ?_⟩
  decide +kernel

end RunnerCatalog
