/-
  Being told about a change where there is none.

  If the text of a document still says what its runner was last read from, one expects that
  telling the cache about it leaves every entry as it is.  It does for runners whose way comes to
  no cycle, and for runners on a cycle.  A runner outside all cycles whose way leads into one may
  have been loaded in one climb with the cycle, without what it would inherit; when it is linked
  again, it inherits it.

  1. **Due or not** - a runner of a coherent cache has what it is due, or it is such a runner and
     lacks what it would inherit (`Cache.due_eq_iff`).

  2. **Reading again** - the runner that is read again gets what it is due, and so does everybody
     who extends it, directly or not (`Cache.scopes_invalidate`).

  3. **Exactly when** - so nothing changes if and only if all of these had what they are due
     (`invalidate_unchanged_iff`).
-/
import RunnerCatalog.Proofs.Due
import RunnerCatalog.Proofs.LookupOrder
import RunnerCatalog.Proofs.Reread

namespace RunnerCatalog

open Links

/-! ## Entries, however paths are written -/

/-- What is known of a runner, however the path of its document is written. -/
def Runner.facts (r : Runner) : Runner × Option (List Component) :=
  ({ r with document := none }, r.document.map DocumentId.components)

/-- What an entry says about its runner, however the path of its document is written. -/
def Entry.facts (e : Entry) : Option (Runner × Option (List Component)) :=
  e.runner?.map Runner.facts

theorem Runner.facts_eq_iff {r s : Runner} :
    r.facts = s.facts ↔
      r.name = s.name ∧ r.parent = s.parent ∧ r.declared = s.declared ∧ r.scopes = s.scopes ∧
        r.document.map DocumentId.components = s.document.map DocumentId.components := by
  simp only [facts, Prod.mk.injEq, mk.injEq, true_and, and_assoc]

/-- A reading that declares what `r` does, of a document of the same path, says the same as `r`. -/
theorem Source.facts_reading (source : Source) {x : String} {d : DocumentId} {r : Runner}
    (hname : r.name = x) (hdocument : r.document.map DocumentId.components = some d.components)
    (hparent : (source.reading x d).parent = r.parent)
    (hdeclared : (source.reading x d).declared = r.declared) (scopes : ScopeMap) :
    ((source.reading x d).withScopes scopes).facts = (r.withScopes scopes).facts := by
  obtain ⟨hrname, hreading, -⟩ := source.reading_facts x d
  refine Runner.facts_eq_iff.mpr ⟨hrname.trans hname.symm, hparent, hdeclared, rfl, ?_⟩
  exact (congrArg _ hreading).trans hdocument.symm

namespace Cache

variable {source : Source} {cache now : Cache} {order : Order} {d : DocumentId}
  {id x : String} {rest : List String} {r : Runner}

/-- What an entry says, if there is one, is what is known of the runner. -/
theorem map_facts_loaded? (cache : Cache) (id : String) :
    (cache.loaded? id).map Runner.facts = ((cache.get? id).map Entry.facts).join := by
  rw [loaded?]
  cases cache.get? id with
  | none => rfl
  | some e => cases e <;> rfl

/-- Where entries say the same, runners have the same scopes. -/
theorem scopes_of_facts
    (h : (now.get? id).map Entry.facts = (cache.get? id).map Entry.facts) :
    (now.loaded? id).map Runner.scopes = (cache.loaded? id).map Runner.scopes := by
  have hmap : ∀ c : Cache, (c.loaded? id).map Runner.scopes =
      ((c.loaded? id).map Runner.facts).map fun f => f.1.scopes := fun c => by
    rw [Option.map_map]
    rfl
  rw [hmap, hmap, map_facts_loaded?, map_facts_loaded?, h]

/-- Where entries say the same, links are the same. -/
theorem link?_of_facts (h : (now.get? id).map Entry.facts = (cache.get? id).map Entry.facts) :
    now.link? id = cache.link? id := by
  have hbind : ∀ c : Cache, c.link? id =
      ((c.loaded? id).map Runner.facts).bind fun f => f.1.parent := fun c => by
    rw [Option.bind_map]
    rfl
  rw [hbind, hbind, map_facts_loaded?, map_facts_loaded?, h]

/-! ## Due or not -/

/-- The runner known as `id` has what it would inherit from the one that it extends. -/
def Inherits (cache : Cache) (id : String) : Prop :=
  ∀ r parent q, cache.get? id = some (.loaded r) → r.parent = some parent →
    cache.get? parent = some (.loaded q) → r.scopes = mergeScopes q.scopes r.declared

/-- **Due or not**: a runner has what it is due, unless it is outside all cycles, its way leads
    into one, and it lacks what it would inherit. -/
theorem due_eq_iff (hc : cache.CoherentUpTo []) (hr : cache.get? id = some (.loaded r)) :
    cache.due r = r.scopes ↔
      (EntersCycle cache.link? id → ¬ OnCycle cache.link? id → cache.Inherits id) := by
  obtain ⟨hfiled, hcoherent⟩ := coherentUpTo_nil_iff.mp hc
  have hname := hfiled id r hr
  have hlink := link?_of_get? hr
  have hsettled := hcoherent id r hr
  by_cases hway : OnCycle cache.link? id ∨ ¬ EntersCycle cache.link? id
  · refine iff_of_true (hsettled.due_eq hname hlink hway) (fun henters hon => ?_)
    exact (hway.elim hon (fun h => h henters)).elim
  obtain ⟨hon, henters⟩ := not_or.mp hway
  have hback : ∀ parent, r.parent = some parent → ¬ Reaches cache.link? parent r.name := by
    intro parent hp hback
    exact hon (Relation.TransGen.head' (hlink.trans hp) (hname ▸ hback))
  constructor
  · intro hdue _ _ s parent q hs hp hq
    obtain rfl := loaded_inj hr hs
    rw [← hdue, due_of_loaded hp (hback parent hp) hq]
  · intro hall
    cases hp : r.parent with
    | none => rw [due_of_base hp, hsettled.base hp]
    | some parent =>
      obtain ⟨e, he⟩ := hsettled.known parent hp
      cases e with
      | loaded q =>
        rw [due_of_loaded hp (hback parent hp) he]
        exact (hall (not_not.mp henters) hon r parent q hr hp he).symm
      | missing =>
        rw [due_of_not_loaded hp (not_loaded_of_missing he), hsettled.orphan parent hp he]

/-! ## Reading again -/

/-- A runner whose document says what it said before is stored with what it is due. -/
theorem reread_unchanged (hc : cache.CoherentUpTo []) (hr : cache.get? x = some (.loaded r))
    (hparent : (source.reading x d).parent = r.parent)
    (hdeclared : (source.reading x d).declared = r.declared) :
    (reread source cache x d).cache =
      cache.store ((source.reading x d).withScopes (cache.due r)) := by
  have hname : (source.reading x d).name = r.name :=
    (source.reading_facts x d).1.trans (hc.filed x r hr).symm
  have hknown : ∀ parent, (source.reading x d).parent = some parent →
      cache.get? parent ≠ none := by
    intro parent hp
    exact hc.known.known ((link?_of_get? hr).trans (hparent.symm.trans hp))
  rw [reread_cache, relink_of_known source hknown,
    due_congr hname hparent hdeclared rfl (fun _ _ _ => rfl)]

/-- **What is left** when the cache was told about a document that says what it said before: links
    are the same, runners that do not lead to the one that was read again are the same, and those
    that do are the same but for their scopes, which are what they are due. -/
theorem scopes_invalidate (hc : cache.CoherentUpTo [])
    (harrange : order.arrange .owners (cache.owners d) = x :: rest)
    (hr : cache.get? x = some (.loaded r))
    (hdocument : r.document.map DocumentId.components = some d.components)
    (hparent : (source.reading x d).parent = r.parent)
    (hdeclared : (source.reading x d).declared = r.declared) :
    (invalidate order source cache d).cache.link? = cache.link? ∧
      (∀ k, ¬ Reaches cache.link? k x →
        (invalidate order source cache d).cache.get? k = cache.get? k) ∧
      ∀ k s, Reaches cache.link? k x → cache.get? k = some (.loaded s) →
        ∃ t, (invalidate order source cache d).cache.get? k = some (.loaded t) ∧
          t.facts = (s.withScopes t.scopes).facts ∧
            (invalidate order source cache d).cache.due t = t.scopes := by
  have hname := (source.reading_facts x d).1
  obtain rfl := hc.filed x r hr
  have hstored := reread_unchanged hc hr hparent hdeclared
  generalize hy : (source.reading r.name d).withScopes (cache.due r) = y at hstored
  have hyname : y.name = r.name := hy ▸ hname
  have hyparent : y.parent = r.parent := hy ▸ hparent
  have hydeclared : y.declared = r.declared := hy ▸ hdeclared
  have hyget : cache.get? y.name = some (.loaded r) := hyname ▸ hr
  have hlink := link?_store hyget hyparent
  have hroot : (cache.store y).get? r.name = some (.loaded y) :=
    (get?_store cache y r.name).trans (if_pos hyname)
  obtain ⟨hrlink, hrsame, hrdue⟩ := refresh_over_known order source
    (hstored ▸ hc.filed.reread source r.name d) (known_of_get? hroot)
  rw [hlink] at hrlink hrsame hrdue
  rw [invalidate_of_cons source harrange, hstored]
  have hsame : ∀ k, ¬ Reaches cache.link? k r.name →
      (refresh order source (cache.store y) r.name).cache.get? k = cache.get? k := by
    intro k hk
    rw [hrsame k (.inr hk), get?_store, if_neg (fun heq => hk ?_)]
    rw [← heq, hyname]
  refine ⟨hrlink, hsame, fun k s hway hs => ?_⟩
  by_cases hk : k = r.name
  · subst hk
    obtain rfl := loaded_inj hr hs
    refine ⟨y, ?_, ?_, ?_⟩
    · rw [hrsame _ (.inl rfl), hroot]
    · rw [← hy]
      exact source.facts_reading rfl hdocument hparent hdeclared _
    · rw [show y.scopes = cache.due r by rw [← hy]; rfl]
      refine due_congr hyname hyparent hydeclared hrlink (fun q _ hq => ?_)
      rw [loaded?, loaded?, hsame q hq]
  · have hs' : (cache.store y).get? k = some (.loaded s) := by
      rw [get?_store, if_neg (fun heq => hk (heq.symm.trans hyname)), hs]
    obtain ⟨t, ht, htr, hdue⟩ := hrdue k s hk hway hs'
    refine ⟨t, ht, ?_, hdue⟩
    obtain ⟨hn, hp, hd, hdec⟩ := Runner.detach_eq_iff.mp htr
    exact Runner.facts_eq_iff.mpr ⟨hn, hp, hdec, rfl, congrArg _ hd⟩

/-- Entries stay if and only if those who lead to the runner that is read again had what they are
    due.  One direction is by induction on the links that lead there. -/
theorem facts_invalidate_iff (hc : cache.CoherentUpTo [])
    (harrange : order.arrange .owners (cache.owners d) = x :: rest)
    (hr : cache.get? x = some (.loaded r))
    (hdocument : r.document.map DocumentId.components = some d.components)
    (hparent : (source.reading x d).parent = r.parent)
    (hdeclared : (source.reading x d).declared = r.declared) :
    (∀ k, ((invalidate order source cache d).cache.get? k).map Entry.facts =
        (cache.get? k).map Entry.facts) ↔
      ∀ k s, Reaches cache.link? k x → cache.get? k = some (.loaded s) →
        cache.due s = s.scopes := by
  obtain ⟨hlink, hout, hin⟩ := scopes_invalidate hc harrange hr hdocument hparent hdeclared
  generalize (invalidate order source cache d).cache = now at hlink hout hin
  -- whoever extends a runner that is as before is due what it was due before
  have hdue : ∀ s t, t.facts = (s.withScopes t.scopes).facts →
      (∀ p, s.parent = some p → ¬ Reaches cache.link? p s.name →
        (now.get? p).map Entry.facts = (cache.get? p).map Entry.facts) →
      now.due t = cache.due s := by
    intro s t hfacts hsame
    obtain ⟨hname, hp, hdec, -⟩ := Runner.facts_eq_iff.mp hfacts
    exact due_congr hname hp hdec hlink (fun p hsp hback => scopes_of_facts (hsame p hsp hback))
  constructor
  · intro hall k s hway hs
    obtain ⟨t, ht, hfacts, htdue⟩ := hin k s hway hs
    have hscopes : t.scopes = s.scopes := by
      have hk := hall k
      rw [ht, hs] at hk
      exact (Runner.facts_eq_iff.mp (Option.some.inj (Option.some.inj hk))).2.2.2.1
    rw [← hdue s t hfacts (fun p _ _ => hall p), htdue, hscopes]
  · intro hall
    have hkept : ∀ k s, Reaches cache.link? k x → cache.get? k = some (.loaded s) →
        (∀ p, s.parent = some p → ¬ Reaches cache.link? p s.name →
          (now.get? p).map Entry.facts = (cache.get? p).map Entry.facts) →
        (now.get? k).map Entry.facts = (cache.get? k).map Entry.facts := by
      intro k s hway hs hsame
      obtain ⟨t, ht, hfacts, htdue⟩ := hin k s hway hs
      have hscopes : t.scopes = s.scopes := by
        rw [← htdue, hdue s t hfacts hsame, hall k s hway hs]
      rw [ht, hs]
      refine congrArg (fun f => some (some f)) (hfacts.trans ?_)
      rw [hscopes]
      rfl
    intro k
    by_cases hway : Reaches cache.link? k x
    · induction hway using Relation.ReflTransGen.head_induction_on with
      | refl =>
        refine hkept x r .refl hr (fun p _ hback => ?_)
        rw [hc.filed x r hr] at hback
        rw [hout p hback]
      | @head k p hstep hway ih =>
        obtain ⟨s, hs, hsp⟩ := link?_eq_some_iff.mp hstep
        refine hkept k s (.head hstep hway) hs (fun q hq _ => ?_)
        obtain rfl := Option.some.inj (hsp.symm.trans hq)
        exact ih
    · rw [hout k hway]

end Cache

/-! ## Exactly when -/

/-- **Telling the cache about a document that did not change** leaves every entry as it is if and
    only if whoever leads to the runner that is read again, is outside all cycles and leads into
    one has what it would inherit.  `hsame` says that the document declares the link and the scopes
    that its runner was last read with; it does if its text is the same. -/
theorem invalidate_unchanged_iff (turns : List Turn)
    (hsource : ∀ turn ∈ turns, turn.source.Searchable) (order : Order) (source : Source)
    (d : DocumentId)
    (hsame : ∀ id ∈ (Cache.after turns).owners d, ∀ r,
      (Cache.after turns).get? id = some (.loaded r) →
        (source.reading id d).parent = r.parent ∧ (source.reading id d).declared = r.declared) :
    (∀ id, (((Cache.after turns).invalidate order source d).cache.get? id).map Entry.facts =
        ((Cache.after turns).get? id).map Entry.facts) ↔
      ∀ x ∈ (order.arrange .owners ((Cache.after turns).owners d)).head?, ∀ id,
        Reaches (Cache.after turns).link? id x → EntersCycle (Cache.after turns).link? id →
          ¬ OnCycle (Cache.after turns).link? id → (Cache.after turns).Inherits id := by
  have hc := Cache.coherentUpTo_after turns hsource
  cases harrange : order.arrange .owners ((Cache.after turns).owners d) with
  | nil =>
    rw [Cache.invalidate_of_nil source harrange]
    exact ⟨fun _ x hx => (nomatch hx), fun _ _ => rfl⟩
  | cons x rest =>
    obtain ⟨hx, -⟩ := Cache.known_of_cons harrange
    obtain ⟨r, e, hr, he, hes⟩ := Cache.mem_owners.mp hx
    obtain ⟨hparent, hdeclared⟩ := hsame x hx r hr
    have hdocument : r.document.map DocumentId.components = some d.components := by
      rw [he, Option.map_some, hes]
    rw [Cache.facts_invalidate_iff hc harrange hr hdocument hparent hdeclared]
    constructor
    · intro hall y hy id hway henters hon s parent q hs hp hq
      obtain rfl := Option.some.inj hy
      exact (Cache.due_eq_iff hc hs).mp (hall id s hway hs) henters hon s parent q hs hp hq
    · intro hall id s hway hs
      exact (Cache.due_eq_iff hc hs).mpr (hall x rfl id hway)

/-- **An entry changes** although nothing else did: `x`, loaded in one climb with the cycle that it
    leads into, has no command, until its unchanged document is read again. -/
theorem unchanged_document_matters :
    let cache := Cache.after [⟨.resolve "x", leadIn.source, .arrival⟩]
    let d := Shelf.documentOf "x"
    leadIn.source.Searchable ∧ leadIn.source.Distinct ∧ cache.owners d = ["x"] ∧
      ((cache.invalidate .arrival leadIn.source d).cache.get? "x").map Entry.facts ≠
        (cache.get? "x").map Entry.facts :=
  ⟨Shelf.searchable rfl, Shelf.distinct rfl (by decide +kernel), by decide +kernel,
    by decide +kernel⟩

/-- So `x` lacks what it would inherit. -/
theorem invalidate_unchanged_leadIn :
    let cache := Cache.after [⟨.resolve "x", leadIn.source, .arrival⟩]
    ¬ ∀ x ∈ (cache.owners (Shelf.documentOf "x")).head?, ∀ id, Reaches cache.link? id x →
      EntersCycle cache.link? id → ¬ OnCycle cache.link? id → cache.Inherits id := by
  intro cache hinherits
  have hsource : ∀ turn ∈ [(⟨.resolve "x", leadIn.source, .arrival⟩ : Turn)],
      turn.source.Searchable := by
    intro turn hturn
    obtain rfl := List.mem_singleton.mp hturn
    exact Shelf.searchable rfl
  have hsame := (invalidate_unchanged_iff _ hsource .arrival leadIn.source
    (Shelf.documentOf "x") ?_).mpr hinherits "x"
  · exact absurd hsame (by decide +kernel)
  · intro id hid r hr
    obtain rfl : id = "x" := by
      have howners : cache.owners (Shelf.documentOf "x") = ["x"] := by decide +kernel
      exact List.mem_singleton.mp (howners ▸ hid)
    have hown : cache.own? "x" = some (leadIn.source.reading "x" (Shelf.documentOf "x")) := by
      decide +kernel
    obtain ⟨s, hs, hsr⟩ := Cache.own?_eq_some_iff.mp hown
    obtain rfl := Cache.loaded_inj hs hr
    rw [← hsr]
    exact ⟨rfl, rfl⟩

end RunnerCatalog
