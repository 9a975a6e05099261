/-
  What a climb finds.

  A climb goes from runner to runner, from each one to the one that it extends, until it comes
  to a summit.  It is written with a bound on its steps; the bound is never met, and that is
  settled here once.

  1. **What documents say** - `Source.own?` is the runner of a name as its own document has it.
     The names that documents extend are finitely many (`Source.parents`).

  2. **Climbs without a bound** - `Ascends` has one rule for each way in which a step can go,
     and `climb_ascends` says that every climb follows these rules: whoever is loaded on the
     way is new to the waiting list, and all but the first are in `Source.parents`.

  3. **A finished climb** - `Ascent` collects what is known of it: the loaded runners are as
     their documents say and were not in the cache, each one extends the next, no name occurs
     twice, and the summit is what it is said to be (`Climb.Reached`).
-/
import Mathlib.Data.List.Perm.Subperm
import RunnerCatalog.Proofs.Walk
import RunnerCatalog.Store.Resolve

namespace RunnerCatalog

/-! ## What documents say -/

namespace Source

/-- The search never fails. -/
def Searchable (source : Source) : Prop := ∀ id, ∃ found, source.locate id = .ok found

/-- The runner of a name as its own document has it, with nothing inherited.  A document that
    cannot be used makes a runner without commands. -/
def own? (source : Source) (id : String) : Option Runner :=
  match source.locate id with
  | .ok (some d) =>
    match source.load id d with
    | .ok r => some r
    | .error _ => some (Runner.blank id (some d))
  | _ => none

/-- The runner of a name as the document `d` has it, with nothing inherited. -/
def reading (source : Source) (id : String) (d : DocumentId) : Runner :=
  match source.load id d with
  | .ok r => r
  | .error _ => Runner.blank id (some d)

/-- What each name extends, by its own document. -/
def link? (source : Source) : Links := fun id => (source.own? id).bind Runner.parent

/-- What the runner of a text extends. -/
def parentIn (text : String) : Option String :=
  match Schema.read text with
  | .ok schema => schema.parentName
  | .error _ => none

/-- The names that the texts of the source extend. -/
def parents (source : Source) : List String := source.texts.filterMap parentIn

theorem length_parents_le (source : Source) : source.parents.length ≤ source.texts.length :=
  List.length_filterMap_le _ _

/-- A loaded runner is that of the text of its document. -/
theorem exists_text_of_load {source : Source} {id : String} {d : DocumentId} {r : Runner}
    (h : source.load id d = .ok r) :
    ∃ text, source.read d = .ok text ∧ Runner.ofText id text (some d) = .ok r := by
  unfold load at h
  cases ht : source.read d with
  | error failure =>
    rw [ht] at h
    cases h
  | ok text =>
    rw [ht] at h
    cases hr : Runner.ofText id text (some d) with
    | error problem =>
      simp only [bind, Except.bind, hr] at h
      cases h
    | ok s =>
      simp only [bind, Except.bind, hr] at h
      cases h
      exact ⟨text, rfl, hr⟩

/-- The runner of a text bears the name and the document that it is given, inherits nothing yet, and
    extends what the text says. -/
theorem ofText_facts {id text : String} {document : Option DocumentId} {r : Runner}
    (h : Runner.ofText id text document = .ok r) :
    r.name = id ∧ r.document = document ∧ r.detach = r ∧ parentIn text = r.parent := by
  unfold Runner.ofText at h
  cases hs : Schema.read text with
  | error problem =>
    rw [hs] at h
    cases h
  | ok schema =>
    rw [hs] at h
    cases h
    rw [parentIn, hs]
    exact ⟨rfl, rfl, rfl, rfl⟩

/-- A loaded runner bears its name and its document, inherits nothing yet, and extends a name
    that some text of the source has. -/
theorem load_eq_ok {source : Source} {id : String} {d : DocumentId} {r : Runner}
    (h : source.load id d = .ok r) :
    r.name = id ∧ r.document = some d ∧ r.detach = r ∧
      ∀ parent, r.parent = some parent → parent ∈ source.parents := by
  obtain ⟨text, ht, hr⟩ := exists_text_of_load h
  obtain ⟨hname, hdocument, hdetach, hparent⟩ := ofText_facts hr
  refine ⟨hname, hdocument, hdetach, fun parent hp => ?_⟩
  exact List.mem_filterMap.mpr ⟨text, source.mem_texts d text ht, hparent.trans hp⟩

theorem own?_of_load {source : Source} {id : String} {d : DocumentId} {r : Runner}
    (hl : source.locate id = .ok (some d)) (hr : source.load id d = .ok r) :
    source.own? id = some r := by
  rw [own?, hl]
  simp only [hr]

theorem own?_of_unusable {source : Source} {id : String} {d : DocumentId} {failure : Failure}
    (hl : source.locate id = .ok (some d)) (hr : source.load id d = .error failure) :
    source.own? id = some (Runner.blank id (some d)) := by
  rw [own?, hl]
  simp only [hr]

theorem own?_of_located {source : Source} {id : String} {d : DocumentId}
    (hl : source.locate id = .ok (some d)) : source.own? id = some (source.reading id d) := by
  rw [own?, hl, reading]
  cases hr : source.load id d <;> simp only [hr]

/-- A reading bears its name and its document, and has inherited nothing. -/
theorem reading_facts (source : Source) (id : String) (d : DocumentId) :
    (source.reading id d).name = id ∧ (source.reading id d).document = some d ∧
      (source.reading id d).detach = source.reading id d := by
  unfold reading
  split
  · next r hr =>
    obtain ⟨hname, hdocument, hdetach, -⟩ := load_eq_ok hr
    exact ⟨hname, hdocument, hdetach⟩
  · exact ⟨rfl, rfl, rfl⟩

theorem own?_of_absent {source : Source} {id : String} (hl : source.locate id = .ok none) :
    source.own? id = none := by
  rw [own?, hl]

/-- A name has an own runner if and only if it has a document; the runner remembers both. -/
theorem own?_eq_some {source : Source} {id : String} {r : Runner} (h : source.own? id = some r) :
    r.name = id ∧ r.detach = r ∧
      ∃ d, source.locate id = .ok (some d) ∧ r.document = some d := by
  unfold own? at h
  split at h
  · next d hl =>
    split at h
    · next s hs =>
      cases h
      obtain ⟨hname, hdoc, hdetach, -⟩ := load_eq_ok hs
      exact ⟨hname, hdetach, d, hl, hdoc⟩
    · cases h
      exact ⟨rfl, rfl, d, hl, rfl⟩
  · cases h

/-- Who extends somebody has a document that can be used. -/
theorem load_of_own? {source : Source} {id parent : String} {r : Runner}
    (h : source.own? id = some r) (hp : r.parent = some parent) :
    ∃ d, source.locate id = .ok (some d) ∧ source.load id d = .ok r := by
  obtain ⟨-, -, d, hl, -⟩ := own?_eq_some h
  refine ⟨d, hl, ?_⟩
  cases hr : source.load id d with
  | ok s =>
    rw [own?_of_load hl hr] at h
    rw [Option.some.inj h]
  | error failure =>
    rw [own?_of_unusable hl hr] at h
    cases h
    cases hp

theorem link?_of_own? {source : Source} {id : String} {r : Runner}
    (h : source.own? id = some r) : source.link? id = r.parent := by
  rw [link?, h, Option.bind_some]

theorem link?_of_none {source : Source} {id : String} (h : source.own? id = none) :
    source.link? id = none := by
  rw [link?, h, Option.bind_none]

end Source

/-- In memory, a search fails only where it is made to. -/
theorem Shelf.searchable {shelf : Shelf} (h : shelf.failing = []) : shelf.source.Searchable := by
  intro id
  have hid : id ∉ shelf.failing := by
    rw [h]
    exact List.not_mem_nil
  exact ⟨_, if_neg hid⟩

/-! ## Climbs without a bound -/

/-- How a climb goes on from `id`, with `waiting` under way. -/
inductive Ascends (source : Source) (cache : Cache) : List Runner → String → Climb → Prop
  | cycle {waiting : List Runner} {id : String} {walk : List String}
      (hw : cache.walkInto (chainOf waiting) id = some walk) :
      Ascends source cache waiting id ⟨waiting, .cycle (chainOf waiting ++ walk), [], []⟩
  | known {waiting : List Runner} {id : String} {r : Runner}
      (hw : cache.walkInto (chainOf waiting) id = none) (hr : cache.get? id = some (.loaded r)) :
      Ascends source cache waiting id ⟨waiting, .over r, [], []⟩
  | missing {waiting : List Runner} {id : String}
      (hw : cache.walkInto (chainOf waiting) id = none) (hm : cache.get? id = some .missing) :
      Ascends source cache waiting id ⟨waiting, .unknown id, [], []⟩
  | failed {waiting : List Runner} {id : String} {failure : Failure}
      (hw : cache.walkInto (chainOf waiting) id = none) (hn : cache.get? id = none)
      (hl : source.locate id = .error failure) :
      Ascends source cache waiting id
        ⟨waiting, .unknown id, [], [.located id, .noted (.searchFailed id failure)]⟩
  | absent {waiting : List Runner} {id : String}
      (hw : cache.walkInto (chainOf waiting) id = none) (hn : cache.get? id = none)
      (hl : source.locate id = .ok none) :
      Ascends source cache waiting id
        ⟨waiting, .unknown id, [(id, .missing)], [.located id, .noted (.noDocument id)]⟩
  | unusable {waiting : List Runner} {id : String} {d : DocumentId} {failure : Failure}
      (hw : cache.walkInto (chainOf waiting) id = none) (hn : cache.get? id = none)
      (hl : source.locate id = .ok (some d)) (hr : source.load id d = .error failure) :
      Ascends source cache waiting id
        ⟨waiting, .unusable id, [(id, .loaded (Runner.blank id (some d)))],
          [.located id, .wasRead d, .noted (.unusable id failure)]⟩
  | base {waiting : List Runner} {id : String} {d : DocumentId} {r : Runner}
      (hw : cache.walkInto (chainOf waiting) id = none) (hn : cache.get? id = none)
      (hl : source.locate id = .ok (some d)) (hr : source.load id d = .ok r)
      (hp : r.parent = none) :
      Ascends source cache waiting id ⟨r :: waiting, .base, [], [.located id, .wasRead d]⟩
  | step {waiting : List Runner} {id parent : String} {d : DocumentId} {r : Runner} {c : Climb}
      (hw : cache.walkInto (chainOf waiting) id = none) (hn : cache.get? id = none)
      (hl : source.locate id = .ok (some d)) (hr : source.load id d = .ok r)
      (hp : r.parent = some parent) (above : Ascends source cache (r :: waiting) parent c) :
      Ascends source cache waiting id { c with trace := [.located id, .wasRead d] ++ c.trace }

/-- One step follows the rules if the climb above it does. -/
theorem climbWithin_succ_ascends {source : Source} {cache : Cache} {steps : Nat}
    {waiting : List Runner} {id : String}
    (habove : ∀ d r parent, cache.walkInto (chainOf waiting) id = none →
      source.load id d = .ok r → r.parent = some parent →
      Ascends source cache (r :: waiting) parent
        (climbWithin source cache steps (r :: waiting) parent)) :
    Ascends source cache waiting id (climbWithin source cache (steps + 1) waiting id) := by
  rw [climbWithin]
  cases hw : cache.walkInto (chainOf waiting) id with
  | some walk => exact .cycle hw
  | none =>
    cases hn : cache.get? id with
    | some e =>
      cases e with
      | loaded r => exact .known hw hn
      | missing => exact .missing hw hn
    | none =>
      cases hl : source.locate id with
      | error failure => exact .failed hw hn hl
      | ok found =>
        cases found with
        | none => exact .absent hw hn hl
        | some d =>
          cases hr : source.load id d with
          | error failure =>
            simp only [hr]
            exact .unusable hw hn hl hr
          | ok r =>
            cases hp : r.parent with
            | none =>
              simp only [hr, hp]
              exact .base hw hn hl hr hp
            | some parent =>
              simp only [hr, hp]
              exact .step hw hn hl hr hp (habove d r parent hw hr hp)

theorem mem_chainOf {waiting : List Runner} {id : String} :
    id ∈ chainOf waiting ↔ id ∈ waiting.map Runner.name := by
  rw [chainOf, List.mem_reverse]

/-- A name whose walk finds nobody waiting does not wait itself. -/
theorem notMem_of_walkInto {cache : Cache} {waiting : List Runner} {id : String}
    (hw : cache.walkInto (chainOf waiting) id = none) : id ∉ waiting.map Runner.name := by
  intro hid
  exact (cache.walkInto_eq_none_iff _ _).mp hw id (mem_chainOf.mpr hid) .refl

/-- From the second runner on, a climb meets only names that texts extend, and none twice
    (`met` lists those met so far).  So it has steps left. -/
theorem climbWithin_ascends {source : Source} {cache : Cache} {steps : Nat}
    {waiting : List Runner} {id : String} (met : List String) (hnodup : met.Nodup)
    (hmet : ∀ x ∈ met, x ∈ waiting.map Runner.name ∧ x ∈ source.parents)
    (hid : id ∈ source.parents) (hsteps : source.texts.length + 1 ≤ steps + met.length) :
    Ascends source cache waiting id (climbWithin source cache steps waiting id) := by
  have hle : ∀ l : List String, l.Nodup → (∀ x ∈ l, x ∈ source.parents) →
      l.length ≤ source.texts.length := fun l hl hsub =>
    ((hl.subperm hsub).length_le).trans source.length_parents_le
  induction steps generalizing waiting id met with
  | zero =>
    have := hle met hnodup (fun x hx => (hmet x hx).2)
    omega
  | succ steps ih =>
    refine climbWithin_succ_ascends (fun d r parent hw hr hp => ?_)
    obtain ⟨hname, -, -, hparents⟩ := Source.load_eq_ok hr
    have hnew : id ∉ met := fun h => notMem_of_walkInto hw (hmet id h).1
    refine ih (id :: met) (List.nodup_cons.mpr ⟨hnew, hnodup⟩) ?_ (hparents parent hp) ?_
    · intro x hx
      rcases List.mem_cons.mp hx with rfl | hx
      · exact ⟨hname ▸ List.mem_cons_self, hid⟩
      · exact ⟨List.mem_cons_of_mem _ (hmet x hx).1, (hmet x hx).2⟩
    · rw [List.length_cons]
      omega

/-- **The bound is never met**: every climb follows the rules. -/
theorem climb_ascends (source : Source) (cache : Cache) (waiting : List Runner) (id : String) :
    Ascends source cache waiting id (climb source cache waiting id) := by
  refine climbWithin_succ_ascends (fun d r parent _ hr hp => ?_)
  exact climbWithin_ascends [] List.nodup_nil (fun x hx => absurd hx List.not_mem_nil)
    ((Source.load_eq_ok hr).2.2.2 parent hp) (Nat.le_refl _)

/-! ## A finished climb -/

/-- The name at which a climb from `id` ends: what its last runner extends, or `id` itself if
    nobody waits. -/
def Climb.sought (c : Climb) (id : String) : Option String :=
  match c.waiting with
  | [] => some id
  | r :: _ => r.parent

/-- The summit of a climb from `id` is what it is said to be. -/
inductive Climb.Reached (source : Source) (cache : Cache) (id : String) (c : Climb) : Prop
  | base (hs : c.summit = .base) (hl : c.learned = []) (hsought : c.sought id = none)
  | known {s : String} {q : Runner} (hs : c.summit = .over q) (hl : c.learned = [])
      (hsought : c.sought id = some s) (hw : cache.walkInto (chainOf c.waiting) s = none)
      (hq : cache.get? s = some (.loaded q))
  | missing {s : String} (hs : c.summit = .unknown s) (hl : c.learned = [])
      (hsought : c.sought id = some s) (hw : cache.walkInto (chainOf c.waiting) s = none)
      (hm : cache.get? s = some .missing)
  | failed {s : String} {failure : Failure} (hs : c.summit = .unknown s) (hl : c.learned = [])
      (hsought : c.sought id = some s) (hw : cache.walkInto (chainOf c.waiting) s = none)
      (hn : cache.get? s = none) (hf : source.locate s = .error failure)
  | absent {s : String} (hs : c.summit = .unknown s) (hl : c.learned = [(s, .missing)])
      (hsought : c.sought id = some s) (hw : cache.walkInto (chainOf c.waiting) s = none)
      (hn : cache.get? s = none) (ha : source.locate s = .ok none)
  | unusable {s : String} {d : DocumentId} (hs : c.summit = .unusable s)
      (hl : c.learned = [(s, .loaded (Runner.blank s (some d)))])
      (hsought : c.sought id = some s) (hw : cache.walkInto (chainOf c.waiting) s = none)
      (hn : cache.get? s = none) (ho : source.own? s = some (Runner.blank s (some d)))
  | cycle {s : String} {walk : List String} (hs : c.summit = .cycle (chainOf c.waiting ++ walk))
      (hl : c.learned = []) (hsought : c.sought id = some s)
      (hw : cache.walkInto (chainOf c.waiting) s = some walk)

/-- `upper` is the runner that `lower` extends. -/
def Runner.ExtendedBy (upper lower : Runner) : Prop := lower.parent = some upper.name

/-- A climb from `id`, which the runners of `start` waited for, is finished: `fresh` are the
    runners that it loaded, the last one first. -/
structure Ascent (source : Source) (cache : Cache) (start : List Runner) (id : String)
    (fresh : List Runner) (c : Climb) : Prop where
  waiting_eq : c.waiting = fresh ++ start
  /-- Who was loaded is as the documents say, and was not known before. -/
  own : ∀ r ∈ fresh, source.own? r.name = some r ∧ cache.get? r.name = none
  nodup : (c.waiting.map Runner.name).Nodup
  chain : c.waiting.IsChain Runner.ExtendedBy
  /-- The first runner that was loaded is the one that was asked for. -/
  first : ∀ r ∈ fresh.getLast?, r.name = id
  /-- If none was loaded, the climb ends at the name that was asked for. -/
  stay : fresh = [] → ∀ s, c.sought id = some s → s = id
  reached : c.Reached source cache id

/-- The runners of `start` can wait for `id`: each one extends the one before it, the last one
    extends `id`, and no name occurs twice. -/
structure Awaits (start : List Runner) (id : String) : Prop where
  nodup : (start.map Runner.name).Nodup
  chain : start.IsChain Runner.ExtendedBy
  head : ∀ r ∈ start.head?, r.parent = some id

theorem awaits_nil (id : String) : Awaits [] id :=
  ⟨List.nodup_nil, List.IsChain.nil, fun _ h => nomatch h⟩

theorem awaits_singleton {r : Runner} {parent : String} (h : r.parent = some parent) :
    Awaits [r] parent := by
  refine ⟨List.nodup_singleton _, List.IsChain.singleton r, fun s hs => ?_⟩
  obtain rfl := Option.some.inj hs
  exact h

/-- What is sought if nothing is loaded on the way. -/
theorem Awaits.sought {start : List Runner} {id : String} {summit : Summit}
    {learned : List (String × Entry)} {trace : List Event} (h : Awaits start id) :
    Climb.sought ⟨start, summit, learned, trace⟩ id = some id := by
  cases start with
  | nil => rfl
  | cons r rest => exact h.head r rfl

/-- A runner that is loaded joins those who wait for it. -/
theorem Awaits.nodup_cons {start : List Runner} {id : String} {r : Runner} (h : Awaits start id)
    (hname : r.name = id) (hnew : id ∉ start.map Runner.name) :
    ((r :: start).map Runner.name).Nodup := by
  rw [List.map_cons, hname]
  exact List.nodup_cons.mpr ⟨hnew, h.nodup⟩

theorem Awaits.chain_cons {start : List Runner} {id : String} {r : Runner} (h : Awaits start id)
    (hname : r.name = id) : (r :: start).IsChain Runner.ExtendedBy := by
  cases start with
  | nil => exact List.IsChain.singleton r
  | cons below rest =>
    refine List.IsChain.cons_cons ?_ h.chain
    rw [Runner.ExtendedBy, hname]
    exact h.head below rfl

theorem Awaits.cons {start : List Runner} {id parent : String} {r : Runner} (h : Awaits start id)
    (hname : r.name = id) (hnew : id ∉ start.map Runner.name) (hp : r.parent = some parent) :
    Awaits (r :: start) parent := by
  refine ⟨h.nodup_cons hname hnew, h.chain_cons hname, fun s hs => ?_⟩
  obtain rfl := Option.some.inj hs
  exact hp

/-- If nothing is loaded, the climb is finished where it starts. -/
theorem Ascent.ofNone {source : Source} {cache : Cache} {start : List Runner} {id : String}
    {c : Climb} (h : Awaits start id) (hc : c.waiting = start)
    (hs : c.sought id = some id) (hr : c.Reached source cache id) :
    Ascent source cache start id [] c where
  waiting_eq := hc
  own := fun _ hr => absurd hr List.not_mem_nil
  nodup := hc ▸ h.nodup
  chain := hc ▸ h.chain
  first := fun _ hr => nomatch hr
  stay := fun _ _ hs' => Option.some.inj (hs'.symm.trans hs)
  reached := hr

/-- **Every climb is finished.**  The induction follows the rules of `Ascends`; each loaded
    runner joins those who wait. -/
theorem Ascends.exists_ascent {source : Source} {cache : Cache} {start : List Runner}
    {id : String} {c : Climb} (h : Ascends source cache start id c) (hs : Awaits start id) :
    ∃ fresh, Ascent source cache start id fresh c := by
  induction h with
  | cycle hw => exact ⟨[], .ofNone hs rfl hs.sought (.cycle rfl rfl hs.sought hw)⟩
  | known hw hr => exact ⟨[], .ofNone hs rfl hs.sought (.known rfl rfl hs.sought hw hr)⟩
  | missing hw hm => exact ⟨[], .ofNone hs rfl hs.sought (.missing rfl rfl hs.sought hw hm)⟩
  | failed hw hn hl => exact ⟨[], .ofNone hs rfl hs.sought (.failed rfl rfl hs.sought hw hn hl)⟩
  | absent hw hn hl => exact ⟨[], .ofNone hs rfl hs.sought (.absent rfl rfl hs.sought hw hn hl)⟩
  | unusable hw hn hl hr =>
    exact ⟨[], .ofNone hs rfl hs.sought
      (.unusable rfl rfl hs.sought hw hn (Source.own?_of_unusable hl hr))⟩
  | @base start id d r hw hn hl hr hp =>
    obtain ⟨hname, -, -, -⟩ := Source.load_eq_ok hr
    have hnew := notMem_of_walkInto hw
    refine ⟨[r], ⟨rfl, ?_, hs.nodup_cons hname hnew, hs.chain_cons hname, ?_, ?_,
      .base rfl rfl hp⟩⟩
    · intro s hs
      obtain rfl := List.mem_singleton.mp hs
      rw [hname]
      exact ⟨Source.own?_of_load hl hr, hn⟩
    · intro s hs
      obtain rfl := Option.some.inj hs
      exact hname
    · intro h
      cases h
  | @step start id parent d r c hw hn hl hr hp _ ih =>
    obtain ⟨hname, -, -, -⟩ := Source.load_eq_ok hr
    obtain ⟨fresh, ha⟩ := ih (hs.cons hname (notMem_of_walkInto hw) hp)
    have hwait : c.waiting = (fresh ++ [r]) ++ start := by
      rw [ha.waiting_eq, List.append_assoc]
      rfl
    -- somebody waits, so what is sought does not depend on where the climb began
    have hsought : c.sought parent = c.sought id := by
      unfold Climb.sought
      rw [hwait]
      cases fresh <;> rfl
    refine ⟨fresh ++ [r], ⟨hwait, ?_, ha.nodup, ha.chain, ?_, ?_, ?_⟩⟩
    · intro s hs
      rcases List.mem_append.mp hs with hs | hs
      · exact ha.own s hs
      · obtain rfl := List.mem_singleton.mp hs
        rw [hname]
        exact ⟨Source.own?_of_load hl hr, hn⟩
    · intro s hs
      rw [List.getLast?_concat] at hs
      obtain rfl := Option.some.inj hs
      exact hname
    · intro h
      exact absurd h (List.append_ne_nil_of_right_ne_nil fresh (List.cons_ne_nil r []))
    · cases ha.reached with
      | base h₁ h₂ h₃ => exact .base h₁ h₂ (hsought ▸ h₃)
      | known h₁ h₂ h₃ h₄ h₅ => exact .known h₁ h₂ (hsought ▸ h₃) h₄ h₅
      | missing h₁ h₂ h₃ h₄ h₅ => exact .missing h₁ h₂ (hsought ▸ h₃) h₄ h₅
      | failed h₁ h₂ h₃ h₄ h₅ h₆ => exact .failed h₁ h₂ (hsought ▸ h₃) h₄ h₅ h₆
      | absent h₁ h₂ h₃ h₄ h₅ h₆ => exact .absent h₁ h₂ (hsought ▸ h₃) h₄ h₅ h₆
      | unusable h₁ h₂ h₃ h₄ h₅ h₆ => exact .unusable h₁ h₂ (hsought ▸ h₃) h₄ h₅ h₆
      | cycle h₁ h₂ h₃ h₄ => exact .cycle h₁ h₂ (hsought ▸ h₃) h₄

/-- A climb on behalf of runners that can wait is finished. -/
theorem exists_ascent (source : Source) (cache : Cache) {start : List Runner} {id : String}
    (h : Awaits start id) : ∃ fresh, Ascent source cache start id fresh
      (climb source cache start id) :=
  (climb_ascends source cache start id).exists_ascent h

end RunnerCatalog
