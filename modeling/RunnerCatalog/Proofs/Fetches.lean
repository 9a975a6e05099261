/-
  How often the source is asked.

  Runners are looked up by whoever asks for them, by runners that extend them, and again when
  documents change.  The source is nevertheless asked for the document of a name only once, as
  long as nothing is forgotten and no search fails.

  1. **A climb** - it asks for the names that it loads or learns about, in that order, and reads
     what it finds (`Ascends.asked`, `Ascends.reads`).  All these names were unknown, and they are
     known afterwards (`Ascent.fetched`).

  2. **Fetching** - `Fetched` says this of everything that takes one cache to another, and counts
     what was read without being searched for.  It can be composed (`Fetched.trans`), so it holds
     of a refresh (`Refreshing.fetched`) and of each request (`Turn.fetched`).

  3. **A run** - a name that was asked for is known from then on, so no later request asks for it
     (`fetched_once`).
-/
import RunnerCatalog.Proofs.Footprint

namespace RunnerCatalog

/-! ## Traces -/

/-- The names whose documents a trace asks for, in order. -/
def asked (trace : List Event) : List String :=
  trace.filterMap fun e => match e with
    | .located id => some id
    | _ => none

theorem asked_append (t u : List Event) : asked (t ++ u) = asked t ++ asked u :=
  List.filterMap_append

theorem countRead_append (t u : List Event) : countRead (t ++ u) = countRead t + countRead u :=
  List.countP_append

theorem asked_located (id : String) (t : List Event) : asked (.located id :: t) = id :: asked t :=
  rfl

theorem asked_wasRead (d : DocumentId) (t : List Event) : asked (.wasRead d :: t) = asked t := rfl

theorem countRead_located (id : String) (t : List Event) :
    countRead (.located id :: t) = countRead t :=
  rfl

theorem countRead_wasRead (d : DocumentId) (t : List Event) :
    countRead (.wasRead d :: t) = countRead t + 1 :=
  List.countP_cons_of_pos rfl

/-- Notices ask for nothing. -/
theorem asked_noted (ns : List Notice) : asked (ns.map .noted) = [] := by
  induction ns with
  | nil => rfl
  | cons n ns ih => exact ih

theorem countRead_noted (ns : List Notice) : countRead (ns.map .noted) = 0 := by
  induction ns with
  | nil => rfl
  | cons n ns ih => exact ih

/-! ## A climb -/

/-- The source finds a document for the name. -/
def Source.finds (source : Source) (id : String) : Bool :=
  match source.locate id with
  | .ok (some _) => true
  | _ => false

variable {source : Source} {cache : Cache} {start : List Runner} {id : String} {c : Climb}

theorem Source.finds_of_located {d : DocumentId} (h : source.locate id = .ok (some d)) :
    source.finds id = true := by
  rw [finds, h]

theorem Source.not_finds_of_absent (h : source.locate id = .ok none) :
    ¬ source.finds id = true := by
  rw [finds, h]
  exact Bool.false_ne_true

theorem Source.not_finds_of_error {failure : Failure} (h : source.locate id = .error failure) :
    ¬ source.finds id = true := by
  rw [finds, h]
  exact Bool.false_ne_true

/-- If no search fails, a climb asks for the names of the runners that it loads, the first one
    first, and then for the name that it learns about. -/
theorem Ascends.asked (h : Ascends source cache start id c) (hsource : source.Searchable) :
    ∃ fresh, c.waiting = fresh ++ start ∧
      asked c.trace = (fresh.map Runner.name).reverse ++ c.learned.map Prod.fst := by
  induction h with
  | cycle => exact ⟨[], rfl, rfl⟩
  | known => exact ⟨[], rfl, rfl⟩
  | missing => exact ⟨[], rfl, rfl⟩
  | @failed start id failure hw hn hl =>
    obtain ⟨found, hfound⟩ := hsource id
    rw [hfound] at hl
    cases hl
  | absent => exact ⟨[], rfl, rfl⟩
  | unusable => exact ⟨[], rfl, rfl⟩
  | @base start id d r hw hn hl hr hp =>
    refine ⟨[r], rfl, ?_⟩
    rw [List.map_singleton, (Source.load_eq_ok hr).1]
    rfl
  | @step start id parent d r c hw hn hl hr hp above ih =>
    obtain ⟨fresh, hwaiting, hasked⟩ := ih
    refine ⟨fresh ++ [r], by rw [hwaiting, List.append_assoc]; rfl, ?_⟩
    rw [asked_append, hasked, List.map_append, List.reverse_append, List.map_singleton,
      (Source.load_eq_ok hr).1]
    rfl

/-- A climb reads the documents that it finds. -/
theorem Ascends.reads (h : Ascends source cache start id c) :
    countRead c.trace = (RunnerCatalog.asked c.trace).countP source.finds := by
  induction h with
  | cycle => rfl
  | known => rfl
  | missing => rfl
  | failed hw hn hl =>
    rw [asked_located, List.countP_cons_of_neg (Source.not_finds_of_error hl)]
    rfl
  | absent hw hn hl =>
    rw [asked_located, List.countP_cons_of_neg (Source.not_finds_of_absent hl)]
    rfl
  | unusable hw hn hl =>
    rw [asked_located, List.countP_cons_of_pos (Source.finds_of_located hl)]
    rfl
  | base hw hn hl =>
    rw [asked_located, List.countP_cons_of_pos (Source.finds_of_located hl)]
    rfl
  | @step start id parent d r c hw hn hl hr hp above ih =>
    show countRead (.located id :: .wasRead d :: c.trace) = _
    rw [countRead_located, countRead_wasRead, ih]
    show _ = (RunnerCatalog.asked (.located id :: .wasRead d :: c.trace)).countP _
    rw [asked_located, asked_wasRead, List.countP_cons_of_pos (Source.finds_of_located hl)]

/-! ## Fetching -/

/-- On the way from one cache to another each name was asked for at most once: those that were
    unknown before and are known afterwards.  The documents that were found were read, and `again`
    others. -/
structure Fetched (source : Source) (before after : Cache) (trace : List Event) (again : Nat) :
    Prop where
  nodup : (asked trace).Nodup
  unknown : ∀ id ∈ asked trace, before.get? id = none
  known : ∀ id ∈ asked trace, after.get? id ≠ none
  reads : countRead trace = (asked trace).countP source.finds + again
  kept : ∀ id, before.get? id ≠ none → after.get? id ≠ none

namespace Fetched

variable {before now after : Cache} {t u : List Event} {m n : Nat}

theorem refl (source : Source) (cache : Cache) : Fetched source cache cache [] 0 where
  nodup := List.nodup_nil
  unknown := fun _ h => absurd h List.not_mem_nil
  known := fun _ h => absurd h List.not_mem_nil
  reads := rfl
  kept := fun _ h => h

/-- What was asked for first is known by then, and is not asked for again. -/
theorem trans (h : Fetched source before now t m) (h' : Fetched source now after u n) :
    Fetched source before after (t ++ u) (m + n) where
  nodup := by
    rw [asked_append]
    refine h.nodup.append h'.nodup (fun id hid hid' => ?_)
    exact h.known id hid (h'.unknown id hid')
  unknown := by
    intro id hid
    rw [asked_append] at hid
    rcases List.mem_append.mp hid with hid | hid
    · exact h.unknown id hid
    · by_contra hbefore
      exact h.kept id hbefore (h'.unknown id hid)
  known := by
    intro id hid
    rw [asked_append] at hid
    rcases List.mem_append.mp hid with hid | hid
    · exact h'.kept id (h.known id hid)
    · exact h'.known id hid
  reads := by
    rw [countRead_append, asked_append, List.countP_append, h.reads, h'.reads]
    omega
  kept := fun id hid => h'.kept id (h.kept id hid)

/-- Notices do not count. -/
theorem noted (h : Fetched source before after t n) (ns : List Notice) :
    Fetched source before after (t ++ ns.map .noted) n := by
  have hasked : asked (t ++ ns.map .noted) = asked t := by
    rw [asked_append, asked_noted, List.append_nil]
  have hreads : countRead (t ++ ns.map .noted) = countRead t := by
    rw [countRead_append, countRead_noted, Nat.add_zero]
  refine ⟨hasked ▸ h.nodup, fun id hid => ?_, fun id hid => ?_, ?_, h.kept⟩
  · exact h.unknown id (hasked ▸ hid)
  · exact h.known id (hasked ▸ hid)
  · rw [hreads, hasked, h.reads]

/-- A document is read that was not searched for. -/
theorem wasRead (h : Fetched source before after t n) (d : DocumentId) :
    Fetched source before after (.wasRead d :: t) (n + 1) where
  nodup := h.nodup
  unknown := h.unknown
  known := h.known
  reads := by
    rw [countRead_wasRead, asked_wasRead, h.reads, Nat.add_assoc]
  kept := h.kept

end Fetched

/-- What a climb asks for is what it adds. -/
theorem Ascent.fetched {fresh : List Runner} (h : Ascent source cache start id fresh c)
    (hasked : asked c.trace = (fresh.map Runner.name).reverse ++ c.learned.map Prod.fst)
    (hreads : countRead c.trace = (asked c.trace).countP source.finds) :
    Fetched source cache (c.settle cache) c.trace 0 := by
  have hmem : ∀ k ∈ asked c.trace,
      (∃ r ∈ fresh, r.name = k) ∨ ∃ e, (k, e) ∈ c.learned := by
    intro k hk
    rw [hasked, List.mem_append, List.mem_reverse] at hk
    rcases hk with hk | hk
    · exact .inl (List.mem_map.mp hk)
    · obtain ⟨⟨k, e⟩, he, rfl⟩ := List.mem_map.mp hk
      exact .inr ⟨e, he⟩
  refine ⟨?_, fun k hk => ?_, fun k hk => ?_, hreads, fun k hk => ?_⟩
  · have hnodup := h.nodup_entries
    rw [Climb.keys_entries, h.waiting_eq, List.map_append, ← List.append_assoc] at hnodup
    have hadded := (List.nodup_append.mp hnodup).1
    have hperm : (asked c.trace).Perm (c.learned.map Prod.fst ++ fresh.map Runner.name) := by
      rw [hasked]
      exact List.perm_append_comm.trans ((List.reverse_perm _).append_left _)
    exact hperm.nodup_iff.mpr hadded
  · rcases hmem k hk with ⟨r, hr, rfl⟩ | ⟨e, he⟩
    · exact (h.own r hr).2
    · exact (h.of_mem_learned he).1
  · rcases hmem k hk with ⟨r, hr, rfl⟩ | ⟨e, he⟩
    · obtain ⟨s, -, -, hget⟩ := h.get?_waiting (h.waiting_eq ▸ List.mem_append_left start hr)
      exact Cache.known_of_get? hget
    · exact Cache.known_of_get? (h.get?_learned he)
  · by_cases hstart : k ∈ start.map Runner.name
    · obtain ⟨r, hr, rfl⟩ := List.mem_map.mp hstart
      obtain ⟨s, -, -, hget⟩ := h.get?_waiting (h.mem_waiting hr)
      exact Cache.known_of_get? hget
    · obtain ⟨e, he⟩ := Option.ne_none_iff_exists'.mp hk
      exact Cache.known_of_get? (h.kept he hstart)

/-- A climb on behalf of runners that can wait fetches what it adds. -/
theorem fetched_climb (hsource : source.Searchable) (cache : Cache) (hs : Awaits start id) :
    Fetched source cache ((climb source cache start id).settle cache)
      (climb source cache start id).trace 0 := by
  have hclimb := climb_ascends source cache start id
  obtain ⟨fresh, hascent⟩ := hclimb.exists_ascent hs
  obtain ⟨fresh', hwaiting, hasked⟩ := hclimb.asked hsource
  obtain rfl : fresh = fresh' := List.append_cancel_right (hascent.waiting_eq.symm.trans hwaiting)
  exact hascent.fetched hasked hclimb.reads

namespace Cache

variable {order : Order} {d : DocumentId}

theorem fetched_resolve (hsource : source.Searchable) (cache : Cache) (id : String) :
    Fetched source cache (resolve source cache id).cache (resolve source cache id).trace 0 :=
  (fetched_climb hsource cache (awaits_nil id)).noted _

/-- Storing a runner asks for nothing. -/
theorem fetched_store (source : Source) (cache : Cache) (r : Runner) :
    Fetched source cache (cache.store r) [] 0 where
  nodup := List.nodup_nil
  unknown := fun _ h => absurd h List.not_mem_nil
  known := fun _ h => absurd h List.not_mem_nil
  reads := rfl
  kept := by
    intro k hk
    rw [store, OrderedMap.get?_insert]
    split
    · exact nofun
    · exact hk

theorem fetched_relink (hsource : source.Searchable) (cache : Cache) (r : Runner) :
    Fetched source cache (relink source cache r).cache (relink source cache r).trace 0 := by
  unfold relink
  split
  · exact fetched_store source cache r.detach
  · next parent hp => exact (fetched_climb hsource cache (awaits_singleton hp)).noted _

/-- A runner that is read again costs one reading more. -/
theorem fetched_reread (hsource : source.Searchable) (cache : Cache) (id : String)
    (d : DocumentId) :
    Fetched source cache (reread source cache id d).cache (reread source cache id d).trace 1 := by
  unfold reread
  split
  · next r _ => exact (fetched_relink hsource cache r).wasRead d
  · next failure _ =>
    exact ((fetched_store source cache (Runner.blank id (some d))).noted
      [.notReread id failure]).wasRead d

end Cache

/-- A refresh fetches what it adds. -/
theorem Refreshing.fetched {now : Cache} {root : String} {done : List String} {trace : List Event}
    (h : Refreshing source cache root done now trace) (hsource : source.Searchable) :
    Fetched source cache now trace 0 := by
  induction h with
  | start => exact .refl source cache
  | @next done now trace r parent before hnew hr hp hdone ih =>
    exact ih.trans ((Cache.fetched_relink hsource now r).noted [.rebuilt r.name parent])

namespace Cache

variable {order : Order} {d : DocumentId}

/-- A change of a document costs one reading more if the document is somebody's. -/
theorem Filed.fetched_invalidate (order : Order) (hsource : source.Searchable) (hc : cache.Filed)
    (d : DocumentId) :
    Fetched source cache (Cache.invalidate order source cache d).cache
      (Cache.invalidate order source cache d).trace (if cache.owners d ≠ [] then 1 else 0) := by
  by_cases hnone : cache.owners d = []
  · rw [if_neg (not_not.mpr hnone), invalidate_of_not_owned order source hnone]
    exact (Fetched.refl source cache).noted [.unrelated d]
  · rw [if_pos hnone]
    cases harrange : order.arrange .owners (cache.owners d) with
    | nil => exact absurd (List.Perm.nil_eq (harrange ▸ order.perm _ _)).symm hnone
    | cons x rest =>
      have hreread := fetched_reread hsource cache x d
      have hrefresh := (refresh_run order source (hc.reread source x d) x).1.fetched hsource
      have hnoted := (Fetched.refl source cache).noted [.rereading x d]
      rw [Cache.invalidate, harrange]
      exact hnoted.trans (hreread.trans hrefresh)

end Cache

/-! ## A run -/

/-- Requests that make the cache forget something. -/
def Request.forgets : Request → Bool
  | .forgetMissing => true
  | .resetAll => true
  | _ => false

/-- The turn tells the cache about a change of a document that is somebody's. -/
def Turn.rereads (turn : Turn) (cache : Cache) : Bool :=
  match turn.request with
  | .invalidate d => cache.owners d ≠ []
  | _ => false

/-- **One turn** fetches what it adds. -/
theorem Turn.fetched (turn : Turn) (hsource : turn.source.Searchable) (hc : cache.Filed)
    (hkeeps : turn.request.forgets = false) :
    Fetched turn.source cache (turn.apply cache) (turn.trace cache)
      (if turn.rereads cache then 1 else 0) := by
  obtain ⟨request, source, order⟩ := turn
  cases request with
  | resolve id => exact Cache.fetched_resolve hsource cache id
  | invalidate d =>
    simp only [Turn.rereads, decide_eq_true_eq]
    exact hc.fetched_invalidate order hsource d
  | forgetMissing => cases hkeeps
  | resetAll => cases hkeeps

/-- The names for which a document was found, in some turns of which the first finds `cache`. -/
def Cache.found (cache : Cache) (turns : List Turn) : List String :=
  (cache.stages turns).flatMap fun s => (asked (s.1.trace s.2)).filter s.1.source.finds

/-- By induction on the turns: what the first one asks for is known to all others. -/
theorem Cache.Filed.fetched_history (hc : cache.Filed) (turns : List Turn)
    (hsource : ∀ turn ∈ turns, turn.source.Searchable)
    (hkeeps : ∀ turn ∈ turns, turn.request.forgets = false) :
    (asked (cache.history turns)).Nodup ∧
      (∀ id ∈ asked (cache.history turns), cache.get? id = none) ∧
      countRead (cache.history turns) =
        (cache.found turns).length + (cache.stages turns).countP fun s => s.1.rereads s.2 := by
  induction turns generalizing cache with
  | nil => exact ⟨List.nodup_nil, fun _ h => absurd h List.not_mem_nil, rfl⟩
  | cons turn turns ih =>
    have hfirst := turn.fetched (hsource turn List.mem_cons_self) hc
      (hkeeps turn List.mem_cons_self)
    obtain ⟨hnodup, hunknown, hreads⟩ := ih (hc.turn turn)
      (fun t ht => hsource t (List.mem_cons_of_mem _ ht))
      (fun t ht => hkeeps t (List.mem_cons_of_mem _ ht))
    have hhistory : cache.history (turn :: turns) =
        turn.trace cache ++ (turn.apply cache).history turns := rfl
    have hfound : cache.found (turn :: turns) =
        (asked (turn.trace cache)).filter turn.source.finds ++ (turn.apply cache).found turns := rfl
    rw [hhistory, asked_append, countRead_append]
    refine ⟨hfirst.nodup.append hnodup (fun id hid hid' => ?_), fun id hid => ?_, ?_⟩
    · exact hfirst.known id hid (hunknown id hid')
    · rcases List.mem_append.mp hid with hid | hid
      · exact hfirst.unknown id hid
      · by_contra hbefore
        exact hfirst.kept id hbefore (hunknown id hid)
    · rw [hfound, List.length_append, stages, List.countP_cons, hreads, hfirst.reads,
        List.countP_eq_length_filter]
      dsimp only
      omega

/-- **Each runner is fetched once.**  Over a whole run in which nothing is forgotten and no search
    fails, whatever the documents do in between, no name is asked for twice; and what is read are
    the documents that were found, and one for each change of a document that was somebody's. -/
theorem fetched_once (turns : List Turn) (hsource : ∀ turn ∈ turns, turn.source.Searchable)
    (hkeeps : ∀ turn ∈ turns, turn.request.forgets = false) :
    (asked (Cache.history OrderedMap.empty turns)).Nodup ∧
      countRead (Cache.history OrderedMap.empty turns) =
        (Cache.found OrderedMap.empty turns).length +
          (Cache.stages OrderedMap.empty turns).countP fun s => s.1.rereads s.2 := by
  obtain ⟨hnodup, -, hreads⟩ := Cache.filed_empty.fetched_history turns hsource hkeeps
  exact ⟨hnodup, hreads⟩

/-- `c` extends `b`, which has no document and gets none; `a` comes to extend `c`. -/
theorem fetched_once_rewired :
    let shelf : Shelf := ⟨OrderedMap.ofList [
      ("a", "\x7b\x7d"), ("c", "\x7b\"extends\": \"b\"\x7d")], []⟩
    let edited := shelf.put "a" "\x7b\"extends\": \"c\"\x7d"
    let turns : List Turn := [⟨.resolve "a", shelf.source, .arrival⟩,
      ⟨.invalidate (Shelf.documentOf "a"), edited.source, .arrival⟩,
      ⟨.resolve "c", edited.source, .arrival⟩, ⟨.resolve "b", edited.source, .arrival⟩]
    asked (Cache.history OrderedMap.empty turns) = ["a", "c", "b"] ∧
      Cache.found OrderedMap.empty turns = ["a", "c"] ∧
      countRead (Cache.history OrderedMap.empty turns) = 2 +
        (Cache.stages OrderedMap.empty turns).countP fun s => s.1.rereads s.2 := by
  intro shelf edited turns
  have hfound : Cache.found OrderedMap.empty turns = ["a", "c"] := by decide +kernel
  refine ⟨by decide +kernel, hfound, ?_⟩
  have hreads := (fetched_once turns (fun turn hturn => ?_) (fun turn hturn => ?_)).2
  · rw [hreads, hfound]
    rfl
  · simp only [turns, List.mem_cons, List.not_mem_nil, or_false] at hturn
    rcases hturn with rfl | rfl | rfl | rfl <;> exact Shelf.searchable rfl
  · simp only [turns, List.mem_cons, List.not_mem_nil, or_false] at hturn
    rcases hturn with rfl | rfl | rfl | rfl <;> rfl

end RunnerCatalog
