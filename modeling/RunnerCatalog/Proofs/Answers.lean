/-
  No answer is lost.

  Asking for a runner ends with a runner, with none, or with trouble: some document further up is of
  no use, or the way leads back.  Whoever asked gets an answer from the cache then, so it matters
  what was stored before the trouble was passed on.

  1. **The entry** - at the first level nobody waits, so there are five ways to end, and each leaves
     an entry of its own (`Obtains.ended`): a runner that has a document is stored, whatever became
     of its parent, a name without one is remembered as missing, and a failed search leaves nothing.

  2. **The answer** - what was handed down, or in trouble what the cache has, is always what the cache
     has (`Ended.answer_eq`).  So `answer_kept` tells from the cache before and from the search alone
     what the answer is and what is known afterwards, and asking again changes nothing.
-/
import RunnerCatalog.Proofs.Due
import RunnerCatalog.Proofs.Recursion

namespace RunnerCatalog

/-- The answer to who asked for `id`: the outcome, or in trouble what the cache has then. -/
def Cache.answerTo (after : Cache) (id : String) : Except Trouble (Option Runner) → Option Runner
  | .ok found => found
  | .error _ => after.loaded? id

/-- How asking for `id` can end when nobody waits for it. -/
inductive Ended (source : Source) (cache : Cache) (id : String) (after : Cache) :
    Except Trouble (Option Runner) → List Event → Prop
  | known {r : Runner} (hr : cache.get? id = some (.loaded r)) (hafter : after = cache) :
      Ended source cache id after (.ok (some r)) []
  | missing (hm : cache.get? id = some .missing) (hafter : after = cache) :
      Ended source cache id after (.ok none) []
  | failed {failure : Failure} {trace : List Event} (hn : cache.get? id = none)
      (hl : source.locate id = .error failure) (hafter : after = cache) :
      Ended source cache id after (.ok none) trace
  | absent {trace : List Event} (hn : cache.get? id = none) (hl : source.locate id = .ok none)
      (hafter : after.get? id = some .missing) : Ended source cache id after (.ok none) trace
  | loaded {d : DocumentId} {r : Runner} {outcome : Except Trouble (Option Runner)}
      {trace : List Event} (hn : cache.get? id = none) (hl : source.locate id = .ok (some d))
      (hafter : after.get? id = some (.loaded r))
      (houtcome : outcome = .ok (some r) ∨ ∃ trouble, outcome = .error trouble) :
      Ended source cache id after outcome trace

theorem Cache.get?_insert_self (cache : Cache) (id : String) (e : Entry) :
    (cache.insert id e).get? id = some e :=
  (OrderedMap.get?_insert cache id e id).trans (if_pos rfl)

variable {source : Source} {cache after : Cache} {id : String}
  {outcome : Except Trouble (Option Runner)} {trace : List Event} {stack : List Runner}

/-- **The entry** that is left, by the rule that was followed. -/
theorem Obtains.ended (h : Obtains source cache [] id outcome after trace stack) :
    Ended source cache id after outcome trace := by
  cases h with
  | known hr => exact .known hr rfl
  | missing hm => exact .missing hm rfl
  | waits hn hid => exact absurd hid List.not_mem_nil
  | failed hn hid hl => exact .failed hn hl rfl
  | absent hn hid hl => exact .absent hn hl (Cache.get?_insert_self ..)
  | unusable hn hid hl hr =>
    exact .loaded hn hl (Cache.get?_insert_self ..) (.inr ⟨_, rfl⟩)
  | merged hn hid hl hr merges =>
    exact .loaded hn hl (Cache.get?_insert_self ..) (.inl rfl)
  | notMerged hn hid hl hr merges =>
    exact .loaded hn hl (Cache.get?_insert_self ..) (.inr ⟨_, rfl⟩)

/-- The answer is the runner that the cache has. -/
theorem Ended.answer_eq (h : Ended source cache id after outcome trace) :
    after.answerTo id outcome = after.loaded? id := by
  cases h with
  | known hr hafter =>
    subst hafter
    exact (Cache.loaded?_eq_some_iff.mpr hr).symm
  | missing hm hafter =>
    subst hafter
    exact (Cache.not_loaded_of_missing hm).symm
  | failed hn hl hafter =>
    subst hafter
    rw [Cache.loaded?, hn]
    rfl
  | absent hn hl hafter => exact (Cache.not_loaded_of_missing hafter).symm
  | loaded hn hl hafter houtcome =>
    rcases houtcome with rfl | ⟨trouble, rfl⟩
    · exact (Cache.loaded?_eq_some_iff.mpr hafter).symm
    · rfl

theorem Ended.isSome_iff (h : Ended source cache id after outcome trace) :
    (after.loaded? id).isSome ↔ (∃ r, cache.get? id = some (.loaded r)) ∨
      cache.get? id = none ∧ ∃ d, source.locate id = .ok (some d) := by
  cases h with
  | @known r hr hafter =>
    subst hafter
    rw [Cache.loaded?_eq_some_iff.mpr hr]
    exact ⟨fun _ => .inl ⟨r, hr⟩, fun _ => rfl⟩
  | missing hm hafter =>
    subst hafter
    rw [Cache.not_loaded_of_missing hm, hm]
    simp
  | failed hn hl hafter =>
    subst hafter
    rw [Cache.loaded?, hn, hl]
    simp
  | absent hn hl hafter =>
    rw [Cache.not_loaded_of_missing hafter, hn, hl]
    simp
  | @loaded d r _ _ hn hl hafter houtcome =>
    rw [Cache.loaded?_eq_some_iff.mpr hafter]
    exact ⟨fun _ => .inr ⟨hn, d, hl⟩, fun _ => rfl⟩

theorem Ended.missing_iff (h : Ended source cache id after outcome trace) :
    after.get? id = some .missing ↔ cache.get? id = some .missing ∨
      cache.get? id = none ∧ source.locate id = .ok none := by
  cases h with
  | known hr hafter => subst hafter; simp [hr]
  | missing hm hafter => subst hafter; simp [hm]
  | failed hn hl hafter => subst hafter; simp [hn, hl]
  | absent hn hl hafter => simp [hn, hl, hafter]
  | loaded hn hl hafter houtcome => simp [hn, hl, hafter]

theorem Ended.none_iff (h : Ended source cache id after outcome trace) :
    after.get? id = none ↔
      cache.get? id = none ∧ ∃ failure, source.locate id = .error failure := by
  cases h with
  | known hr hafter => subst hafter; simp [hr]
  | missing hm hafter => subst hafter; simp [hm]
  | failed hn hl hafter => subst hafter; simp [hn, hl]
  | absent hn hl hafter => simp [hn, hl, hafter]
  | loaded hn hl hafter houtcome => simp [hn, hl, hafter]

/-- Where something is known already, nothing is done. -/
theorem Ended.of_known (h : Ended source cache id after outcome trace)
    (hknown : cache.get? id ≠ none) : after = cache ∧ trace = [] := by
  cases h with
  | known hr hafter => exact ⟨hafter, rfl⟩
  | missing hm hafter => exact ⟨hafter, rfl⟩
  | failed hn => exact absurd hn hknown
  | absent hn => exact absurd hn hknown
  | loaded hn => exact absurd hn hknown

/-- What is known already is answered from the cache. -/
theorem Cache.resolve_of_known (source : Source) (hknown : cache.get? id ≠ none) :
    cache.resolve source id = ⟨cache.loaded? id, cache, []⟩ := by
  obtain ⟨outcome, hobtains⟩ := obtains_resolve source cache id
  obtain ⟨hcache, htrace⟩ := hobtains.ended.of_known hknown
  have hvalue : (cache.resolve source id).value = cache.loaded? id :=
    congrArg (fun after => after.loaded? id) hcache
  calc cache.resolve source id
      = ⟨(cache.resolve source id).value, (cache.resolve source id).cache,
          (cache.resolve source id).trace⟩ := rfl
    _ = ⟨cache.loaded? id, cache, []⟩ := by rw [hvalue, hcache, htrace]

/-- **No answer is lost**, whatever goes wrong and wherever: asking for a runner follows the rules
    and ends.  The answer is the runner that the cache has for the name afterwards.  There is one if
    it was known before, or if the name was unknown and has a document; a name is missing if it was
    so before, or if it was unknown and has none; and it stays unknown if the search failed.  To ask
    again for a name that something is known about, at any later time, gives the same answer, does
    nothing and changes nothing. -/
theorem answer_kept (source : Source) (cache : Cache) (id : String) :
    (∃ outcome stack,
      Obtains source cache [] id outcome (cache.resolve source id).cache
        (cache.resolve source id).trace stack ∧
      (cache.resolve source id).value = (cache.resolve source id).cache.answerTo id outcome) ∧
    (∀ r, (cache.resolve source id).value = some r ↔
      (cache.resolve source id).cache.get? id = some (.loaded r)) ∧
    ((cache.resolve source id).value.isSome ↔ (∃ r, cache.get? id = some (.loaded r)) ∨
      cache.get? id = none ∧ ∃ d, source.locate id = .ok (some d)) ∧
    ((cache.resolve source id).cache.get? id = some .missing ↔
      cache.get? id = some .missing ∨ cache.get? id = none ∧ source.locate id = .ok none) ∧
    ((cache.resolve source id).cache.get? id = none ↔
      cache.get? id = none ∧ ∃ failure, source.locate id = .error failure) ∧
    ((cache.resolve source id).cache.get? id ≠ none → ∀ later : Source,
      (cache.resolve source id).cache.resolve later id =
        ⟨(cache.resolve source id).value, (cache.resolve source id).cache, []⟩) := by
  obtain ⟨outcome, hobtains⟩ := obtains_resolve source cache id
  have hended := hobtains.ended
  exact ⟨⟨outcome, _, hobtains, hended.answer_eq.symm⟩,
    fun r => Cache.loaded?_eq_some_iff, hended.isSome_iff, hended.missing_iff, hended.none_iff,
    fun hknown later => Cache.resolve_of_known later hknown⟩

/-- `x` extends `a`, which extends itself: there is trouble at both levels, and yet `x` is answered,
    and answered again when the search for it has come to fail. -/
theorem answer_kept_cycle :
    let shelf : Shelf := ⟨OrderedMap.ofList [
      ("x", "\x7b\"extends\": \"a\"\x7d"), ("a", "\x7b\"extends\": \"a\"\x7d")], []⟩
    let first := Cache.resolve shelf.source OrderedMap.empty "x"
    first.value.isSome = true ∧ first.cache.get? "x" ≠ none ∧
      first.cache.resolve (shelf.fail "x").source "x" = ⟨first.value, first.cache, []⟩ := by
  intro shelf first
  have hknown : first.cache.get? "x" ≠ none := by decide +kernel
  have hkept := (answer_kept shelf.source OrderedMap.empty "x").2.2.2.2.2 hknown
  exact ⟨by decide +kernel, hknown, hkept (shelf.fail "x").source⟩

end RunnerCatalog
