/-
  Loading as a recursion.

  To ask for a runner is to load it, unless it is known; to load it is to merge it with the runner
  that it extends, and that one is asked for first.  `climb` makes of this a way up and a way down,
  and bounds the way up.  Here the recursion itself is spelled out, without a bound, together with
  what is handed from one level of it to the next.

  1. **Rules** - `Obtains` says what comes of asking for a runner, `Merges` what comes of merging one
     with its parent.  What comes of it is a runner, or none, or `Trouble`; a cycle is passed on to
     everybody who waits, a document that cannot be used is not.

  2. **One level** - `Climb.part` is the upper part of a climb, and `Climb.HandsDown` what it hands
     down to the next runner below.  That runner is merged as the rules say (`exists_merging`).

  3. **All levels** - by induction on the way up, every climb ends as the recursion does: asking for
     a runner (`obtains_resolve`) and linking one again (`merges_relink`) follow the rules, and so
     the recursion has an end.
-/
import RunnerCatalog.Proofs.Settle
import RunnerCatalog.Proofs.WalkBack

namespace RunnerCatalog

/-! ## The rules -/

/-- Why a runner is not handed to one that extends it. -/
inductive Trouble
  /-- Its document is of no use. -/
  | unusable (failure : Failure)
  /-- The way from it leads back to a runner that waits. -/
  | cycle (path : List String)

mutual

/-- What comes of asking for the runner `id` while `waiting` wait for it: the outcome, the cache
    afterwards, what happened, and the runners that waited for a parent when most of them did. -/
inductive Obtains (source : Source) : Cache → List Runner → String →
    Except Trouble (Option Runner) → Cache → List Event → List Runner → Prop
  | known {cache : Cache} {waiting : List Runner} {id : String} {r : Runner}
      (hr : cache.get? id = some (.loaded r)) :
      Obtains source cache waiting id (.ok (some r)) cache [] waiting
  | missing {cache : Cache} {waiting : List Runner} {id : String}
      (hm : cache.get? id = some .missing) :
      Obtains source cache waiting id (.ok none) cache [] waiting
  | waits {cache : Cache} {waiting : List Runner} {id : String} (hn : cache.get? id = none)
      (hid : id ∈ chainOf waiting) :
      Obtains source cache waiting id (.error (.cycle (chainOf waiting ++ [id]))) cache [] waiting
  | failed {cache : Cache} {waiting : List Runner} {id : String} {failure : Failure}
      (hn : cache.get? id = none) (hid : id ∉ chainOf waiting)
      (hl : source.locate id = .error failure) :
      Obtains source cache waiting id (.ok none) cache
        [.located id, .noted (.searchFailed id failure)] waiting
  | absent {cache : Cache} {waiting : List Runner} {id : String}
      (hn : cache.get? id = none) (hid : id ∉ chainOf waiting) (hl : source.locate id = .ok none) :
      Obtains source cache waiting id (.ok none) (cache.insert id .missing)
        [.located id, .noted (.noDocument id)] waiting
  | unusable {cache : Cache} {waiting : List Runner} {id : String} {d : DocumentId}
      {failure : Failure} (hn : cache.get? id = none) (hid : id ∉ chainOf waiting)
      (hl : source.locate id = .ok (some d)) (hr : source.load id d = .error failure) :
      Obtains source cache waiting id (.error (.unusable failure))
        (cache.insert id (.loaded (Runner.blank id (some d))))
        [.located id, .wasRead d, .noted (.unusable id failure)] waiting
  | merged {cache now : Cache} {waiting stack : List Runner} {id : String} {d : DocumentId}
      {r s : Runner} {trace : List Event} (hn : cache.get? id = none) (hid : id ∉ chainOf waiting)
      (hl : source.locate id = .ok (some d)) (hr : source.load id d = .ok r)
      (merges : Merges source cache waiting r s none now trace stack) :
      Obtains source cache waiting id (.ok (some s)) (now.insert id (.loaded s))
        ([.located id, .wasRead d] ++ trace ++ [.noted (.loaded id d.path)]) stack
  | notMerged {cache now : Cache} {waiting stack : List Runner} {id : String} {d : DocumentId}
      {r s : Runner} {path : List String} {trace : List Event} (hn : cache.get? id = none)
      (hid : id ∉ chainOf waiting) (hl : source.locate id = .ok (some d))
      (hr : source.load id d = .ok r)
      (merges : Merges source cache waiting r s (some path) now trace stack) :
      Obtains source cache waiting id (.error (.cycle path)) (now.insert id (.loaded s))
        ([.located id, .wasRead d] ++ trace ++ [.noted (.notMerged id (.cycle path))]) stack

/-- What comes of merging a runner with the one that it extends, while `waiting` wait for it: the
    runner, the cycle that was met if one was, the cache afterwards, what happened, and the runners
    that waited for a parent when most of them did. -/
inductive Merges (source : Source) : Cache → List Runner → Runner → Runner →
    Option (List String) → Cache → List Event → List Runner → Prop
  | base {cache : Cache} {waiting : List Runner} {r : Runner} (hp : r.parent = none) :
      Merges source cache waiting r r.detach none cache [] waiting
  | back {cache : Cache} {waiting : List Runner} {r : Runner} {parent : String}
      {walk : List String} (hp : r.parent = some parent)
      (hw : Cache.Walks cache (chainOf (r :: waiting)) [] parent (some walk)) :
      Merges source cache waiting r r.detach (some (chainOf (r :: waiting) ++ walk)) cache []
        (r :: waiting)
  | over {cache now : Cache} {waiting stack : List Runner} {r q : Runner} {parent : String}
      {trace : List Event} (hp : r.parent = some parent)
      (hw : Cache.Walks cache (chainOf (r :: waiting)) [] parent none)
      (above : Obtains source cache (r :: waiting) parent (.ok (some q)) now trace stack) :
      Merges source cache waiting r (r.inherit q) none now trace stack
  | alone {cache now : Cache} {waiting stack : List Runner} {r : Runner} {parent : String}
      {trace : List Event} (hp : r.parent = some parent)
      (hw : Cache.Walks cache (chainOf (r :: waiting)) [] parent none)
      (above : Obtains source cache (r :: waiting) parent (.ok none) now trace stack) :
      Merges source cache waiting r r.detach none now
        (trace ++ [.noted (.unknownParent r.name parent)]) stack
  | cycle {cache now : Cache} {waiting stack : List Runner} {r : Runner} {parent : String}
      {path : List String} {trace : List Event} (hp : r.parent = some parent)
      (hw : Cache.Walks cache (chainOf (r :: waiting)) [] parent none)
      (above : Obtains source cache (r :: waiting) parent (.error (.cycle path)) now trace stack) :
      Merges source cache waiting r r.detach (some path) now trace stack
  | spared {cache now : Cache} {waiting stack : List Runner} {r : Runner} {parent : String}
      {failure : Failure} {trace : List Event} (hp : r.parent = some parent)
      (hw : Cache.Walks cache (chainOf (r :: waiting)) [] parent none)
      (above : Obtains source cache (r :: waiting) parent (.error (.unusable failure)) now trace
        stack) :
      Merges source cache waiting r r.detach none now trace stack

end

/-- The cycle that an outcome tells of. -/
def cycleIn : Except Trouble (Option Runner) → Option (List String)
  | .error (.cycle path) => some path
  | _ => none

/-- Merging changes what is inherited and nothing else. -/
theorem Merges.detach {source : Source} {cache now : Cache} {waiting stack : List Runner}
    {r s : Runner} {cycle : Option (List String)} {trace : List Event}
    (h : Merges source cache waiting r s cycle now trace stack) : s.detach = r.detach := by
  cases h <;> rfl

/-- What is reported about a newly loaded runner in the end. -/
def Runner.verdict (r : Runner) : Option (List String) → Notice
  | none => Climb.readyNotice r
  | some path => .notMerged r.name (.cycle path)

/-- What is reported about a runner that was there before, in the end. -/
def Runner.complaints (r : Runner) : Option (List String) → List Notice
  | none => []
  | some path => [.notMerged r.name (.cycle path)]

/-! ## One level -/

namespace Climb

/-- The part of a climb above some of those who waited. -/
def part (c : Climb) (upper : List Runner) : Climb := { c with waiting := upper }

/-- The runners that wait for a parent: all of them but a last one that extends nothing. -/
def waiters (c : Climb) : List Runner :=
  match c.summit with
  | .base => c.waiting.tail
  | _ => c.waiting

/-- The cycle at the summit, if there is one. -/
def cycle? (c : Climb) : Option (List String) :=
  match c.summit with
  | .cycle path => some path
  | _ => none

/-- What a climb for `id` hands down when all who waited for it are below. -/
inductive HandsDown (c : Climb) (id : String) : Except Trouble (Option Runner) → Prop
  | cycle {path : List String} (hs : c.summit = .cycle path) : HandsDown c id (.error (.cycle path))
  | linked {r : Runner} (hs : ∀ path, c.summit ≠ .cycle path) (hr : c.linked.getLast? = some r) :
      HandsDown c id (.ok (some r))
  | known {q : Runner} (hw : c.waiting = []) (hs : c.summit = .over q) :
      HandsDown c id (.ok (some q))
  | unknown (hw : c.waiting = []) (hs : c.summit = .unknown id) : HandsDown c id (.ok none)
  | unusable {failure : Failure} (hw : c.waiting = []) (hs : c.summit = .unusable id) :
      HandsDown c id (.error (.unusable failure))

/-- A cycle at the summit is handed down, and no other. -/
theorem HandsDown.cycleIn {c : Climb} {id : String} {outcome : Except Trouble (Option Runner)}
    (h : c.HandsDown id outcome) : cycleIn outcome = c.cycle? := by
  unfold cycle?
  cases h with
  | cycle hs => rw [hs]; rfl
  | linked hs hr =>
    split
    · next path h => exact absurd h (hs path)
    · rfl
  | known hw hs => rw [hs]; rfl
  | unknown hw hs => rw [hs]; rfl
  | unusable hw hs => rw [hs]; rfl

theorem HandsDown.withTrace {c : Climb} {id : String} {outcome : Except Trouble (Option Runner)}
    (h : c.HandsDown id outcome) (trace : List Event) :
    HandsDown { c with trace := trace } id outcome := by
  cases h with
  | cycle hs => exact .cycle hs
  | linked hs hr => exact .linked hs hr
  | known hw hs => exact .known hw hs
  | unknown hw hs => exact .unknown hw hs
  | unusable hw hs => exact .unusable hw hs

theorem linkDown_concat (upper : Option Runner) (ws : List Runner) (r : Runner) :
    linkDown upper (ws ++ [r]) =
      linkDown upper ws ++ [r.over ((linkDown upper ws).getLast?.or upper)] := by
  induction ws generalizing upper with
  | nil => cases upper <;> rfl
  | cons w ws ih =>
    rw [List.cons_append, linkDown_cons, ih, linkDown_cons, List.cons_append, List.getLast?_cons]
    cases (linkDown (some (w.over upper)) ws).getLast? <;> rfl

/-- Nobody is linked where nobody waits. -/
theorem linked_part_nil (c : Climb) : (c.part []).linked = [] := by
  unfold linked
  split
  · rfl
  · cases (c.part []).parent? <;> rfl

theorem readyNotice_of_document {r : Runner} {d : DocumentId} (h : r.document = some d) :
    readyNotice r = .loaded r.name d.path := by
  rw [readyNotice, h]
  rfl

/-- Of a missing parent, only the topmost runner is told. -/
theorem parentNotices_part_cons (c : Climb) (top : Runner) (rest : List Runner) :
    (c.part (top :: rest)).parentNotices = (c.part [top]).parentNotices := by
  unfold parentNotices part
  cases c.summit <;> rfl

/-- Nothing is reported either. -/
theorem notices_part_nil (c : Climb) : (c.part []).notices = [] := by
  unfold notices parentNotices part
  cases c.summit <;> rfl

/-- A runner joins below. -/
theorem linked_part_concat (c : Climb) (hs : ∀ path, c.summit ≠ .cycle path) (upper : List Runner)
    (r : Runner) :
    (c.part (upper ++ [r])).linked = (c.part upper).linked ++
      [r.over ((c.part upper).linked.getLast?.or c.parent?)] := by
  rw [linked_of_summit (c.part (upper ++ [r])) hs, linked_of_summit (c.part upper) hs]
  exact linkDown_concat _ _ _

/-- The runner that joins below is stored last. -/
theorem settle_part_concat {c : Climb} {upper : List Runner} {r s : Runner} (cache : Cache)
    (h : (c.part (upper ++ [r])).linked = (c.part upper).linked ++ [s]) :
    (c.part (upper ++ [r])).settle cache = ((c.part upper).settle cache).store s := by
  rw [settle, h, Cache.storeAll, List.foldl_concat]
  rfl

/-- On a cycle, each runner that joins below keeps what it declares. -/
theorem linked_part_cycle {c : Climb} {path : List String} (hs : c.summit = .cycle path)
    (upper : List Runner) (r : Runner) :
    (c.part (upper ++ [r])).linked = (c.part upper).linked ++ [r.detach] := by
  rw [linked, linked]
  simp only [part, hs, List.map_append, List.map_cons, List.map_nil]

/-- On a cycle, the same is reported about each runner. -/
theorem notices_part_cycle {c : Climb} {path : List String} (hs : c.summit = .cycle path)
    (upper : List Runner) (r : Runner) :
    (c.part (upper ++ [r])).notices = (c.part upper).notices ++ [r.verdict (some path)] ∧
      (c.part (upper ++ [r])).relinkNotices =
        (c.part upper).notices ++ r.complaints (some path) := by
  rw [notices, notices, relinkNotices]
  simp only [part, hs, List.map_append, List.map_cons, List.map_nil]
  exact ⟨rfl, rfl⟩

theorem notices_of_summit (c : Climb) (hs : ∀ path, c.summit ≠ .cycle path) :
    c.notices = c.parentNotices ++ c.waiting.map readyNotice := by
  unfold notices
  split
  · next path h => exact absurd h (hs path)
  · rfl

/-- Without a cycle, each runner that joins below is ready in the end. -/
theorem notices_part_concat {c : Climb} (hs : ∀ path, c.summit ≠ .cycle path)
    (upper : List Runner) (r : Runner) :
    (c.part (upper ++ [r])).notices =
        (c.part (upper ++ [r])).parentNotices ++ upper.map readyNotice ++ [r.verdict none] ∧
      (c.part (upper ++ [r])).relinkNotices =
        (c.part (upper ++ [r])).parentNotices ++ upper.map readyNotice ++ r.complaints none := by
  rw [notices, relinkNotices]
  simp only [part]
  cases hsummit : c.summit with
  | cycle path => exact absurd hsummit (hs path)
  | _ =>
    simp only [List.map_append, List.map_cons, List.map_nil, List.dropLast_concat,
      List.append_assoc]
    exact ⟨rfl, (List.append_nil _).symm ▸ rfl⟩

end Climb

/-- The runner `r`, below the part of the climb with the runners of `fresh`, is merged. -/
structure Merging (source : Source) (cache : Cache) (start : List Runner) (r : Runner) (c : Climb)
    (fresh : List Runner) (s : Runner) (cycle : Option (List String)) (now : Cache)
    (trace : List Event) : Prop where
  waiting_eq : c.waiting = fresh ++ r :: start
  merges : Merges source cache start r s cycle now trace c.waiters
  settled : (c.part (fresh ++ [r])).settle cache = now.store s
  /-- The runner comes out of the climb as it comes out of the merge. -/
  handsDown : (c.part (fresh ++ [r])).HandsDown r.name
    (match cycle with | none => .ok (some s) | some path => .error (.cycle path))
  /-- What is reported on the way, and about the runner in the end. -/
  noted : ∃ before : List Notice, trace = c.trace ++ before.map .noted ∧
    (c.part (fresh ++ [r])).notices = before ++ [r.verdict cycle] ∧
    (c.part (fresh ++ [r])).relinkNotices = before ++ r.complaints cycle

/-- A climb from `id`, which `start` waited for, is what the recursion does: the way from `id` leads
    back to them, or `id` is asked for. -/
inductive Descends (source : Source) (cache : Cache) (start : List Runner) (id : String)
    (c : Climb) : Prop
  | back {walk : List String} (hw : cache.walkInto (chainOf start) id = some walk)
      (hc : c = ⟨start, .cycle (chainOf start ++ walk), [], []⟩)
  | asks (fresh : List Runner) {outcome : Except Trouble (Option Runner)}
      (hw : cache.walkInto (chainOf start) id = none) (hc : c.waiting = fresh ++ start)
      (hands : (c.part fresh).HandsDown id outcome)
      (obtains : Obtains source cache start id outcome ((c.part fresh).settle cache)
        (c.trace ++ (c.part fresh).notices.map .noted) c.waiters)

section

variable {source : Source} {cache : Cache} {start : List Runner} {r : Runner} {parent : String}
  {c : Climb}

/-- Without a cycle above, a merged runner is linked over what is handed down. -/
theorem Merging.ofLinked {fresh : List Runner} {s : Runner} {now : Cache} {trace : List Event}
    (hc : c.waiting = fresh ++ r :: start) (hs : ∀ path, c.summit ≠ .cycle path)
    (hover : r.over ((c.part fresh).linked.getLast?.or c.parent?) = s)
    (hnow : (c.part fresh).settle cache = now)
    (htrace : c.trace ++ ((c.part (fresh ++ [r])).parentNotices ++
      fresh.map Climb.readyNotice).map .noted = trace)
    (merges : Merges source cache start r s none now trace c.waiters) :
    Merging source cache start r c fresh s none now trace := by
  have hlinked := c.linked_part_concat hs fresh r
  rw [hover] at hlinked
  refine ⟨hc, merges, ?_, .linked hs ?_, _, htrace.symm, Climb.notices_part_concat hs fresh r⟩
  · rw [Climb.settle_part_concat cache hlinked, hnow]
  · rw [hlinked, List.getLast?_concat]

/-- The topmost runner is linked over what is at the summit. -/
theorem Merging.ofTop {s : Runner} {trace : List Event}
    (hc : c.waiting = r :: start) (hs : ∀ path, c.summit ≠ .cycle path)
    (hover : r.over c.parent? = s)
    (htrace : c.trace ++ (c.part [r]).parentNotices.map .noted = trace)
    (merges : Merges source cache start r s none ((c.part []).settle cache) trace c.waiters) :
    Merging source cache start r c [] s none ((c.part []).settle cache) trace := by
  refine .ofLinked hc hs ?_ rfl ?_ merges
  · rw [c.linked_part_nil]
    exact hover
  · rw [List.map_nil, List.append_nil]
    exact htrace

/-- **One level**: whatever is handed down, the runner below is merged with it by the rules. -/
theorem exists_merging (hp : r.parent = some parent)
    (h : Descends source cache (r :: start) parent c) :
    ∃ fresh s cycle now trace, Merging source cache start r c fresh s cycle now trace := by
  cases h with
  | @back walk hw hc =>
    subst hc
    exact ⟨[], r.detach, some (chainOf (r :: start) ++ walk), cache, [], rfl,
      .back hp (Cache.walks_of_walkInto hw), rfl, .cycle rfl, [], rfl, rfl, rfl⟩
  | @asks fresh outcome hw hc hands obtains =>
    have hwalks := Cache.walks_of_walkInto hw
    cases hands with
    | @cycle path hs =>
      have hlinked := Climb.linked_part_cycle hs fresh r
      exact ⟨fresh, r.detach, some path, _, _, hc, .cycle hp hwalks obtains,
        Climb.settle_part_concat cache hlinked, .cycle hs, _, rfl,
        Climb.notices_part_cycle hs fresh r⟩
    | @linked q hs hr =>
      refine ⟨fresh, r.inherit q, none, _, _, .ofLinked hc hs ?_ rfl ?_ (.over hp hwalks obtains)⟩
      · rw [hr, Option.some_or]
        rfl
      · rw [(c.part fresh).notices_of_summit hs]
        cases fresh with
        | nil =>
          rw [c.linked_part_nil] at hr
          cases hr
        | cons top rest =>
          rw [List.cons_append, c.parentNotices_part_cons, c.parentNotices_part_cons top rest]
          rfl
    | @known q hw hs =>
      obtain rfl : fresh = [] := hw
      replace hs : c.summit = .over q := hs
      rw [c.notices_part_nil, List.map_nil, List.append_nil] at obtains
      refine ⟨[], r.inherit q, none, _, _, .ofTop hc (by simp [hs]) ?_ ?_
        (.over hp hwalks obtains)⟩
      · rw [Climb.parent?, hs]
        rfl
      · simp only [Climb.parentNotices, Climb.part, hs, List.map_nil, List.append_nil]
    | unknown hw hs =>
      obtain rfl : fresh = [] := hw
      replace hs : c.summit = .unknown parent := hs
      rw [c.notices_part_nil, List.map_nil, List.append_nil] at obtains
      refine ⟨[], r.detach, none, _, _, .ofTop hc (by simp [hs]) ?_ ?_
        (.alone hp hwalks obtains)⟩
      · rw [Climb.parent?, hs]
        rfl
      · simp only [Climb.parentNotices, Climb.part, hs, List.map_cons, List.map_nil]
    | unusable hw hs =>
      obtain rfl : fresh = [] := hw
      replace hs : c.summit = .unusable parent := hs
      rw [c.notices_part_nil, List.map_nil, List.append_nil] at obtains
      refine ⟨[], r.detach, none, _, _, .ofTop hc (by simp [hs]) ?_ ?_
        (.spared hp hwalks obtains)⟩
      · rw [Climb.parent?, hs]
        rfl
      · simp only [Climb.parentNotices, Climb.part, hs, List.map_nil, List.append_nil]

/-! ## All levels -/

/-- A name whose walk finds nobody waiting is not on the chain. -/
theorem notMem_chainOf {waiting : List Runner} {id : String}
    (hw : cache.walkInto (chainOf waiting) id = none) : id ∉ chainOf waiting :=
  fun hid => notMem_of_walkInto hw (mem_chainOf.mp hid)

/-- **The way up and down is the recursion**, by induction on the way up. -/
theorem Ascends.descends {id : String} (h : Ascends source cache start id c) :
    Descends source cache start id c := by
  induction h with
  | cycle hw => exact .back hw rfl
  | known hw hr => exact .asks [] hw rfl (.known rfl rfl) (.known hr)
  | missing hw hm => exact .asks [] hw rfl (.unknown rfl rfl) (.missing hm)
  | failed hw hn hl =>
    exact .asks [] hw rfl (.unknown rfl rfl) (.failed hn (notMem_chainOf hw) hl)
  | absent hw hn hl =>
    exact .asks [] hw rfl (.unknown rfl rfl) (.absent hn (notMem_chainOf hw) hl)
  | unusable hw hn hl hr =>
    exact .asks [] hw rfl (.unusable rfl rfl) (.unusable hn (notMem_chainOf hw) hl hr)
  | @base start id d r hw hn hl hr hp =>
    obtain ⟨rfl, hdocument, -, -⟩ := Source.load_eq_ok hr
    have hobtains := Obtains.merged hn (notMem_chainOf hw) hl hr (.base hp)
    rw [← Climb.readyNotice_of_document hdocument] at hobtains
    exact .asks [r] hw rfl (.linked nofun rfl) hobtains
  | @step start id parent d r c hw hn hl hr hp above ih =>
    obtain ⟨rfl, hdocument, -, -⟩ := Source.load_eq_ok hr
    obtain ⟨fresh, s, cycle, now, trace, m⟩ := exists_merging hp ih
    obtain ⟨before, htrace, hnotices, -⟩ := m.noted
    have hwaiting : c.waiting = (fresh ++ [r]) ++ start := by
      rw [m.waiting_eq, List.append_assoc]
      rfl
    refine .asks (fresh ++ [r]) hw hwaiting (m.handsDown.withTrace _) ?_
    show Obtains source cache start r.name _ ((c.part (fresh ++ [r])).settle cache)
      ([.located r.name, .wasRead d] ++ c.trace ++ (c.part (fresh ++ [r])).notices.map .noted)
      c.waiters
    have hlast : [Event.located r.name, .wasRead d] ++ c.trace ++
        (before ++ [r.verdict cycle]).map .noted =
        [.located r.name, .wasRead d] ++ trace ++ [.noted (r.verdict cycle)] := by
      rw [htrace, List.map_append]
      simp only [List.append_assoc, List.map_cons, List.map_nil]
    rw [m.settled, hnotices, hlast, Cache.store, Runner.name_of_detach m.merges.detach]
    cases cycle with
    | none =>
      have hready : r.verdict none = .loaded r.name d.path := Climb.readyNotice_of_document hdocument
      rw [hready]
      exact .merged hn (notMem_chainOf hw) hl hr m.merges
    | some path => exact .notMerged hn (notMem_chainOf hw) hl hr m.merges

/-- **Asking for a runner** follows the rules. -/
theorem obtains_resolve (source : Source) (cache : Cache) (id : String) :
    ∃ outcome, Obtains source cache [] id outcome (Cache.resolve source cache id).cache
      (Cache.resolve source cache id).trace (climb source cache [] id).waiters := by
  cases (climb_ascends source cache [] id).descends with
  | back hw hc =>
    -- nobody waits for the first runner
    obtain ⟨z, hz, -⟩ := (cache.walkInto_isSome_iff _ _).mp (Option.isSome_of_eq_some hw)
    cases hz
  | @asks fresh outcome hw hc hands obtains =>
    rw [List.append_nil] at hc
    subst hc
    exact ⟨outcome, obtains⟩

/-- **Linking a runner again** follows the rules too. -/
theorem merges_relink (source : Source) (cache : Cache) (r : Runner) :
    ∃ s now trace,
      Merges source cache [] r s (Climb.ofRelink source cache r).cycle? now trace
        (Climb.ofRelink source cache r).waiters ∧
      Cache.relink source cache r = ⟨(), now.store s,
        trace ++ (r.complaints (Climb.ofRelink source cache r).cycle?).map .noted⟩ := by
  unfold Climb.ofRelink Cache.relink
  cases hp : r.parent with
  | none => exact ⟨r.detach, cache, [], .base hp, rfl⟩
  | some parent =>
    obtain ⟨fresh, s, cycle, now, trace, m⟩ :=
      exists_merging hp (climb_ascends source cache [r] parent).descends
    obtain ⟨before, htrace, -, hrelink⟩ := m.noted
    have hpart : (climb source cache [r] parent).part (fresh ++ [r]) =
        climb source cache [r] parent := by
      rw [Climb.part, ← m.waiting_eq]
    have hsettled := m.settled
    have hcycle := m.handsDown.cycleIn
    rw [hpart] at hsettled hrelink hcycle
    obtain rfl : cycle = (climb source cache [r] parent).cycle? := by
      rw [← hcycle]
      cases cycle <;> rfl
    refine ⟨s, now, trace, m.merges, ?_⟩
    simp only
    rw [hsettled, hrelink, htrace, List.map_append, List.append_assoc]

end

end RunnerCatalog
