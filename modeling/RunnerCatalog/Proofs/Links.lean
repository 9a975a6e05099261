/-
  Following links.

  A link takes a name to at most one other name.  So the names that are reached from a given one
  lie on a single way: it ends at a name without a link, or it runs into a cycle and stays there.
  Runners are linked like this by what they extend, in the documents as well as in the cache.

  1. **Ways** - `Reaches` (any number of links), `LeadsTo` (at least one), `OnCycle`, and
     `EntersCycle` for names whose way runs into a cycle, those on it included.

  2. **One way only** - of two names on the way of a third, one is on the way of the other
     (`Reaches.total`).  A name on a cycle is reached again from wherever its way leads
     (`OnCycle.returns`).

  3. **Change elsewhere** - what holds of the way of `a` depends only on the links along it
     (`reaches_congr` and its companions).

  4. **Counting** - `nth` follows a given number of links.  A way into a list of names gets
     there within as many links as there are names that have one (`exists_nth_le`): a longer
     one would pass the same name twice.  A way that comes to no cycle has an end (`exists_end`).
-/
import Mathlib.Data.Finset.Card
import Mathlib.Data.Fintype.Pigeonhole
import Mathlib.Data.Nat.Find
import Mathlib.Logic.Relation

namespace RunnerCatalog

/-- What each name links to, if anything. -/
abbrev Links := String → Option String

namespace Links

open Relation (ReflTransGen TransGen)

variable {next next' : Links} {a b c : String}

/-! ## Ways -/

/-- The link of `a` leads to `b`. -/
def Step (next : Links) (a b : String) : Prop := next a = some b

/-- Links lead from `a` to `b`, or `a` is `b`. -/
abbrev Reaches (next : Links) (a b : String) : Prop := ReflTransGen (Step next) a b

/-- One link or more lead from `a` to `b`. -/
abbrev LeadsTo (next : Links) (a b : String) : Prop := TransGen (Step next) a b

/-- The way from `a` comes back to it. -/
def OnCycle (next : Links) (a : String) : Prop := LeadsTo next a a

/-- The way from `a` comes to a cycle. -/
def EntersCycle (next : Links) (a : String) : Prop := ∃ b, Reaches next a b ∧ OnCycle next b

theorem step_rightUnique (next : Links) : Relator.RightUnique (Step next) := by
  intro a b c hb hc
  exact Option.some.inj (hb.symm.trans hc)

/-- **One way only**: of two names on the way from `a`, one comes after the other. -/
theorem Reaches.total (hb : Reaches next a b) (hc : Reaches next a c) :
    Reaches next b c ∨ Reaches next c b :=
  ReflTransGen.total_of_right_unique (step_rightUnique next) hb hc

/-- Every way that goes on from `a` goes on with its link. -/
theorem LeadsTo.after (h : LeadsTo next a c) (hab : next a = some b) : Reaches next b c := by
  obtain ⟨b', hb', hbc⟩ := TransGen.head'_iff.mp h
  obtain rfl : b' = b := Option.some.inj (hb'.symm.trans hab)
  exact hbc

/-- Where there is no link, the way ends. -/
theorem Reaches.eq_of_none (h : Reaches next a b) (ha : next a = none) : b = a := by
  rcases ReflTransGen.cases_head h with hab | ⟨c, hc, -⟩
  · exact hab.symm
  · rw [Step, ha] at hc
    cases hc

theorem not_leadsTo_of_none (ha : next a = none) : ¬ LeadsTo next a b := by
  intro h
  obtain ⟨c, hc, -⟩ := TransGen.head'_iff.mp h
  rw [Step, ha] at hc
  cases hc

/-- A way to another name takes at least one link. -/
theorem Reaches.leadsTo_of_ne (h : Reaches next a b) (hne : b ≠ a) : LeadsTo next a b :=
  (Relation.reflTransGen_iff_eq_or_transGen.mp h).resolve_left hne

/-! ## Cycles -/

/-- The link of a name on a cycle stays on the cycle. -/
theorem OnCycle.step (h : OnCycle next a) (hab : next a = some b) : OnCycle next b :=
  TransGen.tail' (h.after hab) hab

/-- The way of a name on a cycle stays on the cycle. -/
theorem OnCycle.reaches (h : OnCycle next a) (hab : Reaches next a b) : OnCycle next b := by
  induction hab with
  | refl => exact h
  | tail _ hbc ih => exact ih.step hbc

/-- A name on a cycle is reached again from everywhere on its way. -/
theorem OnCycle.returns (h : OnCycle next a) (hab : Reaches next a b) : Reaches next b a := by
  induction hab with
  | refl => exact ReflTransGen.refl
  | @tail b c hab hbc ih =>
    rcases ReflTransGen.cases_head ih with hba | ⟨d, hd, hda⟩
    · exact h.after (hba ▸ hbc)
    · obtain rfl : d = c := Option.some.inj (hd.symm.trans hbc)
      exact hda

theorem OnCycle.entersCycle (h : OnCycle next a) : EntersCycle next a :=
  ⟨a, ReflTransGen.refl, h⟩

theorem EntersCycle.of_reaches (h : EntersCycle next b) (hab : Reaches next a b) :
    EntersCycle next a := by
  obtain ⟨c, hbc, hc⟩ := h
  exact ⟨c, hab.trans hbc, hc⟩

/-- A way that comes to a cycle still does from every name on it. -/
theorem EntersCycle.reaches (h : EntersCycle next a) (hab : Reaches next a b) :
    EntersCycle next b := by
  obtain ⟨c, hac, hc⟩ := h
  rcases hab.total hac with hbc | hcb
  · exact ⟨c, hbc, hc⟩
  · exact (hc.reaches hcb).entersCycle

/-- A way comes to a cycle if and only if it does so behind its first link. -/
theorem entersCycle_iff_step (hab : next a = some b) :
    EntersCycle next a ↔ EntersCycle next b := by
  constructor
  · intro h
    exact h.reaches (ReflTransGen.single hab)
  · intro h
    exact h.of_reaches (ReflTransGen.single hab)

/-- A way that ends comes to no cycle. -/
theorem not_entersCycle_of_none (ha : next a = none) : ¬ EntersCycle next a := by
  rintro ⟨b, hab, hb⟩
  obtain rfl := hab.eq_of_none ha
  exact not_leadsTo_of_none ha hb

/-! ## Change elsewhere -/

/-- The links along the way from `a` are the same in both. -/
def SameFrom (next next' : Links) (a : String) : Prop :=
  ∀ z, Reaches next a z → next' z = next z

theorem SameFrom.reaches (h : SameFrom next next' a) (hab : Reaches next a b) :
    SameFrom next next' b :=
  fun z hz => h z (hab.trans hz)

theorem reaches_congr (h : SameFrom next next' a) : Reaches next' a b ↔ Reaches next a b := by
  constructor
  · intro hab
    induction hab with
    | refl => exact ReflTransGen.refl
    | tail _ hbc ih => exact ih.tail ((h _ ih).symm.trans hbc)
  · intro hab
    induction hab with
    | refl => exact ReflTransGen.refl
    | tail hab hbc ih => exact ih.tail ((h _ hab).trans hbc)

theorem leadsTo_congr (h : SameFrom next next' a) : LeadsTo next' a b ↔ LeadsTo next a b := by
  have hstep : ∀ z, Reaches next a z → (Step next' z b ↔ Step next z b) := by
    intro z hz
    rw [Step, Step, h z hz]
  show TransGen _ a b ↔ TransGen _ a b
  rw [TransGen.tail'_iff, TransGen.tail'_iff]
  constructor
  · rintro ⟨z, haz, hzb⟩
    have haz := (reaches_congr h).mp haz
    exact ⟨z, haz, (hstep z haz).mp hzb⟩
  · rintro ⟨z, haz, hzb⟩
    exact ⟨z, (reaches_congr h).mpr haz, (hstep z haz).mpr hzb⟩

theorem onCycle_congr (h : SameFrom next next' a) : OnCycle next' a ↔ OnCycle next a :=
  leadsTo_congr h

theorem entersCycle_congr (h : SameFrom next next' a) :
    EntersCycle next' a ↔ EntersCycle next a := by
  constructor
  · rintro ⟨b, hab, hb⟩
    have hab := (reaches_congr h).mp hab
    exact ⟨b, hab, (onCycle_congr (h.reaches hab)).mp hb⟩
  · rintro ⟨b, hab, hb⟩
    exact ⟨b, (reaches_congr h).mpr hab, (onCycle_congr (h.reaches hab)).mpr hb⟩

/-- More links, longer ways. -/
theorem LeadsTo.mono (hsub : ∀ x y, next x = some y → next' x = some y)
    (h : LeadsTo next a b) : LeadsTo next' a b :=
  TransGen.mono (fun x y hxy => hsub x y hxy) a b h

theorem Reaches.mono (hsub : ∀ x y, next x = some y → next' x = some y)
    (h : Reaches next a b) : Reaches next' a b :=
  ReflTransGen.mono (fun x y hxy => hsub x y hxy) a b h

/-- A way along more links is a way along the old ones, or it leaves them where they end. -/
theorem Reaches.split (hsub : ∀ x y, next x = some y → next' x = some y)
    (h : Reaches next' a b) :
    Reaches next a b ∨ ∃ z, Reaches next a z ∧ next z = none ∧ next' z ≠ none := by
  induction h using ReflTransGen.head_induction_on with
  | refl => exact .inl ReflTransGen.refl
  | @head x y hxy _ ih =>
    cases hx : next x with
    | none =>
      refine .inr ⟨x, ReflTransGen.refl, hx, ?_⟩
      rw [show next' x = some y from hxy]
      exact nofun
    | some y' =>
      obtain rfl : y' = y := Option.some.inj ((hsub x y' hx).symm.trans hxy)
      rcases ih with hyb | ⟨z, hyz, hz⟩
      · exact .inl (hyb.head hx)
      · exact .inr ⟨z, hyz.head hx, hz⟩

/-- More links leave a way as it is if they do not go on where it ends. -/
theorem sameFrom_of_mono (hsub : ∀ x y, next x = some y → next' x = some y)
    (hend : ∀ z, Reaches next a z → next z = none → next' z = none) : SameFrom next next' a := by
  intro z hz
  cases hzn : next z with
  | none => exact hend z hz hzn
  | some y => exact hsub z y hzn

/-! ## The first name of a list on a way -/

/-- Links lead from `a` to `b` without leaving a name of `stops`. -/
abbrev ReachesBefore (next : Links) (stops : List String) (a b : String) : Prop :=
  ReflTransGen (fun x y => x ∉ stops ∧ next x = some y) a b

theorem ReachesBefore.reaches {stops : List String} (h : ReachesBefore next stops a b) :
    Reaches next a b :=
  ReflTransGen.mono (fun _ _ hxy => hxy.2) a b h

/-- A way into a list has a first name in it. -/
theorem Reaches.exists_first {stops : List String} (h : Reaches next a b) (hb : b ∈ stops) :
    ∃ c ∈ stops, ReachesBefore next stops a c := by
  induction h using ReflTransGen.head_induction_on with
  | refl => exact ⟨b, hb, ReflTransGen.refl⟩
  | @head x y hxy _ ih =>
    by_cases hx : x ∈ stops
    · exact ⟨x, hx, ReflTransGen.refl⟩
    · obtain ⟨c, hc, hyc⟩ := ih
      exact ⟨c, hc, hyc.head ⟨hx, hxy⟩⟩

/-! ## Counting links -/

/-- The name `n` links behind `a`, if the way goes that far. -/
def nth (next : Links) (n : Nat) (a : String) : Option String :=
  (fun name => name.bind next)^[n] (some a)

@[simp]
theorem nth_zero (next : Links) (a : String) : next.nth 0 a = some a := rfl

theorem nth_succ (next : Links) (n : Nat) (a : String) :
    next.nth (n + 1) a = (next.nth n a).bind next :=
  Function.iterate_succ_apply' _ n (some a)

theorem nth_succ_of_none (n : Nat) (ha : next a = none) : next.nth (n + 1) a = none := by
  induction n with
  | zero => rw [nth_succ, nth_zero, Option.bind_some, ha]
  | succ n ih => rw [nth_succ, ih, Option.bind_none]

theorem nth_succ_of_some (n : Nat) (hab : next a = some b) :
    next.nth (n + 1) a = next.nth n b := by
  induction n with
  | zero => rw [nth_succ, nth_zero, nth_zero, Option.bind_some, hab]
  | succ n ih => rw [nth_succ, ih, ← nth_succ]

theorem nth_add (next : Links) (m n : Nat) (a : String) :
    next.nth (m + n) a = (next.nth m a).bind (next.nth n) := by
  induction n with
  | zero => cases next.nth m a <;> simp
  | succ n ih =>
    rw [← Nat.add_assoc, nth_succ, ih]
    cases next.nth m a with
    | none => rfl
    | some b => rw [Option.bind_some, Option.bind_some, nth_succ]

theorem reaches_iff_nth : Reaches next a b ↔ ∃ n, next.nth n a = some b := by
  constructor
  · intro h
    induction h with
    | refl => exact ⟨0, rfl⟩
    | tail _ hbc ih =>
      obtain ⟨n, hn⟩ := ih
      exact ⟨n + 1, by rw [nth_succ, hn, Option.bind_some]; exact hbc⟩
  · rintro ⟨n, hn⟩
    induction n generalizing b with
    | zero =>
      obtain rfl := Option.some.inj hn
      exact ReflTransGen.refl
    | succ n ih =>
      rw [nth_succ] at hn
      obtain ⟨c, hc, hcb⟩ := Option.bind_eq_some_iff.mp hn
      exact (ih hc).tail hcb

/-- **Short ways**: a way into a list of names takes at most as many links as there are names
    that have one.  A shortest way passes no name twice, because from the second pass on it
    could have gone on as from the first. -/
theorem exists_nth_le {stops linked : List String} (hlinked : ∀ x, next x ≠ none → x ∈ linked)
    (h : Reaches next a b) (hb : b ∈ stops) :
    ∃ n ≤ linked.length, ∃ c ∈ stops, next.nth n a = some c := by
  classical
  have hex : ∃ n, ∃ c ∈ stops, next.nth n a = some c := by
    obtain ⟨n, hn⟩ := reaches_iff_nth.mp h
    exact ⟨n, b, hb, hn⟩
  refine ⟨Nat.find hex, ?_, Nat.find_spec hex⟩
  obtain ⟨c, hc, hlast⟩ := Nat.find_spec hex
  -- every name before the last one has a link
  have hmem : ∀ i, i < Nat.find hex → ∃ x ∈ linked, next.nth i a = some x := by
    intro i hi
    obtain ⟨k, hk⟩ := Nat.exists_eq_add_of_lt hi
    rw [hk, Nat.add_assoc, nth_add] at hlast
    obtain ⟨x, hx, hxc⟩ := Option.bind_eq_some_iff.mp hlast
    refine ⟨x, hlinked x (fun hnone => ?_), hx⟩
    rw [nth_succ_of_none k hnone] at hxc
    cases hxc
  by_contra hlt
  have hcard : (linked.map some).toFinset.card < (Finset.range (Nat.find hex)).card := by
    have hle := List.toFinset_card_le (linked.map some)
    rw [List.length_map] at hle
    rw [Finset.card_range]
    omega
  obtain ⟨i, hi, j, hj, hne, hij⟩ :=
    Finset.exists_ne_map_eq_of_card_lt_of_maps_to hcard (f := fun i => next.nth i a) (by
      intro i hi
      obtain ⟨x, hx, hix⟩ := hmem i (Finset.mem_range.mp hi)
      rw [Finset.mem_coe, List.mem_toFinset]
      show next.nth i a ∈ linked.map some
      rw [hix]
      exact List.mem_map_of_mem hx)
  rw [Finset.mem_range] at hi hj
  -- the way may skip what lies between the two passes
  have hskip : ∀ i j, i < j → j < Nat.find hex → next.nth i a = next.nth j a → False := by
    intro i j hlt hj hij
    obtain ⟨k, hk⟩ := Nat.exists_eq_add_of_lt hj
    rw [hk, Nat.add_assoc, nth_add, ← hij, ← nth_add] at hlast
    exact Nat.find_min hex (show i + (k + 1) < Nat.find hex by omega) ⟨c, hc, hlast⟩
  rcases Nat.lt_or_gt_of_ne hne with hlt' | hgt
  · exact hskip i j hlt' hj hij
  · exact hskip j i hgt hi hij.symm

theorem leadsTo_of_nth {n : Nat} (h : next.nth (n + 1) a = some b) : LeadsTo next a b := by
  rw [nth_succ] at h
  obtain ⟨c, hc, hcb⟩ := Option.bind_eq_some_iff.mp h
  exact Relation.TransGen.tail' (reaches_iff_nth.mpr ⟨n, hc⟩) hcb

/-- **Ways end** if they come to no cycle and finitely many names have a link: a way without an
    end would pass some name twice. -/
theorem exists_end {linked : List String} (hlinked : ∀ x, next x ≠ none → x ∈ linked)
    (h : ¬ EntersCycle next a) : ∃ z, Reaches next a z ∧ next z = none := by
  by_contra hend
  have hgoes : ∀ z, Reaches next a z → ∃ y, next z = some y := by
    intro z hz
    exact Option.ne_none_iff_exists'.mp (fun hnone => hend ⟨z, hz, hnone⟩)
  have hnth : ∀ n, ∃ x, next.nth n a = some x := by
    intro n
    induction n with
    | zero => exact ⟨a, rfl⟩
    | succ n ih =>
      obtain ⟨x, hx⟩ := ih
      obtain ⟨y, hy⟩ := hgoes x (reaches_iff_nth.mpr ⟨n, hx⟩)
      exact ⟨y, by rw [nth_succ, hx, Option.bind_some, hy]⟩
  have hmem : ∀ n, ∃ x : { x // x ∈ linked }, next.nth n a = some x.1 := by
    intro n
    obtain ⟨x, hx⟩ := hnth n
    obtain ⟨y, hy⟩ := hgoes x (reaches_iff_nth.mpr ⟨n, hx⟩)
    exact ⟨⟨x, hlinked x (by rw [hy]; exact nofun)⟩, hx⟩
  choose f hf using hmem
  -- what is passed twice is on a cycle
  have hcycle : ∀ i j, i < j → f i = f j → False := by
    intro i j hlt hij
    obtain ⟨k, rfl⟩ := Nat.exists_eq_add_of_lt hlt
    have hj := hf (i + k + 1)
    rw [Nat.add_assoc, nth_add, hf i, Option.bind_some, ← Nat.add_assoc, ← hij] at hj
    exact h ⟨(f i).1, reaches_iff_nth.mpr ⟨i, hf i⟩, leadsTo_of_nth hj⟩
  obtain ⟨i, j, hne, hij⟩ := Finite.exists_ne_map_eq_of_infinite f
  rcases Nat.lt_or_gt_of_ne hne with hlt | hgt
  · exact hcycle i j hlt hij
  · exact hcycle j i hgt hij.symm

end Links

end RunnerCatalog
