/-
  What is passed down when runners are linked.

  Each runner of a finished climb gets its scopes from the one above it, and the topmost one from
  the summit.  So what is to hold of the scopes of all of them is settled at the summit, and needs
  to be passed on from a runner to one that extends it (`Ascent.linked_induction`).

  At the summit there are two cases only (`Ascent.top_scopes`): the topmost runner is laid over a
  known one, or it keeps what it declares, because the runner that it extends is not there, cannot
  be searched for, or has no commands.

  What holds of all cached scopes holds of them after the climb, too (`Ascent.each_settle`).
-/
import RunnerCatalog.Proofs.Settle

namespace RunnerCatalog

open Links

/-- Runners are linked from the top down, so what the topmost one has and each one passes on to one
    that extends it, all of them have. -/
theorem Climb.linkDown_induction {P : String → ScopeMap → Prop} {upper : Option Runner}
    {ws : List Runner} (hchain : ws.IsChain Runner.ExtendedBy)
    (htop : ∀ top ∈ ws.head?, P top.name (top.over upper).scopes)
    (hextend : ∀ u ∈ ws, ∀ w ∈ ws, w.parent = some u.name → ∀ scopes, P u.name scopes →
      P w.name (mergeScopes scopes w.declared)) :
    ∀ r ∈ linkDown upper ws, P r.name r.scopes := by
  induction ws generalizing upper with
  | nil => cases upper <;> exact fun r hr => absurd hr List.not_mem_nil
  | cons u below ih =>
    intro r hr
    rw [linkDown_cons] at hr
    rcases List.mem_cons.mp hr with rfl | hr
    · rw [Runner.name_over]
      exact htop u rfl
    refine ih hchain.tail (fun w hw => ?_)
      (fun v hv w hw => hextend v (List.mem_cons_of_mem _ hv) w (List.mem_cons_of_mem _ hw)) r hr
    have hmem : w ∈ u :: below := List.mem_cons_of_mem _ (List.mem_of_mem_head? hw)
    exact hextend u List.mem_cons_self w hmem (hchain.rel_head? hw) _ (htop u rfl)

/-- All cached scopes have a property. -/
def Cache.Each (P : String → ScopeMap → Prop) (cache : Cache) : Prop :=
  ∀ id r, cache.get? id = some (.loaded r) → P id r.scopes

namespace Ascent

variable {source : Source} {cache : Cache} {start : List Runner} {id : String}
  {fresh : List Runner} {c : Climb} {P : String → ScopeMap → Prop}

/-- **What is passed down**: on a way into a cycle everybody keeps what is declared; otherwise what
    the topmost runner has is passed on. -/
theorem linked_induction (h : Ascent source cache start id fresh c)
    (hcycle : ∀ path, c.summit = .cycle path → ∀ w ∈ c.waiting, P w.name w.declared)
    (htop : (∀ path, c.summit ≠ .cycle path) → ∀ top ∈ c.waiting.head?,
      P top.name (top.over c.parent?).scopes)
    (hextend : (∀ path, c.summit ≠ .cycle path) → ∀ u ∈ c.waiting, ∀ w ∈ c.waiting,
      w.parent = some u.name → ∀ scopes, P u.name scopes →
        P w.name (mergeScopes scopes w.declared)) :
    ∀ r ∈ c.linked, P r.name r.scopes := by
  intro r hr
  by_cases hsummit : ∀ path, c.summit ≠ .cycle path
  · rw [c.linked_of_summit hsummit] at hr
    exact Climb.linkDown_induction h.chain (htop hsummit) (hextend hsummit) r hr
  · obtain ⟨path, hpath⟩ := not_forall_not.mp hsummit
    rw [Climb.linked, hpath] at hr
    obtain ⟨w, hw, rfl⟩ := List.mem_map.mp hr
    exact hcycle path hpath w hw

/-- **At the summit** the topmost runner is laid over a known one, or it keeps what it declares. -/
theorem top_scopes (h : Ascent source cache start id fresh c)
    (hsummit : ∀ path, c.summit ≠ .cycle path) {top : Runner} (htop : top ∈ c.waiting.head?) :
    (∃ s q, top.parent = some s ∧ cache.get? s = some (.loaded q) ∧
        (top.over c.parent?).scopes = mergeScopes q.scopes top.declared) ∨
      (top.over c.parent?).scopes = top.declared ∧ ∀ s, top.parent = some s →
        cache.get? s = some .missing ∨ cache.get? s = none ∧
          ((∃ failure, source.locate s = .error failure) ∨ source.locate s = .ok none ∨
            ∃ d, source.own? s = some (Runner.blank s (some d))) := by
  obtain ⟨rest, hrest⟩ := List.head?_eq_some_iff.mp htop
  have hsought : c.sought id = top.parent := by rw [Climb.sought, hrest]
  rw [← hsought]
  -- only one name was sought
  have hone : ∀ {s t}, c.sought id = some s → c.sought id = some t → s = t :=
    fun hs ht => Option.some.inj (hs.symm.trans ht)
  cases h.reached with
  | known hs hl hsome hwalk hq => exact .inl ⟨_, _, hsome, hq, by rw [Climb.parent?, hs]; rfl⟩
  | base hs hl hnone =>
    refine .inr ⟨by rw [Climb.parent?, hs]; rfl, fun t ht => ?_⟩
    rw [hnone] at ht
    cases ht
  | missing hs hl hsome hwalk hm =>
    refine .inr ⟨by rw [Climb.parent?, hs]; rfl, fun t ht => .inl ?_⟩
    exact hone hsome ht ▸ hm
  | failed hs hl hsome hwalk hn hf =>
    refine .inr ⟨by rw [Climb.parent?, hs]; rfl, fun t ht => .inr ?_⟩
    exact hone hsome ht ▸ ⟨hn, .inl ⟨_, hf⟩⟩
  | absent hs hl hsome hwalk hn ha =>
    refine .inr ⟨by rw [Climb.parent?, hs]; rfl, fun t ht => .inr ?_⟩
    exact hone hsome ht ▸ ⟨hn, .inr (.inl ha)⟩
  | unusable hs hl hsome hwalk hn ho =>
    refine .inr ⟨by rw [Climb.parent?, hs]; rfl, fun t ht => .inr ?_⟩
    exact hone hsome ht ▸ ⟨hn, .inr (.inr ⟨_, ho⟩)⟩
  | cycle hs => exact absurd hs (hsummit _)

/-- What holds of all cached scopes, of those of the linked runners, and of runners that cannot be
    used, holds of all cached scopes afterwards. -/
theorem each_settle (h : Ascent source cache start id fresh c) (hcache : cache.Each P)
    (hlinked : ∀ r ∈ c.linked, P r.name r.scopes)
    (hlearned : ∀ k d, source.own? k = some (Runner.blank k (some d)) → P k OrderedMap.empty) :
    (c.settle cache).Each P := by
  intro k s hk
  rcases c.touched cache k with ⟨r, hr, rfl⟩ | ⟨e, he⟩ | hsame
  · obtain rfl := Cache.loaded_inj (h.get?_linked hr) hk
    exact hlinked r hr
  · obtain rfl : e = .loaded s := by
      injection (h.get?_learned he).symm.trans hk
    obtain ⟨-, -, -, ⟨hm, -⟩ | ⟨d, hblank, hown⟩⟩ := h.of_mem_learned he
    · cases hm
    · cases hblank
      exact hlearned k d hown
  · exact hcache k s (hsame.symm.trans hk)

end Ascent

end RunnerCatalog
