/-
  The two shapes of a schema mean the same.

  A schema may list commands in the older, flat shape and in the newer one, with scopes.  Whatever
  the flat commands say can be said in the newer shape: they are the commands of `BASE`, and each
  argument gets its type and its name in one place (`FlatCommand.scoped`, `Schema.inScopes`).  A
  schema with both then means its flat part, restated, with its scoped part laid over it.

  1. **Declaring is merging** - to declare a command, or to open a scope, is to lay something over
     the scopes that are there (`Lays`): the result is a merge with what the same step makes of no
     scopes at all.  Merging is associative, so this passes from steps to loops (`Lays.comp`,
     `lays_foldl`), and from there to the scoped part of a schema (`lays_declareScoped`).  What
     collides, within a loop or with what was there, is settled by the merge.

  2. **The flat part** - each flat command stands for the command that it is restated as
     (`ofScoped_scoped`), and the first of them opens its scope anyway (`declare_openScope`), so the
     restated part declares the same (`declared_inScopes`).

  3. **Both** - `declared_both_shapes`.
-/
import RunnerCatalog.Proofs.Layering
import RunnerCatalog.Proofs.RoundTrip

namespace RunnerCatalog

open OrderedMap (empty)

/-! ## Restating the flat part -/

/-- A flat command in the newer shape.  Argument number `i` has the type in that place and the
    label in that place, or a name made of its position, counted from one, if there is no such
    label; none of them is optional. -/
def FlatCommand.scoped (c : FlatCommand) : ScopedCommand where
  command := c.command
  arguments := List.ofFn fun i : Fin c.argumentTypes.length =>
    { name := c.argumentNames[i.val]?.getD ("arg" ++ toString (i.val + 1))
      type := c.argumentTypes[i]
      optional := false }
  output := c.output
  description := c.description

/-- Flat commands in the newer shape: they make up the scope `BASE`, which is there only if there
    are any. -/
def Schema.inScopes (flat : OrderedMap String FlatCommand) :
    OrderedMap String (OrderedMap String ScopedCommand) :=
  if flat.size = 0 then empty else .ofList [(baseScope, flat.mapValues FlatCommand.scoped)]

/-! ## Declaring is merging -/

/-- Storing the value that is there already changes nothing. -/
theorem OrderedMap.insert_of_get? {κ α : Type} [DecidableEq κ] {m : OrderedMap κ α} {k : κ} {v : α}
    (h : m.get? k = some v) : m.insert k v = m := by
  apply ext_get?
  · rw [keys_insert, if_pos (mem_keys_of_get? h)]
  · intro k'
    rw [get?_insert]
    split
    · next hk => rw [← hk, h]
    · rfl

/-- A step lays something over the scopes that are there: what it makes of no scopes. -/
def Lays (step : ScopeMap → ScopeMap) : Prop :=
  ∀ scopes, step scopes = mergeScopes scopes (step empty)

theorem lays_merge (layer : ScopeMap) : Lays fun scopes => mergeScopes scopes layer := by
  intro scopes
  show mergeScopes scopes layer = mergeScopes scopes (mergeScopes empty layer)
  rw [mergeScopes_empty_left]

/-- Laying one thing after the other is laying something. -/
theorem Lays.comp {f g : ScopeMap → ScopeMap} (hf : Lays f) (hg : Lays g) :
    Lays fun scopes => f (g scopes) := by
  intro scopes
  calc f (g scopes)
      = mergeScopes (mergeScopes scopes (g empty)) (f empty) := by rw [hf, hg]
    _ = mergeScopes scopes (mergeScopes (g empty) (f empty)) := mergeScopes_assoc _ _ _
    _ = mergeScopes scopes (f (g empty)) := by rw [← hf]

/-- **A loop** whose steps lay something lays something. -/
theorem lays_foldl {ε : Type} (step : ScopeMap → ε → ScopeMap)
    (hstep : ∀ e, Lays fun scopes => step scopes e) (es : List ε) :
    Lays fun scopes => es.foldl step scopes := by
  induction es with
  | nil => exact lays_merge empty
  | cons e es ih => exact ih.comp (hstep e)

namespace Schema

/-- A command is laid over its scope. -/
theorem lays_declare (c : Command) : Lays fun scopes => declare scopes c :=
  lays_merge (.ofList [(c.scope, .ofList [(c.key, c)])])

/-- An empty scope is laid over the scope of its name. -/
theorem lays_openScope (name : String) : Lays fun scopes => openScope scopes name := by
  have hmerge : (fun scopes => openScope scopes name) =
      fun scopes => mergeScopes scopes (.ofList [(name, empty)]) := by
    funext scopes
    show openScope scopes name = mergeScope scopes name empty
    unfold openScope mergeScope
    split
    · next s hs =>
      rw [hs, Option.getD_some]
      exact (OrderedMap.insert_of_get? hs).symm
    · next hs =>
      rw [hs]
      rfl
  rw [hmerge]
  exact lays_merge _

theorem lays_declareScope (name : String) (commands : OrderedMap String ScopedCommand) :
    Lays fun scopes => declareScope scopes name commands := by
  have hcommands := lays_foldl
    (fun scopes (e : String × ScopedCommand) => declare scopes (ofScoped name e.1 e.2))
    (fun e => lays_declare (ofScoped name e.1 e.2)) commands.entries
  exact hcommands.comp (lays_openScope name)

/-- **The scoped part** of a schema is laid over whatever is there. -/
theorem lays_declareScoped (groups : OrderedMap String (OrderedMap String ScopedCommand)) :
    Lays fun scopes => declareScoped scopes groups :=
  lays_foldl
    (fun scopes (e : String × OrderedMap String ScopedCommand) => declareScope scopes e.1 e.2)
    (fun e => lays_declareScope e.1 e.2) groups.entries

/-! ## The flat part -/

theorem ofScoped_scoped (key : String) (c : FlatCommand) :
    ofScoped baseScope key c.scoped = ofFlat key c := by
  have harguments : c.scoped.arguments = (ofFlat key c).arguments := by
    refine List.ext_getElem (by simp [FlatCommand.scoped, ofFlat]) fun i _ _ => ?_
    simp only [FlatCommand.scoped, ofFlat, argumentName, List.getElem_ofFn, List.getElem_mapIdx]
    rfl
  rw [ofScoped, harguments]
  rfl

/-- Of two arguments the first has a label. -/
example : (FlatCommand.scoped ⟨none, ["Int", "Str"], ["count"], [], ""⟩).arguments =
    [⟨"count", "Int", false⟩, ⟨"arg2", "Str", false⟩] := by decide

/-- The scope of a command need not be opened before. -/
theorem declare_openScope (scopes : ScopeMap) (c : Command) :
    declare (openScope scopes c.scope) c = declare scopes c := by
  unfold openScope
  split
  · rfl
  · next hs =>
    rw [declare_insert, declare, hs]
    rfl

/-- **Restated**, the flat part declares what it did. -/
theorem declared_inScopes (parent : Option String) (flat : OrderedMap String FlatCommand) :
    declared ⟨parent, empty, inScopes flat⟩ = declareFlat empty flat := by
  rw [declareFlat]
  cases hflat : flat.entries with
  | nil =>
    have hsize : flat.size = 0 := by rw [OrderedMap.size, hflat, List.length_nil]
    rw [inScopes, if_pos hsize]
    rfl
  | cons e es =>
    have hsize : flat.size ≠ 0 := by rw [OrderedMap.size, hflat]; exact Nat.succ_ne_zero _
    rw [inScopes, if_neg hsize]
    show declareScope empty baseScope (flat.mapValues FlatCommand.scoped) = _
    rw [declareScope, OrderedMap.mapValues, List.foldl_map, hflat]
    simp only [ofScoped_scoped, List.foldl_cons]
    -- the first flat command finds its scope opened already, which makes no difference
    have hfirst : declare (openScope empty baseScope) (ofFlat e.1 e.2) =
        declare empty (ofFlat e.1 e.2) := declare_openScope empty (ofFlat e.1 e.2)
    rw [hfirst]

/-! ## Both -/

/-- **Both shapes have one meaning.**  A schema with flat and with scoped commands declares what its
    flat commands declare when they are restated in the newer shape, with what its scoped commands
    declare laid over it; the order of scopes and of commands is that of the merge. -/
theorem declared_both_shapes (parent : Option String) (flat : OrderedMap String FlatCommand)
    (groups : OrderedMap String (OrderedMap String ScopedCommand)) :
    declared ⟨parent, flat, groups⟩ =
      mergeScopes (declared ⟨parent, empty, inScopes flat⟩)
        (declared ⟨parent, empty, groups⟩) := by
  rw [declared_inScopes]
  exact lays_declareScoped groups (declareFlat empty flat)

end Schema

end RunnerCatalog
