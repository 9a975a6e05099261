/-
  The events of a YAML text.

  An event begins or ends a collection, gives a scalar, or stands for a node that was given
  before.  One token ahead always decides which event comes next, so the events are found with
  a stack of goals: each goal is a part of the text that is still to come, and `Parse.step`
  takes the goal on top, looks at the next token, and puts the parts of that goal in its place.

  The events up to a fault are kept, because whoever reads them may stop before the fault.
  Only one document may stand in a text.
-/
import RunnerCatalog.Yaml.Token

namespace RunnerCatalog.Yaml

/-! ## Events -/

/-- A step through the nodes of a document. -/
inductive Event
  | scalar (text : List Char) (plain : Bool)
  | sequenceStart
  | sequenceEnd
  | mappingStart
  | mappingEnd
  /-- The node that begins with the event of this number. -/
  | alias (target : Nat)
  deriving DecidableEq, Repr

/-- The events of a text, and what is wrong behind the last one. -/
structure Reading where
  events : List (Placed Event)
  fault : Option Fault
  deriving DecidableEq, Repr

/-! ## Goals -/

/-- Where a node may stand. -/
inductive Slot
  /-- As a document of its own. -/
  | bare
  /-- Behind the mark of a document. -/
  | document
  | blockItem
  /-- An item of a sequence that is not indented below its key. -/
  | alignedItem
  /-- A key or a value of a mapping by indentation. -/
  | blockMember
  /-- An item or a key within brackets that has no mark in front. -/
  | flowItem
  /-- The key of a single pair within a bracketed sequence. -/
  | pairKey
  | pairValue
  | flowKey
  | flowValue
  deriving DecidableEq, Repr

/-- Whether collections by indentation may stand in a slot. -/
def Slot.isBlock : Slot → Bool
  | bare | document | blockItem | alignedItem | blockMember => true
  | flowItem | pairKey | pairValue | flowKey | flowValue => false

/-- Whether the slot is left empty if `token` is next. -/
def Slot.isEmptyBefore (slot : Slot) (token : Token) : Bool :=
  match slot, token with
  | document, .version _ _ | document, .handle _ _ => true
  | document, .documentStart | document, .documentEnd | document, .streamEnd => true
  | blockItem, .blockEntry | blockItem, .blockEnd => true
  | alignedItem, .blockEntry | alignedItem, .key | alignedItem, .value => true
  | alignedItem, .blockEnd => true
  | blockMember, .key | blockMember, .value | blockMember, .blockEnd => true
  | pairKey, .value | pairKey, .flowEntry | pairKey, .flowSequenceEnd => true
  | pairValue, .flowEntry | pairValue, .flowSequenceEnd => true
  | flowKey, .value | flowKey, .flowEntry | flowKey, .flowMappingEnd => true
  | flowValue, .flowEntry | flowValue, .flowMappingEnd => true
  | _, _ => false

/-- A part of a text that is still to come.  The places are those where the collections
    begin. -/
inductive Goal
  | node (slot : Slot)
  /-- More items of a sequence by indentation, or its end. -/
  | blockItems (start : Place)
  /-- More items of a sequence that is not indented below its key, or its end. -/
  | alignedItems
  /-- More pairs of a mapping by indentation, or its end. -/
  | blockPairs (start : Place)
  | blockValue
  /-- An item of a bracketed sequence, or its end. -/
  | flowItem (start : Place)
  /-- A comma in a bracketed sequence, or its end. -/
  | flowItems (start : Place)
  | pairValue
  | pairEnd
  /-- A pair of a bracketed mapping, or its end. -/
  | flowPair (start : Place)
  /-- A comma in a bracketed mapping, or its end. -/
  | flowPairs (start : Place)
  | flowValue
  /-- The value of a key that has none. -/
  | noValue
  deriving DecidableEq, Repr

/-! ## Anchors and tags -/

/-- What may stand in front of a node. -/
structure Properties where
  anchor : Option (List Char)
  /-- The handle of the tag. -/
  tag : Option (Placed (List Char))
  deriving DecidableEq, Repr

/-- Read an anchor and a tag, in either order. -/
def readProperties : List (Placed Token) → Properties × List (Placed Token)
  | ⟨.anchor name, _⟩ :: ⟨.tag handle _, place⟩ :: ts => (⟨some name, some ⟨handle, place⟩⟩, ts)
  | ⟨.tag handle _, place⟩ :: ⟨.anchor name, _⟩ :: ts => (⟨some name, some ⟨handle, place⟩⟩, ts)
  | ⟨.anchor name, _⟩ :: ts => (⟨some name, none⟩, ts)
  | ⟨.tag handle _, place⟩ :: ts => (⟨none, some ⟨handle, place⟩⟩, ts)
  | ts => (⟨none, none⟩, ts)

/-! ## The state of a parse -/

/-- The state of a parse. -/
structure Parse where
  goals : List Goal
  tokens : List (Placed Token)
  events : List (Placed Event)
  /-- The anchors, each with the number of its event, the last one first. -/
  anchors : List (List Char × Nat)
  /-- The handles of tags that are known. -/
  handles : List (List Char)
  deriving DecidableEq, Repr

namespace Parse

/-- Add an event. -/
def emit (p : Parse) (event : Event) (place : Place) : Parse :=
  { p with events := p.events ++ [⟨event, place⟩] }

/-- Add a scalar that is not there. -/
def emitEmpty (p : Parse) (place : Place) : Parse := p.emit (.scalar [] true) place

/-- Add the end of a collection, and go on behind the next token. -/
def close (p : Parse) (event : Event) (place : Place) : Parse :=
  { p.emit event place with tokens := p.tokens.drop 1 }

/-- Put goals in front of all others. -/
def aim (p : Parse) (goals : List Goal) : Parse := { p with goals := goals ++ p.goals }

/-- Put goals in front, and go on behind the next token. -/
def aimBehind (p : Parse) (goals : List Goal) : Parse :=
  { p with goals := goals ++ p.goals, tokens := p.tokens.drop 1 }

/-- Remember that an anchor names the next event. -/
def name (p : Parse) (anchor : Option (List Char)) : Parse :=
  match anchor with
  | some a => { p with anchors := (a, p.events.length) :: p.anchors }
  | none => p

/-- Read what follows the properties of a node; `start` is where the node begins. -/
def readContent (p : Parse) (slot : Slot) (properties : Properties) (start : Place)
    (t : Placed Token) : Except Fault Parse :=
  let named := p.name properties.anchor
  match t.value with
  | .scalar text plain => .ok (named.close (.scalar text plain) start)
  | .flowSequenceStart =>
    .ok ((named.emit .sequenceStart start).aimBehind [.flowItem t.place])
  | .flowMappingStart =>
    .ok ((named.emit .mappingStart start).aimBehind [.flowPair t.place])
  | token =>
    if token = .blockEntry ∧ slot = .blockMember then
      .ok ((named.emit .sequenceStart start).aim [.alignedItems])
    else if token = .blockSequenceStart ∧ slot.isBlock then
      .ok ((named.emit .sequenceStart start).aimBehind [.blockItems t.place])
    else if token = .blockMappingStart ∧ slot.isBlock then
      .ok ((named.emit .mappingStart start).aimBehind [.blockPairs t.place])
    else if properties.anchor.isSome ∨ properties.tag.isSome then .ok (named.emitEmpty start)
    else
      let context : Context := if slot.isBlock then .blockNode else .flowNode
      .error (.within context start .nodeContent t.place)

/-- Read a node, from the token `t`; `none` if the tokens run out. -/
def readNode (p : Parse) (slot : Slot) (t : Placed Token) : Except Fault (Option Parse) :=
  if slot.isEmptyBefore t.value then
    let p := p.emitEmpty t.place
    -- the key of a single pair takes the mark of its value along
    .ok (some (if slot = .pairKey then { p with tokens := p.tokens.drop 1 } else p))
  else
    match t.value with
    | .alias anchor =>
      match p.anchors.find? (fun a => a.1 == anchor) with
      | some (_, target) => .ok (some (p.close (.alias target) t.place))
      | none => .error (.plain .unknownAnchor t.place)
    | _ =>
      let (properties, tokens) := readProperties p.tokens
      match tokens with
      | [] => .ok none
      | next :: _ =>
        match properties.tag with
        | some tag =>
          if tag.value ≠ [] ∧ tag.value ∉ p.handles then
            .error (.within .node t.place .undefinedHandle tag.place)
          else do return some (← readContent { p with tokens } slot properties t.place next)
        | none => do return some (← readContent { p with tokens } slot properties t.place next)

/-- Work on a goal, with the token `t` next; `none` if the tokens run out. -/
def reach (p : Parse) (goal : Goal) (t : Placed Token) : Except Fault (Option Parse) :=
  match goal with
  | .node slot => p.readNode slot t
  | .blockItems start =>
    match t.value with
    | .blockEntry => .ok (some (p.aimBehind [.node .blockItem, .blockItems start]))
    | .blockEnd => .ok (some (p.close .sequenceEnd t.place))
    | _ => .error (.within .blockCollection start .blockEntry t.place)
  | .alignedItems =>
    match t.value with
    | .blockEntry => .ok (some (p.aimBehind [.node .alignedItem, .alignedItems]))
    | _ => .ok (some (p.emit .sequenceEnd t.place))
  | .blockPairs start =>
    match t.value with
    | .key => .ok (some (p.aimBehind [.node .blockMember, .blockValue, .blockPairs start]))
    | .blockEnd => .ok (some (p.close .mappingEnd t.place))
    | _ => .error (.within .blockMapping start .blockKey t.place)
  | .blockValue =>
    match t.value with
    | .value => .ok (some (p.aimBehind [.node .blockMember]))
    | _ => .ok (some (p.emitEmpty t.place))
  | .flowItem start =>
    match t.value with
    | .flowSequenceEnd => .ok (some (p.close .sequenceEnd t.place))
    | .key =>
      .ok (some ((p.emit .mappingStart t.place).aimBehind
        [.node .pairKey, .pairValue, .pairEnd, .flowItems start]))
    | _ => .ok (some (p.aim [.node .flowItem, .flowItems start]))
  | .flowItems start =>
    match t.value with
    | .flowSequenceEnd => .ok (some (p.close .sequenceEnd t.place))
    | .flowEntry => .ok (some (p.aimBehind [.flowItem start]))
    | _ => .error (.within .flowSequence start .flowSequenceEntry t.place)
  | .pairValue =>
    match t.value with
    | .value => .ok (some (p.aimBehind [.node .pairValue]))
    | _ => .ok (some (p.emitEmpty t.place))
  | .pairEnd => .ok (some (p.emit .mappingEnd t.place))
  | .flowPair start =>
    match t.value with
    | .flowMappingEnd => .ok (some (p.close .mappingEnd t.place))
    | .key => .ok (some (p.aimBehind [.node .flowKey, .flowValue, .flowPairs start]))
    | _ => .ok (some (p.aim [.node .flowItem, .noValue, .flowPairs start]))
  | .flowPairs start =>
    match t.value with
    | .flowMappingEnd => .ok (some (p.close .mappingEnd t.place))
    | .flowEntry => .ok (some (p.aimBehind [.flowPair start]))
    | _ => .error (.within .flowMapping start .flowMappingEntry t.place)
  | .flowValue =>
    match t.value with
    | .value => .ok (some (p.aimBehind [.node .flowValue]))
    | _ => .ok (some (p.emitEmpty t.place))
  | .noValue => .ok (some (p.emitEmpty t.place))

/-- How a parse ends. -/
inductive Ending
  /-- All goals are reached; these tokens are left. -/
  | complete (rest : List (Placed Token))
  /-- There are no more tokens. -/
  | outOfTokens
  | fault (fault : Fault)
  deriving DecidableEq, Repr

/-- Work on goals until none is left.  Every token is looked at for a few goals only. -/
def run : Nat → Parse → List (Placed Event) × Ending
  | 0, p => (p.events, .outOfTokens)
  | fuel + 1, p =>
    match p.goals, p.tokens with
    | [], ts => (p.events, .complete ts)
    | _ :: _, [] => (p.events, .outOfTokens)
    | goal :: goals, t :: _ =>
      match { p with goals }.reach goal t with
      | .ok (some p) => run fuel p
      | .ok none => (p.events, .outOfTokens)
      | .error fault => (p.events, .fault fault)

end Parse

/-! ## Documents -/

/-- The directives in front of a document. -/
structure Directives where
  version : Bool
  /-- The handles that are declared. -/
  declared : List (List Char)
  deriving DecidableEq, Repr

/-- Read directives. -/
def readDirectives (d : Directives) :
    List (Placed Token) → Except Fault (Directives × List (Placed Token))
  | ⟨.version major minor, place⟩ :: ts =>
    if d.version then .error (.plain .repeatedVersion place)
    else if major ≠ 1 ∨ (minor ≠ 1 ∧ minor ≠ 2) then .error (.plain .incompatibleVersion place)
    else readDirectives { d with version := true } ts
  | ⟨.handle handle _, place⟩ :: ts =>
    if handle ∈ d.declared then .error (.plain .repeatedHandle place)
    else readDirectives { d with declared := handle :: d.declared } ts
  | ts => .ok (d, ts)

/-- The handles that need no directive. -/
def knownHandles : List (List Char) := [['!'], ['!', '!']]

/-- The start of a document: its goal, its handles, and the tokens behind its mark; `none` if
    the tokens run out. -/
def readDocumentStart (ts : List (Placed Token)) : Except Fault (Option Parse) :=
  match ts with
  | ⟨.version _ _, _⟩ :: _ | ⟨.handle _ _, _⟩ :: _ | ⟨.documentStart, _⟩ :: _ => do
    let (d, ts) ← readDirectives ⟨false, []⟩ ts
    match ts with
    | [] => return none
    | t :: ts =>
      if t.value ≠ .documentStart then throw (.plain .documentStart t.place)
      return some ⟨[.node .document], ts, [], [], d.declared ++ knownHandles⟩
  | [] => .ok none
  | ts => .ok (some ⟨[.node .bare], ts, [], [], knownHandles⟩)

/-- What is wrong behind a document: nothing may follow but its end mark. -/
def faultBehind (rest : List (Placed Token)) : Option Fault :=
  match rest.dropWhile (fun t => t.value == .documentEnd) with
  | ⟨.streamEnd, _⟩ :: _ => none
  | _ => some (.plain .severalDocuments Place.start)

/-- The events of the tokens of a text; `scanFault` is what is wrong behind them. -/
def Reading.ofTokens (ts : List (Placed Token)) (scanFault : Option Fault) : Reading :=
  match ts with
  | ⟨.streamEnd, _⟩ :: _ => ⟨[], none⟩
  | _ =>
    match readDocumentStart ts with
    | .error fault => ⟨[], some fault⟩
    | .ok none => ⟨[], scanFault⟩
    | .ok (some p) =>
      match Parse.run (8 * (ts.length + 1)) p with
      | (events, .fault fault) => ⟨events, some fault⟩
      | (events, .outOfTokens) => ⟨events, scanFault⟩
      | (events, .complete []) => ⟨events, scanFault⟩
      | (events, .complete rest) => ⟨events, faultBehind rest⟩

/-- The events of a text. -/
def Reading.ofText (text : List Char) : Reading :=
  let (ts, scanFault) := tokens text
  Reading.ofTokens ts scanFault

end RunnerCatalog.Yaml
