/-
  What can be wrong with a YAML text, and where.

  A fault has a place and often a context: the construct that was being read, with the place
  where it begins.
-/

namespace RunnerCatalog.Yaml

/-- A place in a text, everything counted from zero. -/
structure Place where
  index : Nat
  line : Nat
  column : Nat
  deriving DecidableEq, Repr

/-- The first place of a text. -/
def Place.start : Place := ⟨0, 0, 0⟩

/-- Whether two places are the same line and column. -/
def Place.Meets (p q : Place) : Prop := p.line = q.line ∧ p.column = q.column

instance (p q : Place) : Decidable (p.Meets q) := inferInstanceAs (Decidable (_ ∧ _))

/-- The wording of a place behind a message; it counts from one, and the first place is left
    out. -/
def Place.describe (p : Place) : String :=
  if p.Meets Place.start then ""
  else " at line " ++ toString (p.line + 1) ++ " column " ++ toString (p.column + 1)

/-- What is wrong. -/
inductive Cause
  /-- A character that no text may hold, behind `bytes` bytes. -/
  | controlCharacter (bytes : Nat)
  | noTokenStart
  | keyNotAllowed
  | valueNotAllowed
  | entryNotAllowed
  | missingColon
  | anchorName
  | tagText
  | tagEnd
  | tagBracket
  | tagEscape
  | directiveName
  | directiveUnknown
  | directiveNonAlphabetic
  | directiveEnd
  | directiveVersion
  | directiveVersionDot
  | directiveVersionLong
  | directiveHandle
  | directiveBlank
  | zeroIndentation
  | blockHeader
  | blockTab
  | plainTab
  | plainColon
  | quotedMarker
  | quotedEnd
  | unknownEscape
  | escapeDigit
  | escapeCode
  | documentStart
  | incompatibleVersion
  | repeatedVersion
  | repeatedHandle
  | undefinedHandle
  | nodeContent
  | blockEntry
  | blockKey
  | flowSequenceEntry
  | flowMappingEntry
  | unknownAnchor
  | severalDocuments
  deriving DecidableEq, Repr

/-- The wording of a cause. -/
def Cause.describe : Cause → String
  | .controlCharacter bytes =>
    "control characters are not allowed"
      ++ (if bytes = 0 then "" else " at position " ++ toString bytes)
  | .noTokenStart => "found character that cannot start any token"
  | .keyNotAllowed => "mapping keys are not allowed in this context"
  | .valueNotAllowed => "mapping values are not allowed in this context"
  | .entryNotAllowed => "block sequence entries are not allowed in this context"
  | .missingColon => "could not find expected ':'"
  | .anchorName => "did not find expected alphabetic or numeric character"
  | .tagText => "did not find expected tag URI"
  | .tagEnd => "did not find expected whitespace or line break"
  | .tagBracket => "did not find the expected '>'"
  | .tagEscape => "did not find URI escaped octet"
  | .directiveName => "could not find expected directive name"
  | .directiveUnknown => "found unknown directive name"
  | .directiveNonAlphabetic => "found unexpected non-alphabetical character"
  | .directiveEnd => "did not find expected comment or line break"
  | .directiveVersion => "did not find expected version number"
  | .directiveVersionDot => "did not find expected digit or '.' character"
  | .directiveVersionLong => "found extremely long version number"
  | .directiveHandle => "did not find expected '!'"
  | .directiveBlank => "did not find expected whitespace"
  | .zeroIndentation => "found an indentation indicator equal to 0"
  | .blockHeader => "did not find expected comment or line break"
  | .blockTab => "found a tab character where an indentation space is expected"
  | .plainTab => "found a tab character that violates indentation"
  | .plainColon => "found unexpected ':'"
  | .quotedMarker => "found unexpected document indicator"
  | .quotedEnd => "found unexpected end of stream"
  | .unknownEscape => "found unknown escape character"
  | .escapeDigit => "did not find expected hexdecimal number"
  | .escapeCode => "found invalid Unicode character escape code"
  | .documentStart => "did not find expected <document start>"
  | .incompatibleVersion => "found incompatible YAML document"
  | .repeatedVersion => "found duplicate %YAML directive"
  | .repeatedHandle => "found duplicate %TAG directive"
  | .undefinedHandle => "found undefined tag handle"
  | .nodeContent => "did not find expected node content"
  | .blockEntry => "did not find expected '-' indicator"
  | .blockKey => "did not find expected key"
  | .flowSequenceEntry => "did not find expected ',' or ']'"
  | .flowMappingEntry => "did not find expected ',' or '\x7d'"
  | .unknownAnchor => "unknown anchor"
  | .severalDocuments =>
    "deserializing from YAML containing more than one document is not supported"

/-- The construct that was being read. -/
inductive Context
  | token
  | simpleKey
  | anchor
  | alias
  | tag
  | tagText
  | directive
  | versionDirective
  | tagDirective
  | tagDirectiveMark
  | tagDirectiveHandle
  | tagDirectiveText
  | blockScalar
  | plainScalar
  | quotedScalar
  | quotedEscape
  | node
  | blockNode
  | flowNode
  | blockCollection
  | blockMapping
  | flowSequence
  | flowMapping
  deriving DecidableEq, Repr

/-- The wording of a context. -/
def Context.describe : Context → String
  | .token => "while scanning for the next token"
  | .simpleKey => "while scanning a simple key"
  | .anchor => "while scanning an anchor"
  | .alias => "while scanning an alias"
  | .tag => "while scanning a tag"
  | .tagText => "while parsing a tag"
  | .directive => "while scanning a directive"
  | .versionDirective => "while scanning a %YAML directive"
  | .tagDirective => "while scanning a %TAG directive"
  | .tagDirectiveMark => "while scanning a tag directive"
  | .tagDirectiveHandle => "while parsing a tag directive"
  | .tagDirectiveText => "while parsing a %TAG directive"
  | .blockScalar => "while scanning a block scalar"
  | .plainScalar => "while scanning a plain scalar"
  | .quotedScalar => "while scanning a quoted scalar"
  | .quotedEscape => "while parsing a quoted scalar"
  | .node => "while parsing a node"
  | .blockNode => "while parsing a block node"
  | .flowNode => "while parsing a flow node"
  | .blockCollection => "while parsing a block collection"
  | .blockMapping => "while parsing a block mapping"
  | .flowSequence => "while parsing a flow sequence"
  | .flowMapping => "while parsing a flow mapping"

/-- Something wrong with a text. -/
structure Fault where
  cause : Cause
  place : Place
  context : Option (Context × Place)
  deriving DecidableEq, Repr

/-- A fault without context. -/
def Fault.plain (cause : Cause) (place : Place) : Fault := ⟨cause, place, none⟩

/-- A fault in a construct that begins at `start`. -/
def Fault.within (context : Context) (start : Place) (cause : Cause) (place : Place) : Fault :=
  ⟨cause, place, some (context, start)⟩

/-- The wording of a fault; the place of its context is left out where it is the same. -/
def Fault.describe (f : Fault) : String :=
  f.cause.describe ++ f.place.describe
    ++ (match f.context with
        | none => ""
        | some (context, start) =>
          ", " ++ context.describe ++ (if start.Meets f.place then "" else start.describe))

end RunnerCatalog.Yaml
