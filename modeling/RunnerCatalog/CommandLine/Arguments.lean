/-
  The arguments of a command line.

  An argument is a word, or it begins with a dash and is an option; behind `--` everything is
  a word.  Options of the whole program stand in front of the name of a command, those of a
  command behind it.  Arguments are read from left to right, and the first one that is wrong,
  or asks for help, decides.
-/
import RunnerCatalog.Script.Assist

namespace RunnerCatalog.CommandLine

/-! ## What can be asked for -/

/-- A command, with what it needs. -/
inductive Request
  /-- Describe the command at a place of a script. -/
  | hover (file : String) (place : Script.Place)
  /-- List what can be typed at a place of a script. -/
  | complete (file : String) (place : Script.Place) (dot : Bool)
  /-- Show a runner, or the one of scripts that name none. -/
  | schema (runner : Option String)
  /-- Show the name of the runner that a script uses. -/
  | runner (file : String)
  deriving DecidableEq, Repr

/-- A command, and the workspace to carry it out in. -/
structure Invocation where
  root : String
  request : Request
  deriving DecidableEq, Repr

/-- Why there is nothing to carry out. -/
inductive Refusal
  | misuse
  | help
  deriving DecidableEq, Repr

/-! ## Single arguments -/

/-- The form of an argument. -/
inductive Shape
  /-- The separator before words only. -/
  | separator
  /-- A name behind two dashes, with what follows its `=`. -/
  | long (name : List Char) (value : Option (List Char))
  /-- A letter behind one dash, and what follows it. -/
  | short (letter : Char) (more : List Char)
  | word
  deriving DecidableEq, Repr

/-- The form of an argument; a single dash is a word. -/
def Shape.ofArgument (argument : List Char) : Shape :=
  match argument with
  | '-' :: '-' :: [] => .separator
  | '-' :: '-' :: r =>
    match r.dropWhile (fun c => c != '=') with
    | _ :: value => .long (r.takeWhile (fun c => c != '=')) (some value)
    | [] => .long r none
  | '-' :: c :: r => .short c r
  | _ => .word

/-- The largest number that may stand for a line or a character. -/
def maxNumber : Nat := Nat.pow 2 32 - 1

/-- The number that a word gives.  A sign may stand in front, if the number is not negative. -/
def number? (word : String) : Option Nat :=
  let (negative, digits) :=
    match word.toList with
    | '-' :: r => (true, r)
    | '+' :: r => (false, r)
    | r => (false, r)
  let value := digits.foldl (fun n c => n * 10 + (c.toNat - '0'.toNat)) 0
  if digits = [] ∨ ¬ digits.all Char.isDigit ∨ maxNumber < value ∨ (negative ∧ value ≠ 0) then none
  else some value

/-! ## Commands -/

/-- What a word stands for. -/
inductive Operand
  | file
  | number
  | name
  deriving DecidableEq, Repr

/-- Whether a word may stand for an operand. -/
def Operand.accepts (operand : Operand) (word : String) : Bool :=
  match operand with
  | file => word != ""
  | number => (number? word).isSome
  | name => true

/-- A command without what it needs. -/
inductive Verb
  | hover
  | complete
  | schema
  | runner
  deriving DecidableEq, Repr

namespace Verb

/-- The verb with a name. -/
def ofName? (name : String) : Option Verb :=
  match name with
  | "hover" => some .hover
  | "complete" => some .complete
  | "schema" => some .schema
  | "runner" => some .runner
  | _ => none

/-- The words that may follow a verb. -/
def operands : Verb → List Operand
  | hover | complete => [.file, .number, .number]
  | schema => [.name]
  | runner => [.file]

/-- The request that a verb makes with words; `dot` says that a dot was typed. -/
def request? (verb : Verb) (words : List String) (dot : Bool) : Option Request :=
  match verb, words with
  | hover, [file, line, character] => do
    return .hover file ⟨← number? line, ← number? character⟩
  | complete, [file, line, character] => do
    return .complete file ⟨← number? line, ← number? character⟩ dot
  | schema, [] => some (.schema none)
  | schema, [name] => some (.schema (some name))
  | runner, [file] => some (.runner file)
  | _, _ => none

end Verb

/-- Read what follows a verb: the words, and whether a dot was typed.  `expected` are the
    operands to come, and `wordsOnly` says that the separator was read. -/
def readWords (verb : Verb) :
    List Operand → Bool → Bool → List String → Except Refusal (List String × Bool)
  | _, dot, _, [] => .ok ([], dot)
  | expected, dot, wordsOnly, argument :: more =>
    match (if wordsOnly then .word else Shape.ofArgument argument.toList) with
    | .separator => readWords verb expected dot true more
    | .long name value =>
      if value.isSome then .error .misuse
      else if name = ['h', 'e', 'l', 'p'] then .error .help
      else if name = ['d', 'o', 't'] ∧ verb = .complete ∧ !dot then
        readWords verb expected true wordsOnly more
      else .error .misuse
    | .short letter _ => .error (if letter = 'h' then .help else .misuse)
    | .word =>
      match expected with
      | [] => .error .misuse
      | operand :: expected =>
        if operand.accepts argument then do
          let (words, dot) ← readWords verb expected dot wordsOnly more
          return (argument :: words, dot)
        else .error .misuse

/-- Read the request of a verb. -/
def readRequest (verb : Verb) (arguments : List String) : Except Refusal Request := do
  let (words, dot) ← readWords verb verb.operands false false arguments
  match verb.request? words dot with
  | some request => return request
  | none => throw .misuse

/-! ## The whole line -/

/-- The answer to a request for help, about the program or about one of its commands. -/
def helpAbout : List String → Refusal
  | [] => .help
  | [name] => if name = "help" ∨ (Verb.ofName? name).isSome then .help else .misuse
  | _ => .misuse

/-- Read a command line; `root` is the workspace, if it was given already. -/
def readLine : Option String → List String → Except Refusal Invocation
  | _, [] => .error .misuse
  | root, argument :: more =>
    match Verb.ofName? argument with
    | some verb => do return ⟨root.getD ".", ← readRequest verb more⟩
    | none =>
      if argument = "help" then .error (helpAbout more)
      else
        -- the workspace may be given once only, and not as nothing
        let admits (value : List Char) : Bool := root.isNone && !value.isEmpty
        match Shape.ofArgument argument.toList with
        | .long name value =>
          if name = ['h', 'e', 'l', 'p'] ∧ value = none then .error .help
          else if name ≠ ['w', 'o', 'r', 'k', 's', 'p', 'a', 'c', 'e'] then .error .misuse
          else
            match value with
            | some value =>
              if admits value then readLine (some (String.ofList value)) more else .error .misuse
            | none =>
              match more with
              | value :: more =>
                if Shape.ofArgument value.toList = .word ∧ admits value.toList then
                  readLine (some value) more
                else .error .misuse
              | [] => .error .misuse
        | .short 'h' _ => .error .help
        | .short 'w' [] =>
          match more with
          | value :: more =>
            if Shape.ofArgument value.toList = .word ∧ admits value.toList then
              readLine (some value) more
            else .error .misuse
          | [] => .error .misuse
        | .short 'w' attached =>
          let value := if attached.head? = some '=' then attached.drop 1 else attached
          if admits value then readLine (some (String.ofList value)) more else .error .misuse
        | _ => .error .misuse

/-- The invocation that a command line asks for. -/
def Invocation.ofArguments (arguments : List String) : Except Refusal Invocation :=
  readLine none arguments

end RunnerCatalog.CommandLine
