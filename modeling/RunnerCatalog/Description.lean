/-
  What is shown about a command.

      ```catscript
      Util.log @msg:string @level:!number
      ```
      ```
      -> bool
      ```
      Writes a line to the debug console.

  The title is the name with `@name:type` for each argument, an `!` marking optional ones; the
  results follow if there are any; the description of the schema comes last, as it is.
-/
import RunnerCatalog.Runner

namespace RunnerCatalog

/-- The parts of what is shown about a command. -/
structure Description where
  title : String
  /-- The results, if the command has any. -/
  returns : Option String
  /-- The description in the schema. -/
  details : String
  deriving DecidableEq, Repr

/-- The name by which a command of a scope is called. -/
def qualifiedName (scope command : String) : String :=
  if scope = baseScope then command else scope ++ "." ++ command

/-- An argument in a title. -/
def Argument.signature (a : Argument) : String :=
  " @" ++ a.name ++ ":" ++ (if a.optional then "!" else "") ++ a.type

namespace Description

/-- What is shown about a command of the scope `scope`. -/
def ofCommand (scope : String) (c : Command) : Description where
  title := qualifiedName scope c.command ++ String.join (c.arguments.map Argument.signature)
  returns := if c.output.isEmpty then none else some ("-> " ++ ", ".intercalate c.output)
  details := c.description

/-- The description as Markdown; the title is fenced as the given language. -/
def markdown (d : Description) (language : String) : String :=
  "```" ++ language ++ "\n" ++ d.title ++ "\n```\n"
    ++ (match d.returns with
        | some returns => "```\n" ++ returns ++ "\n```\n"
        | none => "")
    ++ d.details

end Description

/-- What is shown about a command of a runner, if the runner has it. -/
def Runner.describe? (r : Runner) (scope command : String) : Option Description :=
  (r.command? scope command).map (Description.ofCommand scope)

end RunnerCatalog
