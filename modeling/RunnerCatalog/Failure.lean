/-
  Why a schema cannot be had.

  Each failure keeps its cause; the wording is in `Failure.describe` alone.
-/
import RunnerCatalog.Json.Fault

namespace RunnerCatalog

/-- Why the schema of a runner cannot be had. -/
inductive Failure
  /-- No document belongs to the runner. -/
  | notFound (runner : String)
  /-- The document of the runner is not a schema. -/
  | malformed (runner : String) (problem : Json.Problem)
  /-- The runners of `chain` extend each other, each the next one. -/
  | cycle (chain : List String)
  /-- The search for documents cannot be carried out. -/
  | badPattern (text : String)
  /-- The document cannot be read. -/
  | unreadable (text : String)
  deriving DecidableEq, Repr

/-- The wording of a failure. -/
def Failure.describe : Failure → String
  | notFound runner => "no schema document for runner: " ++ runner
  | malformed runner problem =>
    "malformed schema for runner " ++ runner ++ ": " ++ problem.describe
  | cycle chain => "extends cycle: " ++ " -> ".intercalate chain
  | badPattern text => "invalid schema search pattern: " ++ text
  | unreadable text => "I/O error: " ++ text

end RunnerCatalog
