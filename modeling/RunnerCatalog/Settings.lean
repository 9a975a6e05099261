/-
  The settings of a workspace.
-/

namespace RunnerCatalog

/-- The settings of a workspace. -/
structure Settings where
  /-- The runner of scripts that name none. -/
  defaultRunner : String := "obj_cat_script_runner"
  /-- The directory of schema documents, below any directory of the workspace. -/
  schemaDir : String := ".catscript/schemas"
  /-- The language by which titles are marked in Markdown. -/
  languageId : String := "catscript"
  deriving DecidableEq, Repr, Inhabited

end RunnerCatalog
