/-
  The command line.

  The files of the current directory are named on standard input, a path a line; the answer
  goes to standard output, complaints and notices go to standard error.
-/
import RunnerCatalog.CommandLine.Outcome

namespace RunnerCatalog.CommandLine

/-- Read the named files into a tree; a file that cannot be read is left out. -/
def readFiles (paths : List String) : IO Files.Tree :=
  paths.foldlM
    (fun (tree : Files.Tree) (path : String) => do
      match ← (IO.FS.readBinFile path).toBaseIO with
      | .ok content => return (tree.writeDeep path content).toOption.getD tree
      | .error _ => return tree)
    Files.Tree.empty

/-- The lines of standard input. -/
partial def readNames (input : IO.FS.Stream) : IO (List String) := do
  let line ← input.getLine
  if line.isEmpty then return []
  let name := String.ofList (line.toList.filter fun c => c != '\n')
  return name :: (← readNames input)

end RunnerCatalog.CommandLine

/-- Carry out the command line. -/
def main (arguments : List String) : IO UInt32 := do
  let tree ← RunnerCatalog.CommandLine.readFiles
    (← RunnerCatalog.CommandLine.readNames (← IO.getStdin))
  let outcome := RunnerCatalog.CommandLine.run tree arguments
  for notice in RunnerCatalog.noticesUpTo .information outcome.trace do
    IO.eprintln (notice.level.name ++ " " ++ notice.describe)
  IO.print outcome.output
  match outcome.complaint with
  | some complaint => IO.eprint complaint.describe
  | none => if outcome.code = 2 then IO.eprint RunnerCatalog.CommandLine.usage
  return outcome.code
