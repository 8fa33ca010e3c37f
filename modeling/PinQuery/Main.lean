import PinQuery.CommandLine.Run

/-!
# The program

The command line over the real file system. The files that the arguments name are copied into a
file tree, the run is computed on it, and a file that the run has stored is written.
-/

namespace PinQuery

/-- What stands at a path of the file system, if anything does. -/
def loadNode (path : String) : IO (Option FileNode) := do
  let place := (← IO.currentDir) / path
  if ← place.isDir then
    return some .directory
  else if ← place.pathExists then
    return some (.file (← IO.FS.readBinFile place))
  else
    return none

/-- The tree with all that stands on the way to a path. -/
def loadPath (tree : FileTree) (path : String) : IO FileTree := do
  let mut tree := tree
  let mut place := tree.startOf path
  for name in FileTree.pathNames path do
    match tree.enter place name with
    | .error _ => return tree
    | .ok next =>
      place := next
      if let some node ← loadNode ("/" ++ "/".intercalate place) then
        unless place.isEmpty do
          tree := tree.put place node
  return tree

/-- The paths that the arguments name. -/
def namedPaths (arguments : List String) : List String :=
  match Arguments.parse arguments with
  | .ok (.run ⟨.query options, _⟩) => options.file.toList ++ options.output.toList
  | _ => []

/-- Write a file in one step, through a draft beside it. -/
def writeFile (path : Path) (bytes : ByteArray) : IO Unit := do
  let text (path : Path) := "/" ++ "/".intercalate path
  let draft := text (path.dropLast ++ [FileTree.draftName])
  IO.FS.writeBinFile draft bytes
  IO.FS.rename draft (text path)

/-- The working directory. -/
def loadWorkingDirectory : IO FileTree := do
  let names := (FileTree.pathNames (toString (← IO.currentDir))).filter (· != "")
  return .emptyAt names

end PinQuery

open PinQuery in
/-- Run the command line. -/
def main (arguments : List String) : IO UInt32 := do
  let mut tree ← loadWorkingDirectory
  for path in namedPaths arguments do
    tree ← loadPath tree path
  let outcome := CommandLine.run (← IO.getEnv "NO_COLOR") arguments tree
  for (path, node) in outcome.tree.entries do
    if let .file bytes := node then
      unless (tree.get? path).any node.same do
        writeFile path bytes
  IO.print outcome.stdout
  IO.eprint outcome.stderr
  return .ofNat outcome.code
