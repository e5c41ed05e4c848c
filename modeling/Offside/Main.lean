import Offside.Cli.Command

/-!
# The program

The outer layer. It takes what a command may need of the real file system into a file tree,
leaves the work to `Cli.run`, and then writes out the lines and the files that came of it.
-/

open Offside

namespace Offside.Program

/-- The names on the way to an absolute path. -/
def placeOf (path : String) : Place :=
  (List.splitOn '/' path.toList).filter Path.isStep

/-- The absolute path of a place. -/
def pathOf (place : Place) : String :=
  String.ofList (place.flatMap ('/' :: ·))

/-- Takes a directory entry, and everything below it, into a tree. What cannot be read is left
out. -/
partial def gather (tree : FileTree) (entry : IO.FS.DirEntry) : IO FileTree := do
  let place := placeOf entry.path.toString
  try
    if ← entry.path.isDir then
      (← entry.path.readDir).foldlM gather (tree.plant place .directory)
    else
      return tree.plant place (.file (← IO.FS.readBinFile entry.path))
  catch _ => return tree

/-- Takes what an argument names into a tree, if it names anything. -/
def gatherArgument (tree : FileTree) (argument : String) : IO FileTree := do
  try
    let path ← IO.FS.realPath argument
    if ← path.isDir then
      (← path.readDir).foldlM gather (tree.plant (placeOf path.toString) .directory)
    else
      return tree.plant (placeOf path.toString) (.file (← IO.FS.readBinFile path))
  catch _ => return tree

/-- Everything that is left of a stream, after what has been read. -/
partial def readAll (stream : IO.FS.Stream) (soFar : ByteArray) : IO ByteArray := do
  let chunk ← stream.read 65536
  if chunk.isEmpty then return soFar else readAll stream (soFar ++ chunk)

/-- Whether colours are wanted: where they are forced, or on a terminal that does not decline
them. -/
def wantsColour : IO Bool := do
  let isOn (name : String) : IO Bool := return ((← IO.getEnv name).map (· != "0")).getD false
  if ← isOn "CLICOLOR_FORCE" then return true
  if (← IO.getEnv "NO_COLOR").isSome then return false
  if (← IO.getEnv "CLICOLOR") == some "0" then return false
  (← IO.getStdout).isTty

end Offside.Program

open Offside.Program in
/-- Runs the command line. -/
def main (arguments : List String) : IO UInt32 := do
  let here := placeOf (← IO.currentDir).toString
  let start : FileTree := { workingDirectory := here }
  let tree ← ["."].append arguments |>.foldlM gatherArgument (start.plant here .directory)
  let input ← if arguments.contains "-" then readAll (← IO.getStdin) .empty else pure .empty
  let outcome := Cli.run (← wantsColour) (arguments.map String.toList) tree input
  for (place, content) in tree.changes outcome.tree do
    let path := pathOf place
    IO.FS.createDirAll (pathOf place.dropLast)
    IO.FS.writeBinFile path content
  IO.print (Cli.textOf outcome.output)
  IO.eprint (Cli.textOf outcome.errors)
  return outcome.status.toUInt32
