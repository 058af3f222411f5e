import Assay.Command.Run
import Assay.Grammar.Module

/-!
# The program

Runs a command line on the files of the disk, with the grammar of this library as the parser.
-/

namespace Assay

def diskEntry (path : String) : IO.FS.DirEntry := ⟨".", path⟩

def orOnFailure (otherwise : α) (action : IO α) : IO α :=
  try action catch _ => pure otherwise

/-- The files below a directory, each as the names that lead to it. Links are not followed. -/
partial def diskFiles (names : List String) (directory : IO.FS.DirEntry) :
    IO (List (List String)) := do
  let entries ← orOnFailure #[] directory.path.readDir
  let below ← entries.toList.mapM fun entry => orOnFailure [] do
    let names := names ++ [entry.fileName]
    match (← entry.path.symlinkMetadata).type with
    | .dir => diskFiles names entry
    | .file => return [names]
    | _ => return []
  return below.flatten

instance : Workspace IO where
  isPresent path := (diskEntry path).path.pathExists
  isDirectory path := if path.isEmpty then return false else (diskEntry path).path.isDir
  readText path := orOnFailure none do
    return String.fromUTF8? (← IO.FS.readBinFile path)
  filesBelow path := diskFiles [] (diskEntry path)
  makeDirectories path := orOnFailure false do
    unless path.isEmpty do IO.FS.createDirAll path
    return true
  writeText path text := orOnFailure false do
    IO.FS.writeFile path text
    return true
  readInput := orOnFailure none do
    return String.fromUTF8? (← (← IO.getStdin).readBinToEnd)

end Assay

def main (words : List String) : IO UInt32 := do
  let exit : Assay.Command.Exit ← Assay.Command.program Assay.Grammar.parser words
  let output ← IO.getStdout
  output.putStr (String.ofList exit.output)
  output.flush
  for notice in exit.notices do IO.eprintln notice
  return UInt32.ofNat exit.code
