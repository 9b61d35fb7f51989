import Componentry.CommandLine

/-!
The program: reads the files below the current directory, runs the command line on them, prints
what it says and writes back what changed. Of what is above the current directory, only the
directories on the way to it are known.
-/
namespace Componentry.Program

-- The files and directories that were found in a directory, and all below them.
partial def load (key : Key) (found : Array IO.FS.DirEntry) : IO (List (Key × Entry)) := do
  let mut entries := []
  for e in found do
    let key := key ++ [e.fileName.toList]
    match (← e.path.metadata).type with
    | .dir => entries := (key, .directory) :: (← load key (← e.path.readDir)) ++ entries
    | .file => entries := (key, .file (← IO.FS.readBinFile e.path)) :: entries
    | _ => pure ()
  return entries

def current : IO FileSystem := do
  let directory ← IO.currentDir
  let key := (Text.splitAt '/' directory.toString.toList).filter (· ≠ [])
  let above := (List.range key.length).map fun n => (key.take (n + 1), Entry.directory)
  return { entries := above ++ (← load key (← directory.readDir)), current := key }

def place (key : Key) : String :=
  String.ofList ('/' :: Text.joinWith ['/'] key)

-- Makes the files those of `after`, given that they are those of `before`.
def store (before after : FileSystem) : IO Unit := do
  for (key, entry) in before.entries do
    if entry matches .file _ && after.get? key = none then IO.FS.removeFile (place key)
  for (key, entry) in after.entries.mergeSort (fun a b => a.1.length ≤ b.1.length) do
    if before.get? key ≠ some entry then
      match entry with
      | .directory => IO.FS.createDir (place key)
      | .file content => IO.FS.writeBinFile (place key) content

end Componentry.Program

open Componentry in
def main (arguments : List String) : IO UInt32 := do
  let before ← Program.current
  let (after, log, code) := CommandLine.run (arguments.map String.toList) before
  Program.store before after
  for line in log.out do
    IO.println (String.ofList line)
  for line in log.errors do
    IO.eprintln (String.ofList line)
  return code.toUInt32
