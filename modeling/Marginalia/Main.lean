import Marginalia.CommandLine.Session

/-!
# The program

Reads the working directory and standard input, runs a session, and writes what it leaves behind.
-/

namespace Marginalia.CommandLine

/-- Directory entries and what is below them, by the names that lead to them. -/
partial def snapshot (place : List String) (found : Array IO.FS.DirEntry) :
    IO (List (List String × Entry)) := do
  let mut entries := []
  for e in found do
    let here := place ++ [e.fileName]
    if ← e.path.isDir then
      entries := entries ++ (here, .directory) :: (← snapshot here (← e.path.readDir))
    else entries := entries ++ [(here, .file (← IO.FS.readBinFile e.path))]
  return entries

/-- Standard input, up to its end. -/
partial def readAllInput (stream : IO.FS.Stream) (read : ByteArray) : IO ByteArray := do
  let more ← stream.read 65536
  if more.isEmpty then return read else readAllInput stream (read ++ more)

/-- Write the directories and the changed files that a run leaves behind. -/
def writeBack (before after : FileTree) : IO Unit := do
  for (place, e) in after.entries do
    match e with
    | .directory => IO.FS.createDirAll ("/".intercalate place)
    | .file _ => pure ()
  for (place, content) in after.changedSince before do
    IO.FS.writeBinFile ("/".intercalate place) content

end Marginalia.CommandLine

open Marginalia Marginalia.CommandLine in
/-- Run the program. -/
def main (args : List String) : IO UInt32 := do
  let fromInput := match Arguments.read args with
    | .ok a => a.files.isEmpty
    | .error _ => false
  let stdin ← if fromInput then readAllInput (← IO.getStdin) .empty else pure .empty
  let files ← if fromInput then pure [] else snapshot [] (← (← IO.currentDir).readDir)
  let outcome := CommandLine.run args stdin ⟨files⟩
  writeBack ⟨files⟩ outcome.files
  (← IO.getStdout).putStr outcome.stdout
  (← IO.getStderr).putStr outcome.stderr
  return outcome.code.toUInt32
