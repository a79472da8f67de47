import WireErosion.CommandLine.Session
import WireErosion.Region.Library

/-!
# The command line

Takes a picture of the files that a command may touch, runs the command on the picture, says what it
said, and writes the files that it changed.
-/

namespace WireErosion.CommandLine

/-- Whether a folder is there: it cannot be read as a file, but not because nothing is there. -/
def folderExists (n : FileName) : IO Bool := do
  try
    let _ ← IO.FS.readBinFile n.text
    return false
  catch
    | .noFileOrDirectory .. => return false
    | _ => return true

/-- A picture with one more file and its folder, if they are there. -/
def addToPicture (s : FileStore) (n : FileName) : IO FileStore := do
  let mut folders := s.folders
  for m in [n, n.folder] do
    if ← folderExists m then folders := FileStore.key m :: folders
  try
    let bytes ← IO.FS.readBinFile n.text
    return ⟨FileStore.put (FileStore.key n) bytes s.files, folders⟩
  catch _ => return { s with folders }

/-- A picture of the files that some arguments may touch. -/
def picture (arguments : List String) (home : FileName) : IO FileStore := do
  match Request.ofArguments arguments with
  | .error _ => return ⟨[], []⟩
  | .ok request =>
    (usualSettings home :: request.command.files).foldlM addToPicture ⟨[], []⟩

/-- Writes the files of a store that differ from those of a picture. -/
def writeChanges (before after : FileStore) : IO Unit := do
  for (k, bytes) in after.files do
    if (before.bytes? k).map ByteArray.toList != some bytes.toList then
      IO.FS.writeBinFile ("/".intercalate k) bytes

/-- The status that a session ends with, after a fault that no command dealt with is reported. -/
def finish : Ending → IO UInt32
  | .status n => return n.toUInt32
  | .fault f => do
    IO.eprintln ("Error: " ++ f.report)
    return 1

end WireErosion.CommandLine

open WireErosion WireErosion.CommandLine

/-- Runs a command. -/
def main (arguments : List String) : IO UInt32 := do
  let home := FileName.ofText ((← IO.getEnv "HOME").getD ".")
  let before ← picture arguments home
  let transcript := run arguments home before
  for line in transcript.terminal.said do IO.println line
  for line in transcript.terminal.complaints do IO.eprintln line
  writeChanges before transcript.terminal.store
  finish transcript.ending
