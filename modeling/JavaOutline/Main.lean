import JavaOutline.Program

/-!
# The entry point

Reads the directory that the arguments name, runs the program, and writes what it says.
-/

namespace JavaOutline

/-- The bytes of a file, if it can be read. -/
def readBytes (path : String) : IO (Option (List UInt8)) := do
  try
    return some (← IO.FS.readBinFile path).toList
  catch _ =>
    return none

/-- What a path holds, if it is a directory that can be read. Links to directories are not
followed, and only source files are opened. -/
partial def readEntries (path : String) : IO (List Entry) := do
  if path.isEmpty then return []
  let place := (← IO.currentDir) / path
  try
    if !(← place.isDir) then return []
    let found ← (← place.readDir).toList.mapM fun e => do
      let name := e.fileName.toList
      if ← e.path.isDir then
        match (← e.path.symlinkMetadata).type with
        | .symlink => return []
        | _ => return [Entry.directory name (← readEntries e.path.toString)]
      else if isSourceName name then
        return [Entry.file name (← readBytes e.path.toString)]
      else
        return [Entry.file name none]
    return found.flatten
  catch _ =>
    return []

/-- Runs the program on the given arguments. The result is the exit status. -/
def start (args : List (List Char)) : IO UInt32 := do
  let entries ← match directory? args with
    | some directory => readEntries (String.ofList directory)
    | none => pure []
  let outcome := run args entries
  (← IO.getStdout).putStr (String.ofList outcome.output)
  (← IO.getStderr).putStr (String.ofList outcome.complaint)
  return outcome.status.toUInt32

end JavaOutline

/-- The entry point. -/
def main (args : List String) : IO UInt32 := JavaOutline.start (args.map String.toList)
