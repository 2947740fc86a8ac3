import PiBlocks.CommandLine.Program

/-!
# The program on a real system

The actions of `Host` as the system offers them, and the entry point, which runs
`Program.run` on them and ends with its exit code.
-/

namespace PiBlocks

/-- The cause of a system error. -/
def FileError.ofSystem : IO.Error → FileError
  | .noFileOrDirectory _ _ _ => .notFound
  | .inappropriateType _ code details | .resourceExhausted _ code details
  | .permissionDenied _ code details | .invalidArgument _ code details
  | .noSuchThing _ code details | .alreadyExists _ code details =>
    if code = 20 then .notFolder
    else if code = 21 then .isFolder
    else if code = 36 then .nameTooLong
    else .other (details ++ " (os error " ++ toString code ++ ")")
  | error => .other (toString error)

/-- The real system. -/
instance : Host IO where
  read path := do
    if path.isEmpty then return .error .notFound
    match ← (IO.FS.readBinFile path).toBaseIO with
    | .error error => return .error (.ofSystem error)
    | .ok bytes =>
      match String.fromUTF8? bytes with
      | some text => return .ok text
      | none => return .error .notText
  write path text := do
    match ← (IO.FS.writeFile path text).toBaseIO with
    | .error error => return .error (.ofSystem error)
    | .ok () => return .ok ()
  isFile path := do
    if path.isEmpty then return false
    let place := (← IO.currentDir) / path
    match ← place.metadata.toBaseIO with
    | .ok data => return data.type == .file
    | .error _ => return false
  list path := do
    if path.isEmpty then return []
    let place := (← IO.currentDir) / path
    match ← place.readDir.toBaseIO with
    | .error _ => return []
    | .ok entries => entries.toList.mapM fun entry => do
      return (entry.fileName, ← entry.path.isDir)
  print := IO.print
  report := IO.eprint

end PiBlocks

/-- Runs the program. -/
def main (arguments : List String) : IO UInt32 := do
  return (← (PiBlocks.Program.run arguments : IO Nat)).toUInt32
