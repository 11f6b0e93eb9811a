import TidyManifest.Command.Run

/-!
# The command line program
-/

open TidyManifest.Command

/-- The number of a failure of the system, which can be given with a minus sign. -/
def failureNumber (code : UInt32) : UInt32 :=
  if code < 0x80000000 then code else 0 - code

/-- What went wrong with a file of the system. -/
def fileErrorOf : IO.Error → FileError
  | .noFileOrDirectory .. => .missing
  | .inappropriateType _ code _ => if failureNumber code == 20 then .notFolder else .isFolder
  | .invalidArgument file code details =>
    if failureNumber code == 36 then .longName
    else .other (IO.Error.invalidArgument file code details).toString
  | e => .other e.toString

/-- Turn failures of the system into results. -/
def guarded (action : IO α) : IO (Except FileError α) := do
  try
    return .ok (← action)
  catch e =>
    return .error (fileErrorOf e)

/-- All bytes of a stream. -/
partial def readAll (stream : IO.FS.Stream) (seen : ByteArray) : IO ByteArray := do
  let chunk ← stream.read 65536
  if chunk.isEmpty then return seen else readAll stream (seen ++ chunk)

/-- The files of the system. -/
def systemHost : Host IO where
  readInput := do
    return (← guarded (do readAll (← IO.getStdin) .empty)).bind textOfBytes
  isKept path := do
    return (← guarded (IO.FS.readBinFile path)).toOption.isSome
  readFile path := do
    return (← guarded (IO.FS.readBinFile path)).bind textOfBytes
  writeFile path text := guarded (IO.FS.writeFile path text)

def main (args : List String) : IO UInt32 := do
  let report ← runArguments systemHost args
  IO.print report.output
  IO.eprint report.errors
  return report.exitCode.toUInt32
