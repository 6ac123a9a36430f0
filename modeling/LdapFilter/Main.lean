import LdapFilter.CommandLine.Run

/-!
# The program

Connects runs to files, the environment and the standard streams.
-/

open LdapFilter.CommandLine

namespace LdapFilter.Program

def readErrorOf : IO.Error → ReadError
  | .noFileOrDirectory .. => .missing
  | .permissionDenied .. => .denied
  | .inappropriateType _ code _ => if code = 21 then .directory else .notDirectory
  | e => .other e.toString

def fileText (path : String) : IO (Except ReadError String) := do
  try
    return decodeText (← IO.FS.readBinFile path)
  catch e =>
    return .error (readErrorOf e)

/-- All bytes of a stream, after some that are read already. -/
partial def readBytes (stream : IO.FS.Stream) (done : ByteArray) : IO ByteArray := do
  let bytes ← stream.read 65536
  if bytes.isEmpty then return done
  readBytes stream (done ++ bytes)

def inputText : IO (Except ReadError String) := do
  try
    return decodeText (← readBytes (← IO.getStdin) .empty)
  catch e =>
    return .error (readErrorOf e)

/-- What the system provides for a run. -/
def surroundings : IO (Surroundings IO) := do
  let config ← IO.getEnv "ADFILTER_CONFIG"
  return { config, fileText, inputText }

end LdapFilter.Program

def main (args : List String) : IO UInt32 := do
  let report ← run (← LdapFilter.Program.surroundings) args
  IO.print report.output
  match report.error with
  | some message => IO.eprintln message
  | none => if report.exitCode ≠ 0 then IO.eprintln "Usage: adfilter [OPTIONS] [FILE]"
  return report.exitCode
