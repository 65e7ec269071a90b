import Lumen.CommandLine

namespace Lumen.CommandLine

def contentOf (file : String) : IO (Except Unreadable ByteArray) := do
  try
    return .ok (← IO.FS.readBinFile file)
  catch
    | .noFileOrDirectory .. => return .error .missing
    | .inappropriateType _ code _ =>
      return .error (if code = 21 then .directory else .notDirectory)
    | .invalidArgument _ code _ =>
      return .error (if code = 22 then .nulInName else .nameTooLong)
    | .permissionDenied .. => return .error .denied
    | e => return .error (.other (toString e))

end Lumen.CommandLine

open Lumen CommandLine

def main (args : List String) : IO UInt32 := do
  let request := Request.ofArgs {} args
  let content ← match request with
    | .compile file _ _ => contentOf file
    | _ => pure (.error .missing)
  let outcome := request.answer content
  IO.print outcome.stdout
  IO.eprint outcome.stderr
  return outcome.exit.toUInt32
