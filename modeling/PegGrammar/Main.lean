import PegGrammar.CommandLine

open PegGrammar.CommandLine

def PegGrammar.CommandLine.readTextFile (path : String) : IO (Except ReadFailure String) := do
  try
    let bytes ← IO.FS.readBinFile path
    match String.fromUTF8? bytes with
    | some text => return .ok text
    | none => return .error .notUtf8
  catch
    | .noFileOrDirectory .. => return .error .missing
    | .invalidArgument .. => return .error .nameTooLong
    | .inappropriateType _ code _ => return .error (if code = 21 then .directory else .notDirectory)
    | e => return .error (.other (toString e))

def main (args : List String) : IO UInt32 := do
  let report ← run readTextFile args
  IO.print report.output
  IO.eprint report.errors
  return report.exitCode.toUInt32
