import NaturalDeduction.CommandLine.Run

/-!
# The command line tool

* `main`   checks the proof that the arguments name and prints the verdict.
-/

namespace NaturalDeduction.CommandLine

def usage : String :=
  "usage: ipl-check [-h] [--goal GOAL] [--max-depth MAX_DEPTH] [--show] [-v] proof\n"

/-- The reason that a system error gives; a directory in the place of a file has the code 21. -/
def ReadError.ofSystem : IO.Error → ReadError
  | .noFileOrDirectory _ _ _ => .notFound
  | .inappropriateType _ code _ => if code == 21 then .isDirectory else .notDirectory
  | .invalidArgument _ _ _ => .nameTooLong
  | .permissionDenied _ _ _ => .other "Permission denied"
  | e => .other (toString e)

def readProof (path : String) : IO (Except ReadError ByteArray) := do
  try
    return .ok (← IO.FS.readBinFile path)
  catch e =>
    return .error (.ofSystem e)

/-- Prints the outcome of a run; the result is the exit status. -/
def finish : Outcome → IO UInt32
  | .done status out err => do
    IO.print out
    IO.eprint err
    return status.toUInt32
  | .noRun .help => do
    IO.print usage
    return 0
  | .noRun .misuse => do
    IO.eprint usage
    return 2
  | .misnamed => do
    IO.eprintln ReadError.nullByte.message
    return 1
  | .undecodable => do
    IO.eprintln "the proof is not a UTF-8 text"
    return 1
  | .failed _ => do
    IO.eprintln "the proof cannot be checked"
    return 1

end NaturalDeduction.CommandLine

open NaturalDeduction CommandLine in
def main (args : List String) : IO UInt32 := do
  match Options.parse args with
  | .error why => finish (.noRun why)
  | .ok o =>
    let input ← if o.proof == "-" then Except.ok <$> (← IO.getStdin).readBinToEnd
      else readProof o.proof
    finish (runOn o input)
