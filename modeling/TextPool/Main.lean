import TextPool.CommandLine.Program

/-!
# The program on the machine's files

Reads, writes and prints for the program (`Machine.system`), and words what the machine refuses.
-/

namespace TextPool.Machine

/-- The wording of a refusal, with its number. -/
def refusal (details : String) (number : UInt32) : String :=
  details ++ s!" (os error {number.toNat})"

/-- The wording of a refusal by the machine. -/
def reasonOf : IO.Error → String
  | .alreadyExists _ number details => refusal details number
  | .otherError number details => refusal details number
  | .resourceBusy number details => refusal details number
  | .resourceVanished number details => refusal details number
  | .unsupportedOperation number details => refusal details number
  | .hardwareFault number details => refusal details number
  | .unsatisfiedConstraints number details => refusal details number
  | .illegalOperation number details => refusal details number
  | .protocolError number details => refusal details number
  | .timeExpired number details => refusal details number
  | .interrupted _ number details => refusal details number
  | .noFileOrDirectory _ number details => refusal details number
  | .invalidArgument _ number details => refusal details number
  | .permissionDenied _ number details => refusal details number
  | .resourceExhausted _ number details => refusal details number
  | .inappropriateType _ number details => refusal details number
  | .noSuchThing _ number details => refusal details number
  | .unexpectedEof => "unexpected end of file"
  | .userError details => details

/-- The files of the machine and its output. A file that is there is written over, and that nobody
reads the output any more is no failure. -/
def system : Machine IO where
  read path := do
    match ← (IO.FS.withFile path .read (·.readBinToEnd)).toBaseIO with
    | .ok content => return content.data.toList
    | .error error => throw (.unreadable path (reasonOf error))
  write path content := do
    match ← (IO.FS.writeBinFile path ⟨content.toArray⟩).toBaseIO with
    | .ok _ => return
    | .error error => throw (.unwritable path (reasonOf error))
  print text := do
    let output ← IO.getStdout
    match ← (do output.putStr text; output.flush : IO Unit).toBaseIO with
    | .ok _ => return
    | .error (.resourceVanished _ _) => return
    | .error error => throw (.unprintable (reasonOf error))

end TextPool.Machine

/-- Carries out the command line, and ends with the status that its outcome asks for. -/
def main (arguments : List String) : IO UInt32 := do
  match ← (TextPool.Machine.system.carryOut arguments).run with
  | .ok _ => return 0
  | .error failure =>
    IO.eprintln failure.message
    return failure.status.toUInt32
