import GuidedReach.CommandLine.Run

/-!
# The program

Runs a command on the files and the clock of the machine.
-/

namespace GuidedReach

/-- The text of a system error: its description and its number. -/
def describe : IO.Error → String
  | .noFileOrDirectory _ code details
  | .inappropriateType _ code details
  | .permissionDenied _ code details
  | .alreadyExists _ code details
  | .resourceExhausted _ code details => details ++ " (os error " ++ toString code ++ ")"
  | error => toString error

/-- The files and the clock of the machine. -/
def machine : Environment IO where
  load path := do
    try
      return .ok (← IO.FS.readFile path)
    catch error =>
      return .error (describe error)
  save path text := do
    try
      IO.FS.writeFile path text
      return .ok ()
    catch error =>
      return .error (describe error)
  clock := IO.monoNanosNow

/-- The steps that each search, and the search for an answer, may take: 2 ^ 62, which no run of the
program gets through. -/
def stepLimit : Nat := 4611686018427387904

end GuidedReach

open GuidedReach in
/-- Runs the command of the arguments, prints what it reports and ends with its exit code. -/
def main (args : List String) : IO UInt32 := do
  let report ← Command.runArgs machine stepLimit args
  IO.eprint report.errors
  IO.print report.output
  return report.exitCode.toUInt32
