import GuidedReach.Checker
import GuidedReach.CommandLine.Command
import GuidedReach.GenerationDot
import GuidedReach.TransitionSystem.Json

/-!
# Running commands

`Command.run` carries out a command in an `Environment`, which gives access to files and a clock.
What it reports is a `Report`: two texts and an exit code, 0 if all went well, 1 if the system has a
counterexample, 2 if the input or the configuration is invalid, and 101 if a check broke down.
-/

namespace GuidedReach

/-- What a command needs from outside. -/
structure Environment (m : Type → Type) where
  /-- The contents of a file, or why it could not be read. -/
  load : String → m (Except String String)
  /-- Write a file, or tell why it could not be written. -/
  save : String → String → m (Except String Unit)
  /-- The time in nanoseconds. -/
  clock : m Nat

/-- What a command reports. -/
structure Report where
  exitCode : Nat
  output : String := ""
  errors : String := ""
  deriving DecidableEq, Repr

namespace Report

/-- A report of nothing but an error. -/
def failure (exitCode : Nat) (error : String) : Report := { exitCode, errors := error ++ "\n" }

end Report

/-- The text for a computation that ended without a result. -/
def Halt.message : Halt → String
  | .fault cause => cause.message
  | .outOfFuel => "the check did not end within the allowed number of steps"

namespace Command

variable {m : Type → Type} [Monad m]

/-- How the program is called. -/
def usage : String :=
  "usage: check [--search decreasing|semi-ondemand|full] [--stop first-cex|full-exploration]"
    ++ " [--time] [--dot DOT] FILE\n       print FILE"

/-- The report of an answer. -/
def answerReport (answer : Answer) (errors : String) : Report :=
  match answer with
  | .safe => { exitCode := 0, output := "safe\n", errors }
  | .counterexample trace =>
    let path := " -> ".intercalate (trace.map toString)
    { exitCode := 1, output := "unsafe\ncounterexample: " ++ path ++ "\n", errors }

/-- Write the drawing that the options ask for. Tells what went wrong. -/
def writeDrawing (env : Environment m) (options : CheckOptions) (checker : Checker) :
    m (Option String) := do
  match options.dot, checker.abstractor.solved? with
  | some path, some gen =>
    match ← env.save path gen.dot with
    | .ok () => return none
    | .error reason => return some ("could not write " ++ path ++ ": " ++ reason)
  | _, _ => return none

/-- Check a system. -/
def runCheck (env : Environment m) (fuel : Nat) (options : CheckOptions)
    (system : TransitionSystem) : m Report := do
  match Config.make? options.search options.stop with
  | .error error => return .failure 2 error.message
  | .ok config =>
    let checker := Checker.start system config
    match ← Checker.checkTimed env.clock fuel fuel checker (.initial system) with
    | .error halt => return .failure 101 halt.message
    | .ok (answer, checker) =>
      match ← writeDrawing env options checker with
      | some error => return .failure 2 error
      | none =>
        let times := if options.time then checker.stats.text ++ "\n" else ""
        return answerReport answer times

/-- Carry out a command. `fuel` bounds the rounds of a check and the steps of its searches. -/
def run (env : Environment m) (fuel : Nat) (command : Command) : m Report := do
  match ← env.load command.file with
  | .error reason => return .failure 2 ("could not read " ++ command.file ++ ": " ++ reason)
  | .ok text =>
    match TransitionSystem.ofJson? text with
    | .error error => return .failure 2 error.message
    | .ok system =>
      match command with
      | .print _ => return { exitCode := 0, output := system.json ++ "\n" }
      | .check options _ => runCheck env fuel options system

/-- Carry out the command of some arguments. -/
def runArgs (env : Environment m) (fuel : Nat) (args : List String) : m Report :=
  match parse? args with
  | some command => run env fuel command
  | none => return .failure 2 usage

end Command

end GuidedReach
