import GuidedReach.Config

/-!
# Commands

The program is called as `check FILE`, with options, or as `print FILE`.

* `Command.parse?` — the command of some arguments; none if they are not used as intended.

An option and its value are two arguments, or one with an equals sign between. No option may come
twice. Everything after `--` is a file name; before it, what begins with a dash is an option, a
single dash apart.
-/

namespace GuidedReach

/-- The options of the `check` command. -/
structure CheckOptions where
  search : SearchType := .decreasing
  stop : StopCriterion := .firstCounterexample
  /-- Whether to report the time that was spent. -/
  time : Bool := false
  /-- Where to write a drawing of the last explored graph. -/
  dot : Option String := none
  deriving DecidableEq, Repr

/-- A command. -/
inductive Command where
  /-- Check that no target of the system in a file can be reached. -/
  | check (options : CheckOptions) (file : String)
  /-- Write the system in a file in its normal form. -/
  | print (file : String)
  deriving DecidableEq, Repr

namespace Command

/-- The file that a command reads. -/
def file : Command → String
  | .check _ file => file
  | .print file => file

def searchTypeOf? : String → Option SearchType
  | "decreasing" => some .decreasing
  | "semi-ondemand" => some .semiOnDemand
  | "full" => some .full
  | _ => none

def stopCriterionOf? : String → Option StopCriterion
  | "first-cex" => some .firstCounterexample
  | "full-exploration" => some .fullExploration
  | _ => none

/-- The arguments of a `check` command that have been read so far. -/
structure Draft where
  search : Option SearchType := none
  stop : Option StopCriterion := none
  time : Bool := false
  dot : Option String := none
  file : Option String := none
  deriving DecidableEq, Repr

/-- Whether an argument stands for itself and is no option. -/
def isPlain (arg : String) : Bool :=
  match arg.toList with
  | '-' :: _ :: _ => false
  | _ => true

def addFile (draft : Draft) (arg : String) : Option Draft :=
  if draft.file.isNone then some { draft with file := some arg } else none

/-- Add an option that takes a value. -/
def addOption (draft : Draft) (name value : String) : Option Draft :=
  match name with
  | "--search" => do
    guard draft.search.isNone
    return { draft with search := some (← searchTypeOf? value) }
  | "--stop" => do
    guard draft.stop.isNone
    return { draft with stop := some (← stopCriterionOf? value) }
  | "--dot" => do
    guard draft.dot.isNone
    return { draft with dot := some value }
  | _ => none

/-- Split an option argument at its first equals sign. -/
def splitOption (arg : String) : String × Option String :=
  let name := arg.toList.takeWhile (· != '=')
  match arg.toList.dropWhile (· != '=') with
  | _ :: value => (String.ofList name, some (String.ofList value))
  | [] => (arg, none)

/-- Read the arguments of a `check` command. -/
def readCheck (draft : Draft) : List String → Option Draft
  | [] => some draft
  | "--" :: files => files.foldlM addFile draft
  | arg :: rest =>
    if isPlain arg then do
      readCheck (← addFile draft arg) rest
    else
      match splitOption arg, rest with
      | ("--time", none), rest =>
        if draft.time then none else readCheck { draft with time := true } rest
      | (name, some value), rest => do
        readCheck (← addOption draft name value) rest
      | (name, none), value :: rest => do
        guard (isPlain value)
        readCheck (← addOption draft name value) rest
      | _, _ => none

/-- Read the arguments of a `print` command. -/
def readPrint (file : Option String) : List String → Option String
  | [] => file
  | "--" :: files =>
    match file, files with
    | none, [file] => some file
    | some file, [] => some file
    | _, _ => none
  | arg :: rest => if isPlain arg && file.isNone then readPrint (some arg) rest else none

/-- The command of some arguments. -/
def parse? : List String → Option Command
  | "check" :: args => do
    let draft ← readCheck {} args
    let file ← draft.file
    let options : CheckOptions :=
      { search := draft.search.getD .decreasing
        stop := draft.stop.getD .firstCounterexample
        time := draft.time
        dot := draft.dot }
    return .check options file
  | "print" :: args => (readPrint none args).map .print
  | _ => none

end Command

end GuidedReach
