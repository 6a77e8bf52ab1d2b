import GuidedReach.Json.Reader
import GuidedReach.TransitionSystem.Basic

/-!
# Systems as JSON texts

A system is written as an object with the members `states`, `init`, `edges` and `targets`. It is
read from such an object, in which members of other names are ignored, or from an array of the four
values in this order. Numbers have to be below 2 ^ 32.

* `TransitionSystem.json` — the text of a system: two blanks per level, each number on its own line.
* `TransitionSystem.ofJson?` — the system of a text.
-/

namespace GuidedReach

/-- Why a text is no system. -/
inductive ReadError where
  /-- The text is not JSON of the right form. -/
  | malformed
  /-- The text has the right form, but its parts make no system. -/
  | invalid (cause : SystemError)
  deriving DecidableEq, Repr

/-- The text of a read error. -/
def ReadError.message : ReadError → String
  | .malformed => "could not parse system"
  | .invalid cause => "could not parse system: " ++ cause.message

namespace TransitionSystem

/-! ## Reading -/

open Json

/-- The largest number that may be written. -/
def maxNumber : Nat := 4294967295

def number : Reader Nat := Json.natural maxNumber

def numbers : Reader (List Nat) := Json.array number

/-- An edge: an array of its two ends. -/
def edge : Reader (Nat × Nat) := fun tokens => do
  let tokens ← expect .openBracket tokens
  let (source, tokens) ← number tokens
  let tokens ← expect .comma tokens
  let (dest, tokens) ← number tokens
  let tokens ← expect .closeBracket tokens
  return ((source, dest), tokens)

def edgeList : Reader (List (Nat × Nat)) := Json.array edge

/-- The parts of a system that have been read so far. -/
structure Draft where
  states : Option Nat := none
  init : Option (List Nat) := none
  edges : Option (List (Nat × Nat)) := none
  targets : Option (List Nat) := none
  deriving DecidableEq, Repr

/-- A member of a system object. No known name may come twice. -/
def member (draft : Draft) : Reader Draft
  | .text (some name) :: .colon :: tokens =>
    if name = "states".toList then do
      guard draft.states.isNone
      let (states, tokens) ← number tokens
      return ({ draft with states := some states }, tokens)
    else if name = "init".toList then do
      guard draft.init.isNone
      let (init, tokens) ← numbers tokens
      return ({ draft with init := some init }, tokens)
    else if name = "edges".toList then do
      guard draft.edges.isNone
      let (edges, tokens) ← edgeList tokens
      return ({ draft with edges := some edges }, tokens)
    else if name = "targets".toList then do
      guard draft.targets.isNone
      let (targets, tokens) ← numbers tokens
      return ({ draft with targets := some targets }, tokens)
    else do
      let tokens ← skipValue tokens
      return (draft, tokens)
  | _ => none

/-- Further members of a system object, each after a comma, up to the closing brace. -/
def members : (steps : Nat) → Draft → Reader Draft
  | 0, _, _ => none
  | _ + 1, draft, .closeBrace :: tokens => some (draft, tokens)
  | steps + 1, draft, .comma :: tokens => do
    let (draft, tokens) ← member draft tokens
    members steps draft tokens
  | _ + 1, _, _ => none

/-- A system written as an object. -/
def objectDraft : Reader Draft
  | .openBrace :: .closeBrace :: tokens => some ({}, tokens)
  | .openBrace :: tokens => do
    let (draft, tokens) ← member {} tokens
    members (tokens.length + 1) draft tokens
  | _ => none

/-- A system written as an array of its four parts. -/
def arrayDraft : Reader Draft := fun tokens => do
  let tokens ← expect .openBracket tokens
  let (states, tokens) ← number tokens
  let tokens ← expect .comma tokens
  let (init, tokens) ← numbers tokens
  let tokens ← expect .comma tokens
  let (edges, tokens) ← edgeList tokens
  let tokens ← expect .comma tokens
  let (targets, tokens) ← numbers tokens
  let tokens ← expect .closeBracket tokens
  return ({ states, init, edges, targets }, tokens)

/-- The draft of a text, and what follows it. -/
def draft : Reader Draft := fun tokens => (objectDraft tokens).or (arrayDraft tokens)

/-- The system of some tokens. Parts that make no system are reported even if more tokens follow. -/
def ofTokens? (tokens : List Token) : Except ReadError TransitionSystem :=
  match draft tokens with
  | some (⟨some states, some init, some edges, some targets⟩, rest) =>
    match make? states init edges targets with
    | .ok system => if rest.isEmpty then .ok system else .error .malformed
    | .error cause => .error (.invalid cause)
  | _ => .error .malformed

/-- The system of a text. -/
def ofJson? (text : String) : Except ReadError TransitionSystem :=
  ofTokens? (Token.scan text.toList)

/-! ## Writing -/

/-- A line break and the blanks that open a line at a level. -/
def lineStart (level : Nat) : List Char := '\n' :: List.replicate (2 * level) ' '

/-- An array at a level, with one element per line. -/
def arrayChars (level : Nat) : List (List Char) → List Char
  | [] => ['[', ']']
  | first :: rest =>
    '[' :: lineStart (level + 1) ++ first
      ++ rest.flatMap (fun element => ',' :: lineStart (level + 1) ++ element)
      ++ lineStart level ++ [']']

def numberChars (n : Nat) : List Char := Nat.toDigits 10 n

/-- A member of the system object, from its name to its value. -/
def memberChars (name : String) (value : List Char) : List Char :=
  lineStart 1 ++ '"' :: name.toList ++ ['"', ':', ' '] ++ value

/-- The characters of a system's text. -/
def jsonChars (system : TransitionSystem) : List Char :=
  let edges := system.edges.map fun (source, dest) =>
    arrayChars 2 [numberChars source, numberChars dest]
  '\x7b' :: memberChars "states" (numberChars system.states)
    ++ ',' :: memberChars "init" (arrayChars 1 (system.init.toList.map numberChars))
    ++ ',' :: memberChars "edges" (arrayChars 1 edges)
    ++ ',' :: memberChars "targets" (arrayChars 1 (system.targets.toList.map numberChars))
    ++ lineStart 0 ++ ['\x7d']

/-- The text of a system. -/
def json (system : TransitionSystem) : String := String.ofList system.jsonChars

end TransitionSystem

end GuidedReach
