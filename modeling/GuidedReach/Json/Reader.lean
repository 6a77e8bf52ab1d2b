import GuidedReach.Json.Token

/-!
# Reading JSON values

A reader takes a value off the front of a token list, or fails.

* `Json.natural` — a number written as digits alone, up to a bound.
* `Json.array` — an array whose elements are read by a given reader.
* `Json.skipValue` — any value whatsoever, however deeply nested.
-/

namespace GuidedReach.Json

/-- Reads a value off the front of a token list. -/
abbrev Reader (α : Type) := List Token → Option (α × List Token)

/-- Take a given token off the front. -/
def expect (token : Token) : List Token → Option (List Token)
  | first :: rest => if first = token then some rest else none
  | [] => none

/-- A number written as digits alone and not above a bound. -/
def natural (bound : Nat) : Reader Nat
  | .natural value :: rest => if value ≤ bound then some (value, rest) else none
  | _ => none

variable {α : Type}

/-- Further elements of an array, each after a comma, up to the closing bracket. -/
def elements (element : Reader α) : (steps : Nat) → (read : List α) → Reader (List α)
  | 0, _, _ => none
  | _ + 1, read, .closeBracket :: rest => some (read.reverse, rest)
  | steps + 1, read, .comma :: rest => do
    let (a, rest) ← element rest
    elements element steps (a :: read) rest
  | _ + 1, _, _ => none

/-- An array whose elements are read by `element`. -/
def array (element : Reader α) : Reader (List α)
  | .openBracket :: .closeBracket :: rest => some ([], rest)
  | .openBracket :: rest => do
    let (a, rest) ← element rest
    elements element (rest.length + 1) [a] rest
  | _ => none

/-! ## Values that do not matter -/

/-- An array or an object that has been opened. -/
inductive Container where
  | array
  | object
  deriving DecidableEq, Repr

/-- What comes next in a value that is being skipped. -/
inductive Place where
  /-- A value. -/
  | value
  /-- The name of a member, and its value. -/
  | member
  /-- A comma or the end of the innermost container. -/
  | more
  deriving DecidableEq, Repr

/-- Skip to the end of the outermost of the open containers. -/
def skipWithin : (steps : Nat) → Place → List Container → List Token → Option (List Token)
  | 0, _, _, _ => none
  | _ + 1, .more, [], rest => some rest
  | steps + 1, .more, .array :: outer, .closeBracket :: rest => skipWithin steps .more outer rest
  | steps + 1, .more, .array :: outer, .comma :: rest =>
    skipWithin steps .value (.array :: outer) rest
  | steps + 1, .more, .object :: outer, .closeBrace :: rest => skipWithin steps .more outer rest
  | steps + 1, .more, .object :: outer, .comma :: rest =>
    skipWithin steps .member (.object :: outer) rest
  | steps + 1, .member, outer, .text _ :: .colon :: rest => skipWithin steps .value outer rest
  | steps + 1, .value, outer, .text _ :: rest
  | steps + 1, .value, outer, .natural _ :: rest
  | steps + 1, .value, outer, .otherNumber :: rest
  | steps + 1, .value, outer, .word :: rest
  | steps + 1, .value, outer, .openBracket :: .closeBracket :: rest
  | steps + 1, .value, outer, .openBrace :: .closeBrace :: rest => skipWithin steps .more outer rest
  | steps + 1, .value, outer, .openBracket :: rest => skipWithin steps .value (.array :: outer) rest
  | steps + 1, .value, outer, .openBrace :: rest => skipWithin steps .member (.object :: outer) rest
  | _ + 1, _, _, _ => none

/-- Skip a value. Every step but the last takes a token. -/
def skipValue (tokens : List Token) : Option (List Token) :=
  skipWithin (tokens.length + 1) .value [] tokens

end GuidedReach.Json
