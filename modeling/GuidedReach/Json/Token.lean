/-!
# Tokens of JSON texts

`Token.scan` cuts a text into the tokens of RFC 8259. Blanks (space, tab, carriage return and line
feed) separate tokens and are dropped. Where no token can be read the scan ends with
`Token.malformed`.

A string token carries its decoded text, or nothing if it escapes a lone surrogate: such a string is
grammatical but has no text.
-/

namespace GuidedReach.Json

/-- A token of a JSON text. -/
inductive Token where
  | openBrace
  | closeBrace
  | openBracket
  | closeBracket
  | comma
  | colon
  /-- A string. -/
  | text (content : Option (List Char))
  /-- A number written as digits alone. -/
  | natural (value : Nat)
  /-- A number with a sign, a fraction or an exponent. -/
  | otherNumber
  /-- One of the words `true`, `false` and `null`. -/
  | word
  /-- No token. -/
  | malformed
  deriving DecidableEq, Repr

namespace Token

/-! ## Strings -/

/-- A character of a string, or a UTF-16 unit that was escaped by its number. -/
inductive Piece where
  | char (c : Char)
  | unit (value : Nat)
  deriving DecidableEq, Repr

def hexValue? (c : Char) : Option Nat :=
  if '0' ≤ c ∧ c ≤ '9' then some (c.toNat - '0'.toNat)
  else if 'a' ≤ c ∧ c ≤ 'f' then some (c.toNat - 'a'.toNat + 10)
  else if 'A' ≤ c ∧ c ≤ 'F' then some (c.toNat - 'A'.toNat + 10)
  else none

/-- The character that a one-letter escape stands for. -/
def escaped? : Char → Option Char
  | '"' => some '"'
  | '\\' => some '\\'
  | '/' => some '/'
  | 'b' => some '\x08'
  | 'f' => some '\x0c'
  | 'n' => some '\n'
  | 'r' => some '\r'
  | 't' => some '\t'
  | _ => none

/-- The pieces of a string up to its closing quote, latest first, and the rest of the text. -/
def pieces : List Piece → List Char → Option (List Piece × List Char)
  | read, '"' :: rest => some (read, rest)
  | read, '\\' :: 'u' :: a :: b :: c :: d :: rest =>
    match hexValue? a, hexValue? b, hexValue? c, hexValue? d with
    | some a, some b, some c, some d =>
      pieces (.unit (((a * 16 + b) * 16 + c) * 16 + d) :: read) rest
    | _, _, _, _ => none
  | read, '\\' :: c :: rest =>
    match escaped? c with
    | some c => pieces (.char c :: read) rest
    | none => none
  | read, c :: rest => if c.toNat < 32 then none else pieces (.char c :: read) rest
  | _, [] => none

/-- The text of some pieces; none if a surrogate has no partner. -/
def decode : List Piece → Option (List Char)
  | [] => some []
  | .char c :: rest => (decode rest).map (c :: ·)
  | .unit high :: .unit low :: rest =>
    if 0xD800 ≤ high ∧ high < 0xDC00 then
      if 0xDC00 ≤ low ∧ low < 0xE000 then
        (decode rest).map (Char.ofNat (0x10000 + (high - 0xD800) * 0x400 + (low - 0xDC00)) :: ·)
      else none
    else if 0xDC00 ≤ high ∧ high < 0xE000 then none
    else (decode (.unit low :: rest)).map (Char.ofNat high :: ·)
  | .unit value :: rest =>
    if 0xD800 ≤ value ∧ value < 0xE000 then none else (decode rest).map (Char.ofNat value :: ·)

/-! ## Numbers -/

/-- The value of some decimal digits. -/
def ofDigits (digits : List Char) : Nat :=
  digits.foldl (fun value c => 10 * value + (c.toNat - '0'.toNat)) 0

/-- One or more digits off the front of a text. -/
def digits? (cs : List Char) : Option (List Char × List Char) :=
  match cs.takeWhile Char.isDigit with
  | [] => none
  | digits => some (digits, cs.dropWhile Char.isDigit)

/-- The whole part of a number: a zero alone, or digits that do not start with one. -/
def whole? (cs : List Char) : Option (List Char × List Char) :=
  match cs with
  | '0' :: rest => some (['0'], rest)
  | _ => digits? cs

/-- A fraction, if there is one, off the front of a text. Returns whether there is one. -/
def fraction? (cs : List Char) : Option (Bool × List Char) :=
  match cs with
  | '.' :: rest => (digits? rest).map fun (_, rest) => (true, rest)
  | _ => some (false, cs)

/-- An exponent, if there is one, off the front of a text. Returns whether there is one. -/
def exponent? (cs : List Char) : Option (Bool × List Char) :=
  match cs with
  | e :: rest =>
    if e = 'e' ∨ e = 'E' then
      let digits := match rest with
        | sign :: digits => if sign = '+' ∨ sign = '-' then digits else rest
        | [] => rest
      (digits? digits).map fun (_, rest) => (true, rest)
    else some (false, cs)
  | [] => some (false, [])

/-- A number off the front of a text. -/
def number? (cs : List Char) : Option (Token × List Char) := do
  let (signed, cs) := match cs with
    | '-' :: rest => (true, rest)
    | _ => (false, cs)
  let (whole, cs) ← whole? cs
  let (fractional, cs) ← fraction? cs
  let (exponential, cs) ← exponent? cs
  let token :=
    if signed || fractional || exponential then .otherNumber else .natural (ofDigits whole)
  return (token, cs)

/-! ## The scan -/

def isBlank (c : Char) : Bool := c = ' ' || c = '\t' || c = '\r' || c = '\n'

/-- The token at the front of a text that does not start with a blank. -/
def first? : List Char → Option (Token × List Char)
  | '\x7b' :: rest => some (.openBrace, rest)
  | '\x7d' :: rest => some (.closeBrace, rest)
  | '[' :: rest => some (.openBracket, rest)
  | ']' :: rest => some (.closeBracket, rest)
  | ',' :: rest => some (.comma, rest)
  | ':' :: rest => some (.colon, rest)
  | '"' :: rest => (pieces [] rest).map fun (read, rest) => (.text (decode read.reverse), rest)
  | 't' :: 'r' :: 'u' :: 'e' :: rest => some (.word, rest)
  | 'f' :: 'a' :: 'l' :: 's' :: 'e' :: rest => some (.word, rest)
  | 'n' :: 'u' :: 'l' :: 'l' :: rest => some (.word, rest)
  | cs => number? cs

/-- The tokens of a text, put in front of those already read, latest first. -/
def scanWithin : (steps : Nat) → (read : List Token) → List Char → List Token
  | 0, read, _ | _ + 1, read, [] => read
  | steps + 1, read, c :: rest =>
    if isBlank c then scanWithin steps read rest
    else match first? (c :: rest) with
      | some (token, rest) => scanWithin steps (token :: read) rest
      | none => .malformed :: read

/-- The tokens of a text. Every step takes at least one character off it. -/
def scan (cs : List Char) : List Token := (scanWithin cs.length [] cs).reverse

end Token

end GuidedReach.Json
