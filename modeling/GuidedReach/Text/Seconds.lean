/-!
# Durations in seconds

Durations are counted in nanoseconds and written in seconds with three decimals. The number that is
written is the sum of the whole seconds and the remaining fraction, each step rounded to the nearest
binary floating-point number with 53 bits; its three decimals are the nearest to its exact value.
Where two neighbours are equally near, the even one is taken.

* `Seconds.divNearest` — the whole number nearest to a quotient.
* `Seconds.nearestBinary` — the 53-bit number nearest to a quotient.
* `Seconds.text` — the written form of a duration.
-/

namespace GuidedReach.Seconds

/-- The whole number nearest to `num / den`, the even one of two. -/
def divNearest (num den : Nat) : Nat :=
  let below := num / den
  let rest := num % den
  if 2 * rest < den then below
  else if den < 2 * rest then below + 1
  else if below % 2 = 0 then below else below + 1

/-- The binary fraction `mantissa / 2 ^ halvings`. -/
structure Binary where
  mantissa : Nat
  halvings : Nat
  deriving DecidableEq, Repr

/-- How often `num / den` can be doubled before it reaches 2 ^ 53, if it is positive and below. -/
def doublings (num den : Nat) : Nat :=
  if den ≤ num then 52 - (num / den).log2
  else
    let few := den.log2 - num.log2
    52 + if den ≤ num * Nat.pow 2 few then few else few + 1

/-- The binary fraction with 53 bits nearest to `num / den`, which is below 2 ^ 53. -/
def nearestBinary (num den : Nat) : Binary :=
  if num = 0 then ⟨0, 0⟩
  else
    let halvings := doublings num den
    ⟨divNearest (num * Nat.pow 2 halvings) den, halvings⟩

/-- The number of seconds in a duration. -/
def ofNanos (nanos : Nat) : Binary :=
  let fraction := nearestBinary (nanos % 1000000000) 1000000000
  let scale := Nat.pow 2 fraction.halvings
  nearestBinary (nanos / 1000000000 * scale + fraction.mantissa) scale

/-- The last three digits of a number, with leading zeros. -/
def threeDigits (n : Nat) : String :=
  toString (n / 100 % 10) ++ toString (n / 10 % 10) ++ toString (n % 10)

/-- A duration in seconds, with three decimals. -/
def text (nanos : Nat) : String :=
  let seconds := ofNanos nanos
  let thousandths := divNearest (seconds.mantissa * 1000) (Nat.pow 2 seconds.halvings)
  toString (thousandths / 1000) ++ "." ++ threeDigits thousandths

end GuidedReach.Seconds
