import GuidedReach.Config
import GuidedReach.Generation

/-!
# The generations seen so far

A `History` holds generations in slots, oldest first. The *live* generation, the one the next check
works on, is always the last. A dropped generation leaves its slot empty, so indices stay valid.

* `History.freezeLive` — the live generation stays behind as it is, and a reset copy of it, which
  takes its heuristics from there, becomes the live one.
* `History.applyRetention` — drops the generations that are not kept.
-/

namespace GuidedReach

/-- The generations of all checks so far. -/
structure History (S P K : Type) where
  slots : Array (Option (Generation S P K)) := #[]
  retention : Retention

namespace History

variable {S P K : Type}

/-- The number of slots, empty ones included. -/
def length (history : History S P K) : Nat := history.slots.size

def isEmpty (history : History S P K) : Bool := history.slots.isEmpty

/-- The number of generations that are still held. -/
def retained (history : History S P K) : Nat := history.slots.countP (·.isSome)

def get? (history : History S P K) (index : Nat) : Option (Generation S P K) :=
  history.slots[index]?.join

def liveIndex? (history : History S P K) : Option Nat :=
  if history.isEmpty then none else some (history.length - 1)

def live? (history : History S P K) : Option (Generation S P K) := history.slots.back?.join

/-- The generation before the live one: the one that the last check explored. -/
def solved? (history : History S P K) : Option (Generation S P K) := do
  match history.liveIndex? with
  | some (previous + 1) => history.get? previous
  | _ => none

def push (history : History S P K) (gen : Generation S P K) : History S P K :=
  { history with slots := history.slots.push (some gen) }

/-- Write the generation in a slot. -/
def set (history : History S P K) (index : Nat) (gen : Generation S P K) : History S P K :=
  { history with slots := history.slots.set! index (some gen) }

/-- Leave the live generation behind as it is, once its values are found to fit its graph, and
continue with a reset copy of it. -/
def freezeLive (history : History S P K) : Except Fault (History S P K) := do
  let some live := history.live? | throw .nothingToFreeze
  live.checkSearchNodes
  return history.push (live.resetOnto (history.length - 1))

/-- Drop what is not kept: all but the last two generations, and the provider of the older of
these. -/
def applyRetention (history : History S P K) : History S P K :=
  match history.retention with
  | .all => history
  | .previous =>
    { history with
      slots := history.slots.mapIdx fun index slot =>
        if index + 2 < history.length then none
        else if index + 2 = history.length then slot.map (·.releaseProvider)
        else slot }

end History

end GuidedReach
