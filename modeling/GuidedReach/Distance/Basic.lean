/-!
# Distances to the nearest target

A `Distance` counts the edges from a node to the nearest target, as far as that is known.

* `Distance.text` — how a distance is written: `?`, a number, or `inf`.
* `Distance.notAbove` — the order of the known distances, with `infinite` on top.
* `Distance.smaller`, `Distance.larger`, `Distance.sort` — selection and sorting by that order.

Operations that need a known distance, and refuse an unknown one, are in
`GuidedReach.Distance.Known`.
-/

namespace GuidedReach

/-- The number of edges to the nearest target. -/
inductive Distance where
  /-- Not computed yet. -/
  | unknown
  /-- Exactly this many edges. -/
  | finite (edges : Nat)
  /-- No target can be reached. -/
  | infinite
  deriving DecidableEq, Repr, Inhabited

namespace Distance

/-- The largest finite distance that sums reach; beyond it they stay there. -/
def limit : Nat := 4294967295

/-- The distance of a target. -/
def zero : Distance := .finite 0

def isKnown : Distance → Bool
  | .unknown => false
  | _ => true

def isFinite : Distance → Bool
  | .finite _ => true
  | _ => false

def isInfinite : Distance → Bool
  | .infinite => true
  | _ => false

theorem isInfinite_iff {d : Distance} : d.isInfinite = true ↔ d = .infinite := by
  cases d <;> simp [isInfinite]

/-- The written form of a distance. -/
def text : Distance → String
  | .unknown => "?"
  | .finite edges => toString edges
  | .infinite => "inf"

/-- The order of the known distances; an unknown one is placed above them all. -/
def notAbove : Distance → Distance → Bool
  | .finite a, .finite b => decide (a ≤ b)
  | .finite _, _ => true
  | .infinite, .finite _ => false
  | .infinite, _ => true
  | .unknown, .unknown => true
  | .unknown, _ => false

/-- The smaller of two known distances. -/
def smaller (a b : Distance) : Distance := if a.notAbove b then a else b

/-- The larger of two known distances. -/
def larger (a b : Distance) : Distance := if a.notAbove b then b else a

/-- Known distances in ascending order. -/
def sort (ds : List Distance) : List Distance := ds.mergeSort notAbove

theorem notAbove_refl (a : Distance) : a.notAbove a = true := by
  cases a <;> simp [notAbove]

theorem notAbove_total (a b : Distance) : (a.notAbove b || b.notAbove a) = true := by
  cases a <;> cases b <;> simp [notAbove]; omega

theorem notAbove_trans {a b c : Distance} (hab : a.notAbove b = true) (hbc : b.notAbove c = true) :
    a.notAbove c = true := by
  cases a <;> cases b <;> cases c <;> simp_all [notAbove]; omega

theorem notAbove_antisymm {a b : Distance} (hab : a.notAbove b = true) (hba : b.notAbove a = true) :
    a = b := by
  cases a <;> cases b <;> simp_all [notAbove]; omega

end Distance

end GuidedReach
