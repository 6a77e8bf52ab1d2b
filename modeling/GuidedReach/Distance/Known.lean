import GuidedReach.Fault

/-!
# Operations on known distances

Adding to an unknown distance, comparing one, or asking for the value of a distance that is not
finite is a `Fault`.

* `Distance.value` — the number of edges of a finite distance.
* `Distance.add`, `Distance.succ` — more edges; finite sums stop at `Distance.limit`.
* `Distance.compare` — the order with `infinite` on top.
-/

namespace GuidedReach.Distance

/-- The number of edges of a finite distance. -/
def value : Distance → Except Fault Nat
  | .finite edges => .ok edges
  | d => .error (.noFiniteValue d)

/-- The distance with `n` more edges. -/
def add (d : Distance) (n : Nat) : Except Fault Distance :=
  match d with
  | .finite edges => .ok (.finite (min (edges + n) limit))
  | .infinite => .ok .infinite
  | .unknown => .error .addedToUnknown

/-- The distance with one more edge. -/
def succ (d : Distance) : Except Fault Distance := d.add 1

/-- The order of two known distances. -/
def compare (a b : Distance) : Except Fault Ordering :=
  match a, b with
  | .unknown, _ | _, .unknown => .error (.comparedUnknown a b)
  | .finite m, .finite n => .ok (Ord.compare m n)
  | .finite _, .infinite => .ok .lt
  | .infinite, .finite _ => .ok .gt
  | .infinite, .infinite => .ok .eq

/-- Whether a known distance is below another one. -/
def lt (a b : Distance) : Except Fault Bool := (· == .lt) <$> a.compare b

/-- Whether a known distance is at most another one. -/
def le (a b : Distance) : Except Fault Bool := (· != .gt) <$> a.compare b

/-- On known distances, `le` decides `notAbove`. -/
theorem le_eq_ok {a b : Distance} (ha : a.isKnown = true) (hb : b.isKnown = true) :
    a.le b = .ok (a.notAbove b) := by
  cases a <;> cases b <;> simp_all [le, compare, isKnown, notAbove, Functor.map, Except.map]
  rename_i m n
  rcases Nat.lt_trichotomy m n with h | h | h
  · simp [Nat.compare_eq_lt.2 h, Nat.le_of_lt h]
  · simp [h]
  · simp [Nat.compare_eq_gt.2 h, Nat.not_le.2 h]

/-- On known distances, `lt` is the strict part of `notAbove`. -/
theorem lt_eq_ok {a b : Distance} (ha : a.isKnown = true) (hb : b.isKnown = true) :
    a.lt b = .ok (!b.notAbove a) := by
  cases a <;> cases b <;> simp_all [lt, compare, isKnown, notAbove, Functor.map, Except.map]
  rename_i m n
  rcases Nat.lt_trichotomy m n with h | h | h
  · simp [Nat.compare_eq_lt.2 h, h]
  · simp [h]
  · simp [Nat.compare_eq_gt.2 h, Nat.le_of_lt h]

end GuidedReach.Distance
