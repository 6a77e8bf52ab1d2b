import GuidedReach.Distance.Known
import GuidedReach.Proofs.Results

/-!
# How far values drop along an edge

A heuristic is consistent when it drops along each edge by at most the weight of the edge.

* `Distance.Drops` — from one known value to another it drops by at most a weight.
* `Distance.Drops.trans` — along two edges, the weights add up.
* `Distance.Drops.le_add` — what is compared to find out whether a value drops too far.
-/

namespace GuidedReach.Distance

/-- From the first known value to the second it drops by at most `weight`. -/
inductive Drops (weight : Nat) : Distance → Distance → Prop where
  | finite {a b : Nat} : a ≤ b + weight → Drops weight (.finite a) (.finite b)
  | infinite {a : Distance} : a.isKnown = true → Drops weight a .infinite

variable {a b c : Distance} {v w : Nat}

theorem Drops.isKnown_left (h : Drops w a b) : a.isKnown = true := by
  cases h with
  | finite => rfl
  | infinite ha => exact ha

theorem Drops.isKnown_right (h : Drops w a b) : b.isKnown = true := by
  cases h <;> rfl

theorem Drops.refl (ha : a.isKnown = true) (w : Nat) : Drops w a a := by
  cases a with
  | unknown => simp [isKnown] at ha
  | finite m => exact .finite (by omega)
  | infinite => exact .infinite rfl

theorem Drops.trans (hab : Drops v a b) (hbc : Drops w b c) : Drops (v + w) a c := by
  cases hbc with
  | infinite => exact .infinite hab.isKnown_left
  | finite hle =>
    cases hab with
    | finite hle' => exact .finite (by omega)

/-- Nothing finite is above an infinite value. -/
theorem Drops.eq_infinite (h : Drops w .infinite b) : b = .infinite := by
  cases h
  rfl

theorem Drops.exists_finite {m : Nat} (h : Drops w a (.finite m)) :
    ∃ n, a = .finite n ∧ n ≤ m + w := by
  cases h with
  | finite hle => exact ⟨_, rfl, hle⟩

/-- Not dropping at all is the order of known values. -/
theorem drops_zero_iff (ha : a.isKnown = true) (hb : b.isKnown = true) :
    Drops 0 a b ↔ a.notAbove b = true := by
  constructor
  · intro h
    cases h with
    | finite hle => simpa [notAbove] using hle
    | infinite => cases a <;> simp_all [notAbove, isKnown]
  · intro h
    cases b with
    | unknown => simp [isKnown] at hb
    | infinite => exact .infinite ha
    | finite m =>
      cases a with
      | unknown => simp [isKnown] at ha
      | infinite => simp [notAbove] at h
      | finite n => exact .finite (by simpa [notAbove] using h)

theorem Drops.zero (hb : b.isKnown = true) : Drops w .zero b := by
  cases b with
  | unknown => simp [isKnown] at hb
  | infinite => exact .infinite rfl
  | finite m => exact .finite (by omega)

/-- A finite value is at most the sum that it is compared with, unless numbers are too large. -/
theorem Drops.le_add {m n : Nat} (h : Drops w (.finite n) (.finite m)) (hn : n ≤ limit) :
    ∃ sum, (Distance.finite m).add w = .ok sum ∧ (Distance.finite n).le sum = .ok true := by
  cases h with
  | finite hle =>
    refine ⟨.finite (min (m + w) limit), rfl, ?_⟩
    rw [le_eq_ok rfl rfl]
    simpa [notAbove] using ⟨hle, hn⟩

end GuidedReach.Distance
