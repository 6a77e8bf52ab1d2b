import GuidedReach.Proofs.Abstractor.FirstCheck
import GuidedReach.Proofs.Abstractor.Terminates
import GuidedReach.Proofs.Exploration.Enclosed
import GuidedReach.Proofs.Graph.Unfolding

/-!
# The first check against a breadth-first search

If states are compared for equality and there are finitely many that can be reached, then the first
check does what a breadth-first search over the states would do. Which of several nodes with the same
state is expanded and which are covered depends on the order in which they are found; what is found out
about the init nodes does not.

* `Generation.LeastKnown` — the least distance that is known among some nodes.
* `Abstractor.first_check_ends` — the first check comes to an end.
* `Abstractor.first_check_breadth_first` — with the answer and the distance of a breadth-first search.
-/

namespace GuidedReach

variable {S P K : Type}

/-! ## Least distances -/

/-- A value is the least of the distances that are known among some nodes. -/
structure Generation.LeastKnown (gen : Generation S P K) (ids : List NodeId) (d : Distance) :
    Prop where
  isKnown : d.isKnown = true
  attained : ∃ i ∈ ids, gen.distance i = .ok d
  le : ∀ i ∈ ids, ∀ e, gen.distance i = .ok e → e.isKnown = true → d.notAbove e = true

/-- What a search finds out about its start nodes is their least distance. -/
theorem Generation.Tells.leastKnown {gen : Generation S P K} {ids : List NodeId}
    {nearest : Option Nat} (h : gen.Tells ids nearest) (hids : ids ≠ []) :
    gen.LeastKnown ids (nearest.elim .infinite .finite) := by
  cases nearest with
  | none =>
    obtain ⟨i, hi⟩ := List.exists_mem_of_ne_nil ids hids
    refine ⟨rfl, ⟨i, hi, h i hi⟩, fun j hj e he _ => ?_⟩
    obtain rfl := Except.ok.inj ((h j hj).symm.trans he)
    exact Distance.notAbove_refl _
  | some nearest =>
    obtain ⟨⟨i, hi, hd⟩, hleast⟩ := h
    refine ⟨rfl, ⟨i, hi, hd⟩, fun j hj e he hknown => ?_⟩
    cases e with
    | unknown => simp [Distance.isKnown] at hknown
    | finite d =>
      have hle : nearest ≤ d := hleast ⟨j, hj, he⟩
      simpa [Distance.notAbove] using hle
    | infinite => rfl

namespace Abstractor

open Exploration

variable [DecidableEq S] [DecidableEq K]
variable {analysis : Analysis S P K} {prec : P} {states : List S}

/-- **The first check comes to an end** in a result or in a fault, if finitely many states can be
reached. -/
theorem first_check_ends (config : Config) (hlaws : analysis.Lawful)
    (hinside : analysis.Encloses prec (· ∈ states)) :
    ∃ bound, ∀ fuel, bound ≤ fuel →
      check { analysis, config } fuel {} prec ≠ .error .outOfFuel := by
  let abstractor : Abstractor S P K := { analysis, config }
  have hempty : abstractor.history.length = 0 := rfl
  obtain ⟨hinstall, -, hget⟩ := install_empty prec hempty
  obtain ⟨size, hsize⟩ := exists_confined_of_encloses hlaws hinside hget
  have hready : abstractor.Ready (· = prec) (fun _ => False) {} := .start rfl rfl
  have hconfines : Confines (· = prec) abstractor {} prec size := by
    intro history fresh heq fuel stats
    obtain ⟨rfl, -⟩ := Prod.mk.inj (Except.ok.inj (hinstall.symm.trans heq))
    exact hsize _ stats rfl
  exact ⟨2 * size + 1, fun fuel hfuel =>
    hready.check_finishes rfl hlaws hconfines (by omega)⟩

/-- **The first check agrees with a breadth-first search over the states**, whatever the configuration
and the keys are: it comes to an end, it finds a counterexample if and only if a walk leads from an init
state to a target, and the least distance that is known among the init nodes is the length of a shortest
such walk, or infinite if there is none. Distances count no further than `Distance.limit`, so there are
no more states than that. -/
theorem first_check_breadth_first (analysis : Analysis S P K) (config : Config) (prec : P)
    (states : List S) (hdiscrete : analysis.Discrete)
    (hinside : analysis.Encloses prec (· ∈ states)) (hlimit : states.length ≤ Distance.limit) :
    ∃ bound, ∀ fuel, bound ≤ fuel → ∃ verdict abstractor g gen nearest,
      check { analysis, config } fuel {} prec = .ok (verdict, abstractor, g) ∧
      abstractor.solved? = some gen ∧ analysis.NearestTarget prec nearest ∧
      (verdict = .counterexample ↔ ∃ length, analysis.ReachesTarget prec length) ∧
      (analysis.initStates prec ≠ [] →
        gen.LeastKnown gen.graph.initNodes (nearest.elim .infinite .finite)) := by
  have hlaws := hdiscrete.lawful
  obtain ⟨bound, hbound⟩ := first_check_ends config hlaws hinside
  refine ⟨bound, fun fuel hfuel => ?_⟩
  have hroom : Room analysis analysis.isLeq prec fuel { graph := {}, prec } :=
    .inr fun gen hgen => (hgen.length_expandedIds_le hdiscrete hinside).trans hlimit
  have hends : EndsIn (check { analysis, config } fuel {} prec) _ :=
    check_first rfl hdiscrete.refines hinside hroom
  obtain ⟨⟨verdict, abstractor, g⟩, hcheck, gen, nearest, hsolved, hresolved, hverdict⟩ :=
    hends.resolve_left (hbound fuel hfuel)
  have hunfolding : gen.graph.UnfoldingOf analysis prec :=
    ⟨hresolved.faithful, hresolved.grown, (hdiscrete.isLeq_iff _ _).1⟩
  have hnearest : analysis.NearestTarget prec nearest :=
    hunfolding.nearestTarget hresolved.initialized hresolved.explored hresolved.shortest
  refine ⟨verdict, abstractor, g, gen, nearest, hcheck, hsolved, hnearest, ?_, fun hinit => ?_⟩
  · have hverdict' : verdict = .counterexample ↔ gen.graph.isSafe = false := by
      rw [show verdict = _ from hverdict]
      cases gen.graph.isSafe <;> simp
    rw [hverdict', hunfolding.isSafe_eq_false_iff hlaws]
    constructor
    · rintro ⟨root, hroot, length, hreaches⟩
      exact ⟨length, hunfolding.reachesTarget_states hroot hreaches⟩
    · rintro ⟨length, hreaches⟩
      cases nearest with
      | none => exact absurd hreaches (hnearest length)
      | some nearest =>
        obtain ⟨⟨root, hroot, hreaches⟩, -⟩ := hresolved.shortest
        exact ⟨root, hroot, nearest, hreaches⟩
  · refine hresolved.tells.leastKnown fun hnil => ?_
    obtain ⟨s, hs⟩ := List.exists_mem_of_ne_nil _ hinit
    obtain ⟨root, -, hroot, -⟩ := hunfolding.exists_initNode hresolved.initialized hs
    rw [hnil] at hroot
    cases hroot

/-- Five states can be reached from 0, and no others, since the way by 1 is barred. Keys are
parities. -/
def barred : Analysis Nat Unit Nat where
  initStates _ := [0]
  succStates s _ := if s = 0 then [1, 2] else if s = 1 then [4, 5] else if s = 2 then [3]
    else if s = 3 then [0, 4] else if s = 4 then [] else [s + 1]
  isTarget s := s == 4
  isBottom s := s == 1
  isLeq a b := a == b
  key s := s % 2

theorem barred_discrete : barred.Discrete where
  isLeq_iff _ _ := beq_iff_eq
  not_both a := by
    simp only [barred, beq_iff_eq]
    omega

theorem barred_encloses : barred.Encloses () (· ∈ [0, 1, 2, 3, 4]) := by
  refine ⟨by decide, fun {s} hs => ?_, fun _ => rfl⟩
  obtain ⟨hs, hopen⟩ := hs
  simp only [List.mem_cons, List.not_mem_nil, or_false] at hs
  rcases hs with rfl | rfl | rfl | rfl | rfl
  case inr.inl => cases hopen
  all_goals decide

/-- A walk to the target takes at least three steps from 0, two from 1 or 2, and one from 3. -/
theorem barred_le_length {s t length : Nat} (hwalk : barred.Walk () s t length)
    (htarget : barred.isTarget t = true) : [3, 2, 2, 1].getD s 0 ≤ length := by
  induction hwalk with
  | refl t =>
    obtain rfl : t = 4 := by simpa [barred] using htarget
    exact Nat.le_refl 0
  | @step s t _ length hstep _ ih =>
    obtain ⟨hopen, ht⟩ := hstep
    have hle := ih htarget
    by_cases hs : s < 4
    · interval_cases s <;> simp [barred] at hopen ht
      · rcases ht with rfl | rfl <;> simp at hle ⊢ <;> omega
      · subst ht
        simpa using hle
      · simp
    · simp [List.getElem?_eq_none (l := [3, 2, 2, 1]) (i := s) (by simp; omega)]

/-- With decreasing heuristics, a target is found three steps away from 0. -/
theorem first_check_breadth_first_barred :
    barred.Discrete ∧ barred.Encloses () (· ∈ [0, 1, 2, 3, 4]) ∧ 5 ≤ Distance.limit ∧
      ∃ bound, ∀ fuel, bound ≤ fuel → ∃ abstractor g gen,
        check { analysis := barred, config := .standard } fuel {} () =
          .ok (.counterexample, abstractor, g) ∧
        abstractor.solved? = some gen ∧ gen.LeastKnown gen.graph.initNodes (.finite 3) := by
  have hthree : barred.ReachesTarget () 3 :=
    ⟨0, by decide, 4, .step (t := 2) (by decide) (.step (t := 3) (by decide)
      (.step (by decide) (.refl 4))), rfl⟩
  obtain ⟨bound, hbound⟩ := first_check_breadth_first barred .standard () [0, 1, 2, 3, 4]
    barred_discrete barred_encloses (by decide)
  refine ⟨barred_discrete, barred_encloses, by decide, bound, fun fuel hfuel => ?_⟩
  obtain ⟨verdict, abstractor, g, gen, nearest, hcheck, hsolved, hnearest, hverdict, hleast⟩ :=
    hbound fuel hfuel
  obtain rfl := hverdict.2 ⟨3, hthree⟩
  refine ⟨abstractor, g, gen, hcheck, hsolved, ?_⟩
  cases nearest with
  | none => exact absurd hthree (hnearest 3)
  | some nearest =>
    obtain ⟨⟨s, hs, t, hwalk, htarget⟩, hle⟩ := hnearest
    obtain rfl : s = 0 := by simpa [barred] using hs
    have hge : 3 ≤ nearest := barred_le_length hwalk htarget
    obtain rfl : nearest = 3 := Nat.le_antisymm (hle hthree) hge
    exact hleast (by decide)

end Abstractor

end GuidedReach
