import GuidedReach.Proofs.Abstractor.Course
import GuidedReach.Proofs.Exploration.Carried
import GuidedReach.Proofs.Exploration.FirstRound

/-!
# The first check

The first check starts from an empty graph, without heuristics. It is safe and optimal for any analysis
whatsoever: the order of the states need not be one. Covering may then be arbitrary, but the distances
are still those of the graph that was built.

* `Analysis.keepsTargets` — what covering edges keep to under any order.
* `Abstractor.check_first` — the first check meets no fault, and its solved generation is resolved.
* `Abstractor.first_check_optimal` — the init nodes have the distances that the graph gives them.
-/

namespace GuidedReach

variable {S P K : Type}

/-- A relation that all covering edges keep to, whatever the order is: only targets stand in for
targets. -/
def Analysis.keepsTargets (analysis : Analysis S P K) (a b : S) : Bool :=
  !analysis.isTarget a || analysis.isTarget b

theorem Analysis.keepsTargets_iff {analysis : Analysis S P K} {a b : S} :
    analysis.keepsTargets a b = true ↔ (analysis.isTarget a = true → analysis.isTarget b = true) := by
  cases h : analysis.isTarget a <;> simp [keepsTargets, h]

/-- Any order implies it, as far as nodes may be covered. -/
theorem Analysis.refines_keepsTargets (analysis : Analysis S P K) :
    analysis.Refines analysis.keepsTargets where
  le _ htarget := keepsTargets_iff.2 htarget
  trans hab hbc := keepsTargets_iff.2 (keepsTargets_iff.1 hbc ∘ keepsTargets_iff.1 hab)
  isTarget := keepsTargets_iff.1

namespace Abstractor

open Exploration

variable [DecidableEq S] [DecidableEq K]
variable {abstractor : Abstractor S P K} {leq : S → S → Bool} {prec : P} {inside : S → Prop}
variable {fuel : Nat}

/-- **The first check meets no fault**, and the generation that it leaves behind is resolved. -/
theorem check_first (hempty : abstractor.history.length = 0)
    (hleq : abstractor.analysis.Refines leq) (hinside : abstractor.analysis.Encloses prec inside)
    (hroom : Room abstractor.analysis leq prec fuel { graph := {}, prec }) :
    EndsIn (abstractor.check fuel {} prec) fun result => ∃ gen nearest,
      result.2.1.solved? = some gen ∧ gen.Resolved abstractor.analysis leq prec nearest ∧
      result.1 = if gen.graph.isSafe then .safe else .counterexample := by
  obtain ⟨hinstall, hlength, hget⟩ := install_empty prec hempty
  refine endsIn_check hinstall hlength ⟨_, (hget 0).trans (if_pos rfl)⟩ fun stats => ?_
  have hbegun : Unfolds (abstractor.setup fuel) leq prec 0 []
      { history := abstractor.history.push { graph := {}, prec }, stats } { graph := {}, prec } :=
    ⟨(hget 0).trans (if_pos rfl), hlength, .of_empty prec⟩
  refine (hbegun.solveLive rfl rfl hleq hinside hroom).mono ?_
  rintro ⟨⟩ solved - ⟨last, nearest, hlast⟩
  have hfits : ∀ {i k}, last.searchNodes.get? i = some k →
      ∃ n, last.graph.get? i = some n ∧ k.checkFits n.isTarget = .ok () := by
    intro i k hk
    obtain ⟨n, hn⟩ := hlast.settleable.held hk
    exact ⟨n, hn, hlast.settleable.checkFits hn hk⟩
  have hone : solved.history.length = 1 := hlast.length
  refine ⟨last, hlast.held, hone, hfits, fun stats => ?_⟩
  have holder : solved.history.get? (solved.history.length - 1) = some last := by
    rw [hone]
    exact hlast.held
  have hresume := ensures_resumeLive (abstractor.setup fuel) (by omega) holder hlast.settleable stats
  rw [hone] at hresume
  refine hresume.mono ?_
  rintro ⟨⟩ resumed - ⟨hbelow, hlength', live, hlive⟩
  refine ⟨live, hlive, hlength', fun abstractor' _ _ hhistory => ?_⟩
  -- retention may only release the provider of the generation that stays behind
  obtain ⟨gen, hgen, hsame⟩ := History.exists_get?_applyRetention hlength'
    ((hbelow 0 Nat.one_pos).trans hlast.held)
  have hsolved : abstractor'.solved? = some gen := by
    have hlength'' : abstractor'.history.length = 0 + 2 := by
      rw [hhistory, History.length_set, History.length_applyRetention, hlength']
    rw [solved?, History.solved?_eq hlength'', hhistory,
      History.get?_set (by rw [History.length_applyRetention, hlength']; omega), if_neg (by omega)]
    exact hgen
  obtain ⟨hgraph, hdistance⟩ : gen.graph = last.graph ∧ ∀ i, gen.distance i = last.distance i := by
    rcases hsame with rfl | rfl
    · exact ⟨rfl, fun _ => rfl⟩
    · exact ⟨rfl, last.distance_releaseProvider⟩
  exact ⟨gen, nearest, hsolved, hlast.resolved.congr hgraph hdistance, by rw [hgraph]⟩

/-- **The first check is safe and optimal, whatever the analysis**: it meets no fault, and in the solved
generation either all init nodes are infinitely far away and none of them reaches a target, or the least
of their finite distances is the length of a shortest path from an init node to a target. Distances count
no further than `Distance.limit`, so the search takes no more steps than that. -/
theorem first_check_optimal (analysis : Analysis S P K) (config : Config) (prec : P) (fuel : Nat)
    (hdomain : ∀ state, analysis.inDomain state = true) (hfuel : fuel ≤ Distance.limit) :
    EndsIn (check { analysis, config } fuel {} prec) fun result => ∃ gen,
      result.2.1.solved? = some gen ∧
      ((∀ i ∈ gen.graph.initNodes, gen.distance i = .ok .infinite ∧
          ∀ length, ¬ gen.graph.ReachesTarget i length) ∨
        ∃ nearest,
          IsLeast {d | ∃ i ∈ gen.graph.initNodes, gen.distance i = .ok (.finite d)} nearest ∧
          IsLeast {length | ∃ i ∈ gen.graph.initNodes, gen.graph.ReachesTarget i length} nearest) := by
  have hinside : analysis.Encloses prec fun _ => True :=
    ⟨fun _ _ => trivial, fun _ _ _ => trivial, fun {s} _ => hdomain s⟩
  have hroom : Room analysis analysis.keepsTargets prec fuel { graph := {}, prec } :=
    .inl ((Nat.zero_add fuel).le.trans hfuel)
  refine EndsIn.mono (check_first rfl analysis.refines_keepsTargets hinside hroom) ?_
  rintro result - ⟨gen, nearest, hsolved, hresolved, -⟩
  refine ⟨gen, hsolved, ?_⟩
  cases nearest with
  | none => exact .inl fun i hi => ⟨hresolved.tells i hi, hresolved.shortest i hi⟩
  | some nearest => exact .inr ⟨nearest, hresolved.tells, hresolved.shortest⟩

/-- An analysis whose order is neither reflexive nor transitive: neighbouring numbers may stand in for
each other. -/
def neighbours : Analysis Nat Unit Unit where
  initStates _ := [0]
  succStates s _ := [s + 2, s + 3]
  isTarget s := s == 7
  isBottom s := s == 6
  isLeq a b := a == b + 1 || b == a + 1
  key _ := ()

/-- Here 2 is covered by 3, and a shortest path takes three edges. -/
theorem first_check_optimal_neighbours :
    ∃ result gen, check { analysis := neighbours, config := .standard } 30 {} () = .ok result ∧
      result.2.1.solved? = some gen ∧ gen.distance 0 = .ok (.finite 3) ∧
      IsLeast {length | ∃ i ∈ gen.graph.initNodes, gen.graph.ReachesTarget i length} 3 := by
  have hrun : (check { analysis := neighbours, config := .standard } 30 {} ()).map (fun result => do
      let gen ← result.2.1.solved?
      return (gen.graph.initNodes, gen.distance 0)) = .ok (some ([0], .ok (.finite 3))) := by
    decide +kernel
  obtain ⟨result, hcheck, hresult⟩ := map_eq_ok.1 hrun
  obtain ⟨gen, hsolved, hoptimal⟩ := (endsIn_ok hcheck).1
    (first_check_optimal neighbours .standard () 30 (fun _ => rfl) (by decide))
  simp only [hsolved, Option.bind_eq_bind, Option.bind_some, Option.pure_def, Option.some.injEq,
    Prod.mk.injEq] at hresult
  obtain ⟨hinit, hdistance⟩ := hresult
  refine ⟨result, gen, hcheck, hsolved, hdistance, ?_⟩
  rcases hoptimal with hnone | ⟨nearest, hleast, hshortest⟩
  · have hinfinite := (hnone 0 (by simp [hinit])).1
    rw [hdistance] at hinfinite
    cases hinfinite
  · obtain ⟨i, hi, hd⟩ := hleast.1
    obtain rfl : i = 0 := by simpa [hinit] using hi
    rw [hdistance] at hd
    cases hd
    exact hshortest

end Abstractor

end GuidedReach
