import GuidedReach.Proofs.Exploration.MovingRounds
import GuidedReach.Proofs.Generation.Tracked

/-!
# Searches leave distances alone

Until its outcome is settled, a search only makes heuristics known and lets the graph grow. Nothing is
asked of the analysis, nor of the values in the generation but that they fit their nodes.

* `Generation.Proper` — links agree, and known values fit their nodes.
* `Generation.Proceeds` — a later state of a generation, with the distances that it had.
* `Exploration.ensureHeuristic_proceeds`, `Exploration.createSearchNode_proceeds` — search nodes.
* `Exploration.close_proceeds` — a coverer is no nearer to a target than what it covers, judging by
  their heuristics.
* `Exploration.ensureExpanded_proceeds` — what is expanded stays uncovered.
-/

namespace GuidedReach

variable {S P K : Type}

/-! ## Values that fit -/

namespace SearchNode

variable {k k' : SearchNode} {value : Distance} {isTarget : Bool} {u : Unit}

/-- The known values could be written now: a target is at 0, and no heuristic exceeds a distance. -/
structure Fits (k : SearchNode) (isTarget : Bool) : Prop where
  heuristic : isTarget = true → k.heuristic.isKnown = true → k.heuristic = .zero
  distance : isTarget = true → k.distance.isKnown = true → k.distance = .zero
  admissible : k.Admissible

theorem checkFits_eq_ok : k.checkFits isTarget = .ok u ↔ k.Fits isTarget := by
  refine ⟨fun h => ⟨?_, ?_, checkFits_ok h⟩,
    fun h => exists_checkFits h.heuristic h.distance h.admissible⟩ <;>
  · rintro rfl hknown
    cases hh : k.heuristic.isKnown <;> cases hd : k.distance.isKnown <;>
      simp_all [checkFits, bind_eq_ok, demand_eq_ok]

namespace Fits

/-- A new search node fits, whatever its provider. -/
theorem fresh (provider : Option NodeId) (isTarget : Bool) : Fits { provider } isTarget :=
  ⟨by simp [Distance.isKnown], by simp [Distance.isKnown], by simp [Admissible, Distance.isKnown]⟩

theorem setHeuristic (h : k.Fits isTarget)
    (hset : (SearchNode.setHeuristic value isTarget).run k = .ok u k') : k'.Fits isTarget := by
  simp only [SearchNode.setHeuristic, Edit.run_bind_ok, Edit.run_lift_ok, Edit.run_get_ok,
    demand_eq_ok] at hset
  obtain ⟨_, _, ⟨-, rfl⟩, _, _, ⟨rfl, rfl⟩, hset⟩ := hset
  split at hset
  · obtain ⟨-, rfl⟩ := Edit.run_lift_ok.1 hset
    exact h
  · simp only [Edit.run_bind_ok, Edit.run_lift_ok, Edit.run_get_ok, Edit.run_set_ok,
      demand_eq_ok] at hset
    obtain ⟨_, _, ⟨hzero, rfl⟩, _, _, rfl, _, _, ⟨rfl, rfl⟩, hadmissible, rfl⟩ := hset
    exact ⟨fun htarget _ => by simpa [htarget] using hzero, h.distance,
      checkAdmissible_eq_ok.1 hadmissible⟩

theorem setDistance (h : k.Fits isTarget)
    (hset : (SearchNode.setDistance value isTarget).run k = .ok u k') : k'.Fits isTarget := by
  simp only [SearchNode.setDistance, Edit.run_bind_ok, Edit.run_lift_ok, Edit.run_get_ok,
    demand_eq_ok] at hset
  obtain ⟨_, _, ⟨-, rfl⟩, _, _, ⟨rfl, rfl⟩, hset⟩ := hset
  split at hset
  · obtain ⟨-, rfl⟩ := Edit.run_lift_ok.1 hset
    exact h
  · simp only [Edit.run_bind_ok, Edit.run_lift_ok, Edit.run_get_ok, Edit.run_set_ok,
      demand_eq_ok] at hset
    obtain ⟨_, _, ⟨hzero, rfl⟩, _, _, rfl, _, _, ⟨rfl, rfl⟩, hadmissible, rfl⟩ := hset
    exact ⟨h.heuristic, fun htarget _ => by simpa [htarget] using hzero,
      checkAdmissible_eq_ok.1 hadmissible⟩

end Fits

end SearchNode

/-! ## Later states of a generation -/

namespace Generation

variable {gen gen' gen'' : Generation S P K} {id : NodeId} {k' : SearchNode} {value : Distance}
variable {graph : Graph S}

/-- The links of the graph agree, and known values fit their nodes. -/
structure Proper (gen : Generation S P K) : Prop where
  wellFormed : gen.graph.WellFormed
  fits : ∀ {id k}, gen.searchNodes.get? id = some k →
    ∃ n, gen.graph.get? id = some n ∧ k.Fits n.isTarget

/-- The checks on search nodes ask for no more. -/
theorem proper_of_checkSearchNodes (hwf : gen.graph.WellFormed)
    (hcheck : gen.checkSearchNodes = .ok ()) : gen.Proper := by
  refine ⟨hwf, fun {id k} hk => ?_⟩
  have hfits := forM_eq_ok.1 hcheck (id, k) (NodeMap.mem_toList.2 hk)
  simp only [bind_eq_ok, Graph.node_eq_ok, SearchNode.checkFits_eq_ok] at hfits
  exact hfits

namespace Proper

/-- A write to a search node that fits. -/
theorem of_rewrites {n : Node S} (h : gen.Proper) (hrewrites : gen.Rewrites gen' id k')
    (hn : gen.graph.get? id = some n) (hfits : k'.Fits n.isTarget) : gen'.Proper := by
  refine ⟨hrewrites.graph ▸ h.wellFormed, fun {i k} hk => ?_⟩
  rw [hrewrites.get?] at hk
  rw [hrewrites.graph]
  split at hk
  · rename_i heq
    obtain rfl := Option.some.inj hk
    exact ⟨n, heq ▸ hn, hfits⟩
  · exact h.fits hk

theorem setDistance (h : gen.Proper) (hset : gen.setDistance id value = .ok gen') :
    gen'.Proper := by
  simp only [Generation.setDistance, bind_eq_ok, Graph.node_eq_ok] at hset
  obtain ⟨n, hn, hset⟩ := hset
  obtain ⟨k, k', hk, hrun, hrewrites, -⟩ := editSearchNode_ok hset
  obtain ⟨n', hn', hfits⟩ := h.fits hk
  obtain rfl := Option.some.inj (hn.symm.trans hn')
  exact h.of_rewrites hrewrites hn (hfits.setDistance hrun)

/-- A reset copy has no values that might not fit. -/
theorem of_resetOnto (hwf : gen.graph.WellFormed)
    (hheld : ∀ {i k}, gen.searchNodes.get? i = some k → ∃ n, gen.graph.get? i = some n)
    (copy : Nat) : (gen.resetOnto copy).Proper := by
  refine ⟨hwf, fun {i k} hk => ?_⟩
  obtain ⟨rfl, k', hk'⟩ := exists_of_resetOnto hk
  obtain ⟨n, hn⟩ := hheld hk'
  exact ⟨n, hn, .fresh (some i) n.isTarget⟩

end Proper

/-- The second generation is a later state of the first, in which no distance became known. -/
structure Proceeds (gen gen' : Generation S P K) : Prop where
  keeps : gen.Keeps gen'
  proper : gen'.Proper
  distance : ∀ {id d}, gen.distance id = .ok d → gen'.distance id = .ok d
  known : ∀ {id d}, gen'.distance id = .ok d → d.isKnown = true → gen.distance id = .ok d
  /-- Only what is not expanded is covered. -/
  uncovered : ∀ {id n n'}, gen.graph.get? id = some n → n.isExpanded = true → n.covering = none →
    gen'.graph.get? id = some n' → n'.covering = none

namespace Proceeds

theorem refl (h : gen.Proper) : gen.Proceeds gen where
  keeps := .refl gen
  proper := h
  distance h := h
  known h _ := h
  uncovered hn _ hfree hn' := Option.some.inj (hn.symm.trans hn') ▸ hfree

theorem trans (h : gen.Proceeds gen') (h' : gen'.Proceeds gen'') : gen.Proceeds gen'' where
  keeps := h.keeps.trans h'.keeps
  proper := h'.proper
  distance hd := h'.distance (h.distance hd)
  known hd hknown := h.known (h'.known hd hknown) hknown
  uncovered hn hexpanded hfree hn'' := by
    obtain ⟨n', hn', hgrows⟩ := h.keeps.grows.node hn
    exact h'.uncovered hn' (hgrows.isExpanded hexpanded).1 (h.uncovered hn hexpanded hfree hn') hn''

/-- A write to a search node that leaves its distance alone. -/
theorem of_rewrites {n : Node S} (h : gen.Proper) (hkeeps : gen.Keeps gen')
    (hrewrites : gen.Rewrites gen' id k') (hn : gen.graph.get? id = some n)
    (hfits : k'.Fits n.isTarget)
    (hdistance : ∀ k, gen.searchNodes.get? id = some k → k'.distance = k.distance)
    (hnew : gen.searchNodes.get? id = none → k'.distance = .unknown) : gen.Proceeds gen' where
  keeps := hkeeps
  proper := h.of_rewrites hrewrites hn hfits
  distance {i d} hd := by
    obtain ⟨k, hk, rfl⟩ := distance_eq_ok.1 hd
    rw [distance_eq_ok, hrewrites.get?]
    split
    · rename_i heq
      exact ⟨k', rfl, hdistance k (heq ▸ hk)⟩
    · exact ⟨k, hk, rfl⟩
  known {i d} hd hknown := by
    obtain ⟨k, hk, rfl⟩ := distance_eq_ok.1 hd
    rw [hrewrites.get?] at hk
    split at hk
    · rename_i heq
      obtain rfl := Option.some.inj hk
      subst heq
      cases hold : gen.searchNodes.get? i with
      | some k => exact distance_eq_ok.2 ⟨k, hold, (hdistance k hold).symm⟩
      | none => simp [hnew hold, Distance.isKnown] at hknown
    · exact distance_eq_ok.2 ⟨k, hk, rfl⟩
  uncovered hn _ hfree hn' := by
    rw [hrewrites.graph] at hn'
    exact Option.some.inj (hn.symm.trans hn') ▸ hfree

theorem of_setHeuristic (h : gen.Proper) (hset : gen.setHeuristic id value = .ok gen') :
    gen.Proceeds gen' := by
  have hkeeps := keeps_of_setHeuristic hset
  simp only [setHeuristic, bind_eq_ok, Graph.node_eq_ok] at hset
  obtain ⟨n, hn, hset⟩ := hset
  obtain ⟨k, k', hk, hrun, hrewrites, -⟩ := editSearchNode_ok hset
  obtain ⟨n', hn', hfits⟩ := h.fits hk
  obtain rfl := Option.some.inj (hn.symm.trans hn')
  refine of_rewrites h hkeeps hrewrites hn (hfits.setHeuristic hrun) (fun k₀ hk₀ => ?_) (by simp [hk])
  obtain rfl := Option.some.inj (hk.symm.trans hk₀)
  obtain ⟨-, rfl, -⟩ := SearchNode.setHeuristic_ok hrun
  rfl

theorem of_setProvider {provider : Option NodeId} (h : gen.Proper)
    (hset : gen.editSearchNode id (SearchNode.setProvider provider) = .ok gen') :
    gen.Proceeds gen' := by
  obtain ⟨k, hk, hrewrites⟩ := setProvider_ok hset
  obtain ⟨n, hn, hfits⟩ := h.fits hk
  refine of_rewrites h (keeps_of_setProvider hset) hrewrites hn
    ⟨hfits.heuristic, hfits.distance, hfits.admissible⟩ (fun k₀ hk₀ => ?_) (by simp [hk])
  obtain rfl := Option.some.inj (hk.symm.trans hk₀)
  rfl

theorem of_register [DecidableEq K] {analysis : Analysis S P K} {provider : Option NodeId}
    (h : gen.Proper) (hset : gen.register analysis id { provider } = .ok gen') :
    gen.Proceeds gen' := by
  obtain ⟨⟨n, hn⟩, hnone, hrewrites⟩ := register_ok hset
  exact of_rewrites h (keeps_of_register hset) hrewrites hn (.fresh provider n.isTarget)
    (by simp [hnone]) fun _ => rfl

/-- A change of the graph. -/
theorem of_grows (h : gen.Proper) (hgrows : gen.graph.Grows graph) (hwf : graph.WellFormed)
    (huncovered : ∀ {id n n'}, gen.graph.get? id = some n → n.isExpanded = true →
      n.covering = none → graph.get? id = some n' → n'.covering = none) :
    gen.Proceeds { gen with graph } where
  keeps := .of_grows hgrows
  proper := by
    refine ⟨hwf, fun {i k} hk => ?_⟩
    obtain ⟨n, hn, hfits⟩ := h.fits hk
    obtain ⟨n', hn', hgrown⟩ := hgrows.node hn
    exact ⟨n', hn', hgrown.isTarget ▸ hfits⟩
  distance h := h
  known h _ := h
  uncovered := huncovered

/-- An open node is covered. -/
theorem of_cover {coverer : NodeId} {a : Node S} {u : Unit} (h : gen.Proper)
    (ha : gen.graph.get? id = some a) (hopen : a.isExpanded = false)
    (hrun : (Graph.cover id coverer).run gen.graph = .ok u graph) :
    gen.Proceeds { gen with graph } := by
  refine of_grows h (Graph.grows_of_cover hrun) (h.wellFormed.cover hrun) ?_
  intro i n n' hn hexpanded hfree hn'
  obtain ⟨-, _, _, ha', -, -, -, hrewritten⟩ := Graph.cover_ok h.wellFormed hrun
  obtain rfl := Option.some.inj (ha.symm.trans ha')
  rw [hrewritten.get?_of_get? hn] at hn'
  obtain rfl := Option.some.inj hn'
  have hne : i ≠ id := by
    rintro rfl
    obtain rfl := Option.some.inj (ha.symm.trans hn)
    simp [hopen] at hexpanded
  simp [Graph.coverNode, hne, hfree]

/-- New leaves are added. -/
theorem of_addedLeaves {parent : Option NodeId} {new : List NodeId} (h : gen.Proper)
    (hadded : Graph.AddedLeaves parent new gen.graph graph) (hwf : graph.WellFormed) :
    gen.Proceeds { gen with graph } := by
  refine of_grows h hadded.grows hwf ?_
  intro i n n' hn _ hfree hn'
  obtain ⟨m, hm, hsame, -⟩ := hadded.old (hadded.notMem hn) hn'
  obtain rfl := Option.some.inj (hn.symm.trans hm)
  exact hsame.trans hfree

end Proceeds

end Generation

namespace Exploration

open Explore

variable [DecidableEq S] [DecidableEq K]
variable {setup : Setup S P K} {older : Older S P K} {top index : Nat}
variable {p q : Progress S P K} {gen : Generation S P K} {id : NodeId} {d : Distance}

section

variable (holder : older.Moving setup top index) (hgen : p.history.get? index = some gen)
variable (hproper : gen.Proper)

include holder hgen hproper

/-! ## Search nodes -/

/-- A heuristic is made known, and the graph stays as it is. -/
theorem ensureHeuristic_proceeds
    (h : (ensureHeuristic setup older index id).run p = .ok (d, q)) :
    ∃ gen', q.history.get? index = some gen' ∧ gen.Proceeds gen' ∧ gen'.graph = gen.graph ∧
      gen'.heuristic id = .ok d ∧ d.isKnown = true := by
  obtain ⟨mid, -, hmid, hknown, ⟨rfl, hd⟩ | ⟨gen', -, hset, rfl⟩⟩ :=
    ensureHeuristic_moves_cases holder hgen h
  · exact ⟨gen, hmid, .refl hproper, rfl, hd, hknown⟩
  · obtain ⟨_, k, -, -, -, hrewrites, -⟩ := Generation.setHeuristic_ok hset
    refine ⟨gen', Progress.get?_put_self hmid, .of_setHeuristic hproper hset, hrewrites.graph,
      Generation.heuristic_eq_ok.2 ⟨{ k with heuristic := d }, ?_, rfl⟩, hknown⟩
    rw [hrewrites.get?, if_pos rfl]

omit [DecidableEq S] [DecidableEq K] holder in
theorem uncoveredProvider_proceeds {below : Nat} {provider result : NodeId}
    (h : (uncoveredProvider index below id provider).run p = .ok (result, q)) :
    ∃ gen', q.history.get? index = some gen' ∧ gen.Proceeds gen' ∧ gen'.graph = gen.graph := by
  simp only [uncoveredProvider, run_bind_ok, run_node_ok, Graph.node_eq_ok] at h
  obtain ⟨m, _, ⟨_, -, -, rfl⟩, h⟩ := h
  split at h
  · simp only [run_bind_ok, run_generation_ok, run_lift_ok, run_putGeneration_ok, run_pure_ok] at h
    obtain ⟨_, _, ⟨hgen', rfl⟩, edited, _, ⟨hedit, rfl⟩, _, _, rfl, rfl, rfl⟩ := h
    obtain rfl := Option.some.inj (hgen.symm.trans hgen')
    obtain ⟨_, _, hrewrites⟩ := Generation.setProvider_ok hedit
    exact ⟨edited, Progress.get?_put_self hgen, .of_setProvider hproper hedit, hrewrites.graph⟩
  · obtain ⟨-, rfl⟩ := run_pure_ok.1 h
    exact ⟨gen, hgen, .refl hproper, rfl⟩

theorem providerCandidates_proceeds {below : Nat} {candidates : List NodeId}
    (h : (providerCandidates setup older index below id).run p = .ok (candidates, q)) :
    ∃ gen', q.history.get? index = some gen' ∧ gen.Proceeds gen' ∧ gen'.graph = gen.graph := by
  simp only [providerCandidates, run_bind_ok, run_generation_ok, run_lift_ok, Graph.node_eq_ok] at h
  obtain ⟨_, _, ⟨hgen', rfl⟩, n, _, ⟨-, rfl⟩, h⟩ := h
  obtain rfl := Option.some.inj (hgen.symm.trans hgen')
  split at h
  · simp only [run_bind_ok, run_lift_ok, Generation.searchNode_eq_ok] at h
    obtain ⟨k, _, ⟨-, rfl⟩, h⟩ := h
    split at h
    · simp only [run_bind_ok, run_node_ok] at h
      obtain ⟨_, r, hask, provider', s, huncovered, above, _, ⟨_, -, -, rfl⟩, h⟩ := h
      have hr := ((askForSuccessors_moves holder hask).1.frame (Nat.le_refl _)).trans hgen
      have hend : s = q := by
        split at h
        · exact (run_pure_ok.1 h).2
        · simp only [run_bind_ok, run_lift_ok, run_pure_ok] at h
          obtain ⟨_, _, ⟨-, hs⟩, -, hq⟩ := h
          exact hs.trans hq
      exact hend ▸ uncoveredProvider_proceeds hr hproper huncovered
    · simp only [run_bind_ok, run_lift_ok, run_pure_ok] at h
      obtain ⟨_, _, ⟨-, rfl⟩, -, rfl⟩ := h
      exact ⟨gen, hgen, .refl hproper, rfl⟩
  · simp only [run_bind_ok, run_generation_ok, run_pure_ok] at h
    obtain ⟨_, _, ⟨-, rfl⟩, -, rfl⟩ := h
    exact ⟨gen, hgen, .refl hproper, rfl⟩

/-- A search node is attached, and the graph stays as it is. -/
theorem createSearchNode_proceeds {u : Unit}
    (h : (createSearchNode setup older index id).run p = .ok (u, q)) :
    ∃ gen', q.history.get? index = some gen' ∧ gen.Proceeds gen' ∧ gen'.graph = gen.graph := by
  have hregister : ∀ {r : Progress S P K} {gen₁ gen₂ : Generation S P K} {provider : Option NodeId},
      r.history.get? index = some gen₁ → gen.Proceeds gen₁ → gen₁.graph = gen.graph →
      gen₁.register setup.analysis id { provider } = .ok gen₂ →
      ∃ gen', (r.put index gen₂).history.get? index = some gen' ∧ gen.Proceeds gen' ∧
        gen'.graph = gen.graph := by
    intro r gen₁ gen₂ provider hr hproceeds hgraph hset
    obtain ⟨-, -, hrewrites⟩ := Generation.register_ok hset
    exact ⟨gen₂, Progress.get?_put_self hr, hproceeds.trans (.of_register hproceeds.proper hset),
      hrewrites.graph.trans hgraph⟩
  simp only [createSearchNode, run_bind_ok, run_generation_ok] at h
  obtain ⟨_, _, ⟨hgen', rfl⟩, h⟩ := h
  obtain rfl := Option.some.inj (hgen.symm.trans hgen')
  split at h
  · simp only [run_bind_ok, run_generation_ok, run_lift_ok, run_putGeneration_ok] at h
    obtain ⟨found, r, hfound, gen₁, _, ⟨hr, rfl⟩, gen₂, _, ⟨hset, rfl⟩, rfl⟩ := h
    obtain ⟨candidates, gen₁', older', n, hcandidates, hr', -⟩ := findProvider_cases hfound
    obtain rfl := Option.some.inj (hr.symm.trans hr')
    obtain ⟨_, hr', hproceeds, hgraph⟩ := providerCandidates_proceeds holder hgen hproper hcandidates
    obtain rfl := Option.some.inj (hr.symm.trans hr')
    exact hregister hr hproceeds hgraph hset
  · simp only [run_bind_ok, run_generation_ok, run_lift_ok, run_putGeneration_ok, run_pure_ok] at h
    obtain ⟨_, _, ⟨rfl, rfl⟩, gen₁, _, ⟨hgen₁, rfl⟩, gen₂, _, ⟨hset, rfl⟩, rfl⟩ := h
    obtain rfl := Option.some.inj (hgen.symm.trans hgen₁)
    exact hregister hgen (.refl hproper) rfl hset

theorem forM_createSearchNode_proceeds {ids : List NodeId} {u : Unit}
    (h : (ids.forM (createSearchNode setup older index)).run p = .ok (u, q)) :
    ∃ gen', q.history.get? index = some gen' ∧ gen.Proceeds gen' ∧ gen'.graph = gen.graph := by
  refine run_forM_induct (motive := fun r => ∃ gen', r.history.get? index = some gen' ∧
    gen.Proceeds gen' ∧ gen'.graph = gen.graph) ?_ ⟨gen, hgen, .refl hproper, rfl⟩ h
  rintro i r r' - ⟨gen₁, hr, hproceeds, hgraph⟩ hcreate
  obtain ⟨gen', hgen', hproceeds', hgraph'⟩ :=
    createSearchNode_proceeds holder hr hproceeds.proper hcreate
  exact ⟨gen', hgen', hproceeds.trans hproceeds', hgraph'.trans hgraph⟩

/-! ## Covering and expanding -/

/-- An open node is covered by one that is no nearer, or the graph stays as it is. -/
theorem coverByOneOf_proceeds {a : Node S} (ha : gen.graph.get? id = some a)
    (hopen : a.isExpanded = false) {above : Distance} (hknown : above.isKnown = true)
    {candidates : List NodeId} {result : Option NodeId}
    (h : (coverByOneOf setup older index id a.isTarget above candidates).run p = .ok (result, q)) :
    ∃ gen', q.history.get? index = some gen' ∧ gen.Proceeds gen' ∧
      (result = none → gen'.graph = gen.graph) ∧
      ∀ c, result = some c → (∃ n, gen'.graph.get? id = some n ∧ n.covering = some c) ∧
        ∃ below, gen'.heuristic c = .ok below ∧ below.isKnown = true ∧
          above.notAbove below = true := by
  induction candidates generalizing p gen with
  | nil =>
    obtain ⟨rfl, rfl⟩ := run_pure_ok.1 h
    exact ⟨gen, hgen, .refl hproper, fun _ => rfl, by simp⟩
  | cons candidate rest ih =>
    simp only [coverByOneOf, run_bind_ok, run_generation_ok, run_lift_ok, Graph.node_eq_ok] at h
    obtain ⟨_, _, ⟨hgen', rfl⟩, b, _, ⟨-, rfl⟩, h⟩ := h
    obtain rfl := Option.some.inj (hgen.symm.trans hgen')
    split at h
    · exact ih hgen hproper ha h
    · simp only [run_bind_ok, run_lift_ok] at h
      obtain ⟨may, _, ⟨-, rfl⟩, h⟩ := h
      split at h
      · exact ih hgen hproper ha h
      · simp only [run_bind_ok, run_lift_ok] at h
        obtain ⟨below, r, hensure, less, _, ⟨hless, rfl⟩, h⟩ := h
        obtain ⟨gen₁, hr, hproceeds, hgraph, hbelow, hknown'⟩ :=
          ensureHeuristic_proceeds holder hgen hproper hensure
        split at h
        · obtain ⟨gen', hgen', hproceeds', hsame, hcovered⟩ := ih hr hproceeds.proper (hgraph ▸ ha) h
          exact ⟨gen', hgen', hproceeds.trans hproceeds', fun hnone => (hsame hnone).trans hgraph,
            hcovered⟩
        · rename_i hnotLess
          simp only [run_bind_ok, run_editGraph_ok, run_count_ok, run_pure_ok] at h
          obtain ⟨_, _, ⟨gen₂, graph, hgen₂, hcover, rfl⟩, _, _, rfl, rfl, rfl⟩ := h
          obtain rfl := Option.some.inj (hr.symm.trans hgen₂)
          refine ⟨{ gen₁ with graph }, Progress.get?_put_self hr,
            hproceeds.trans (.of_cover hproceeds.proper (hgraph ▸ ha) hopen hcover), by simp,
            fun c hc => ?_⟩
          obtain rfl := Option.some.inj hc
          refine ⟨Graph.covering_of_cover hcover, below, hbelow, hknown', ?_⟩
          rw [Distance.lt_eq_ok hknown' hknown] at hless
          simpa [← Except.ok.inj hless] using hnotLess

theorem close_proceeds {result : Option NodeId}
    (h : (close setup older index id).run p = .ok (result, q)) :
    ∃ gen', q.history.get? index = some gen' ∧ gen.Proceeds gen' ∧
      (result = none → gen'.graph = gen.graph) ∧
      ∀ c, result = some c → (∃ n, gen'.graph.get? id = some n ∧ n.covering = some c) ∧
        ∃ above below, gen.heuristic id = .ok above ∧ above.isKnown = true ∧
          gen'.heuristic c = .ok below ∧ below.isKnown = true ∧ above.notAbove below = true := by
  simp only [close, run_bind_ok, run_generation_ok, run_lift_ok, Graph.node_eq_ok] at h
  obtain ⟨_, _, ⟨hgen', rfl⟩, a, _, ⟨ha, rfl⟩, h⟩ := h
  obtain rfl := Option.some.inj (hgen.symm.trans hgen')
  split at h
  · obtain ⟨rfl, rfl⟩ := run_pure_ok.1 h
    exact ⟨gen, hgen, .refl hproper, fun _ => rfl, by simp⟩
  · rename_i hclosable
    simp only [Bool.or_eq_true, Bool.not_eq_true', not_or, Bool.not_eq_true, Bool.not_eq_false] at hclosable
    simp only [run_bind_ok, run_lift_ok, demand_eq_ok] at h
    obtain ⟨above, _, ⟨habove, rfl⟩, _, _, ⟨hknown, rfl⟩, candidates, _, ⟨-, rfl⟩, h⟩ := h
    obtain ⟨gen', hgen', hproceeds, hsame, hcovered⟩ :=
      coverByOneOf_proceeds holder hgen hproper ha hclosable.1.2 hknown h
    refine ⟨gen', hgen', hproceeds, hsame, fun c hc => ?_⟩
    obtain ⟨hn, below, hbelow, hknown', hle⟩ := hcovered c hc
    exact ⟨hn, above, below, habove, hknown, hbelow, hknown', hle⟩

omit [DecidableEq K] holder in
theorem expand_proceeds {n : Node S} {new : List NodeId} (hn : gen.graph.get? id = some n)
    (hfree : n.covering = none) (hopen : n.isExpanded = false)
    (h : (expand setup index id).run p = .ok (new, q)) :
    ∃ gen' n', q.history.get? index = some gen' ∧ gen.Proceeds gen' ∧
      gen'.graph.get? id = some n' ∧ n'.covering = none ∧ n'.isExpanded = true := by
  simp only [expand, run_bind_ok, run_generation_ok, run_editGraph_ok, run_count_ok,
    run_pure_ok] at h
  obtain ⟨_, _, ⟨hgen', rfl⟩, _, _, ⟨gen₁, graph, hgen₁, hrun, rfl⟩, _, _, rfl, rfl, rfl⟩ := h
  obtain rfl := Option.some.inj (hgen.symm.trans hgen')
  obtain rfl := Option.some.inj (hgen.symm.trans hgen₁)
  obtain ⟨hadded, n', hn', hexpanded⟩ := Graph.expand_leaves hn hopen hrun
  obtain ⟨m, hm, hsame, -⟩ := hadded.old (hadded.notMem hn) hn'
  obtain rfl := Option.some.inj (hn.symm.trans hm)
  exact ⟨{ gen with graph }, n', Progress.get?_put_self hgen,
    .of_addedLeaves hproper hadded (hproper.wellFormed.expand hrun), hn', hsame.trans hfree,
    hexpanded⟩

/-- **What was expanded is not covered.** -/
theorem ensureExpanded_proceeds {n : Node S} (hn : gen.graph.get? id = some n)
    (hfree : n.covering = none) {u : Unit}
    (h : (ensureExpanded setup older index id).run p = .ok (u, q)) :
    ∃ gen' n', q.history.get? index = some gen' ∧ gen.Proceeds gen' ∧
      gen'.graph.get? id = some n' ∧ n'.covering = none ∧ n'.isExpanded = true := by
  simp only [ensureExpanded, run_bind_ok, run_node_ok, Graph.node_eq_ok] at h
  obtain ⟨_, _, ⟨_, hgen', hn', rfl⟩, h⟩ := h
  obtain rfl := Option.some.inj (hgen.symm.trans hgen')
  obtain rfl := Option.some.inj (hn.symm.trans hn')
  split at h
  · rename_i hexpanded
    obtain ⟨-, rfl⟩ := run_pure_ok.1 h
    exact ⟨gen, n, hgen, .refl hproper, hn, hfree, hexpanded⟩
  · rename_i hopen
    obtain ⟨new, r, hexpand, hcreate⟩ := run_bind_ok.1 h
    obtain ⟨gen₁, n', hr, hproceeds, hn', hfree', hexpanded⟩ :=
      expand_proceeds hgen hproper hn hfree (by simpa using hopen) hexpand
    obtain ⟨gen', hgen', hproceeds', hgraph⟩ :=
      forM_createSearchNode_proceeds holder hr hproceeds.proper hcreate
    exact ⟨gen', n', hgen', hproceeds.trans hproceeds', hgraph ▸ hn', hfree', hexpanded⟩

end

/-! ## Before and after searches -/

variable {u : Unit}

/-- Init nodes are added before a search begins. -/
theorem ensureInitialized_proceeds (hgen : p.history.get? index = some gen) (hproper : gen.Proper)
    (h : (ensureInitialized setup index).run p = .ok (u, q)) :
    ∃ gen', q.history.get? index = some gen' ∧ gen.Proceeds gen' := by
  simp only [ensureInitialized, run_bind_ok, run_generation_ok] at h
  obtain ⟨_, _, ⟨hgen', rfl⟩, h⟩ := h
  obtain rfl := Option.some.inj (hgen.symm.trans hgen')
  split at h
  · obtain ⟨-, rfl⟩ := run_pure_ok.1 h
    exact ⟨gen, hgen, .refl hproper⟩
  · rename_i hopen
    obtain ⟨new, r, hedit, hcreate⟩ := run_bind_ok.1 h
    obtain ⟨_, graph, hgen', hseed, rfl⟩ := run_editGraph_ok.1 hedit
    obtain rfl := Option.some.inj (hgen.symm.trans hgen')
    have hproceeds : gen.Proceeds { gen with graph } :=
      .of_addedLeaves hproper (Graph.seed_leaves (by simpa using hopen) hseed)
        (hproper.wellFormed.seed hseed)
    obtain ⟨gen', hgen', hproceeds', -⟩ := forM_createSearchNode_proceeds
      (below_moving (Nat.le_refl index)) (Progress.get?_put_self hgen) hproceeds.proper hcreate
    exact ⟨gen', hgen', hproceeds.trans hproceeds'⟩

omit [DecidableEq S] [DecidableEq K] in
theorem loosen_proper (hgen : p.history.get? index = some gen) (hproper : gen.Proper)
    (h : (loosen index id).run p = .ok (u, q)) :
    ∃ gen', q.history.get? index = some gen' ∧ gen'.Proper := by
  simp only [loosen, run_bind_ok, run_generation_ok, run_lift_ok] at h
  obtain ⟨_, _, ⟨hgen', rfl⟩, n, _, ⟨-, rfl⟩, h⟩ := h
  obtain rfl := Option.some.inj (hgen.symm.trans hgen')
  split at h
  · simp only [run_bind_ok, run_lift_ok] at h
    obtain ⟨_, _, ⟨-, rfl⟩, _, _, ⟨-, rfl⟩, less, _, ⟨-, rfl⟩, h⟩ := h
    split at h
    · obtain ⟨_, graph, hgen', huncover, rfl⟩ := run_editGraph_ok.1 h
      obtain rfl := Option.some.inj (hgen.symm.trans hgen')
      obtain ⟨-, -, hrewritten⟩ := Graph.uncover_ok hproper.wellFormed huncover
      refine ⟨{ gen with graph }, Progress.get?_put_self hgen,
        hproper.wellFormed.uncover huncover, fun hk => ?_⟩
      obtain ⟨m, hm, hfits⟩ := hproper.fits hk
      exact ⟨_, hrewritten.get?_of_get? hm, hfits⟩
    · obtain ⟨-, rfl⟩ := run_pure_ok.1 h
      exact ⟨gen, hgen, hproper⟩
  · obtain ⟨-, rfl⟩ := run_pure_ok.1 h
    exact ⟨gen, hgen, hproper⟩

/-- A copy is prepared for the next search. -/
theorem resumeLive_proper (hgen : p.history.get? index = some gen) (hproper : gen.Proper)
    (h : (resumeLive setup index).run p = .ok (u, q)) :
    ∃ gen', q.history.get? index = some gen' ∧ gen'.Proper := by
  unfold resumeLive at h
  split at h
  · simp only [run_bind_ok, run_generation_ok] at h
    obtain ⟨_, _, ⟨-, rfl⟩, _, r, hheuristics, hloosen⟩ := h
    have hr : ∃ gen₁, r.history.get? index = some gen₁ ∧ gen₁.Proper := by
      refine run_forM_induct (motive := fun r => ∃ gen₁, r.history.get? index = some gen₁ ∧
        gen₁.Proper) ?_ ⟨gen, hgen, hproper⟩ hheuristics
      rintro i r r' - ⟨gen₁, hr, hproper₁⟩ hrun
      obtain ⟨_, _, hensure, hpure⟩ := run_bind_ok.1 hrun
      obtain ⟨-, rfl⟩ := run_pure_ok.1 hpure
      obtain ⟨gen₂, hr', hproceeds, -⟩ :=
        ensureHeuristic_proceeds (below_moving (Nat.le_refl index)) hr hproper₁ hensure
      exact ⟨gen₂, hr', hproceeds.proper⟩
    refine run_forM_induct (motive := fun r => ∃ gen₁, r.history.get? index = some gen₁ ∧
      gen₁.Proper) ?_ hr hloosen
    rintro i r r' - ⟨gen₁, hr, hproper₁⟩ hrun
    exact loosen_proper hr hproper₁ hrun
  · obtain ⟨-, rfl⟩ := run_pure_ok.1 h
    exact ⟨gen, hgen, hproper⟩

end Exploration

end GuidedReach
