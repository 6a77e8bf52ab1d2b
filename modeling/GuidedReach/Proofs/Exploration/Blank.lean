import GuidedReach.Proofs.Exploration.Keeps
import GuidedReach.Proofs.Generation.Tracked

/-!
# The first round

In the first round there is no generation to take heuristics from: all of them are 0. If a target is
found among the init nodes, it is settled at distance 0 and no search is made.

* `Generation.Blank` — nothing but zeros is known.
* `Exploration.HoldsBlank.forM_settleTarget` — targets can be settled at distance 0.
-/

namespace GuidedReach

variable {S P K : Type}

/-- Nothing but zeros is known about a node. -/
structure SearchNode.Blank (k : SearchNode) : Prop where
  heuristic : k.heuristic.isKnown = true → k.heuristic = .zero
  distance : k.distance.isKnown = true → k.distance = .zero

/-- Zeros fit every node. -/
theorem SearchNode.Blank.checkFits {k : SearchNode} (h : k.Blank) (isTarget : Bool) :
    k.checkFits isTarget = .ok () := by
  refine exists_checkFits (fun _ => h.heuristic) (fun _ => h.distance) fun hheuristic hdistance => ?_
  rw [h.heuristic hheuristic, h.distance hdistance]
  rfl

/-- Nothing but zeros is known, and there is no generation to take values from. -/
structure Generation.Blank (gen : Generation S P K) : Prop where
  provider : gen.provider = none
  searchNode : ∀ {i k}, gen.searchNodes.get? i = some k → k.Blank

namespace Generation.Blank

variable {gen gen' : Generation S P K} {id : NodeId} {n : Node S} {k k' : SearchNode}

theorem of_rewrites (h : gen.Blank) (hrewrites : gen.Rewrites gen' id k') (hk' : k'.Blank) :
    gen'.Blank := by
  refine ⟨hrewrites.provider.trans h.provider, fun {i l} hl => ?_⟩
  rw [hrewrites.get?] at hl
  split at hl
  · cases hl
    exact hk'
  · exact h.searchNode hl

/-- The heuristic of a node can be set to zero. -/
theorem setHeuristic (h : gen.Blank) (hn : gen.graph.get? id = some n)
    (hk : gen.searchNodes.get? id = some k) :
    ∃ gen', gen.setHeuristic id .zero = .ok gen' ∧ gen'.Blank ∧
      gen.Rewrites gen' id { k with heuristic := .zero } := by
  have hold : k.heuristic = .zero ∨ k.heuristic = .unknown ∧
      (n.isTarget = true → Distance.zero = .zero) ∧
      (k.distance.isKnown = true → Distance.zero.notAbove k.distance = true) := by
    cases hknown : k.heuristic.isKnown with
    | true => exact .inl ((h.searchNode hk).heuristic hknown)
    | false =>
      refine .inr ⟨Distance.eq_unknown_of_not_isKnown hknown, fun _ => rfl, fun hknown => ?_⟩
      rw [(h.searchNode hk).distance hknown]
      rfl
  obtain ⟨gen', hset⟩ := exists_setHeuristic hn hk rfl hold
  obtain ⟨_, k', -, hk', -, hrewrites, -⟩ := setHeuristic_ok hset
  rw [hk] at hk'
  cases hk'
  exact ⟨gen', hset, h.of_rewrites hrewrites ⟨fun _ => rfl, (h.searchNode hk).distance⟩, hrewrites⟩

/-- The distance of a node can be set to zero. -/
theorem setDistance (h : gen.Blank) (hn : gen.graph.get? id = some n)
    (hk : gen.searchNodes.get? id = some k) :
    ∃ gen', gen.setDistance id .zero = .ok gen' ∧ gen'.Blank ∧
      gen.Rewrites gen' id { k with distance := .zero } := by
  have hold : k.distance = .zero ∨ k.distance = .unknown ∧
      (n.isTarget = true → Distance.zero = .zero) ∧
      (k.heuristic.isKnown = true → k.heuristic.notAbove .zero = true) := by
    cases hknown : k.distance.isKnown with
    | true => exact .inl ((h.searchNode hk).distance hknown)
    | false =>
      refine .inr ⟨Distance.eq_unknown_of_not_isKnown hknown, fun _ => rfl, fun hknown => ?_⟩
      rw [(h.searchNode hk).heuristic hknown]
      rfl
  obtain ⟨gen', hset⟩ := exists_setDistance hn hk rfl hold
  obtain ⟨_, k', -, hk', -, hrewrites, -⟩ := setDistance_ok hset
  rw [hk] at hk'
  cases hk'
  exact ⟨gen', hset, h.of_rewrites hrewrites ⟨(h.searchNode hk).heuristic, fun _ => rfl⟩, hrewrites⟩

end Generation.Blank

namespace Exploration

open Explore

variable {setup : Setup S P K} {older : Older S P K} {index : Nat} {p : Progress S P K}
variable {gen : Generation S P K} {id : NodeId} {n : Node S} {k : SearchNode}

/-- A history holds a generation with a given graph, in which nothing but zeros is known. -/
structure HoldsBlank (analysis : Analysis S P K) (allowed : P → Prop) (index : Nat) (g : Graph S)
    (p : Progress S P K) (gen : Generation S P K) : Prop where
  held : p.history.get? index = some gen
  length : p.history.length = index + 1
  faithful : p.history.Faithful analysis allowed
  graph : gen.graph = g
  blank : gen.Blank
  registered : ∀ {i n}, g.get? i = some n → ∃ k, gen.searchNodes.get? i = some k
  inGraph : ∀ {i k}, gen.searchNodes.get? i = some k → ∃ n, g.get? i = some n

namespace HoldsBlank

variable {analysis : Analysis S P K} {allowed : P → Prop} {g : Graph S} {gen' : Generation S P K}
variable {k' : SearchNode}

theorem put (h : HoldsBlank analysis allowed index g p gen) (hn : g.get? id = some n)
    (hrewrites : gen.Rewrites gen' id k') (hblank : gen'.Blank) :
    HoldsBlank analysis allowed index g (p.put index gen') gen' where
  held := Progress.get?_put_self h.held
  length := Progress.length_put.trans h.length
  faithful := Progress.faithful_put h.faithful h.held
    (hrewrites.graph ▸ (h.faithful index gen h.held).1) hrewrites.prec
  graph := hrewrites.graph.trans h.graph
  blank := hblank
  registered := by
    intro i m hm
    rw [hrewrites.get?]
    split
    · exact ⟨k', rfl⟩
    · exact h.registered hm
  inGraph := by
    intro i l hl
    rw [hrewrites.get?] at hl
    split at hl
    · rename_i heq
      exact ⟨n, heq ▸ hn⟩
    · exact h.inGraph hl

/-- The heuristic of a target is made known. -/
theorem ensureHeuristic (h : HoldsBlank analysis allowed index g p gen) (hn : g.get? id = some n)
    (htarget : n.isTarget = true) :
    (ensureHeuristic setup older index id).Ensures p fun _ q =>
      ∃ gen', HoldsBlank analysis allowed index g q gen' ∧ gen.Keeps gen' := by
  obtain ⟨k, hk⟩ := h.registered hn
  have hn' : gen.graph.get? id = some n := h.graph ▸ hn
  have hunknown : (inheritedDistance index id).run p = .ok (Distance.unknown, p) := by
    simp only [inheritedDistance, run_bind_ok, run_generation_ok, run_lift_ok,
      Generation.searchNode_eq_ok]
    exact ⟨gen, p, ⟨h.held, rfl⟩, k, p, ⟨hk, rfl⟩, by simp [h.blank.provider]⟩
  simp only [Exploration.ensureHeuristic, ensures_bind, ensures_generation, ensures_lift,
    Generation.searchNode_eq_ok]
  refine ⟨gen, h.held, k, hk, ?_⟩
  split
  · exact ensures_pure.2 ⟨gen, h, .refl gen⟩
  · obtain ⟨gen', hset, hblank, hrewrites⟩ := h.blank.setHeuristic hn' hk
    simp only [computeHeuristic, ensures_bind, ensures_generation, ensures_of_ok hunknown,
      ensures_lift, Graph.node_eq_ok]
    refine ⟨gen, h.held, n, hn', ?_⟩
    simp only [htarget, if_true, ensures_bind, ensures_lift, demand_eq_ok, ensures_pure,
      ensures_setHeuristic]
    exact ⟨(), by decide, gen, h.held, gen', hset, gen', h.put hn hrewrites hblank,
      Generation.keeps_of_setHeuristic hset⟩

/-- Targets can be settled at distance 0. -/
theorem forM_settleTarget (h : HoldsBlank analysis allowed index g p gen) {targets : List NodeId}
    (htargets : ∀ i ∈ targets, ∃ n, g.get? i = some n ∧ n.isTarget = true) :
    (targets.forM fun id => do
      let _ ← Exploration.ensureHeuristic setup older index id
      setDistance index id .zero).Ensures p fun _ q =>
        ∃ gen', HoldsBlank analysis allowed index g q gen' ∧
          ∀ i ∈ targets, gen'.distance i = Except.ok Distance.zero := by
  refine (ensures_forM (motive := fun rest q => (∀ i ∈ rest, i ∈ targets) ∧
    ∃ gen', HoldsBlank analysis allowed index g q gen' ∧
      ∀ i ∈ targets, i ∈ rest ∨ gen'.distance i = .ok .zero) ?_
    ⟨fun _ hi => hi, gen, h, fun _ hi => .inl hi⟩).mono ?_
  · rintro id rest q ⟨hrest, gen', h', hall⟩
    obtain ⟨n, hn, htarget⟩ := htargets id (hrest id List.mem_cons_self)
    simp only [ensures_bind]
    refine (h'.ensureHeuristic hn htarget).mono ?_
    rintro - q' - ⟨mid, hmid, hkeeps⟩
    obtain ⟨k, hk⟩ := hmid.registered hn
    obtain ⟨last, hset, hblank, hrewrites⟩ := hmid.blank.setDistance (hmid.graph ▸ hn) hk
    simp only [ensures_setDistance]
    refine ⟨mid, hmid.held, last, hset, fun i hi => hrest i (List.mem_cons_of_mem id hi), last,
      hmid.put hn hrewrites hblank, fun i hi => ?_⟩
    rcases hall i hi with hwaits | hzero
    · rcases List.mem_cons.1 hwaits with rfl | hwaits
      · exact .inr (Generation.distance_self_of_setDistance hset).1
      · exact .inl hwaits
    · exact .inr ((Generation.DistanceWrites.of_setDistance hset).distance_eq_ok
        (hkeeps.distance hzero rfl) rfl)
  · rintro - q - ⟨-, gen', h', hall⟩
    exact ⟨gen', h', fun i hi => (hall i hi).resolve_left List.not_mem_nil⟩

end HoldsBlank

end Exploration

end GuidedReach
