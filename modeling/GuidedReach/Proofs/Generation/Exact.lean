import Mathlib.Order.Bounds.Defs
import GuidedReach.Graph.Operation
import GuidedReach.Proofs.Generation.Measured
import GuidedReach.Proofs.Graph.Operations

/-!
# Settling exhaustively yields the distances of the graph

The lengths of the shortest paths to targets drop along no edge by more than its weight. So heuristics
that are at most these lengths stand in the way of no write, and the backward search from the targets
settles every node at its true distance.

* `Graph.IsDistance` — the distance of a node to the nearest target of its graph.
* `Graph.shortest` — that distance, as a value.
* `Graph.bounds_shortest` — it is a consistent bound.
* `Generation.Measured.exact` — measured distances are exact.
* `Generation.settleExhaustive_exact` — **settling exhaustively meets no fault and leaves every node at
  its distance**.
-/

namespace GuidedReach

variable {S P K : Type}

/-- The value is the length of a shortest path from the node to a target; it is infinite exactly when
there is no such path. -/
structure Graph.IsDistance (g : Graph S) (id : NodeId) (d : Distance) : Prop where
  finite : ∀ m, d = .finite m ↔ IsLeast {length | g.ReachesTarget id length} m
  infinite : d = .infinite ↔ ∀ length, ¬ g.ReachesTarget id length

/-- All that is known about the distances of a generation is true. -/
def Generation.Exact (gen : Generation S P K) : Prop :=
  ∀ {id d}, gen.distance id = .ok d → d.isKnown = true → gen.graph.IsDistance id d

section

variable {g : Graph S} {gen gen' : Generation S P K} {id : NodeId}

theorem Graph.IsDistance.of_isLeast {m : Nat}
    (h : IsLeast {length | g.ReachesTarget id length} m) : g.IsDistance id (.finite m) where
  finite m' := by
    constructor
    · rintro ⟨⟩
      exact h
    · intro h'
      rw [h.unique h']
  infinite := by
    constructor
    · rintro ⟨⟩
    · intro hnone
      exact absurd h.1 (hnone m)

theorem Graph.IsDistance.of_unreachable (h : ∀ length, ¬ g.ReachesTarget id length) :
    g.IsDistance id .infinite where
  finite m := by
    constructor
    · rintro ⟨⟩
    · intro h'
      exact absurd h'.1 (h m)
  infinite := ⟨fun _ => h, fun _ => rfl⟩

/-- The distance of a target is 0. -/
theorem Graph.IsDistance.of_isTarget {n : Node S} (hn : g.get? id = some n)
    (htarget : n.isTarget = true) : g.IsDistance id .zero :=
  .of_isLeast ⟨⟨id, n, .refl id, hn, htarget⟩, fun _ _ => Nat.zero_le _⟩

/-- **Measured distances are exact.** -/
theorem Generation.Measured.exact (h : gen.Measured) (hwf : gen.graph.WellFormed) : gen.Exact := by
  intro id d hd hknown
  cases d with
  | unknown => cases hknown
  | finite m =>
    refine .of_isLeast ⟨h.reachesTarget hwf hd, fun length hreach => ?_⟩
    obtain ⟨e, he, hle⟩ : ∃ e, Distance.finite m = .finite e ∧ e ≤ 0 + length :=
      (h.drops_zero hreach hd hwf).exists_finite
    cases he
    omega
  | infinite =>
    refine .of_unreachable fun length hreach => ?_
    cases (h.drops_zero hreach hd hwf).eq_infinite

/-! ## Shortest paths -/

open Classical in
/-- The length of a shortest path to a target, infinite if there is none. -/
noncomputable def Graph.shortest (g : Graph S) (id : NodeId) : Distance :=
  if h : ∃ length, g.ReachesTarget id length then .finite (Nat.find h) else .infinite

theorem Graph.isKnown_shortest (g : Graph S) (id : NodeId) : (g.shortest id).isKnown = true := by
  unfold shortest
  split <;> rfl

theorem Graph.shortest_eq_infinite (h : ∀ length, ¬ g.ReachesTarget id length) :
    g.shortest id = .infinite :=
  dif_neg fun ⟨length, hreach⟩ => h length hreach

/-- A path to a target is at least as long as a shortest one. -/
theorem Graph.exists_shortest {length : Nat} (h : g.ReachesTarget id length) :
    ∃ m ≤ length, g.shortest id = .finite m ∧ g.ReachesTarget id m := by
  classical
  have hsome : ∃ length, g.ReachesTarget id length := ⟨length, h⟩
  exact ⟨Nat.find hsome, Nat.find_min' hsome h, dif_pos hsome, Nat.find_spec hsome⟩

/-- What is at most the length of every path to a target is at most that of a shortest one. -/
theorem Graph.drops_shortest {d : Distance} (hknown : d.isKnown = true)
    (h : ∀ length, g.ReachesTarget id length → d.notAbove (.finite length) = true) :
    d.Drops 0 (g.shortest id) := by
  by_cases hsome : ∃ length, g.ReachesTarget id length
  · obtain ⟨length, hreach⟩ := hsome
    obtain ⟨m, -, heq, hm⟩ := Graph.exists_shortest hreach
    rw [heq, Distance.drops_zero_iff hknown rfl]
    exact h m hm
  · rw [Graph.shortest_eq_infinite fun length hreach => hsome ⟨length, hreach⟩]
    exact .infinite hknown

/-- **The lengths of shortest paths are a consistent bound**: a path from the end of an edge goes on
from its start. -/
theorem Graph.bounds_shortest (hwf : g.WellFormed) : g.Bounds g.shortest where
  wellFormed := hwf
  drops := by
    intro i j w hedge
    by_cases hsome : ∃ length, g.ReachesTarget j length
    · obtain ⟨length, hreach⟩ := hsome
      obtain ⟨m, -, hj, hm⟩ := Graph.exists_shortest hreach
      obtain ⟨l, hle, hi, -⟩ := Graph.exists_shortest (hm.step hedge)
      rw [hi, hj]
      exact .finite (by omega)
    · rw [Graph.shortest_eq_infinite fun length hreach => hsome ⟨length, hreach⟩]
      exact .infinite (g.isKnown_shortest i)
  target := by
    intro i n hn htarget
    obtain ⟨m, hle, heq, -⟩ := Graph.exists_shortest (.of_isTarget hn htarget)
    rw [heq, Nat.le_zero.1 hle]
    rfl

end

/-! ## Settling -/

namespace Generation

variable {gen gen' : Generation S P K}

/-- Writing distances leaves heuristics and providers as they are. -/
theorem DistanceWrites.map_heuristic_provider (h : DistanceWrites gen gen') (i : NodeId) :
    (gen'.searchNodes.get? i).map (fun k => (k.heuristic, k.provider)) =
      (gen.searchNodes.get? i).map fun k => (k.heuristic, k.provider) := by
  obtain ⟨hnone, hnone'⟩ | ⟨k, d, hk, hk', -⟩ := h.searchNode i
  · rw [hnone, hnone']
  · rw [hk, hk']
    rfl

/-- **Settling exhaustively is a correct backward search.** In a generation whose distances are unknown
and whose heuristics are at most the lengths of the paths below, it meets no fault and leaves each node
at the length of a shortest path to a target, or infinitely far away if there is none; nothing else
changes. -/
theorem settleExhaustive_exact (gen : Generation S P K) (run : SearchRun)
    (hwf : gen.graph.WellFormed)
    (hregistered : ∀ i n, gen.graph.get? i = some n → ∃ k, gen.searchNodes.get? i = some k)
    (hunknown : ∀ i k, gen.searchNodes.get? i = some k → k.distance = .unknown)
    (hbelow : ∀ i k length, gen.searchNodes.get? i = some k → k.heuristic.isKnown = true →
      gen.graph.ReachesTarget i length → k.heuristic.notAbove (.finite length) = true)
    (hreached : ∀ i ∈ run.reached, ∃ n, gen.graph.get? i = some n ∧ n.isTarget = true) :
    ∃ gen', gen.settleExhaustive run = .ok gen' ∧
      (∀ i n, gen.graph.get? i = some n →
        ∃ d, gen'.distance i = .ok d ∧ gen.graph.IsDistance i d) ∧
      gen'.graph = gen.graph ∧ gen'.prec = gen.prec ∧ gen'.provider = gen.provider ∧
      gen'.buckets = gen.buckets ∧
      ∀ i, (gen'.searchNodes.get? i).map (fun k => (k.heuristic, k.provider)) =
        (gen.searchNodes.get? i).map fun k => (k.heuristic, k.provider) := by
  have hbounded : gen.Bounded gen.graph.shortest :=
    { Graph.bounds_shortest hwf with
      registered := hregistered _ _
      heuristic := fun hk hknown =>
        Graph.drops_shortest hknown fun length => hbelow _ _ length hk hknown }
  have hvalue : ∀ {i d}, gen.distance i = .ok d →
      d = .unknown ∨ d = .infinite ∧ gen.graph.shortest i = .infinite := by
    intro i d hd
    obtain ⟨k, hk, rfl⟩ := distance_eq_ok.1 hd
    exact .inl (hunknown i k hk)
  obtain ⟨gen', hsettle, hmeasured, -⟩ := exists_settleExhaustive run hbounded hvalue hreached
  have hwrites := settleExhaustive_writes hsettle
  have hexact : gen'.Exact := hmeasured.exact (hwrites.graph ▸ hwf)
  refine ⟨gen', hsettle, fun i n hn => ?_, hwrites.graph, hwrites.prec, hwrites.provider,
    hwrites.buckets, hwrites.map_heuristic_provider⟩
  obtain ⟨d, hd, hknown⟩ := hmeasured.known (hwrites.graph.symm ▸ hn)
  exact ⟨d, hd, hwrites.graph ▸ hexact hd hknown⟩

/-- A target and a dead end below an init node that covers another one. -/
def halfDead : Generation Unit Unit Unit where
  graph := .after [.createInit () false true, .createSucc 0 () true true,
    .createSucc 0 () false true, .createInit () false true, .cover 3 0]
  prec := ()
  searchNodes := ⟨#[some { heuristic := .finite 1 }, some { heuristic := .zero },
    some { heuristic := .infinite, provider := some 7 }, some {}]⟩

/-- The heuristics are right: the init node is an edge away from the target, and nothing is below the
dead end. -/
theorem halfDead_below (i : NodeId) (k : SearchNode) (length : Nat)
    (hk : halfDead.searchNodes.get? i = some k) (hknown : k.heuristic.isKnown = true)
    (hreach : halfDead.graph.ReachesTarget i length) :
    k.heuristic.notAbove (.finite length) = true := by
  have hlt : i < 4 := NodeMap.lt_slotCount_of_get? hk
  interval_cases i
  · obtain rfl : { heuristic := .finite 1 } = k := Option.some.inj hk
    have hn : halfDead.graph.get? 0 = some ⟨(), 0, false, true, none, [1, 2], none, [3], false⟩ := by
      decide
    obtain ⟨j, w, rest, hedge, -, rfl⟩ := hreach.exists_edge hn rfl
    cases hedge with
    | tree => simp [Distance.notAbove]
    | covering ha hcovering =>
      rw [hn] at ha
      cases ha
      cases hcovering
  · obtain rfl : { heuristic := .zero } = k := Option.some.inj hk
    rfl
  · have hn : halfDead.graph.get? 2 = some ⟨(), 1, false, true, some 0, [], none, [], false⟩ := by
      decide
    obtain ⟨j, w, rest, hedge, -⟩ := hreach.exists_edge hn rfl
    exact absurd hedge (Graph.not_edge_of_leaf (Graph.wellFormed_after _) hn rfl rfl)
  · obtain rfl : {} = k := Option.some.inj hk
    cases hknown

/-- The covered node is as far away as its coverer. -/
theorem settleExhaustive_exact_halfDead :
    ∃ gen', halfDead.settleExhaustive
        { start := [0, 3], stop := .fullExploration, reached := [1] } = .ok gen' ∧
      gen'.distance 2 = .ok .infinite ∧ halfDead.graph.IsDistance 2 .infinite ∧
      gen'.distance 3 = .ok (.finite 1) ∧ halfDead.graph.IsDistance 3 (.finite 1) := by
  let run : SearchRun := { start := [0, 3], stop := .fullExploration, reached := [1] }
  have hvalues : (halfDead.settleExhaustive run).map
      (fun gen => (gen.distance 2, gen.distance 3)) = .ok (.ok .infinite, .ok (.finite 1)) := by
    decide +kernel
  have hlt : ∀ {i n}, halfDead.graph.get? i = some n → i < 4 := NodeMap.lt_slotCount_of_get?
  obtain ⟨gen', hsettle, hexact, -⟩ := settleExhaustive_exact halfDead run (Graph.wellFormed_after _)
    (fun i n hn => Option.isSome_iff_exists.1 <| by
      have := hlt hn
      interval_cases i <;> rfl)
    (fun i k hk => by
      have hlt : i < 4 := NodeMap.lt_slotCount_of_get? hk
      interval_cases i <;> (cases hk; rfl))
    halfDead_below (by
      rintro i hi
      obtain rfl := List.mem_singleton.1 hi
      exact ⟨_, rfl, rfl⟩)
  rw [hsettle] at hvalues
  obtain ⟨htwo, hthree⟩ := Prod.mk.inj (Except.ok.inj hvalues)
  have hdistance : ∀ i d, gen'.distance i = .ok d → (halfDead.graph.get? i).isSome = true →
      halfDead.graph.IsDistance i d := by
    intro i d hd hsome
    obtain ⟨n, hn⟩ := Option.isSome_iff_exists.1 hsome
    obtain ⟨d', hd', h⟩ := hexact i n hn
    rw [hd] at hd'
    cases hd'
    exact h
  exact ⟨gen', hsettle, htwo, hdistance 2 _ htwo rfl, hthree, hdistance 3 _ hthree rfl⟩

end Generation

end GuidedReach
