import GuidedReach.Proofs.Distance.Drops
import GuidedReach.Proofs.Generation.Exhaustive
import GuidedReach.Proofs.Generation.Tracked
import GuidedReach.Proofs.Graph.Paths

/-!
# Distances from an exhaustive search are exact

Distances are spread from the targets in the order of their length, so a node is settled at the
length of a shortest path. No write is refused on the way, as long as the heuristics are bounds that
drop along no edge by more than its weight.

* `Graph.Bounds` — bounds that are consistent.
* `Generation.Bounded` — heuristics that are consistent, as far as they are known.
* `Generation.Spreading` — what the backward search keeps true of its queue.
* `Generation.exists_spreadWithin` — the backward search meets no fault.
* `Generation.Measured` — distances that fit those of all neighbours.
* `Generation.settleExhaustive_measured` — an exhaustive settling leaves a measured generation.
* `Generation.exists_settleExhaustive` — it does so without a fault if the heuristics are consistent.
* `Generation.Measured.drops_zero`, `Generation.Measured.reachesTarget` — so finite distances are the
  lengths of shortest paths.
* `Generation.Measured.lt_length` — a finite distance is less than the number of nodes that have one.
-/

namespace GuidedReach

variable {S P K : Type}

/-- Bounds that drop along no edge by more than its weight, and are 0 at targets. -/
structure Graph.Bounds (bound : NodeId → Distance) (g : Graph S) : Prop where
  wellFormed : g.WellFormed
  drops : ∀ {i j w}, g.Edge i j w → (bound i).Drops w (bound j)
  target : ∀ {i n}, g.get? i = some n → n.isTarget = true → bound i = .zero

namespace Generation

variable {gen gen' : Generation S P K} {bound : NodeId → Distance} {queue : List (NodeId × Nat)}

/-! ## Bounds -/

/-- Every node has a search node, and known heuristics are below bounds that drop along no edge by
more than its weight. -/
structure Bounded (bound : NodeId → Distance) (gen : Generation S P K) : Prop
    extends gen.graph.Bounds bound where
  registered : ∀ {i n}, gen.graph.get? i = some n → ∃ k, gen.searchNodes.get? i = some k
  heuristic : ∀ {i k}, gen.searchNodes.get? i = some k → k.heuristic.isKnown = true →
    k.heuristic.Drops 0 (bound i)

theorem Bounded.of_distanceWrites (h : gen.Bounded bound) (hwrites : DistanceWrites gen gen') :
    gen'.Bounded bound where
  wellFormed := hwrites.graph ▸ h.wellFormed
  registered := by
    intro i n hn
    rw [hwrites.graph] at hn
    obtain ⟨k, hk⟩ := h.registered hn
    rcases hwrites.searchNode i with ⟨hnone, -⟩ | ⟨k', d, -, hk', -⟩
    · simp [hnone] at hk
    · exact ⟨_, hk'⟩
  heuristic := by
    intro i k hk hknown
    rcases hwrites.searchNode i with ⟨-, hnone⟩ | ⟨k', d, hk', hk'', -⟩
    · simp [hnone] at hk
    · rw [hk''] at hk
      obtain rfl := Option.some.inj hk
      exact h.heuristic (k := k') hk' hknown
  drops := by
    rw [hwrites.graph]
    exact h.drops
  target := by
    rw [hwrites.graph]
    exact h.target

/-- A distance that is not below its bound may be written. -/
theorem Bounded.exists_setDistance (h : gen.Bounded bound) {id : NodeId} {d : Distance}
    {n : Node S} {k : SearchNode} (hn : gen.graph.get? id = some n)
    (hk : gen.searchNodes.get? id = some k) (hunknown : k.distance = .unknown)
    (htarget : n.isTarget = true → d = .zero) (hd : (bound id).Drops 0 d) :
    ∃ gen', gen.setDistance id d = .ok gen' := by
  refine Generation.exists_setDistance hn hk hd.isKnown_right
    (.inr ⟨hunknown, htarget, fun hknown => ?_⟩)
  exact (Distance.drops_zero_iff hknown hd.isKnown_right).1 ((h.heuristic hk hknown).trans hd)

/-! ## Spreading from the targets -/

/-- A distance is that of a target, or continues the distance at the end of an edge. -/
def Witnessed (gen : Generation S P K) (id : NodeId) (d : Nat) : Prop :=
  (d = 0 ∧ ∃ n, gen.graph.get? id = some n ∧ n.isTarget = true) ∨
    ∃ j w e, gen.graph.Edge id j w ∧ gen.distance j = .ok (.finite e) ∧ d = e + w

theorem Witnessed.of_distanceWrites {id : NodeId} {d : Nat} (h : gen.Witnessed id d)
    (hwrites : DistanceWrites gen gen') : gen'.Witnessed id d := by
  rcases h with ⟨hd, n, hn, htarget⟩ | ⟨j, w, e, hedge, hj, hd⟩
  · exact .inl ⟨hd, n, hwrites.graph ▸ hn, htarget⟩
  · exact .inr ⟨j, w, e, hwrites.graph ▸ hedge, hwrites.distance_eq_ok hj rfl, hd⟩

/-- What the backward search keeps true: the queue is in order and spans two levels at most, nothing
settled is farther away than what waits, and whatever is right above a settled node is settled or
waits. -/
structure Spreading (bound : NodeId → Distance) (queue : List (NodeId × Nat))
    (gen : Generation S P K) : Prop where
  sorted : queue.Pairwise fun a b => a.2 ≤ b.2
  narrow : ∀ a ∈ queue, ∀ b ∈ queue, b.2 ≤ a.2 + 1
  waiting : ∀ {i e}, (i, e) ∈ queue → (∃ n, gen.graph.get? i = some n) ∧
    (bound i).Drops 0 (.finite e) ∧ gen.Witnessed i e
  value : ∀ {i d}, gen.distance i = .ok d →
    d = .unknown ∨ (d = .infinite ∧ bound i = .infinite) ∨ ∃ m, d = .finite m
  nearer : ∀ {i m}, gen.distance i = .ok (.finite m) → ∀ a ∈ queue, m ≤ a.2
  witnessed : ∀ {i m}, gen.distance i = .ok (.finite m) → gen.Witnessed i m
  bounded : ∀ {i m}, gen.distance i = .ok (.finite m) → (bound i).Drops 0 (.finite m)
  target : ∀ {i n}, gen.graph.get? i = some n → n.isTarget = true →
    gen.distance i = .ok .zero ∨ (i, 0) ∈ queue
  above : ∀ {i m j w}, gen.distance i = .ok (.finite m) → gen.graph.Edge j i w →
    ∃ e ≤ m + w, gen.distance j = .ok (.finite e) ∨ (j, e) ∈ queue

/-- An entry for a settled node may be passed over. -/
theorem Spreading.skip {id : NodeId} {e : Nat} (h : gen.Spreading bound ((id, e) :: queue))
    (hsettled : gen.settled id = true) : gen.Spreading bound queue := by
  obtain ⟨d, hd, hknown⟩ := settled_iff.1 hsettled
  obtain ⟨-, hbound, -⟩ := h.waiting List.mem_cons_self
  -- the bound of the node is finite, so its distance is
  obtain ⟨m, rfl⟩ : ∃ m, d = .finite m := by
    rcases h.value hd with rfl | ⟨rfl, hinfinite⟩ | hfinite
    · simp [Distance.isKnown] at hknown
    · rw [hinfinite] at hbound
      exact absurd hbound.eq_infinite (by simp)
    · exact hfinite
  have hle : m ≤ e := h.nearer hd _ List.mem_cons_self
  constructor
  · exact (List.pairwise_cons.1 h.sorted).2
  · exact fun a ha b hb => h.narrow a (List.mem_cons_of_mem _ ha) b (List.mem_cons_of_mem _ hb)
  · exact fun hi => h.waiting (List.mem_cons_of_mem _ hi)
  · exact h.value
  · exact fun hi a ha => h.nearer hi a (List.mem_cons_of_mem _ ha)
  · exact h.witnessed
  · exact h.bounded
  · -- target
    intro i n hn htarget
    rcases h.target hn htarget with hzero | hwaits
    · exact .inl hzero
    · rcases List.mem_cons.1 hwaits with heq | hwaits
      · cases heq
        obtain rfl : m = 0 := by omega
        exact .inl hd
      · exact .inr hwaits
  · -- above
    intro i l j w hi hedge
    obtain ⟨f, hf, hj | hj⟩ := h.above hi hedge
    · exact ⟨f, hf, .inl hj⟩
    · rcases List.mem_cons.1 hj with heq | hj
      · cases heq
        exact ⟨m, by omega, .inl hd⟩
      · exact ⟨f, hf, .inr hj⟩

/-- What a newly settled node puts into the queue, and where. -/
def widen (n : Node S) (e : Nat) (queue : List (NodeId × Nat)) : List (NodeId × Nat) :=
  n.covered.reverse.map (·, e) ++ queue ++ n.parent.toList.map (·, e + 1)

theorem mem_widen {n : Node S} {e : Nat} {a : NodeId × Nat} :
    a ∈ widen n e queue ↔
      (a.1 ∈ n.covered ∧ a.2 = e) ∨ a ∈ queue ∨ (n.parent = some a.1 ∧ a.2 = e + 1) := by
  obtain ⟨i, f⟩ := a
  have hcovered : (i, f) ∈ n.covered.reverse.map (·, e) ↔ i ∈ n.covered ∧ f = e := by
    simp only [List.mem_map, List.mem_reverse, Prod.mk.injEq]
    constructor
    · rintro ⟨x, hx, rfl, rfl⟩
      exact ⟨hx, rfl⟩
    · rintro ⟨hi, rfl⟩
      exact ⟨i, hi, rfl, rfl⟩
  have hparent : (i, f) ∈ n.parent.toList.map (·, e + 1) ↔ n.parent = some i ∧ f = e + 1 := by
    cases n.parent with
    | none => simp
    | some p => simp [eq_comm]
  rw [widen, List.mem_append, List.mem_append, hcovered, hparent, or_assoc]

/-- The widened queue spans two levels at most. -/
theorem Spreading.range_widen {id : NodeId} {e : Nat} (h : gen.Spreading bound ((id, e) :: queue))
    {n : Node S} {a : NodeId × Nat} (ha : a ∈ widen n e queue) : e ≤ a.2 ∧ a.2 ≤ e + 1 := by
  rcases mem_widen.1 ha with ⟨-, ha⟩ | ha | ⟨-, ha⟩
  · omega
  · exact ⟨(List.pairwise_cons.1 h.sorted).1 a ha,
      h.narrow _ List.mem_cons_self a (List.mem_cons_of_mem _ ha)⟩
  · omega

/-- The widened queue is in order. -/
theorem Spreading.sorted_widen {id : NodeId} {e : Nat} (h : gen.Spreading bound ((id, e) :: queue))
    (n : Node S) : (widen n e queue).Pairwise fun a b => a.2 ≤ b.2 := by
  obtain ⟨hlow, hsorted⟩ := List.pairwise_cons.1 h.sorted
  rw [widen, List.pairwise_append, List.pairwise_append]
  refine ⟨⟨?_, hsorted, ?_⟩, ?_, ?_⟩
  · exact List.pairwise_map.2 (List.pairwise_of_forall fun _ _ => Nat.le_refl _)
  · intro a ha b hb
    obtain ⟨x, -, rfl⟩ := List.mem_map.1 ha
    exact hlow b hb
  · exact List.pairwise_map.2 (List.pairwise_of_forall fun _ _ => Nat.le_refl _)
  · intro a ha b hb
    obtain ⟨x, -, rfl⟩ := List.mem_map.1 hb
    exact (h.range_widen (n := n) (List.mem_append_left _ ha)).2

/-- Whatever is right above a settled node waits after it was settled. -/
theorem mem_widen_of_edge (hwf : gen.graph.WellFormed) {id j w : Nat} {n : Node S} {e : Nat}
    (hn : gen.graph.get? id = some n) (hedge : gen.graph.Edge j id w) : (j, e + w) ∈ widen n e queue := by
  cases hedge with
  | tree hc hparent =>
    obtain rfl := Option.some.inj (hn.symm.trans hc)
    exact mem_widen.2 (.inr (.inr ⟨hparent, rfl⟩))
  | covering ha hcovering =>
    exact mem_widen.2 (.inl ⟨(hwf.mem_covered_iff hn).2 ⟨_, ha, hcovering⟩, rfl⟩)

/-- Settling the first node of the queue lets its neighbours above wait. -/
theorem Spreading.settle (hb : gen.graph.Bounds bound) {id : NodeId} {e : Nat}
    (h : gen.Spreading bound ((id, e) :: queue)) (hopen : gen.distance id = .ok .unknown)
    {n : Node S} (hn : gen.graph.get? id = some n)
    (hset : gen.setDistance id (.finite e) = .ok gen') :
    gen'.Spreading bound (widen n e queue) := by
  have hwrite := DistanceWrites.of_setDistance hset
  have hself : gen'.distance id = .ok (.finite e) := (distance_self_of_setDistance hset).1
  obtain ⟨-, hbound, hwitnessed⟩ := h.waiting List.mem_cons_self
  constructor
  · exact h.sorted_widen n
  · -- narrow
    intro a ha b hb
    have := h.range_widen ha
    have := h.range_widen hb
    omega
  · -- waiting
    intro i f hi
    rw [hwrite.graph]
    rcases mem_widen.1 hi with ⟨hcovered, rfl⟩ | hi | ⟨hparent, rfl⟩
    · obtain ⟨a, ha, hcovering⟩ := hb.wellFormed.covered_link hn hcovered
      have hedge : gen.graph.Edge i id 0 := .covering ha hcovering
      exact ⟨⟨a, ha⟩, (hb.drops hedge).trans hbound,
        .inr ⟨id, 0, _, hwrite.graph ▸ hedge, hself, rfl⟩⟩
    · obtain ⟨hgraph, hdrops, hw⟩ := h.waiting (List.mem_cons_of_mem _ hi)
      exact ⟨hgraph, hdrops, hw.of_distanceWrites hwrite⟩
    · obtain ⟨m, hm, -⟩ := hb.wellFormed.exists_parent hn hparent
      have hedge : gen.graph.Edge i id 1 := .tree hn hparent
      refine ⟨⟨m, hm⟩, ?_, .inr ⟨id, 1, e, hwrite.graph ▸ hedge, hself, rfl⟩⟩
      obtain ⟨b, hb', hle⟩ := ((hb.drops hedge).trans hbound).exists_finite
      rw [hb']
      exact .finite hle
  · -- value
    intro i d hi
    rcases distance_of_setDistance hset hi with ⟨rfl, rfl⟩ | hi
    · exact .inr (.inr ⟨e, rfl⟩)
    · exact h.value hi
  · -- nearer
    intro i m hi a ha
    have hle := (h.range_widen ha).1
    rcases distance_of_setDistance hset hi with ⟨-, heq⟩ | hi
    · cases heq
      exact hle
    · exact (h.nearer hi _ List.mem_cons_self).trans hle
  · -- witnessed
    intro i m hi
    rcases distance_of_setDistance hset hi with ⟨rfl, heq⟩ | hi
    · cases heq
      exact hwitnessed.of_distanceWrites hwrite
    · exact (h.witnessed hi).of_distanceWrites hwrite
  · -- bounded
    intro i m hi
    rcases distance_of_setDistance hset hi with ⟨rfl, heq⟩ | hi
    · rw [heq]
      exact hbound
    · exact h.bounded hi
  · -- target
    intro i m hm htarget
    rw [hwrite.graph] at hm
    rcases h.target hm htarget with hzero | hwaits
    · exact .inl (hwrite.distance_eq_ok hzero rfl)
    · rcases List.mem_cons.1 hwaits with heq | hwaits
      · cases heq
        exact .inl hself
      · exact .inr (mem_widen.2 (.inr (.inl hwaits)))
  · -- above
    intro i m j w hi hedge
    rw [hwrite.graph] at hedge
    rcases distance_of_setDistance hset hi with ⟨rfl, heq⟩ | hi
    · obtain rfl : m = e := by simpa using heq
      exact ⟨m + w, Nat.le_refl _, .inr (mem_widen_of_edge hb.wellFormed hn hedge)⟩
    · obtain ⟨f, hf, hj | hj⟩ := h.above hi hedge
      · exact ⟨f, hf, .inl (hwrite.distance_eq_ok hj rfl)⟩
      · rcases List.mem_cons.1 hj with heq | hj
        · cases heq
          exact ⟨e, hf, .inl hself⟩
        · exact ⟨f, hf, .inr (mem_widen.2 (.inr (.inl hj)))⟩

theorem isSettled_of_distance {id : NodeId} {d : Distance} (h : gen.distance id = .ok d) :
    gen.isSettled id = .ok d.isKnown := by
  simp [isSettled, h, bind, Except.bind, pure, Except.pure]

theorem Bounded.exists_distance (h : gen.Bounded bound) {id : NodeId} {n : Node S}
    (hn : gen.graph.get? id = some n) : ∃ d, gen.distance id = .ok d := by
  obtain ⟨k, hk⟩ := h.registered hn
  exact ⟨_, distance_eq_ok.2 ⟨k, hk, rfl⟩⟩

/-- **The backward search meets no fault** and empties its queue, by induction on the steps. -/
theorem exists_spreadWithin {steps : Nat} (hb : gen.Bounded bound)
    (h : gen.Spreading bound queue)
    (hsteps : queue.length + gen.graph.weightOutside gen.settled ≤ steps) :
    ∃ gen', gen.spreadWithin steps queue = .ok gen' ∧ DistanceWrites gen gen' ∧
      gen'.Spreading bound [] := by
  induction steps generalizing gen queue with
  | zero =>
    obtain rfl : queue = [] := List.length_eq_zero_iff.1 (by omega)
    exact ⟨gen, rfl, .refl _, h⟩
  | succ steps ih =>
    cases queue with
    | nil => exact ⟨gen, rfl, .refl _, h⟩
    | cons entry rest =>
      obtain ⟨id, e⟩ := entry
      obtain ⟨⟨n, hn⟩, hbound, -⟩ := h.waiting List.mem_cons_self
      obtain ⟨d, hd⟩ := hb.exists_distance hn
      have hsettled := isSettled_of_distance hd
      rw [List.length_cons] at hsteps
      simp only [spreadWithin, bind_eq_ok]
      cases hknown : d.isKnown with
      | true =>
        obtain ⟨gen', hrun, hwrites, hdone⟩ :=
          ih hb (h.skip (settled_iff.2 ⟨d, hd, hknown⟩)) (by omega)
        exact ⟨gen', ⟨true, hknown ▸ hsettled, hrun⟩, hwrites, hdone⟩
      | false =>
        obtain rfl := Distance.eq_unknown_of_not_isKnown hknown
        obtain ⟨k, hk, hunknown⟩ := distance_eq_ok.1 hd
        -- a target that is still open waits with 0, and nothing waits with less
        have htarget : n.isTarget = true → Distance.finite e = .zero := by
          intro ht
          rcases h.target hn ht with hzero | hwaits
          · rw [hd] at hzero
            exact absurd hzero (by simp [Distance.zero])
          · rcases List.mem_cons.1 hwaits with heq | hwaits
            · cases heq
              rfl
            · have hle : e ≤ 0 := (List.pairwise_cons.1 h.sorted).1 _ hwaits
              rw [Nat.le_zero.1 hle]
              rfl
        obtain ⟨mid, hset⟩ := hb.exists_setDistance hn hk hunknown htarget hbound
        have hwrite := DistanceWrites.of_setDistance hset
        have hpaid := weightOutside_of_setDistance hn (isSettled_eq_ok (hknown ▸ hsettled)) hset
        have habove := Graph.length_above_le n
        obtain ⟨gen', hrun, hwrites, hdone⟩ := ih (hb.of_distanceWrites hwrite)
          (h.settle hb.toBounds hd hn hset) (by
            simp only [widen, List.length_append, List.length_map, List.length_reverse]
            omega)
        have hnode : mid.graph.node id = .ok n := by
          rw [hwrite.graph]
          exact Graph.node_eq_ok.2 hn
        refine ⟨gen', ⟨false, hknown ▸ hsettled, ?_⟩, hwrite.trans hwrites, hdone⟩
        simp only [Bool.false_eq_true, if_false, bind_eq_ok]
        exact ⟨mid, hset, n, hnode, hrun⟩

/-- The backward search keeps its queue in that order until it is empty, by induction on the
steps. -/
theorem Spreading.of_spreadWithin {steps : Nat} (hb : gen.graph.Bounds bound)
    (h : gen.Spreading bound queue)
    (hsteps : queue.length + gen.graph.weightOutside gen.settled ≤ steps)
    (hrun : gen.spreadWithin steps queue = .ok gen') : gen'.Spreading bound [] := by
  induction steps generalizing gen queue with
  | zero =>
    obtain rfl : queue = [] := List.length_eq_zero_iff.1 (by omega)
    obtain rfl : gen = gen' := by simpa [spreadWithin] using hrun
    exact h
  | succ steps ih =>
    cases queue with
    | nil =>
      obtain rfl : gen = gen' := by simpa [spreadWithin] using hrun
      exact h
    | cons entry rest =>
      obtain ⟨id, e⟩ := entry
      rw [List.length_cons] at hsteps
      unfold spreadWithin at hrun
      rw [bind_eq_ok] at hrun
      obtain ⟨old, hold, hrun⟩ := hrun
      have hsettled : gen.settled id = old := isSettled_eq_ok hold
      split at hrun
      · rename_i hknown
        exact ih hb (h.skip (hsettled.trans hknown)) (by omega) hrun
      · rename_i hopen
        simp only [bind_eq_ok, Graph.node_eq_ok] at hrun
        obtain ⟨mid, hset, n, hn, hrun⟩ := hrun
        have hwrite := DistanceWrites.of_setDistance hset
        have hunknown : gen.distance id = .ok .unknown := by
          simp only [isSettled, bind_eq_ok, pure_eq_ok] at hold
          obtain ⟨d, hd, rfl⟩ := hold
          have hunknown : d = .unknown := Distance.eq_unknown_of_not_isKnown (by simpa using hopen)
          rw [hd, hunknown]
        rw [hwrite.graph] at hn
        have hpaid := weightOutside_of_setDistance hn (by simp [hsettled, hopen]) hset
        have habove := Graph.length_above_le n
        refine ih (hwrite.graph ▸ hb) (h.settle hb hunknown hn hset) ?_ hrun
        simp only [widen, List.length_append, List.length_map, List.length_reverse]
        omega

/-! ## Measured generations -/

/-- Every node has a known distance, distances drop along no edge by more than its weight, and each
finite one is that of a target or continues the distance at the end of an edge. -/
structure Measured (gen : Generation S P K) : Prop where
  known : ∀ {i n}, gen.graph.get? i = some n → ∃ d, gen.distance i = .ok d ∧ d.isKnown = true
  target : ∀ {i n}, gen.graph.get? i = some n → n.isTarget = true → gen.distance i = .ok .zero
  drops : ∀ {i j w d e}, gen.graph.Edge i j w → gen.distance i = .ok d → gen.distance j = .ok e →
    d.Drops w e
  witnessed : ∀ {i m}, gen.distance i = .ok (.finite m) → gen.Witnessed i m

/-- Only graph and distances matter. -/
theorem Measured.congr (h : gen.Measured) (hgraph : gen'.graph = gen.graph)
    (hdistance : ∀ i, gen'.distance i = gen.distance i) : gen'.Measured := by
  constructor
  all_goals simp only [hgraph, hdistance, Witnessed]
  · exact h.known
  · exact h.target
  · exact h.drops
  · exact h.witnessed

/-- **Once the backward search has emptied its queue**, and what it did not meet is infinitely far away,
distances are measured. -/
theorem Spreading.measured (h : gen.Spreading bound []) (hwf : gen.graph.WellFormed)
    {ids : List NodeId}
    (hids : ∀ i, i ∈ ids ↔ (∃ n, gen.graph.get? i = some n) ∧ gen.settled i = false)
    (hfill : ids.foldlM (fun gen id => gen.setDistance id .infinite) gen = .ok gen') :
    gen'.Measured ∧ ∀ {i m}, gen'.distance i = .ok (.finite m) → gen.distance i = .ok (.finite m) := by
  obtain ⟨hwrites, hall, hold⟩ := foldlM_setInfinite_ok hfill
  have hfinite : ∀ {i m}, gen'.distance i = .ok (.finite m) → gen.distance i = .ok (.finite m) := by
    intro i m hi
    rcases hold hi with hi | ⟨heq, -⟩
    · exact hi
    · cases heq
  have hknown : ∀ {i n}, gen'.graph.get? i = some n →
      ∃ d, gen'.distance i = .ok d ∧ d.isKnown = true := by
    intro i n hn
    cases hsettled : gen.settled i with
    | true => exact settled_iff.1 (hwrites.settled hsettled)
    | false => exact ⟨.infinite, hall i ((hids i).2 ⟨⟨n, hwrites.graph ▸ hn⟩, hsettled⟩), rfl⟩
  refine ⟨⟨hknown, ?_, ?_, ?_⟩, hfinite⟩
  · -- target
    intro i n hn htarget
    rcases h.target (hwrites.graph ▸ hn) htarget with hzero | hwaits
    · exact hwrites.distance_eq_ok hzero rfl
    · cases hwaits
  · -- drops
    intro i j w d e hedge hd he
    obtain ⟨⟨n, hn⟩, m, hm⟩ := hedge.exists_nodes (hwrites.graph ▸ hwf)
    obtain ⟨d', hd', hdknown⟩ := hknown hn
    obtain ⟨e', he', heknown⟩ := hknown hm
    obtain rfl : d' = d := by simpa [hd] using hd'.symm
    obtain rfl : e' = e := by simpa [he] using he'.symm
    cases e' with
    | unknown => cases heknown
    | infinite => exact .infinite hdknown
    | finite l =>
      obtain ⟨f, hf, hi | hwaits⟩ := h.above (hfinite he) (hwrites.graph ▸ hedge)
      · obtain rfl : d' = .finite f := by simpa [hd] using hwrites.distance_eq_ok hi rfl
        exact .finite hf
      · cases hwaits
  · -- witnessed
    exact fun hi => (h.witnessed (hfinite hi)).of_distanceWrites hwrites

/-- What the backward search did not meet may be put infinitely far away. -/
theorem exists_foldlM_setInfinite {ids : List NodeId} (hb : gen.Bounded bound)
    (hids : ∀ i ∈ ids, (∃ n, gen.graph.get? i = some n ∧ n.isTarget = false) ∧
      ∀ m, gen.distance i ≠ .ok (.finite m)) :
    ∃ gen', ids.foldlM (fun gen id => gen.setDistance id .infinite) gen = .ok gen' := by
  induction ids generalizing gen with
  | nil => exact ⟨gen, rfl⟩
  | cons id ids ih =>
    obtain ⟨⟨n, hn, htarget⟩, hfinite⟩ := hids id List.mem_cons_self
    obtain ⟨k, hk⟩ := hb.registered hn
    obtain ⟨mid, hset⟩ : ∃ mid, gen.setDistance id .infinite = .ok mid := by
      apply Generation.exists_setDistance hn hk rfl
      cases hd : k.distance with
      | finite m => exact absurd (distance_eq_ok.2 ⟨k, hk, hd⟩) (hfinite m)
      | infinite => exact .inl rfl
      | unknown =>
        refine .inr ⟨rfl, by simp [htarget], fun hknown => ?_⟩
        exact (Distance.drops_zero_iff hknown rfl).1 (.infinite hknown)
    have hwrite := DistanceWrites.of_setDistance hset
    obtain ⟨gen', hrest⟩ := ih (hb.of_distanceWrites hwrite) fun i hi => by
      rw [hwrite.graph]
      obtain ⟨hgraph, hold⟩ := hids i (List.mem_cons_of_mem _ hi)
      refine ⟨hgraph, fun m hm => ?_⟩
      rcases distance_of_setDistance hset hm with ⟨-, heq⟩ | hm
      · cases heq
      · exact hold m hm
    refine ⟨gen', ?_⟩
    rw [List.foldlM_cons, bind_eq_ok]
    exact ⟨mid, hset, hrest⟩

/-- The backward search starts with the targets. -/
theorem Spreading.start (hb : gen.graph.Bounds bound)
    (hvalue : ∀ {i d}, gen.distance i = .ok d →
      d = .unknown ∨ d = .infinite ∧ bound i = .infinite)
    (hqueue : ∀ entry, entry ∈ queue ↔
      entry.2 = 0 ∧ ∃ n, gen.graph.get? entry.1 = some n ∧ n.isTarget = true) :
    gen.Spreading bound queue := by
  have hfinite : ∀ {i m}, gen.distance i ≠ .ok (.finite m) := by
    intro i m hi
    rcases hvalue hi with h | ⟨h, -⟩ <;> cases h
  have hzero : ∀ a ∈ queue, a.2 = 0 := fun a ha => ((hqueue a).1 ha).1
  constructor
  · refine List.Pairwise.imp_of_mem (R := fun _ _ => True) ?_ (List.pairwise_of_forall fun _ _ => trivial)
    intro a b ha hb _
    rw [hzero a ha]
    exact Nat.zero_le _
  · intro a ha b hb
    rw [hzero b hb]
    exact Nat.zero_le _
  · intro i e hi
    obtain ⟨he, n, hn, htarget⟩ := (hqueue _).1 hi
    refine ⟨⟨n, hn⟩, ?_, .inl ⟨he, n, hn, htarget⟩⟩
    rw [hb.target hn htarget]
    exact .zero rfl
  · exact fun hi => (hvalue hi).imp_right .inl
  · exact fun hi => absurd hi hfinite
  · exact fun hi => absurd hi hfinite
  · exact fun hi => absurd hi hfinite
  · exact fun hn htarget => .inr ((hqueue _).2 ⟨rfl, _, hn, htarget⟩)
  · exact fun hi => absurd hi hfinite

/-- The nodes that are left over are those that are not settled. -/
theorem Bounded.unsettled_ids (h : gen.Bounded bound) :
    gen.unsettled gen.graph.ids = .ok (gen.graph.ids.filter fun i => !gen.settled i) := by
  refine filterM_of_forall fun i hi => ?_
  obtain ⟨n, hn⟩ := Graph.mem_ids.1 hi
  obtain ⟨d, hd⟩ := h.exists_distance hn
  have hsettled := isSettled_of_distance hd
  rw [isSettled_eq_ok hsettled, hsettled]
  rfl

/-- **Distances from an exhaustive search are measured**, as far as bounds tell that what is infinitely
far away already is. -/
theorem settleExhaustive_measured {run : SearchRun} (hb : gen.graph.Bounds bound)
    (hvalue : ∀ {i d}, gen.distance i = .ok d →
      d = .unknown ∨ d = .infinite ∧ bound i = .infinite)
    (h : gen.settleExhaustive run = .ok gen') : gen'.Measured := by
  obtain ⟨mid, queue, ids, hqueue, hspread, hids, hfill⟩ := settleExhaustive_halves h
  have hsteps : queue.length + gen.graph.weightOutside gen.settled ≤
      queue.length + gen.graph.linkCount :=
    Nat.add_le_add_left (gen.graph.weightOutside_le_linkCount _) _
  have hgraph : mid.graph = gen.graph := (spreadWithin_ok hsteps hspread).1.graph
  have hdone : mid.Spreading bound [] := .of_spreadWithin hb (.start hb hvalue hqueue) hsteps hspread
  exact (hdone.measured (hgraph ▸ hb.wellFormed) hids hfill).1

/-- **An exhaustive settling meets no fault**, leaves measured distances, and none of them is below its
bound. -/
theorem exists_settleExhaustive (run : SearchRun) (hb : gen.Bounded bound)
    (hvalue : ∀ {i d}, gen.distance i = .ok d →
      d = .unknown ∨ d = .infinite ∧ bound i = .infinite)
    (hreached : ∀ i ∈ run.reached, ∃ n, gen.graph.get? i = some n ∧ n.isTarget = true) :
    ∃ gen', gen.settleExhaustive run = .ok gen' ∧ gen'.Measured ∧
      ∀ {i d}, gen'.distance i = .ok (.finite d) → (bound i).Drops 0 (.finite d) := by
  let targets := gen.graph.ids.filter (gen.graph.test (·.isTarget))
  have hsteps : (targets.map (·, 0)).length + gen.graph.weightOutside gen.settled ≤
      targets.length + gen.graph.linkCount := by
    rw [List.length_map]
    exact Nat.add_le_add_left (gen.graph.weightOutside_le_linkCount _) _
  obtain ⟨mid, hspread, hmid, hdone⟩ :=
    exists_spreadWithin hb (.start hb.toBounds hvalue fun _ => mem_targets_zero) hsteps
  have hbmid := hb.of_distanceWrites hmid
  have hids : ∀ i, i ∈ mid.graph.ids.filter (fun i => !mid.settled i) ↔
      (∃ n, mid.graph.get? i = some n) ∧ mid.settled i = false := by
    intro i
    rw [List.mem_filter, Graph.mem_ids, Bool.not_eq_true']
  have hleft : ∀ i ∈ mid.graph.ids.filter fun i => !mid.settled i,
      (∃ n, mid.graph.get? i = some n ∧ n.isTarget = false) ∧
        ∀ m, mid.distance i ≠ .ok (.finite m) := by
    intro i hi
    obtain ⟨⟨n, hn⟩, hunsettled⟩ := (hids i).1 hi
    have hopen : ∀ m, mid.distance i ≠ .ok (.finite m) := fun m hm => by
      rw [settled_iff.2 ⟨_, hm, rfl⟩] at hunsettled
      cases hunsettled
    refine ⟨⟨n, hn, ?_⟩, hopen⟩
    cases htarget : n.isTarget with
    | false => rfl
    | true =>
      rcases hdone.target hn htarget with hzero | hwaits
      · exact absurd hzero (hopen 0)
      · cases hwaits
  obtain ⟨gen', hfill⟩ := exists_foldlM_setInfinite hbmid hleft
  obtain ⟨hmeasured, hfinite⟩ := hdone.measured hbmid.wellFormed hids hfill
  refine ⟨gen', ?_, hmeasured, fun hi => hdone.bounded (hfinite hi)⟩
  simp only [settleExhaustive, spreadFromTargets, bind_eq_ok]
  refine ⟨(), forM_eq_ok.2 fun i hi => ?_, mid, hspread, _, hbmid.unsettled_ids, hfill⟩
  obtain ⟨n, hn, htarget⟩ := hreached i hi
  simp only [bind_eq_ok, Graph.node_eq_ok, demand_eq_ok]
  exact ⟨n, hn, htarget⟩

/-! ## Shortest paths -/

/-- A measured distance is at most the length of any path to a target. -/
theorem Measured.drops_zero (h : gen.Measured) {i length : Nat} {d : Distance}
    (hreach : gen.graph.ReachesTarget i length) (hd : gen.distance i = .ok d)
    (hwf : gen.graph.WellFormed) : d.Drops length .zero := by
  obtain ⟨target, n, hpath, hn, htarget⟩ := hreach
  induction hpath generalizing d with
  | refl =>
    rw [h.target hn htarget] at hd
    cases hd
    exact .zero rfl
  | step hedge _ ih =>
    obtain ⟨-, m, hm⟩ := hedge.exists_nodes hwf
    obtain ⟨e, he, -⟩ := h.known hm
    exact (h.drops hedge hd he).trans (ih he hn)

/-- An uncovered node at a finite distance is a target, or one of its children is one edge nearer. -/
theorem Measured.witnessed_of_uncovered (h : gen.Measured) {i m : Nat} {n : Node S}
    (hn : gen.graph.get? i = some n) (hfree : n.covering = none)
    (hd : gen.distance i = .ok (.finite m)) :
    (m = 0 ∧ n.isTarget = true) ∨
      ∃ j e, gen.graph.Edge i j 1 ∧ gen.distance j = .ok (.finite e) ∧ m = e + 1 := by
  rcases h.witnessed hd with ⟨rfl, n', hn', htarget⟩ | ⟨j, w, e, hedge, hj, rfl⟩
  · rw [hn] at hn'
    cases hn'
    exact .inl ⟨rfl, htarget⟩
  · cases hedge with
    | tree hc hparent => exact .inr ⟨j, e, .tree hc hparent, hj, rfl⟩
    | covering hn' hcovering =>
      rw [hn] at hn'
      cases hn'
      rw [hfree] at hcovering
      cases hcovering

/-- From a node at a finite distance a path leads to one that is one edge nearer. A covering edge has
no length, but the next edge has, since a coverer is not covered itself. -/
theorem Measured.exists_nearer (h : gen.Measured) (hwf : gen.graph.WellFormed) {i m : Nat}
    (hd : gen.distance i = .ok (.finite (m + 1))) :
    ∃ j, gen.graph.Path i j 1 ∧ gen.distance j = .ok (.finite m) := by
  rcases h.witnessed hd with ⟨hzero, -⟩ | ⟨j, w, e, hedge, hj, hsum⟩
  · cases hzero
  · cases hedge with
    | tree hc hparent =>
      cases hsum
      exact ⟨j, .step (.tree hc hparent) (.refl j), hj⟩
    | covering ha hcovering =>
      obtain ⟨-, b, hb, hfree, -⟩ := hwf.covering_link ha hcovering
      cases hsum
      rcases h.witnessed_of_uncovered hb hfree hj with ⟨hzero, -⟩ | ⟨k, f, hedge', hk, hsum⟩
      · cases hzero
      · cases hsum
        exact ⟨k, .step (.covering ha hcovering) (.step hedge' (.refl k)), hk⟩

/-- A measured distance that is finite is the length of a path to a target, by induction on it. -/
theorem Measured.reachesTarget (h : gen.Measured) (hwf : gen.graph.WellFormed) {i m : Nat}
    (hd : gen.distance i = .ok (.finite m)) : gen.graph.ReachesTarget i m := by
  induction m generalizing i with
  | zero =>
    rcases h.witnessed hd with ⟨-, n, hn, htarget⟩ | ⟨j, w, e, hedge, hj, hsum⟩
    · exact ⟨i, n, .refl i, hn, htarget⟩
    · cases hedge with
      | tree => cases hsum
      | covering ha hcovering =>
        obtain ⟨-, b, hb, hfree, -⟩ := hwf.covering_link ha hcovering
        cases hsum
        rcases h.witnessed_of_uncovered hb hfree hj with ⟨-, htarget⟩ | ⟨k, f, -, -, hsum⟩
        · exact ⟨j, b, .step (.covering ha hcovering) (.refl j), hb, htarget⟩
        · cases hsum
  | succ m ih =>
    obtain ⟨j, hpath, hj⟩ := h.exists_nearer hwf hd
    obtain ⟨target, n, hrest, hn, htarget⟩ := ih hj
    rw [Nat.add_comm]
    exact ⟨target, n, hpath.trans hrest, hn, htarget⟩

/-- If there are nodes at every distance up to a finite one, a list that holds all nodes at finite
distances is longer than that. -/
theorem lt_length_of_levels {seen : List NodeId} {m : Nat}
    (hlevel : ∀ k ≤ m, ∃ j, gen.distance j = .ok (.finite k))
    (hseen : ∀ {i k}, gen.distance i = .ok (.finite k) → i ∈ seen) : m < seen.length := by
  choose! node hnode using hlevel
  have hnode' : ∀ k ∈ List.range (m + 1), gen.distance (node k) = .ok (.finite k) :=
    fun k hk => hnode k (Nat.le_of_lt_succ (List.mem_range.1 hk))
  have hnodup : ((List.range (m + 1)).map node).Nodup := by
    refine List.Nodup.map_on (fun k hk l hl heq => ?_) List.nodup_range
    have hsame := hnode' k hk
    rw [heq, hnode' l hl] at hsame
    cases hsame
    rfl
  have hsub : (List.range (m + 1)).map node ⊆ seen := by
    intro j hj
    obtain ⟨k, hk, rfl⟩ := List.mem_map.1 hj
    exact hseen (hnode' k hk)
  have hle := (hnodup.subperm hsub).length_le
  rw [List.length_map, List.length_range] at hle
  exact hle

/-- There are nodes at every distance up to a finite one. -/
theorem Measured.lt_length (h : gen.Measured) (hwf : gen.graph.WellFormed) {seen : List NodeId}
    (hseen : ∀ {i m}, gen.distance i = .ok (.finite m) → i ∈ seen) {i m : Nat}
    (hd : gen.distance i = .ok (.finite m)) : m < seen.length := by
  refine lt_length_of_levels (fun k hk => ?_) hseen
  induction hk using Nat.decreasingInduction with
  | self => exact ⟨i, hd⟩
  | of_succ k _ ih =>
    obtain ⟨j, hj⟩ := ih
    obtain ⟨l, -, hl⟩ := h.exists_nearer hwf hj
    exact ⟨l, hl⟩

end Generation

end GuidedReach
