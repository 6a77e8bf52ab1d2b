import GuidedReach.Proofs.Exploration.Keeps

/-!
# What the values of a generation mean

No target can be reached from what a node stands for, once its heuristic or its distance is
infinite; and a finite distance is only there when there is a target.

* `Generation.Sound`, `History.Sound` — values mean what they should.
* `Generation.Sound.of_graph`, `Generation.Sound.of_rewrites`, `Generation.Sound.of_distanceWrites`
  — changes that keep that true.
* `History.Sound.of_last` — changes of the last generation.
-/

namespace GuidedReach

variable {S P K : Type}

/-- The values of a generation mean what they should, and its nodes are subsumed by their
providers. -/
structure Generation.Sound (analysis : Analysis S P K) (dead : S → Prop) (history : History S P K)
    (index : Nat) (gen : Generation S P K) : Prop where
  inGraph : ∀ {i k}, gen.searchNodes.get? i = some k → ∃ n, gen.graph.get? i = some n
  provider_lt : ∀ {below}, gen.provider = some below → below < index
  subsumed : ∀ {i k q below}, gen.searchNodes.get? i = some k → k.provider = some q →
    gen.provider = some below → ∃ older m n, history.get? below = some older ∧
      older.graph.get? q = some m ∧ gen.graph.get? i = some n ∧
      analysis.isLeq n.state m.state = true
  heuristic : ∀ {i n}, gen.heuristic i = .ok .infinite → gen.graph.get? i = some n → dead n.state
  distance : ∀ {i n}, gen.distance i = .ok .infinite → gen.graph.get? i = some n → dead n.state
  finite : ∀ {i d}, gen.distance i = .ok (.finite d) →
    ∃ j n, gen.graph.get? j = some n ∧ n.isTarget = true

/-- All generations that are held are faithful and sound. -/
structure History.Sound (analysis : Analysis S P K) (allowed : P → Prop) (dead : S → Prop)
    (history : History S P K) : Prop where
  faithful : history.Faithful analysis allowed
  generation : ∀ index gen, history.get? index = some gen → gen.Sound analysis dead history index

namespace Generation.Sound

variable {analysis : Analysis S P K} {dead : S → Prop} {history history' : History S P K}
variable {index : Nat} {gen gen' : Generation S P K}

/-- Older generations may change, as long as they keep what is known. -/
theorem keeps (h : gen.Sound analysis dead history index) (hkeeps : history.Keeps history') :
    gen.Sound analysis dead history' index where
  inGraph := h.inGraph
  provider_lt := h.provider_lt
  subsumed hk hq hbelow := by
    obtain ⟨older, m, n, holder, hm, hn, hleq⟩ := h.subsumed hk hq hbelow
    obtain ⟨older', holder', hkept⟩ := hkeeps _ older holder
    obtain ⟨m', hm', hgrows⟩ := hkept.grows.node hm
    exact ⟨older', m', n, holder', hm', hn, hgrows.state ▸ hleq⟩
  heuristic := h.heuristic
  distance := h.distance
  finite := h.finite

/-- Only the generations before it matter for a generation. -/
theorem frame (h : gen.Sound analysis dead history index)
    (hframe : ∀ i < index, history'.get? i = history.get? i) :
    gen.Sound analysis dead history' index where
  inGraph := h.inGraph
  provider_lt := h.provider_lt
  subsumed hk hq hbelow := by
    obtain ⟨older, m, n, holder, hrest⟩ := h.subsumed hk hq hbelow
    exact ⟨older, m, n, (hframe _ (h.provider_lt hbelow)).trans holder, hrest⟩
  heuristic := h.heuristic
  distance := h.distance
  finite := h.finite

/-- A graph in which all nodes are left with their states. -/
theorem of_graph (h : gen.Sound analysis dead history index) {graph : Graph S}
    (hgraph : ∀ {i n}, gen.graph.get? i = some n →
      ∃ n', graph.get? i = some n' ∧ n'.state = n.state ∧ n'.isTarget = n.isTarget) :
    Generation.Sound analysis dead history index { gen with graph } := by
  have hold : ∀ {i k n'}, gen.searchNodes.get? i = some k → graph.get? i = some n' →
      ∃ n, gen.graph.get? i = some n ∧ n'.state = n.state := by
    intro i k n' hk hn'
    obtain ⟨n, hn⟩ := h.inGraph hk
    obtain ⟨m, hm, hstate, -⟩ := hgraph hn
    obtain rfl := Option.some.inj (hn'.symm.trans hm)
    exact ⟨n, hn, hstate⟩
  refine ⟨fun hk => ?_, h.provider_lt, fun hk hq hbelow => ?_, fun {i n'} hi hn' => ?_,
    fun {i n'} hi hn' => ?_, fun hi => ?_⟩
  · obtain ⟨n, hn⟩ := h.inGraph hk
    obtain ⟨n', hn', -⟩ := hgraph hn
    exact ⟨n', hn'⟩
  · obtain ⟨older, m, n, holder, hm, hn, hleq⟩ := h.subsumed hk hq hbelow
    obtain ⟨n', hn', hstate, -⟩ := hgraph hn
    exact ⟨older, m, n', holder, hm, hn', hstate ▸ hleq⟩
  · obtain ⟨k, hk, hd⟩ := heuristic_eq_ok.1 hi
    obtain ⟨n, hn, hstate⟩ := hold hk hn'
    exact hstate ▸ h.heuristic (heuristic_eq_ok.2 ⟨k, hk, hd⟩) hn
  · obtain ⟨k, hk, hd⟩ := distance_eq_ok.1 hi
    obtain ⟨n, hn, hstate⟩ := hold hk hn'
    exact hstate ▸ h.distance (distance_eq_ok.2 ⟨k, hk, hd⟩) hn
  · obtain ⟨j, n, hn, htarget⟩ := h.finite hi
    obtain ⟨n', hn', -, hsame⟩ := hgraph hn
    exact ⟨j, n', hn', hsame.trans htarget⟩

theorem of_grows (h : gen.Sound analysis dead history index) {graph : Graph S}
    (hgrows : gen.graph.Grows graph) :
    Generation.Sound analysis dead history index { gen with graph } :=
  h.of_graph fun hn => by
    obtain ⟨n', hn', hnode⟩ := hgrows.node hn
    exact ⟨n', hn', hnode.state, hnode.isTarget⟩

/-- A search node whose values, if they are new, are sound. -/
theorem of_rewrites (h : gen.Sound analysis dead history index) {id : NodeId} {n : Node S}
    {k : SearchNode} (hrewrites : gen.Rewrites gen' id k) (hn : gen.graph.get? id = some n)
    (hsubsumed : ∀ {q below}, k.provider = some q → gen.provider = some below →
      ∃ older m, history.get? below = some older ∧ older.graph.get? q = some m ∧
        analysis.isLeq n.state m.state = true)
    (hheuristic : k.heuristic = .infinite → dead n.state)
    (hdistance : k.distance = .infinite → dead n.state)
    (hfinite : ∀ {d}, k.distance = .finite d →
      ∃ j n, gen.graph.get? j = some n ∧ n.isTarget = true) :
    gen'.Sound analysis dead history index := by
  have hcases : ∀ {i k'}, gen'.searchNodes.get? i = some k' →
      i = id ∧ k' = k ∨ gen.searchNodes.get? i = some k' := by
    intro i k' hk'
    rw [hrewrites.get?] at hk'
    split at hk'
    · exact .inl ⟨by assumption, (Option.some.inj hk').symm⟩
    · exact .inr hk'
  refine ⟨fun hk' => ?_, ?_, fun hk' hq hbelow => ?_, fun {i m} hi hm => ?_, fun {i m} hi hm => ?_,
    fun hi => ?_⟩
  · rw [hrewrites.graph]
    obtain ⟨rfl, -⟩ | hk' := hcases hk'
    · exact ⟨n, hn⟩
    · exact h.inGraph hk'
  · rw [hrewrites.provider]
    exact h.provider_lt
  · rw [hrewrites.provider] at hbelow
    rw [hrewrites.graph]
    obtain ⟨rfl, rfl⟩ | hk' := hcases hk'
    · obtain ⟨older, m, holder, hm, hleq⟩ := hsubsumed hq hbelow
      exact ⟨older, m, n, holder, hm, hn, hleq⟩
    · exact h.subsumed hk' hq hbelow
  · rw [hrewrites.graph] at hm
    obtain ⟨k', hk', hd⟩ := heuristic_eq_ok.1 hi
    obtain ⟨rfl, rfl⟩ | hk' := hcases hk'
    · exact Option.some.inj (hn.symm.trans hm) ▸ hheuristic hd
    · exact h.heuristic (heuristic_eq_ok.2 ⟨k', hk', hd⟩) hm
  · rw [hrewrites.graph] at hm
    obtain ⟨k', hk', hd⟩ := distance_eq_ok.1 hi
    obtain ⟨rfl, rfl⟩ | hk' := hcases hk'
    · exact Option.some.inj (hn.symm.trans hm) ▸ hdistance hd
    · exact h.distance (distance_eq_ok.2 ⟨k', hk', hd⟩) hm
  · rw [hrewrites.graph]
    obtain ⟨k', hk', hd⟩ := distance_eq_ok.1 hi
    obtain ⟨rfl, rfl⟩ | hk' := hcases hk'
    · exact hfinite hd
    · exact h.finite (distance_eq_ok.2 ⟨k', hk', hd⟩)

/-- New distances that are sound. -/
theorem of_distanceWrites (h : gen.Sound analysis dead history index)
    (hwrites : DistanceWrites gen gen')
    (hdistance : ∀ {i n}, gen'.distance i = .ok .infinite → gen.graph.get? i = some n → dead n.state)
    (hfinite : ∀ {i d}, gen'.distance i = .ok (.finite d) →
      ∃ j n, gen.graph.get? j = some n ∧ n.isTarget = true) :
    gen'.Sound analysis dead history index := by
  have hcases : ∀ {i k'}, gen'.searchNodes.get? i = some k' →
      ∃ k, gen.searchNodes.get? i = some k ∧ k'.provider = k.provider := by
    intro i k' hk'
    obtain ⟨-, hnone⟩ | ⟨k, d, hk, hk'', -⟩ := hwrites.searchNode i
    · simp [hnone] at hk'
    · obtain rfl := Option.some.inj (hk'.symm.trans hk'')
      exact ⟨k, hk, rfl⟩
  refine ⟨fun hk' => ?_, ?_, fun hk' hq hbelow => ?_, fun hi hm => ?_, fun hi hm => ?_, fun hi => ?_⟩
  · obtain ⟨k, hk, -⟩ := hcases hk'
    exact hwrites.graph ▸ h.inGraph hk
  · exact hwrites.provider ▸ h.provider_lt
  · obtain ⟨k, hk, hprovider⟩ := hcases hk'
    exact hwrites.graph ▸ h.subsumed hk (hprovider ▸ hq) (hwrites.provider ▸ hbelow)
  · exact h.heuristic (hwrites.heuristic_eq_ok.1 hi) (hwrites.graph ▸ hm)
  · exact hdistance hi (hwrites.graph ▸ hm)
  · exact hwrites.graph ▸ hfinite hi

end Generation.Sound

/-! ## Changes of the last generation -/

namespace History

variable {analysis : Analysis S P K} {allowed : P → Prop} {dead : S → Prop}
variable {history history' : History S P K} {last : Nat} {gen : Generation S P K}
variable (hbelow : ∀ i < last, history'.get? i = history.get? i)
variable (hlength : history'.length = last + 1) (hget : history'.get? last = some gen)

include hbelow hlength hget

theorem Faithful.of_last (h : history.Faithful analysis allowed)
    (hgen : gen.graph.Faithful analysis allowed) (hprec : allowed gen.prec) :
    history'.Faithful analysis allowed := by
  intro i gen' hgen'
  have hlt := lt_length hgen'
  obtain hi | rfl : i < last ∨ i = last := by omega
  · exact h i gen' (hbelow i hi ▸ hgen')
  · obtain rfl := Option.some.inj (hget.symm.trans hgen')
    exact ⟨hgen, hprec⟩

/-- A change of the last generation only has to keep that one sound. -/
theorem Sound.of_last (h : history.Sound analysis allowed dead)
    (hgen : gen.graph.Faithful analysis allowed) (hprec : allowed gen.prec)
    (hsound : gen.Sound analysis dead history last) : history'.Sound analysis allowed dead := by
  refine ⟨h.faithful.of_last hbelow hlength hget hgen hprec, fun i gen' hgen' => ?_⟩
  have hlt := lt_length hgen'
  obtain hi | rfl : i < last ∨ i = last := by omega
  · exact (h.generation i gen' (hbelow i hi ▸ hgen')).frame fun j hj => hbelow j (by omega)
  · obtain rfl := Option.some.inj (hget.symm.trans hgen')
    exact hsound.frame hbelow

end History

end GuidedReach
