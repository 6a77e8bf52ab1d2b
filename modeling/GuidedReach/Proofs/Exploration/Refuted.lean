import GuidedReach.Proofs.Exploration.Sound
import GuidedReach.Proofs.SearchRun.Waitlist

/-!
# Refuted nodes

A node is refuted when its values rule out that it reaches a target. A generation is *closed* when
whatever lies below a refuted node is refuted as well: then nothing is lost by not looking there.

* `Exploration.Refuted`, `Exploration.Closed` — refuted nodes and closed generations.
* `Exploration.Closed.of_rewrites`, `Exploration.Closed.of_addedLeaves`,
  `Exploration.Closed.of_coverNode`, `Exploration.Closed.of_settles` — changes that leave a generation
  closed.
-/

namespace GuidedReach.Exploration

variable {S P K : Type}

/-- No target can be reached from a node, judging by its values or, in an exhaustive search, by the
distance that it is about to take its heuristic from. -/
def Refuted (search : SearchType) (history : History S P K) (gen : Generation S P K) (id : NodeId) :
    Prop :=
  gen.Hopeless id ∨ search = .full ∧ ∃ k q below older,
    gen.searchNodes.get? id = some k ∧ k.heuristic = .unknown ∧ k.provider = some q ∧
      gen.provider = some below ∧ history.get? below = some older ∧
      older.distance q = .ok .infinite

/-- A node without a search node, or one that just got it. -/
def Fresh (search : SearchType) (gen : Generation S P K) (id : NodeId) : Prop :=
  gen.searchNodes.get? id = none ∨ search = .decreasing ∧ gen.heuristic id = .ok .unknown

/-- What lies below a refuted node is refuted, and there is nothing below a fresh one. -/
structure Closed (search : SearchType) (history : History S P K) (gen : Generation S P K) :
    Prop where
  child : ∀ {i n parent}, gen.graph.get? i = some n → n.parent = some parent →
    Refuted search history gen parent → Refuted search history gen i
  coverer : ∀ {i n c}, gen.graph.get? i = some n → n.covering = some c →
    Refuted search history gen i → Refuted search history gen c
  fresh : ∀ {i n}, gen.graph.get? i = some n → Fresh search gen i → n.succs = [] ∧ n.covering = none

variable {analysis : Analysis S P K} {search : SearchType} {allowed : P → Prop} {dead : S → Prop} {index bound : Nat}
variable {history history' : History S P K} {gen gen' : Generation S P K} {id : NodeId}

theorem Refuted.sound (hsound : gen.Sound analysis dead history index)
    (holder : ∀ below older, gen.provider = some below → history.get? below = some older →
      older.Sound analysis dead history below)
    (hleq : ∀ {a b}, analysis.isLeq a b = true → dead b → dead a)
    (h : Refuted search history gen id) {n : Node S} (hn : gen.graph.get? id = some n) :
    dead n.state := by
  obtain (hheuristic | hdistance) | ⟨-, k, q, below, older, hk, -, hq, hbelow, hget, hd⟩ := h
  · exact hsound.heuristic hheuristic hn
  · exact hsound.distance hdistance hn
  · obtain ⟨older', m, n', hget', hm, hn', hsubsumed⟩ := hsound.subsumed hk hq hbelow
    obtain rfl := Option.some.inj (hget.symm.trans hget')
    obtain rfl := Option.some.inj (hn.symm.trans hn')
    exact hleq hsubsumed ((holder below older hbelow hget).distance hd hm)

/-- A node whose heuristic is known is only refuted by its values. -/
theorem Refuted.hopeless (h : Refuted search history gen id) {d : Distance}
    (hd : gen.heuristic id = .ok d) (hknown : d.isKnown = true) : gen.Hopeless id := by
  obtain h | ⟨-, k, -, -, -, hk, hunknown, -⟩ := h
  · exact h
  · obtain ⟨k', hk', rfl⟩ := Generation.heuristic_eq_ok.1 hd
    obtain rfl := Option.some.inj (hk.symm.trans hk')
    simp [hunknown, Distance.isKnown] at hknown

theorem not_fresh {d : Distance} (hd : gen.heuristic id = .ok d) (hknown : d.isKnown = true) :
    ¬ Fresh search gen id := by
  rintro (hnone | ⟨-, hunknown⟩)
  · simp [hnone] at hd
  · rw [hunknown] at hd
    obtain rfl := Except.ok.inj hd
    simp [Distance.isKnown] at hknown

/-- New values leave a generation closed, if they only refute nodes that there is nothing below. -/
theorem Closed.of_values (h : Closed search history gen) (hwf : gen.graph.WellFormed)
    (hgraph : gen'.graph = gen.graph)
    (hold : ∀ i, Refuted search history gen i → Refuted search history' gen' i)
    (hnew : ∀ i, Refuted search history' gen' i → Refuted search history gen i ∨ Fresh search gen i)
    (hfresh : ∀ i, Fresh search gen' i → Fresh search gen i) : Closed search history' gen' := by
  refine ⟨fun {i n parent} hn hparent hrefuted => ?_, fun hn hcov hrefuted => ?_,
    fun hn hi => h.fresh (hgraph ▸ hn) (hfresh _ hi)⟩
  · rw [hgraph] at hn
    obtain hrefuted | hi := hnew parent hrefuted
    · exact hold i (h.child hn hparent hrefuted)
    · obtain ⟨-, m, hm, -, hcount⟩ := hwf.parent_link hn hparent
      simp [(h.fresh hm hi).1] at hcount
  · rw [hgraph] at hn
    obtain hrefuted | hi := hnew _ hrefuted
    · exact hold _ (h.coverer hn hcov hrefuted)
    · simp [(h.fresh hn hi).2] at hcov

/-- Only what a generation takes its heuristics from matters. -/
theorem refuted_congr (h : ∀ below, gen.provider = some below →
    history'.get? below = history.get? below) :
    Refuted search history' gen id ↔ Refuted search history gen id := by
  refine or_congr_right (and_congr_right fun _ => ?_)
  constructor
  · rintro ⟨k, q, below, older, hk, hunknown, hq, hbelow, hget, hd⟩
    exact ⟨k, q, below, older, hk, hunknown, hq, hbelow, h below hbelow ▸ hget, hd⟩
  · rintro ⟨k, q, below, older, hk, hunknown, hq, hbelow, hget, hd⟩
    exact ⟨k, q, below, older, hk, hunknown, hq, hbelow, (h below hbelow).symm ▸ hget, hd⟩

theorem Closed.congr (h : Closed search history gen)
    (hrefuted : ∀ i, Refuted search history' gen i ↔ Refuted search history gen i) :
    Closed search history' gen :=
  ⟨fun {i _ parent} hn hparent hi => (hrefuted i).2 (h.child hn hparent ((hrefuted parent).1 hi)),
    fun {i _ c} hn hcov hi => (hrefuted c).2 (h.coverer hn hcov ((hrefuted i).1 hi)), h.fresh⟩

/-- A write to one search node. -/
theorem Closed.of_rewrites {k : SearchNode} (h : Closed search history gen)
    (hwf : gen.graph.WellFormed) (hrewrites : gen.Rewrites gen' id k)
    (holder : ∀ below, gen.provider = some below → history'.get? below = history.get? below)
    (hold : Refuted search history gen id → Refuted search history gen' id)
    (hnew : Refuted search history gen' id → Refuted search history gen id ∨ Fresh search gen id)
    (hfresh : Fresh search gen' id → Fresh search gen id) : Closed search history' gen' := by
  have hother : ∀ i, i ≠ id → gen'.searchNodes.get? i = gen.searchNodes.get? i := fun i hne => by
    rw [hrewrites.get?, if_neg hne]
  have hrefuted : ∀ i, i ≠ id → (Refuted search history gen' i ↔ Refuted search history gen i) := by
    intro i hne
    simp only [Refuted, Generation.Hopeless, Generation.heuristic_eq_ok, Generation.distance_eq_ok,
      hother i hne, hrewrites.provider]
  have hhistory : ∀ i, Refuted search history' gen' i ↔ Refuted search history gen' i := fun i =>
    refuted_congr fun below hbelow => holder below (hrewrites.provider ▸ hbelow)
  refine h.of_values hwf hrewrites.graph (fun i hi => ?_) (fun i hi => ?_) fun i hi => ?_
  · rw [hhistory]
    rcases eq_or_ne i id with rfl | hne
    · exact hold hi
    · exact (hrefuted i hne).2 hi
  · rw [hhistory] at hi
    rcases eq_or_ne i id with rfl | hne
    · exact hnew hi
    · exact .inl ((hrefuted i hne).1 hi)
  · rcases eq_or_ne i id with rfl | hne
    · exact hfresh hi
    · simpa only [Fresh, Generation.heuristic_eq_ok, hother i hne] using hi

/-- New leaves below a node that is not refuted, or new init nodes. -/
theorem Closed.of_addedLeaves (h : Closed search history gen)
    (hsearchNode : ∀ {i k}, gen.searchNodes.get? i = some k → ∃ n, gen.graph.get? i = some n)
    (holder : ∀ below, gen.provider = some below → history'.get? below = history.get? below)
    {parent : Option NodeId} {new : List NodeId} {graph : Graph S}
    (hadded : Graph.AddedLeaves parent new gen.graph graph)
    (hparent : ∀ id, parent = some id → ¬ Refuted search history gen id ∧ ¬ Fresh search gen id) :
    Closed search history' { gen with graph } := by
  have hrefuted : ∀ i, Refuted search history' { gen with graph } i ↔ Refuted search history gen i :=
    fun _ => refuted_congr holder
  have hnone : ∀ {i}, i ∈ new → ¬ Refuted search history gen i := by
    rintro i hi (hvalue | ⟨-, k, -, -, -, hk, -⟩)
    · simp only [Generation.Hopeless, Generation.heuristic_eq_ok, Generation.distance_eq_ok] at hvalue
      obtain ⟨k, hk, -⟩ | ⟨k, hk, -⟩ := hvalue <;>
      · obtain ⟨n, hn⟩ := hsearchNode hk
        exact hadded.notMem hn hi
    · obtain ⟨n, hn⟩ := hsearchNode hk
      exact hadded.notMem hn hi
  refine ⟨fun {i n p} hn hp hi => ?_, fun {i n c} hn hc hi => ?_, fun {i n} hn hi => ?_⟩
  · rw [hrefuted] at hi ⊢
    by_cases hnew : i ∈ new
    · exact absurd hi (hparent p ((hadded.parent_eq hnew hn).symm.trans hp)).1
    · obtain ⟨m, hm, hgrows, -⟩ := hadded.exists_old hnew hn
      exact h.child hm (hgrows.parent.symm.trans hp) hi
  · rw [hrefuted] at hi ⊢
    by_cases hnew : i ∈ new
    · exact absurd hi (hnone hnew)
    · obtain ⟨m, hm, hcov, -⟩ := hadded.old hnew hn
      exact h.coverer hm (hcov.symm.trans hc) hi
  · by_cases hnew : i ∈ new
    · obtain ⟨hsuccs, hcov, -⟩ := hadded.isOpen_of_mem hnew hn
      exact ⟨hsuccs, hcov⟩
    · obtain ⟨m, hm, hcov, hlinks⟩ := hadded.old hnew hn
      have hne : some i ≠ parent := fun heq => (hparent i heq.symm).2 hi
      obtain ⟨hsuccs, hfree⟩ := h.fresh hm hi
      exact ⟨(hlinks hne).1.trans hsuccs, hcov.trans hfree⟩

/-- A node was covered by one that is refuted if the node is. -/
theorem Closed.of_coverNode (h : Closed search history gen) {coverer : NodeId} {a : Node S}
    {graph : Graph S} (hrewritten : Graph.Rewritten (Graph.coverNode id coverer a.covered) gen.graph graph)
    (holder : ∀ below, gen.provider = some below → history'.get? below = history.get? below)
    (hcoverer : Refuted search history gen id → Refuted search history gen coverer)
    (hfresh : ¬ Fresh search gen id) : Closed search history' { gen with graph } := by
  have hrefuted : ∀ i, Refuted search history' { gen with graph } i ↔ Refuted search history gen i :=
    fun _ => refuted_congr holder
  refine ⟨fun hn hp hi => ?_, fun {i n c} hn hc hi => ?_, fun {i n} hn hi => ?_⟩
  · rw [hrefuted] at hi ⊢
    obtain ⟨m, hm, rfl⟩ := hrewritten.exists_of_get? hn
    exact h.child hm hp hi
  · rw [hrefuted] at hi ⊢
    obtain ⟨m, hm, rfl⟩ := hrewritten.exists_of_get? hn
    simp only [Graph.coverNode] at hc
    split at hc
    · rename_i hmoved
      obtain rfl := Option.some.inj hc
      obtain rfl | hmoved := hmoved
      · exact hcoverer hi
      · exact hcoverer (h.coverer hm hmoved hi)
    · exact h.coverer hm hc hi
  · obtain ⟨m, hm, rfl⟩ := hrewritten.exists_of_get? hn
    obtain ⟨hsuccs, hfree⟩ := h.fresh hm hi
    refine ⟨hsuccs, ?_⟩
    have hne : ¬ (i = id ∨ m.covering = some id) := by
      rintro (rfl | hmoved)
      · exact hfresh hi
      · simp [hfree] at hmoved
    exact (if_neg hne).trans hfree

/-! ## New distances -/

theorem Refuted.of_distanceWrites (hwrites : gen.DistanceWrites gen')
    (h : Refuted search history gen id) : Refuted search history gen' id := by
  obtain (hinfinite | hinfinite) | ⟨hfull, k, q, below, older, hk, hunknown, hq, hbelow, hrest⟩ := h
  · exact .inl (.inl (hwrites.heuristic_eq_ok.2 hinfinite))
  · exact .inl (.inr (hwrites.distance_eq_ok hinfinite rfl))
  · obtain ⟨hnone, -⟩ | ⟨k', d, hk', hd, -⟩ := hwrites.searchNode id
    · simp [hk] at hnone
    · obtain rfl := Option.some.inj (hk.symm.trans hk')
      exact .inr ⟨hfull, _, q, below, older, hd, hunknown, hq, hwrites.provider ▸ hbelow, hrest⟩

/-- A node that is refuted by now was so before, or has become infinitely far away. -/
theorem refuted_of_distanceWrites (hwrites : gen.DistanceWrites gen')
    (h : Refuted search history gen' id) :
    Refuted search history gen id ∨ gen'.distance id = .ok .infinite := by
  obtain (hinfinite | hinfinite) | ⟨hfull, k, q, below, older, hk, hunknown, hq, hbelow, hrest⟩ := h
  · exact .inl (.inl (.inl (hwrites.heuristic_eq_ok.1 hinfinite)))
  · exact .inr hinfinite
  · obtain ⟨-, hnone⟩ | ⟨k', d, hk', hd, -⟩ := hwrites.searchNode id
    · simp [hk] at hnone
    · obtain rfl := Option.some.inj (hk.symm.trans hd)
      exact .inl (.inr ⟨hfull, k', q, below, older, hk', hunknown, hq, hwrites.provider ▸ hbelow, hrest⟩)

/-- Settling leaves a generation closed: below a node that became infinitely far away, all are. -/
theorem Closed.of_settles (h : Closed search history gen)
    (hfaithful : gen.graph.Faithful analysis allowed)
    (hsettles : Generation.Settles (fun i => gen.heuristic i = .ok .infinite) gen gen')
    (holder : ∀ below, gen.provider = some below → history'.get? below = history.get? below) :
    Closed search history' gen' := by
  have hwrites := hsettles.toDistanceWrites
  have hrefuted : ∀ i, Refuted search history' gen' i ↔ Refuted search history gen' i := fun i =>
    refuted_congr fun below hbelow => holder below (hwrites.provider ▸ hbelow)
  -- a node that is refuted by now was so before, or nothing is left below it
  have hblocked : ∀ {i n}, gen.graph.get? i = some n → Refuted search history' gen' i →
      Refuted search history gen i ∨ (∃ c, n.covering = some c ∧ gen'.distance c = .ok .infinite) ∨
        n.covering = none ∧ (n.isFeasible = false ∨
          n.isExpanded = true ∧ ∀ c ∈ n.succs, gen'.distance c = .ok .infinite) := by
    intro i n hn hi
    obtain hi | hi := refuted_of_distanceWrites hwrites ((hrefuted i).1 hi)
    · exact .inl hi
    · obtain hi | ⟨n', hn', -, hinfinite | hrest⟩ := hsettles.infinite hi
      · exact .inl (.inl (.inr hi))
      · exact .inl (.inl (.inl hinfinite))
      · exact .inr (Option.some.inj (hn'.symm.trans hn) ▸ hrest)
  refine ⟨fun {i n parent} hn hparent hi => ?_, fun {i n c} hn hcov hi => ?_, fun {i n} hn hi => ?_⟩
  · rw [hwrites.graph] at hn
    obtain ⟨m, hm, hsucc⟩ := hfaithful.wellFormed.exists_parent hn hparent
    rw [hrefuted]
    obtain hi | ⟨c, hc, -⟩ | ⟨-, hempty | ⟨-, hall⟩⟩ := hblocked hm hi
    · exact (h.child hn hparent hi).of_distanceWrites hwrites
    · simp [(hfaithful.covering hm hc).1] at hsucc
    · simp [(hfaithful.infeasible_leaf hm hempty).1] at hsucc
    · exact .inl (.inr (hall i hsucc))
  · rw [hwrites.graph] at hn
    rw [hrefuted]
    obtain hi | ⟨c', hc', hinfinite⟩ | ⟨hfree, -⟩ := hblocked hn hi
    · exact (h.coverer hn hcov hi).of_distanceWrites hwrites
    · obtain rfl := Option.some.inj (hcov.symm.trans hc')
      exact .inl (.inr hinfinite)
    · simp [hcov] at hfree
  · rw [hwrites.graph] at hn
    refine h.fresh hn ?_
    obtain hnone | ⟨hdecreasing, hunknown⟩ := hi
    · obtain ⟨hnone', -⟩ | ⟨k, d, -, hd, -⟩ := hwrites.searchNode i
      · exact .inl hnone'
      · simp [hd] at hnone
    · exact .inr ⟨hdecreasing, hwrites.heuristic_eq_ok.1 hunknown⟩

end GuidedReach.Exploration
