import GuidedReach.Proofs.Exploration.Searching
import GuidedReach.Proofs.Generation.Measured

/-!
# Heuristics from an exhaustive search

After an exhaustive search every node knows its distance. The next generation takes its heuristics
from there: each node from its provider, a node with a larger state that was explored under a coarser
precision. So heuristics are as consistent as the distances are, also where the graph goes on
growing.

* `Analysis.Finest` — a precision that is finer than all that were allowed before.
* `Generation.Charted` — what an exhaustive search leaves behind.
* `Generation.inherited` — the distance that a node takes over from its provider.
* `Generation.Guided` — what holds while the next generation grows.
* `Generation.Guided.of_rewrites`, `Generation.Guided.register`, `Generation.Guided.cover`,
  `Generation.Guided.of_addedLeaves` — the changes that keep it so.
-/

namespace GuidedReach

variable {S P K : Type}

/-- The finest of the allowed precisions: what a state leads to under it is subsumed by what a larger
state leads to under any of them. -/
structure Analysis.Finest (analysis : Analysis S P K) (allowed : P → Prop) (prec : P) : Prop where
  isAllowed : allowed prec
  succ : ∀ {a b q s}, allowed q → analysis.isLeq a b = true → s ∈ analysis.succStates a prec →
    ∃ t ∈ analysis.succStates b q, analysis.isLeq s t = true
  init : ∀ {q s}, allowed q → s ∈ analysis.initStates prec →
    ∃ t ∈ analysis.initStates q, analysis.isLeq s t = true
  inDomain_succ : ∀ {a s}, s ∈ analysis.succStates a prec → analysis.inDomain s = true
  inDomain_init : ∀ {s}, s ∈ analysis.initStates prec → analysis.inDomain s = true

namespace Generation

variable {analysis : Analysis S P K} {allowed : P → Prop} {far : Nat}
variable {gen gen' charted : Generation S P K} {id q c : NodeId} {m n : Node S} {d : Distance}

/-! ## What an exhaustive search leaves behind -/

/-- All distances are exact, and what may reach a target was explored: within `far` steps, and
without finding a target among the init nodes. -/
structure Charted (analysis : Analysis S P K) (allowed : P → Prop) (far : Nat)
    (gen : Generation S P K) : Prop where
  faithful : gen.graph.Faithful analysis allowed
  isInitialized : gen.graph.isInitialized = true
  measured : gen.Measured
  root : ∀ {i n}, gen.graph.get? i = some n → n.parent = none → n.isTarget = false
  near : ∀ {i d}, gen.distance i = .ok (.finite d) → d ≤ far
  handled : ∀ {i d}, gen.distance i = .ok (.finite d) → gen.graph.Handled (fun _ => True) i

namespace Charted

variable (h : charted.Charted analysis allowed far)

include h

/-- A covered node is as far away as its coverer. -/
theorem distance_coverer (hlaws : analysis.Lawful) (hm : charted.graph.get? q = some m)
    (hcovering : m.covering = some c) (hd : charted.distance q = .ok d) :
    charted.distance c = .ok d := by
  obtain ⟨hleaf, -, b, hb, hleq⟩ := h.faithful.covering hm hcovering
  obtain ⟨e, he, hknown⟩ := h.measured.known hb
  have hdrops := h.measured.drops (.covering hm hcovering) hd he
  cases d with
  | unknown => cases hdrops.isKnown_left
  | infinite => rwa [hdrops.eq_infinite] at he
  | finite v =>
    rcases h.measured.witnessed hd with ⟨rfl, m', hm', htarget⟩ | ⟨j, w, f, hedge, hj, rfl⟩
    · rw [hm] at hm'
      cases hm'
      refine h.measured.target hb ?_
      rw [h.faithful.isTarget hb]
      exact hlaws.isTarget_mono hleq (h.faithful.isTarget hm ▸ htarget)
    · cases hedge with
      | tree hj' hparent =>
        -- nothing is below a covered node
        obtain ⟨m', hm', hsucc⟩ := h.faithful.wellFormed.exists_parent hj' hparent
        rw [hm] at hm'
        cases hm'
        rw [hleaf] at hsucc
        cases hsucc
      | covering hm' hcovering' =>
        rw [hm] at hm'
        cases hm'
        rw [hcovering] at hcovering'
        cases hcovering'
        exact hj

/-- What may reach a target is expanded, unless it is covered or holds nothing. -/
theorem isExpanded {v : Nat} (hm : charted.graph.get? q = some m) (hfree : m.covering = none)
    (hfeasible : m.isFeasible = true) (hd : charted.distance q = .ok (.finite v)) :
    m.isExpanded = true := by
  obtain ⟨m', hm', hrest⟩ := h.handled hd
  rw [hm] at hm'
  cases hm'
  rcases hrest with ⟨c, hc, -⟩ | ⟨-, hempty | ⟨hexpanded, -⟩⟩
  · rw [hfree] at hc
    cases hc
  · rw [hfeasible] at hempty
    cases hempty
  · exact hexpanded

/-- Below an expanded node there is a node for each successor of a smaller state. -/
theorem exists_succ {prec : P} (hfinest : analysis.Finest allowed prec)
    (hm : charted.graph.get? q = some m) (hexpanded : m.isExpanded = true) {a s : S}
    (hleq : analysis.isLeq a m.state = true) (hs : s ∈ analysis.succStates a prec) :
    ∃ c b, c ∈ m.succs ∧ charted.graph.get? c = some b ∧ analysis.isLeq s b.state = true := by
  obtain ⟨older, holder, hall⟩ := h.faithful.expanded hm hexpanded
  obtain ⟨t, ht, hst⟩ := hfinest.succ holder hleq hs
  obtain ⟨c, b, hc, hb, rfl⟩ := Graph.mem_statesOf.1 (hall t ht)
  exact ⟨c, b, hc, hb, hst⟩

/-- There is an init node for each init state. -/
theorem exists_init {prec : P} (hfinest : analysis.Finest allowed prec) {s : S}
    (hs : s ∈ analysis.initStates prec) :
    ∃ c b, c ∈ charted.graph.initNodes ∧ charted.graph.get? c = some b ∧
      analysis.isLeq s b.state = true := by
  obtain ⟨older, holder, hall⟩ := h.faithful.initialized h.isInitialized
  obtain ⟨t, ht, hst⟩ := hfinest.init holder hs
  obtain ⟨c, b, hc, hb, rfl⟩ := Graph.mem_statesOf.1 (hall t ht)
  exact ⟨c, b, hc, hb, hst⟩

end Charted

/-! ## What is taken over -/

/-- The distance that a node takes its heuristic from, that of its provider. Without a generation that
provides it is 0. -/
def inherited (guide : Option (Generation S P K)) (gen : Generation S P K) (id : NodeId) : Distance :=
  guide.elim .zero fun charted =>
    (((gen.searchNodes.get? id).bind (·.provider)).bind charted.searchNodes.get?).elim .unknown
      (·.distance)

variable {guide : Option (Generation S P K)} {k k' : SearchNode}

theorem inherited_eq (hk : gen.searchNodes.get? id = some k) (hq : k.provider = some q)
    (hd : charted.distance q = .ok d) : gen.inherited (some charted) id = d := by
  obtain ⟨l, hl, rfl⟩ := distance_eq_ok.1 hd
  simp [inherited, hk, hq, hl]

/-- Only the provider of a node matters for what it takes over. -/
theorem inherited_congr
    (h : (gen'.searchNodes.get? id).bind (·.provider) = (gen.searchNodes.get? id).bind (·.provider)) :
    gen'.inherited guide id = gen.inherited guide id := by
  simp only [inherited, h]

/-! ## Growing with a guide -/

variable [DecidableEq K]

/-- A new leaf that is still to be registered. A child has a parent that is being searched. -/
structure Sprout (analysis : Analysis S P K) (gen : Generation S P K) (id : NodeId) (n : Node S) :
    Prop where
  succs : n.succs = []
  covering : n.covering = none
  covered : ∀ {j m}, gen.graph.get? j = some m → m.covering ≠ some id
  root : n.parent = none → n.state ∈ analysis.initStates gen.prec
  child : ∀ p, n.parent = some p → ∃ m v, gen.graph.get? p = some m ∧ m.isFeasible = true ∧
    n.state ∈ analysis.succStates m.state gen.prec ∧ gen.heuristic p = .ok (.finite v)

omit [DecidableEq K] in
/-- A write to a search node that forgets no heuristics. -/
theorem Sprout.of_rewrites {j : NodeId} (h : gen.Sprout analysis id n)
    (hrewrites : gen.Rewrites gen' j k')
    (hknown : ∀ {p v}, gen.heuristic p = .ok (.finite v) → gen'.heuristic p = .ok (.finite v)) :
    gen'.Sprout analysis id n := by
  refine ⟨h.succs, h.covering, ?_, ?_, fun p hp => ?_⟩
  · rw [hrewrites.graph]
    exact h.covered
  · rw [hrewrites.prec]
    exact h.root
  · obtain ⟨m, v, hm, hfeasible, hstate, hv⟩ := h.child p hp
    rw [hrewrites.graph, hrewrites.prec]
    exact ⟨m, v, hm, hfeasible, hstate, hknown hv⟩

/-- Heuristics are what was taken over, from providers that subsume their nodes, and nothing taken
over drops too far along an edge. No distance is known, except where no target can be reached. -/
structure Guided (analysis : Analysis S P K) (allowed : P → Prop) (guide : Option (Generation S P K))
    (pending : List NodeId) (gen : Generation S P K) : Prop extends gen.Tracked pending where
  faithful : gen.graph.Faithful analysis allowed
  finest : analysis.Finest allowed gen.prec
  inDomain : ∀ {i n}, gen.graph.get? i = some n → analysis.inDomain n.state = true
  rooted : ∀ {i n}, gen.graph.get? i = some n → n.parent = none →
    ∃ prec, allowed prec ∧ n.state ∈ analysis.initStates prec
  root : guide ≠ none → ∀ {i n}, gen.graph.get? i = some n → n.parent = none → n.isTarget = false
  sprout : ∀ {i n}, i ∈ pending → gen.graph.get? i = some n → gen.Sprout analysis i n
  provided : ∀ {charted i n k}, guide = some charted → gen.graph.get? i = some n →
    gen.searchNodes.get? i = some k → ∃ q m, k.provider = some q ∧
      charted.graph.get? q = some m ∧ analysis.isLeq n.state m.state = true
  heuristic : ∀ {i k}, gen.searchNodes.get? i = some k →
    k.heuristic = .unknown ∨ k.heuristic = gen.inherited guide i
  distance : ∀ {i k}, gen.searchNodes.get? i = some k →
    k.distance = .unknown ∨ k.distance = .infinite ∧ gen.inherited guide i = .infinite
  drops : ∀ {i j w}, gen.graph.Edge i j w → i ∉ pending → j ∉ pending →
    (gen.inherited guide i).Drops w (gen.inherited guide j)

namespace Guided

variable {pending new : List NodeId}

/-! ### What is taken over -/

section

variable (h : gen.Guided analysis allowed guide pending)
variable (hguide : ∀ charted, guide = some charted → charted.Charted analysis allowed far)

include h

/-- A known heuristic is what was taken over. -/
theorem heuristic_eq (hd : gen.heuristic id = .ok d) (hknown : d.isKnown = true) :
    d = gen.inherited guide id := by
  obtain ⟨k, hk, rfl⟩ := heuristic_eq_ok.1 hd
  rcases h.heuristic hk with hunknown | heq
  · rw [hunknown] at hknown
    cases hknown
  · exact heq

/-- No finite distance is known. -/
theorem isFinite_distance (hk : gen.searchNodes.get? id = some k) :
    k.distance.isFinite = false := by
  rcases h.distance hk with hunknown | ⟨hinfinite, -⟩
  · rw [hunknown]
    rfl
  · rw [hinfinite]
    rfl

include hguide

/-- Where the value that is taken over comes from. -/
theorem provider_distance (hcharted : guide = some charted) (hn : gen.graph.get? id = some n)
    (hk : gen.searchNodes.get? id = some k) :
    ∃ q m, k.provider = some q ∧ charted.graph.get? q = some m ∧
      analysis.isLeq n.state m.state = true ∧
      charted.distance q = .ok (gen.inherited guide id) ∧
      (gen.inherited guide id).isKnown = true := by
  obtain ⟨q, m, hq, hm, hleq⟩ := h.provided hcharted hn hk
  obtain ⟨d, hd, hknown⟩ := (hguide charted hcharted).measured.known hm
  have heq : gen.inherited guide id = d := hcharted ▸ inherited_eq hk hq hd
  rw [heq]
  exact ⟨q, m, hq, hm, hleq, hd, hknown⟩

theorem isKnown_inherited (hk : gen.searchNodes.get? id = some k) :
    (gen.inherited guide id).isKnown = true := by
  obtain ⟨-, n, hn⟩ := h.held hk
  cases hcharted : guide with
  | none => rfl
  | some charted =>
    obtain ⟨q, m, -, -, -, -, hknown⟩ := h.provider_distance hguide hcharted hn hk
    rwa [hcharted] at hknown

/-- A target takes over the distance of a target. -/
theorem inherited_target (hlaws : analysis.Lawful) (hn : gen.graph.get? id = some n)
    (hk : gen.searchNodes.get? id = some k) (htarget : n.isTarget = true) :
    gen.inherited guide id = .zero := by
  cases hcharted : guide with
  | none => rfl
  | some charted =>
    obtain ⟨q, m, -, hm, hleq, hd, -⟩ := h.provider_distance hguide hcharted hn hk
    have hm' : m.isTarget = true := by
      rw [(hguide charted hcharted).faithful.isTarget hm]
      exact hlaws.isTarget_mono hleq (h.faithful.isTarget hn ▸ htarget)
    rw [(hguide charted hcharted).measured.target hm hm', hcharted] at hd
    exact (Except.ok.inj hd).symm

theorem inherited_le {v : Nat} (hk : gen.searchNodes.get? id = some k)
    (hv : gen.inherited guide id = .finite v) : v ≤ far := by
  obtain ⟨-, n, hn⟩ := h.held hk
  cases hcharted : guide with
  | none =>
    rw [hcharted] at hv
    cases hv
    exact Nat.zero_le far
  | some charted =>
    obtain ⟨q, m, -, -, -, hd, -⟩ := h.provider_distance hguide hcharted hn hk
    rw [hv] at hd
    exact (hguide charted hcharted).near hd

end

/-! ### Changes of search nodes -/

/-- A search node is written anew, with values that are taken over from the same distance. -/
theorem of_rewrites (h : gen.Guided analysis allowed guide pending)
    (hk : gen.searchNodes.get? id = some k) (hrewrites : gen.Rewrites gen' id k')
    (hbuckets : gen'.buckets = gen.buckets)
    (hinherited : gen'.inherited guide id = gen.inherited guide id)
    (hprovided : ∀ charted n, guide = some charted → gen.graph.get? id = some n →
      ∃ q m, k'.provider = some q ∧ charted.graph.get? q = some m ∧
        analysis.isLeq n.state m.state = true)
    (hheuristic : k'.heuristic = k.heuristic ∨
      k.heuristic = .unknown ∧ k'.heuristic = gen.inherited guide id)
    (hdistance : k'.distance = k.distance ∨
      k'.distance = .infinite ∧ gen.inherited guide id = .infinite) :
    gen'.Guided analysis allowed guide pending := by
  have hother : ∀ {i}, i ≠ id → gen'.searchNodes.get? i = gen.searchNodes.get? i := by
    intro i hne
    rw [hrewrites.get?, if_neg hne]
  have hself : gen'.searchNodes.get? id = some k' := by rw [hrewrites.get?, if_pos rfl]
  have hsame : ∀ i, gen'.inherited guide i = gen.inherited guide i := by
    intro i
    rcases eq_or_ne i id with rfl | hne
    · exact hinherited
    · exact inherited_congr (by rw [hother hne])
  have hknown : ∀ {p v}, gen.heuristic p = .ok (.finite v) → gen'.heuristic p = .ok (.finite v) := by
    intro p v hp
    obtain ⟨l, hl, hv⟩ := heuristic_eq_ok.1 hp
    rcases eq_or_ne p id with rfl | hne
    · rw [hk] at hl
      cases hl
      rcases hheuristic with heq | ⟨hunknown, -⟩
      · exact heuristic_eq_ok.2 ⟨k', hself, heq.trans hv⟩
      · rw [hunknown] at hv
        cases hv
    · exact heuristic_eq_ok.2 ⟨l, (hother hne).trans hl, hv⟩
  constructor
  · exact h.toTracked.of_rewrites hk hrewrites hbuckets
  · exact hrewrites.graph ▸ h.faithful
  · exact hrewrites.prec ▸ h.finest
  · rw [hrewrites.graph]
    exact h.inDomain
  · rw [hrewrites.graph]
    exact h.rooted
  · rw [hrewrites.graph]
    exact h.root
  · -- sprout
    intro i n hi hn
    rw [hrewrites.graph] at hn
    exact (h.sprout hi hn).of_rewrites hrewrites hknown
  · -- provided
    intro charted i n l hcharted hn hl
    rw [hrewrites.graph] at hn
    rcases eq_or_ne i id with rfl | hne
    · rw [hself] at hl
      cases hl
      exact hprovided charted n hcharted hn
    · exact h.provided hcharted hn ((hother hne).symm.trans hl)
  · -- heuristic
    intro i l hl
    rw [hsame]
    rcases eq_or_ne i id with rfl | hne
    · rw [hself] at hl
      cases hl
      rcases hheuristic with heq | ⟨-, heq⟩
      · exact heq ▸ h.heuristic hk
      · exact .inr heq
    · exact h.heuristic ((hother hne).symm.trans hl)
  · -- distance
    intro i l hl
    rw [hsame]
    rcases eq_or_ne i id with rfl | hne
    · rw [hself] at hl
      cases hl
      rcases hdistance with heq | hinfinite
      · exact heq ▸ h.distance hk
      · exact .inr hinfinite
    · exact h.distance ((hother hne).symm.trans hl)
  · intro i j w hedge hi hj
    rw [hsame, hsame]
    rw [hrewrites.graph] at hedge
    exact h.drops hedge hi hj

/-- **The heuristic of a node can be set** to what it takes over. -/
theorem setHeuristic (h : gen.Guided analysis allowed guide pending)
    (hguide : ∀ charted, guide = some charted → charted.Charted analysis allowed far)
    (hlaws : analysis.Lawful) (hk : gen.searchNodes.get? id = some k) :
    ∃ gen', gen.setHeuristic id (gen.inherited guide id) = .ok gen' ∧
      gen'.Guided analysis allowed guide pending ∧ gen'.graph = gen.graph ∧ gen.Keeps gen' ∧
      gen'.heuristic id = .ok (gen.inherited guide id) := by
  obtain ⟨-, n, hn⟩ := h.held hk
  have hknown := h.isKnown_inherited hguide hk
  have hold : k.heuristic = gen.inherited guide id ∨ k.heuristic = .unknown ∧
      (n.isTarget = true → gen.inherited guide id = .zero) ∧
      (k.distance.isKnown = true → (gen.inherited guide id).notAbove k.distance = true) := by
    rcases h.heuristic hk with hunknown | heq
    · refine .inr ⟨hunknown, fun htarget => h.inherited_target hguide hlaws hn hk htarget,
        fun hdistance => ?_⟩
      rcases h.distance hk with hopen | ⟨hinfinite, -⟩
      · rw [hopen] at hdistance
        cases hdistance
      · rw [hinfinite]
        exact (Distance.drops_zero_iff hknown rfl).1 (.infinite hknown)
    · exact .inl heq
  obtain ⟨gen', hset⟩ := exists_setHeuristic hn hk hknown hold
  obtain ⟨_, k', -, hk', -, hrewrites, -⟩ := setHeuristic_ok hset
  rw [hk] at hk'
  cases hk'
  have hself : gen'.searchNodes.get? id = some { k with heuristic := gen.inherited guide id } := by
    rw [hrewrites.get?, if_pos rfl]
  refine ⟨gen', hset, h.of_rewrites hk hrewrites (buckets_of_setHeuristic hset) ?_ ?_ ?_ (.inl rfl),
    hrewrites.graph, keeps_of_setHeuristic hset, heuristic_eq_ok.2 ⟨_, hself, rfl⟩⟩
  · exact inherited_congr (by rw [hself, hk]; rfl)
  · exact fun charted m hcharted hm => h.provided (k := k) hcharted hm hk
  · rcases h.heuristic hk with hunknown | heq
    · exact .inr ⟨hunknown, rfl⟩
    · exact .inl heq.symm

/-- A node that takes over an infinite value can be put infinitely far away. -/
theorem setDistance (h : gen.Guided analysis allowed guide pending)
    (hguide : ∀ charted, guide = some charted → charted.Charted analysis allowed far)
    (hlaws : analysis.Lawful) (hk : gen.searchNodes.get? id = some k)
    (hinfinite : gen.inherited guide id = .infinite) :
    ∃ gen', gen.setDistance id .infinite = .ok gen' ∧
      gen'.Guided analysis allowed guide pending ∧ gen'.graph = gen.graph ∧ gen.Keeps gen' := by
  obtain ⟨-, n, hn⟩ := h.held hk
  have hold : k.distance = .infinite ∨ k.distance = .unknown ∧
      (n.isTarget = true → Distance.infinite = .zero) ∧
      (k.heuristic.isKnown = true → k.heuristic.notAbove .infinite = true) := by
    rcases h.distance hk with hopen | ⟨heq, -⟩
    · refine .inr ⟨hopen, fun htarget => ?_, fun hknown => ?_⟩
      · rw [← hinfinite]
        exact h.inherited_target hguide hlaws hn hk htarget
      · exact (Distance.drops_zero_iff hknown rfl).1 (.infinite hknown)
    · exact .inl heq
  obtain ⟨gen', hset⟩ := exists_setDistance hn hk rfl hold
  obtain ⟨_, k', -, hk', -, hrewrites, -⟩ := setDistance_ok hset
  rw [hk] at hk'
  cases hk'
  refine ⟨gen', hset, h.of_rewrites hk hrewrites (buckets_of_setDistance hset) ?_ ?_ (.inl rfl)
    (.inr ⟨rfl, hinfinite⟩), hrewrites.graph, .of_distanceWrites (.of_setDistance hset)⟩
  · refine inherited_congr ?_
    rw [hrewrites.get?, if_pos rfl, hk]
    rfl
  · exact fun charted m hcharted hm => h.provided (k := k) hcharted hm hk

/-- **A covered provider can be replaced by its coverer**, which is as far away. -/
theorem setProvider (h : gen.Guided analysis allowed (some charted) pending)
    (hcharted : charted.Charted analysis allowed far) (hlaws : analysis.Lawful)
    (hk : gen.searchNodes.get? id = some k) (hq : k.provider = some q)
    (hm : charted.graph.get? q = some m) (hcovering : m.covering = some c) :
    ∃ gen', gen.editSearchNode id (SearchNode.setProvider (some c)) = .ok gen' ∧
      gen'.Guided analysis allowed (some charted) pending ∧ gen'.graph = gen.graph ∧
      gen.Keeps gen' := by
  obtain ⟨-, -, b, hb, hleq⟩ := hcharted.faithful.covering hm hcovering
  obtain ⟨d, hd, -⟩ := hcharted.measured.known hm
  obtain ⟨gen', hset⟩ : ∃ gen', gen.editSearchNode id (SearchNode.setProvider (some c)) = .ok gen' := by
    simp only [editSearchNode, bind_eq_ok, searchNode_eq_ok, Edit.result_eq_ok, pure_eq_ok,
      Prod.exists]
    exact ⟨_, k, hk, (), _, rfl, rfl⟩
  obtain ⟨k', hk', hrewrites⟩ := setProvider_ok hset
  rw [hk] at hk'
  cases hk'
  obtain ⟨-, -, -, -, -, hbuckets⟩ := editSearchNode_ok hset
  have hself : gen'.searchNodes.get? id = some { k with provider := some c } := by
    rw [hrewrites.get?, if_pos rfl]
  refine ⟨gen', hset, h.of_rewrites hk hrewrites hbuckets ?_ ?_ (.inl rfl) (.inl rfl),
    hrewrites.graph, keeps_of_setProvider hset⟩
  · rw [inherited_eq hk hq hd]
    exact inherited_eq hself rfl (hcharted.distance_coverer hlaws hm hcovering hd)
  · intro charted' n heq hn
    cases heq
    obtain ⟨q', m', hq', hm', hleq'⟩ := h.provided rfl hn hk
    rw [hq] at hq'
    cases hq'
    rw [hm] at hm'
    cases hm'
    exact ⟨c, b, rfl, hb, hlaws.isLeq_trans hleq' hleq⟩

/-! ### New search nodes -/

/-- **The next pending node can be registered**, with a provider that the value taken over by its
parent does not drop too far to. -/
theorem register (h : gen.Guided analysis allowed guide (id :: pending))
    (hn : gen.graph.get? id = some n) (provider : Option NodeId)
    (hprovider : ∀ charted, guide = some charted → ∃ q m d, provider = some q ∧
      charted.graph.get? q = some m ∧ analysis.isLeq n.state m.state = true ∧
      charted.distance q = .ok d ∧ ∀ p, n.parent = some p → (gen.inherited guide p).Drops 1 d) :
    ∃ gen', gen.register analysis id { provider } = .ok gen' ∧
      gen'.Guided analysis allowed guide pending ∧ gen'.graph = gen.graph ∧ gen.Keeps gen' := by
  obtain ⟨gen', hregister, htracked⟩ := h.toTracked.register analysis { provider }
  obtain ⟨-, hnone, hrewrites⟩ := register_ok hregister
  have hsprout := h.sprout List.mem_cons_self hn
  have hself : gen'.searchNodes.get? id = some { provider } := by rw [hrewrites.get?, if_pos rfl]
  have hother : ∀ {i}, i ≠ id → gen'.searchNodes.get? i = gen.searchNodes.get? i := by
    intro i hne
    rw [hrewrites.get?, if_neg hne]
  have hold : ∀ {i}, i ≠ id → gen'.inherited guide i = gen.inherited guide i :=
    fun hne => inherited_congr (by rw [hother hne])
  have hnotMem : ∀ {i}, i ≠ id → i ∉ pending → i ∉ id :: pending := by
    intro i hne hi
    simp [hne, hi]
  refine ⟨gen', hregister, ⟨htracked, ?_, ?_, ?_, ?_, ?_, ?_, ?_, ?_, ?_, ?_⟩, hrewrites.graph,
    keeps_of_register hregister⟩
  · exact hrewrites.graph ▸ h.faithful
  · exact hrewrites.prec ▸ h.finest
  · rw [hrewrites.graph]
    exact h.inDomain
  · rw [hrewrites.graph]
    exact h.rooted
  · rw [hrewrites.graph]
    exact h.root
  · -- sprout
    intro i m hi hm
    rw [hrewrites.graph] at hm
    exact (h.sprout (List.mem_cons_of_mem _ hi) hm).of_rewrites hrewrites fun hv =>
      (keeps_of_register hregister).heuristic hv rfl
  · -- provided
    intro charted i m l hcharted hm hl
    rw [hrewrites.graph] at hm
    rcases eq_or_ne i id with rfl | hne
    · rw [hself] at hl
      cases hl
      rw [hn] at hm
      cases hm
      obtain ⟨q, b, d, hq, hb, hleq, -⟩ := hprovider charted hcharted
      exact ⟨q, b, hq, hb, hleq⟩
    · exact h.provided hcharted hm ((hother hne).symm.trans hl)
  · -- heuristic
    intro i l hl
    rcases eq_or_ne i id with rfl | hne
    · rw [hself] at hl
      cases hl
      exact .inl rfl
    · rw [hold hne]
      exact h.heuristic ((hother hne).symm.trans hl)
  · -- distance
    intro i l hl
    rcases eq_or_ne i id with rfl | hne
    · rw [hself] at hl
      cases hl
      exact .inl rfl
    · rw [hold hne]
      exact h.distance ((hother hne).symm.trans hl)
  · -- drops
    intro i j w hedge hi hj
    rw [hrewrites.graph] at hedge
    have hleaves : i ≠ id := by
      rintro rfl
      exact Graph.not_edge_of_leaf h.faithful.wellFormed hn hsprout.covering hsprout.succs hedge
    rw [hold hleaves]
    rcases eq_or_ne j id with rfl | hne
    · cases hedge with
      | tree hj' hparent =>
        rw [hn] at hj'
        cases hj'
        cases hcharted : guide with
        | none => exact .zero rfl
        | some charted =>
          obtain ⟨q, m, d, hq, -, -, hd, hdrops⟩ := hprovider charted hcharted
          rw [inherited_eq hself hq hd, ← hcharted]
          exact hdrops i hparent
      | covering hi' hcovering => exact absurd hcovering (hsprout.covered hi')
    · rw [hold hne]
      exact h.drops hedge (hnotMem hleaves hi) (hnotMem hne hj)

/-! ### Changes of the graph -/

/-- **A node can be covered** by one that takes over as much. -/
theorem cover (h : gen.Guided analysis allowed guide []) (hlaws : analysis.Lawful)
    {a b : Node S} {graph : Graph S} (ha : gen.graph.get? id = some a)
    (hb : gen.graph.get? c = some b) (hleaf : a.succs = []) (hopen : a.isExpanded = false)
    (hleq : analysis.isLeq a.state b.state = true)
    (hdrops : (gen.inherited guide id).Drops 0 (gen.inherited guide c))
    (hcover : (Graph.cover id c).run gen.graph = .ok () graph) :
    Guided analysis allowed guide [] { gen with graph } := by
  have hwf := h.faithful.wellFormed
  obtain ⟨-, a', b', ha', -, -, -, hrewritten⟩ := Graph.cover_ok hwf hcover
  have hold : ∀ {i n'}, graph.get? i = some n' → ∃ n, gen.graph.get? i = some n ∧
      n' = Graph.coverNode id c a'.covered i n := hrewritten.exists_of_get?
  constructor
  · refine h.toTracked.of_grows (Graph.grows_of_cover hcover) ?_ (by simp) List.nodup_nil
    intro i n' hn' _
    obtain ⟨n, hn, -⟩ := hold hn'
    exact ⟨n, hn⟩
  · exact h.faithful.cover hlaws ha hb hleaf hopen hleq hcover
  · exact h.finest
  · intro i n' hn'
    obtain ⟨n, hn, rfl⟩ := hold hn'
    exact h.inDomain (n := n) hn
  · intro i n' hn' hroot
    obtain ⟨n, hn, rfl⟩ := hold hn'
    exact h.rooted (n := n) hn hroot
  · intro hguide i n' hn' hroot
    obtain ⟨n, hn, rfl⟩ := hold hn'
    exact h.root hguide (n := n) hn hroot
  · intro i n' hi
    cases hi
  · intro charted i n' l hcharted hn' hl
    obtain ⟨n, hn, rfl⟩ := hold hn'
    exact h.provided (n := n) hcharted hn hl
  · exact h.heuristic
  · exact h.distance
  · -- what the covered node had covered before goes along with it
    intro i j w hedge _ _
    rcases Graph.edge_of_cover hrewritten hedge with hedge | ⟨rfl, rfl, rfl | hmoved⟩
    · exact h.drops hedge List.not_mem_nil List.not_mem_nil
    · exact hdrops
    · exact (h.drops hmoved List.not_mem_nil List.not_mem_nil).trans hdrops

/-- **New leaves can be added** below a node that is being searched, or new init nodes. -/
theorem of_addedLeaves (h : gen.Guided analysis allowed guide [])
    (hguide : ∀ charted, guide = some charted → charted.Charted analysis allowed far)
    (hlaws : analysis.Lawful) {parent : Option NodeId} {graph : Graph S} {states : List S}
    (hadded : Graph.AddedLeaves parent new gen.graph graph)
    (hfaithful : graph.Faithful analysis allowed) (hstates : graph.HaveStates new states)
    (hroot : parent = none → ∀ s ∈ states, s ∈ analysis.initStates gen.prec)
    (hchild : ∀ p, parent = some p → ∃ m v, gen.graph.get? p = some m ∧ m.isFeasible = true ∧
      states = analysis.succStates m.state gen.prec ∧ gen.heuristic p = .ok (.finite v)) :
    Guided analysis allowed guide new { gen with graph } := by
  have hstate : ∀ {i n'}, graph.get? i = some n' → i ∈ new → n'.state ∈ states := by
    intro i n' hn' hi
    obtain ⟨n₁, hn₁, hstate⟩ := hstates.2 i hi
    exact Option.some.inj (hn'.symm.trans hn₁) ▸ hstate
  have hinit : ∀ {i n'}, graph.get? i = some n' → i ∈ new → n'.parent = none →
      n'.state ∈ analysis.initStates gen.prec := fun hn' hi hnone =>
    hroot ((hadded.parent_eq hi hn').symm.trans hnone) _ (hstate hn' hi)
  have hregistered : ∀ {i k}, gen.searchNodes.get? i = some k → ∀ {n'}, graph.get? i = some n' →
      ∃ n, gen.graph.get? i = some n ∧ n'.state = n.state := by
    intro i k hk n' hn'
    obtain ⟨-, n, hn⟩ := h.held hk
    obtain ⟨n₁, hn₁, hgrows⟩ := hadded.grows.node hn
    rw [hn'] at hn₁
    cases hn₁
    exact ⟨n, hn, hgrows.state⟩
  constructor
  · refine h.toTracked.of_grows hadded.grows ?_ ?_ hstates.1
    · intro i n' hn' hi
      obtain ⟨n, hn, -⟩ := hadded.old hi hn'
      exact ⟨n, hn⟩
    · intro i hi
      obtain ⟨hnone, n, hn, -⟩ := hadded.new hi
      exact ⟨hnone, n, hn⟩
  · exact hfaithful
  · exact h.finest
  · -- inDomain
    intro i n' hn'
    by_cases hi : i ∈ new
    · cases hparent : parent with
      | none => exact h.finest.inDomain_init (hroot hparent _ (hstate hn' hi))
      | some p =>
        obtain ⟨m, -, -, -, rfl, -⟩ := hchild p hparent
        exact h.finest.inDomain_succ (hstate hn' hi)
    · obtain ⟨n, hn, hgrows, -⟩ := hadded.exists_old hi hn'
      exact hgrows.state ▸ h.inDomain hn
  · -- rooted
    intro i n' hn' hnone
    by_cases hi : i ∈ new
    · exact ⟨gen.prec, h.finest.isAllowed, hinit hn' hi hnone⟩
    · obtain ⟨n, hn, hgrows, -⟩ := hadded.exists_old hi hn'
      exact hgrows.state ▸ h.rooted hn (hgrows.parent.symm.trans hnone)
  · -- root
    intro hsome i n' hn' hnone
    by_cases hi : i ∈ new
    · -- the init state is subsumed by that of an init node of the guide, which is no target
      obtain ⟨charted, hcharted⟩ := Option.ne_none_iff_exists'.1 hsome
      have hsound := hguide charted hcharted
      obtain ⟨e, b, he, hb, hleq⟩ := hsound.exists_init h.finest (hinit hn' hi hnone)
      obtain ⟨b', hb', hparentless⟩ := hsound.faithful.wellFormed.init_parentless he
      rw [hb] at hb'
      cases hb'
      refine Bool.eq_false_iff.2 fun htarget => ?_
      rw [hfaithful.isTarget hn'] at htarget
      have := hlaws.isTarget_mono hleq htarget
      rw [← hsound.faithful.isTarget hb, hsound.root hb hparentless] at this
      cases this
    · obtain ⟨n, hn, hgrows, -⟩ := hadded.exists_old hi hn'
      exact hgrows.isTarget.trans (h.root hsome hn (hgrows.parent.symm.trans hnone))
  · -- sprout
    intro i n' hi hn'
    obtain ⟨hsuccs, hcovering, -⟩ := hadded.isOpen_of_mem hi hn'
    refine ⟨hsuccs, hcovering, ?_, hinit hn' hi, ?_⟩
    · intro j m' hm' hcovers
      by_cases hj : j ∈ new
      · rw [(hadded.isOpen_of_mem hj hm').2.1] at hcovers
        cases hcovers
      · obtain ⟨m, hm, -, hsame, -⟩ := hadded.exists_old hj hm'
        obtain ⟨-, b, hb, -⟩ := h.faithful.wellFormed.covering_link hm (hsame.symm.trans hcovers)
        rw [(hadded.new hi).1] at hb
        cases hb
    · intro p hp
      obtain ⟨m, v, hm, hfeasible, rfl, hv⟩ := hchild p ((hadded.parent_eq hi hn').symm.trans hp)
      obtain ⟨m', hm', hgrows⟩ := hadded.grows.node hm
      exact ⟨m', v, hm', hgrows.isFeasible.trans hfeasible, hgrows.state ▸ hstate hn' hi, hv⟩
  · -- provided
    intro charted i n' l hcharted hn' hl
    obtain ⟨n, hn, hstate⟩ := hregistered hl hn'
    rw [hstate]
    exact h.provided hcharted hn hl
  · exact h.heuristic
  · exact h.distance
  · -- drops
    intro i j w hedge _ hj
    rcases Graph.edge_of_addedLeaves hedge hadded with hedge | ⟨hnew, -⟩
    · exact h.drops hedge List.not_mem_nil List.not_mem_nil
    · exact absurd hnew hj

end Guided

end Generation

end GuidedReach
