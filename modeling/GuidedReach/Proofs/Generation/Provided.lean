import GuidedReach.Proofs.Exploration.Keeps
import GuidedReach.Proofs.Generation.Deductions
import GuidedReach.Proofs.Graph.Discipline

/-!
# What providers answer

A node takes its heuristic from its provider in an older generation: 0 from a target, otherwise the
distance. Later the provider may get covered, and its coverer takes its place. It gives the same answer,
since only leaves get covered, and no finite distance was found for those.

* `Generation.Answers` — what a provider answers.
* `Generation.Grounded` — generations in which a coverer gives the same answers.
* `Generation.Grounded.of_deductions`, `Generation.Grounded.cover` — distances and graphs change, and
  they stay so.
* `Generation.ProvidedBy`, `Generation.Inherits` — how a generation depends on an older one.
-/

namespace GuidedReach.Generation

variable {S P K : Type} {gen gen' older older' : Generation S P K} {id c : NodeId}
variable {d : Distance} {n : Node S}

/-! ## Answers -/

/-- What a node answers those that take their heuristics from it: a target answers 0, even before it is
settled, and any other node its distance. -/
def Answers (gen : Generation S P K) (id : NodeId) (d : Distance) : Prop :=
  ∃ n, gen.graph.get? id = some n ∧
    (n.isTarget = true ∧ d = .zero ∨ n.isTarget = false ∧ gen.distance id = .ok d)

theorem Answers.keeps (h : gen.Answers id d) (hd : d.isKnown = true) (hkeeps : gen.Keeps gen') :
    gen'.Answers id d := by
  obtain ⟨n, hn, hanswer⟩ := h
  obtain ⟨n', hn', hgrows⟩ := hkeeps.grows.node hn
  refine ⟨n', hn', ?_⟩
  rw [hgrows.isTarget]
  exact hanswer.imp_right fun hdistance => ⟨hdistance.1, hkeeps.distance hdistance.2 hd⟩

/-! ## Distances that coverers share -/

/-- A target gets the distance 0, or has the distance already. -/
theorem eq_zero_of_setDistance (h : gen.setDistance id d = .ok gen') (hn : gen.graph.get? id = some n)
    (htarget : n.isTarget = true) : d = .zero ∨ gen.distance id = .ok d := by
  simp only [setDistance, bind_eq_ok, Graph.node_eq_ok] at h
  obtain ⟨n', hn', h⟩ := h
  obtain rfl := Option.some.inj (hn.symm.trans hn')
  obtain ⟨k, k', hk, hedit, -⟩ := editSearchNode_ok h
  simp only [SearchNode.setDistance, Edit.run_bind_ok, Edit.run_lift_ok, Edit.run_get_ok,
    demand_eq_ok] at hedit
  obtain ⟨_, _, ⟨-, rfl⟩, _, _, ⟨rfl, rfl⟩, hedit⟩ := hedit
  split at hedit
  · obtain ⟨hsame, -⟩ := Edit.run_lift_ok.1 hedit
    exact .inr (distance_eq_ok.2 ⟨k, hk, eq_of_beq (demand_eq_ok.1 hsame)⟩)
  · simp only [Edit.run_bind_ok, Edit.run_lift_ok, demand_eq_ok, htarget, Bool.not_true,
      Bool.false_or] at hedit
    obtain ⟨_, _, ⟨hzero, -⟩, -⟩ := hedit
    exact .inl (eq_of_beq hzero)

/-- Targets are at 0. Finite distances of other nodes come from below: from children, or, for a covered
node, from its coverer. -/
structure Grounded (gen : Generation S P K) : Prop where
  target : ∀ {i n d}, gen.graph.get? i = some n → n.isTarget = true → gen.distance i = .ok d →
    d.isKnown = true → d = .zero
  uncovered : ∀ {i n m}, gen.graph.get? i = some n → n.isTarget = false →
    gen.distance i = .ok (.finite m) → n.covering = none → n.succs ≠ []
  covered : ∀ {i n c m}, gen.graph.get? i = some n → n.isTarget = false →
    gen.distance i = .ok (.finite m) → n.covering = some c → gen.Answers c (.finite m)

namespace Grounded

/-- Where no distances are known. -/
theorem of_unknown (h : ∀ {i d}, gen.distance i = .ok d → d = .unknown) : gen.Grounded where
  target _ _ hd hknown := by simp [h hd, Distance.isKnown] at hknown
  uncovered _ _ hd := by simpa using h hd
  covered _ _ hd := by simpa using h hd

/-- A known distance is the answer. -/
theorem answers (h : gen.Grounded) (hn : gen.graph.get? id = some n) (hd : gen.distance id = .ok d)
    (hknown : d.isKnown = true) : gen.Answers id d := by
  refine ⟨n, hn, ?_⟩
  cases htarget : n.isTarget with
  | true => exact .inl ⟨rfl, h.target hn htarget hd hknown⟩
  | false => exact .inr ⟨rfl, hd⟩

/-- **A coverer gives the same answer**, unless that is infinite. -/
theorem answers_coverer (h : gen.Grounded) {analysis : Analysis S P K}
    (hgraph : gen.graph.Disciplined analysis) (hn : gen.graph.get? id = some n)
    (hcovering : n.covering = some c) (hanswers : gen.Answers id d) (hknown : d.isKnown = true)
    (hfinite : d ≠ .infinite) : gen.Answers c d := by
  obtain ⟨n', hn', hanswers⟩ := hanswers
  obtain rfl := Option.some.inj (hn.symm.trans hn')
  obtain ⟨htarget, rfl⟩ | ⟨htarget, hdistance⟩ := hanswers
  · obtain ⟨-, -, -, m, hm, -, hmono⟩ := hgraph.covering hn hcovering
    exact ⟨m, hm, .inl ⟨hmono htarget, rfl⟩⟩
  · cases d with
    | unknown => simp [Distance.isKnown] at hknown
    | infinite => exact absurd rfl hfinite
    | finite m => exact h.covered hn htarget hdistance hcovering

/-- A change that brings in no known distances and leaves the graph as it is. -/
theorem congr (h : gen.Grounded) (hkeeps : gen.Keeps gen') (hgraph : gen'.graph = gen.graph)
    (hold : ∀ {i d}, gen'.distance i = .ok d → d.isKnown = true → gen.distance i = .ok d) :
    gen'.Grounded where
  target hn htarget hd hknown := h.target (hgraph ▸ hn) htarget (hold hd hknown) hknown
  uncovered hn htarget hd := h.uncovered (hgraph ▸ hn) htarget (hold hd rfl)
  covered hn htarget hd hcovering :=
    (h.covered (hgraph ▸ hn) htarget (hold hd rfl) hcovering).keeps rfl hkeeps

/-- A write that brings in no known distance. -/
theorem rewrites (h : gen.Grounded) (hkeeps : gen.Keeps gen') {k' : SearchNode}
    (hrewrites : gen.Rewrites gen' id k')
    (hold : k'.distance.isKnown = true → gen.distance id = .ok k'.distance) : gen'.Grounded := by
  refine h.congr hkeeps hrewrites.graph fun {i d} hd hknown => ?_
  obtain ⟨k, hk, rfl⟩ := distance_eq_ok.1 hd
  rw [hrewrites.get?] at hk
  split at hk
  · rename_i heq
    obtain rfl := Option.some.inj hk
    exact heq ▸ hold hknown
  · exact distance_eq_ok.2 ⟨k, hk, rfl⟩

/-! ### Distances -/

/-- One more distance. -/
theorem setDistance (h : gen.Grounded) (hset : gen.setDistance id d = .ok gen')
    (hn : gen.graph.get? id = some n)
    (huncovered : ∀ m, n.isTarget = false → d = .finite m → n.covering = none → n.succs ≠ [])
    (hcovered : ∀ m c, n.isTarget = false → d = .finite m → n.covering = some c →
      gen.Answers c (.finite m)) : gen'.Grounded := by
  have hwrites := DistanceWrites.of_setDistance hset
  have hkeeps := Keeps.of_distanceWrites hwrites
  constructor
  · intro i n' e hn' htarget' he hknown
    rw [hwrites.graph] at hn'
    obtain ⟨rfl, rfl⟩ | he := distance_of_setDistance hset he
    · obtain hzero | he := eq_zero_of_setDistance hset hn' htarget'
      · exact hzero
      · exact h.target hn' htarget' he hknown
    · exact h.target hn' htarget' he hknown
  · intro i n' m hn' htarget' hm hfree
    rw [hwrites.graph] at hn'
    obtain ⟨rfl, hd⟩ | hm := distance_of_setDistance hset hm
    · obtain rfl := Option.some.inj (hn.symm.trans hn')
      exact huncovered m htarget' hd.symm hfree
    · exact h.uncovered hn' htarget' hm hfree
  · intro i n' c m hn' htarget' hm hcovering
    rw [hwrites.graph] at hn'
    obtain ⟨rfl, hd⟩ | hm := distance_of_setDistance hset hm
    · obtain rfl := Option.some.inj (hn.symm.trans hn')
      exact (hcovered m c htarget' hd.symm hcovering).keeps rfl hkeeps
    · exact (h.covered hn' htarget' hm hcovering).keeps rfl hkeeps

/-- An infinite distance says nothing about what is below. -/
theorem setInfinite (h : gen.Grounded) (hset : gen.setDistance id .infinite = .ok gen') :
    gen'.Grounded := by
  obtain ⟨n, -, hn, -⟩ := setDistance_ok hset
  exact h.setDistance hset hn (fun _ _ hd => by cases hd) fun _ _ _ hd => by cases hd

/-- **Justified writes come from below**: from a coverer, or from a child, which only a node that is not
covered has. -/
theorem of_deduction (h : gen.Grounded) {analysis : Analysis S P K}
    (hgraph : gen.graph.Disciplined analysis) (hdeduction : gen.Deduction gen') : gen'.Grounded := by
  cases hdeduction with
  | target hn htarget hset =>
    exact h.setDistance hset hn (fun m hother => by simp [htarget] at hother)
      fun m c hother => by simp [htarget] at hother
  | infinite _ _ hset => exact h.setInfinite hset
  | @onward id n d hn htarget hcontinues hset =>
    refine h.setDistance hset hn (fun m _ hd hfree => ?_)
      fun m c _ hd hcovering => ?_
    · cases hcontinues with
      | covering hn' hcovering =>
        obtain rfl := Option.some.inj (hn.symm.trans hn')
        simp [hfree] at hcovering
      | tree hchild hparent =>
        obtain ⟨n', hn', hmem⟩ := hgraph.wellFormed.exists_parent hchild hparent
        obtain rfl := Option.some.inj (hn.symm.trans hn')
        exact List.ne_nil_of_mem hmem
    · subst hd
      obtain ⟨hleaf, -, -, b, hb, -⟩ := hgraph.covering hn hcovering
      cases hcontinues with
      | covering hn' hcovering' hdistance =>
        obtain rfl := Option.some.inj (hn.symm.trans hn')
        obtain rfl := Option.some.inj (hcovering.symm.trans hcovering')
        exact h.answers hb hdistance rfl
      | tree hchild hparent =>
        obtain ⟨n', hn', hmem⟩ := hgraph.wellFormed.exists_parent hchild hparent
        obtain rfl := Option.some.inj (hn.symm.trans hn')
        simp [hleaf] at hmem

theorem of_deductions (h : gen.Grounded) {analysis : Analysis S P K}
    (hgraph : gen.graph.Disciplined analysis) (hdeductions : gen.Deductions gen') :
    gen'.Grounded := by
  induction hdeductions with
  | refl => exact h
  | tail hbefore hlast ih =>
    exact ih.of_deduction ((Deductions.writes hbefore).graph ▸ hgraph) hlast

/-! ### Graphs -/

/-- **Covering a leaf takes no answers away**: a leaf that was not covered has no finite distance. -/
theorem cover (h : gen.Grounded) (hwf : gen.graph.WellFormed) {coverer : NodeId} {a b : Node S}
    {graph : Graph S} {u : Unit} (ha : gen.graph.get? id = some a)
    (hb : gen.graph.get? coverer = some b) (hleaf : a.succs = [])
    (htarget : a.isTarget = true → b.isTarget = true)
    (hrun : (Graph.cover id coverer).run gen.graph = .ok u graph) :
    Grounded { gen with graph } := by
  obtain ⟨-, a', b', ha', hfree, -, -, hrewritten⟩ := Graph.cover_ok hwf hrun
  obtain rfl := Option.some.inj (ha.symm.trans ha')
  have hkeeps : gen.Keeps { gen with graph } := .of_grows (Graph.grows_of_cover hrun)
  constructor
  · intro i n' d hn' htarget' hd hknown
    obtain ⟨n, hn, rfl⟩ := hrewritten.exists_of_get? hn'
    exact h.target hn htarget' hd hknown
  · intro i n' m hn' htarget' hm hfree'
    obtain ⟨n, hn, rfl⟩ := hrewritten.exists_of_get? hn'
    simp only [Graph.coverNode] at hfree'
    split at hfree'
    · simp at hfree'
    · have hsuccs := h.uncovered hn htarget' hm hfree'
      exact hsuccs
  · intro i n' c m hn' htarget' hm hcovering
    obtain ⟨n, hn, rfl⟩ := hrewritten.exists_of_get? hn'
    simp only [Graph.coverNode] at hcovering
    split at hcovering
    · rename_i hmoved
      obtain rfl := Option.some.inj hcovering
      obtain rfl | hmoved := hmoved
      · obtain rfl := Option.some.inj (ha.symm.trans hn)
        exact absurd hleaf (h.uncovered ha htarget' hm hfree)
      · obtain ⟨a', ha', hanswer⟩ := h.covered hn htarget' hm hmoved
        obtain rfl := Option.some.inj (ha.symm.trans ha')
        obtain ⟨hatarget, hzero⟩ | ⟨hatarget, hm'⟩ := hanswer
        · exact Answers.keeps ⟨b, hb, .inl ⟨htarget hatarget, hzero⟩⟩ rfl hkeeps
        · exact absurd hleaf (h.uncovered ha hatarget hm' hfree)
    · exact (h.covered hn htarget' hm hcovering).keeps rfl hkeeps

/-- New leaves have no distances. -/
theorem of_addedLeaves (h : gen.Grounded) {parent : Option NodeId} {new : List NodeId}
    {graph : Graph S} (hnode : ∀ {i k}, gen.searchNodes.get? i = some k →
      ∃ n, gen.graph.get? i = some n)
    (hadded : Graph.AddedLeaves parent new gen.graph graph) : Grounded { gen with graph } := by
  have hkeeps : gen.Keeps { gen with graph } := .of_grows hadded.grows
  have hold : ∀ {i n' d}, graph.get? i = some n' → gen.distance i = .ok d → ∃ n,
      gen.graph.get? i = some n ∧ n.Grows n' ∧ n'.covering = n.covering := by
    intro i n' d hn' hd
    obtain ⟨k, hk, -⟩ := distance_eq_ok.1 hd
    obtain ⟨n, hn⟩ := hnode hk
    obtain ⟨m, hm, hgrows, hcovering, -⟩ := hadded.exists_old (hadded.notMem hn) hn'
    exact ⟨m, hm, hgrows, hcovering⟩
  constructor
  · intro i n' d hn' htarget hd hknown
    obtain ⟨n, hn, hgrows, -⟩ := hold hn' hd
    exact h.target hn (hgrows.isTarget ▸ htarget) hd hknown
  · intro i n' m hn' htarget hm hfree hleaf
    obtain ⟨n, hn, hgrows, hcovering⟩ := hold hn' hm
    refine h.uncovered hn (hgrows.isTarget ▸ htarget) hm (hcovering ▸ hfree) ?_
    exact List.prefix_nil.1 (hleaf ▸ hgrows.succs)
  · intro i n' c m hn' htarget hm hcov
    obtain ⟨n, hn, hgrows, hcovering⟩ := hold hn' hm
    exact (h.covered hn (hgrows.isTarget ▸ htarget) hm (hcovering ▸ hcov)).keeps rfl hkeeps

end Grounded

/-! ## Dependence on an older generation -/

/-- The provider of a node is in the older generation and subsumes it. -/
def ProvidedBy (analysis : Analysis S P K) (gen older : Generation S P K) : Prop :=
  ∀ i k q, gen.searchNodes.get? i = some k → k.provider = some q → ∃ n m,
    gen.graph.get? i = some n ∧ older.graph.get? q = some m ∧ analysis.isLeq n.state m.state = true

/-- What is known of the heuristics is what the providers answer; targets do not ask them. -/
def Inherits (gen older : Generation S P K) : Prop :=
  ∀ i k q n, gen.searchNodes.get? i = some k → k.provider = some q → gen.graph.get? i = some n →
    n.isTarget = false → k.heuristic.isKnown = true → older.Answers q k.heuristic

theorem ProvidedBy.keeps {analysis : Analysis S P K} (h : gen.ProvidedBy analysis older)
    (hkeeps : older.Keeps older') : gen.ProvidedBy analysis older' := by
  intro i k q hk hq
  obtain ⟨n, m, hn, hm, hleq⟩ := h i k q hk hq
  obtain ⟨m', hm', hgrows⟩ := hkeeps.grows.node hm
  exact ⟨n, m', hn, hm', hgrows.state ▸ hleq⟩

theorem Inherits.keeps (h : gen.Inherits older) (hkeeps : older.Keeps older') :
    gen.Inherits older' := fun i k q n hk hq hn htarget hknown =>
  (h i k q n hk hq hn htarget hknown).keeps hknown hkeeps

/-- Each search node of the second generation has the provider and the heuristic that it had in the
first one, and belongs to the same graph node. -/
def Carries (gen gen' : Generation S P K) : Prop :=
  ∀ i k', gen'.searchNodes.get? i = some k' → ∃ k n n', gen.searchNodes.get? i = some k ∧
    k'.provider = k.provider ∧ k'.heuristic = k.heuristic ∧ gen.graph.get? i = some n ∧
    gen'.graph.get? i = some n' ∧ n'.state = n.state ∧ n'.isTarget = n.isTarget

theorem ProvidedBy.carries {analysis : Analysis S P K} (h : gen.ProvidedBy analysis older)
    (hcarries : gen.Carries gen') : gen'.ProvidedBy analysis older := by
  intro i k' q hk' hq
  obtain ⟨k, n, n', hk, hprovider, -, hn, hn', hstate, -⟩ := hcarries i k' hk'
  obtain ⟨n₁, m, hn₁, hm, hleq⟩ := h i k q hk (hprovider ▸ hq)
  obtain rfl := Option.some.inj (hn.symm.trans hn₁)
  exact ⟨n', m, hn', hm, hstate ▸ hleq⟩

theorem Inherits.carries (h : gen.Inherits older) (hcarries : gen.Carries gen') :
    gen'.Inherits older := by
  intro i k' q n' hk' hq hn' htarget hknown
  obtain ⟨k, n, n₁, hk, hprovider, hheuristic, hn, hn₁, -, hsame⟩ := hcarries i k' hk'
  obtain rfl := Option.some.inj (hn'.symm.trans hn₁)
  rw [hheuristic] at hknown ⊢
  exact h i k q n hk (hprovider ▸ hq) hn (hsame ▸ htarget) hknown

/-- A search node was written whose provider subsumes its node. -/
theorem ProvidedBy.rewrites {analysis : Analysis S P K} (h : gen.ProvidedBy analysis older)
    {k' : SearchNode} (hrewrites : gen.Rewrites gen' id k')
    (hnew : ∀ q, k'.provider = some q → ∃ n m, gen.graph.get? id = some n ∧
      older.graph.get? q = some m ∧ analysis.isLeq n.state m.state = true) :
    gen'.ProvidedBy analysis older := by
  intro i k q hk hq
  rw [hrewrites.get?] at hk
  rw [hrewrites.graph]
  split at hk
  · rename_i heq
    obtain rfl := Option.some.inj hk
    exact heq ▸ hnew q hq
  · exact h i k q hk hq

/-- A search node was written whose heuristic is what its provider answers. -/
theorem Inherits.rewrites (h : gen.Inherits older) {k' : SearchNode}
    (hrewrites : gen.Rewrites gen' id k')
    (hnew : ∀ q n, k'.provider = some q → gen.graph.get? id = some n → n.isTarget = false →
      k'.heuristic.isKnown = true → older.Answers q k'.heuristic) : gen'.Inherits older := by
  intro i k q n hk hq hn
  rw [hrewrites.get?] at hk
  rw [hrewrites.graph] at hn
  split at hk
  · rename_i heq
    obtain rfl := Option.some.inj hk
    exact hnew q n hq (heq ▸ hn)
  · exact h i k q n hk hq hn

section

variable (hnode : ∀ {i k}, gen.searchNodes.get? i = some k → ∃ n, gen.graph.get? i = some n)

include hnode

theorem carries_of_grows {graph : Graph S} (h : gen.graph.Grows graph) :
    gen.Carries { gen with graph } := by
  intro i k hk
  obtain ⟨n, hn⟩ := hnode hk
  obtain ⟨n', hn', hgrows⟩ := h.node hn
  exact ⟨k, n, n', hk, rfl, rfl, hn, hn', hgrows.state, hgrows.isTarget⟩

theorem carries_of_distanceWrites (h : DistanceWrites gen gen') : gen.Carries gen' := by
  intro i k' hk'
  obtain ⟨-, hnone⟩ | ⟨k, d, hk, hd, -⟩ := h.searchNode i
  · simp [hnone] at hk'
  · obtain rfl := Option.some.inj (hd.symm.trans hk')
    obtain ⟨n, hn⟩ := hnode hk
    exact ⟨k, n, n, hk, rfl, rfl, hn, h.graph ▸ hn, rfl, rfl⟩

end

end GuidedReach.Generation
