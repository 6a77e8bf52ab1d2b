import GuidedReach.Proofs.Exploration.Guided
import GuidedReach.Proofs.SearchRun.Paced

/-!
# Guided operations on single nodes

While an exhaustive search takes its heuristics from the one before it, what it does to single nodes
meets no fault: heuristics are there to be taken over, and new nodes find their providers.

* `Exploration.Hosts` — a history holds a guided generation.
* `Exploration.Hosts.ensureHeuristic` — the heuristic of a node can be made known.
* `Exploration.Hosts.createSearchNode` — a new node finds its provider.
-/

namespace GuidedReach.Exploration

open Explore

variable {S P K : Type} [DecidableEq K]

/-- The generation with an index is guided, by the one that provides it, if there is one. -/
structure Hosts (setup : Setup S P K) (allowed : P → Prop) (index : Nat)
    (guide : Option (Generation S P K)) (pending : List NodeId) (p : Progress S P K)
    (gen : Generation S P K) : Prop where
  held : p.history.get? index = some gen
  length : p.history.length = index + 1
  faithful : p.history.Faithful setup.analysis allowed
  guided : gen.Guided setup.analysis allowed guide pending
  provider : ∀ charted, guide = some charted → ∃ below, below ≠ index ∧ gen.provider = some below ∧
    p.history.get? below = some charted
  base : guide = none → gen.provider = none

namespace Hosts

variable {setup : Setup S P K} {older : Older S P K} {index : Nat} {allowed : P → Prop} {far : Nat}
variable {guide : Option (Generation S P K)} {pending pending' : List NodeId}
variable {p q : Progress S P K} {gen gen' : Generation S P K} {id : NodeId} {k : SearchNode}

theorem put (h : Hosts setup allowed index guide pending p gen)
    (hguided : gen'.Guided setup.analysis allowed guide pending') (hkeeps : gen.Keeps gen') :
    Hosts setup allowed index guide pending' (p.put index gen') gen' where
  held := Progress.get?_put_self h.held
  length := Progress.length_put.trans h.length
  faithful := Progress.faithful_put h.faithful h.held hguided.faithful hkeeps.prec
  guided := hguided
  provider := by
    intro charted hcharted
    obtain ⟨below, hne, hbelow, hget⟩ := h.provider charted hcharted
    exact ⟨below, hne, hkeeps.provider.trans hbelow, (Progress.get?_put_of_ne hne).trans hget⟩
  base hnone := hkeeps.provider.trans (h.base hnone)

/-- Only the history matters. -/
theorem congr (h : Hosts setup allowed index guide pending p gen) (hsame : q.history = p.history) :
    Hosts setup allowed index guide pending q gen where
  held := hsame ▸ h.held
  length := hsame ▸ h.length
  faithful := hsame ▸ h.faithful
  guided := h.guided
  provider := hsame ▸ h.provider
  base := h.base

/-! ## Heuristics -/

section

variable (h : Hosts setup allowed index guide pending p gen)
variable (hguide : ∀ charted, guide = some charted → charted.Charted setup.analysis allowed far)
variable (hk : gen.searchNodes.get? id = some k)

include h hguide hk

theorem inheritedDistance :
    (inheritedDistance index id).Ensures p fun d q => q = p ∧
      (guide = none → d = .unknown) ∧ (guide ≠ none → d = gen.inherited guide id) := by
  simp only [Exploration.inheritedDistance, ensures_bind, ensures_generation, ensures_lift,
    Generation.searchNode_eq_ok]
  refine ⟨gen, h.held, k, hk, ?_⟩
  cases hcharted : guide with
  | none =>
    rw [h.base hcharted]
    simp
  | some charted =>
    obtain ⟨-, n, hn⟩ := h.guided.held hk
    obtain ⟨below, -, hbelow, hget⟩ := h.provider charted hcharted
    obtain ⟨q, m, hq, -, -, hd, -⟩ := h.guided.provider_distance hguide hcharted hn hk
    simp only [hbelow, hq, ensures_bind, ensures_generation, ensures_lift]
    exact ⟨charted, hget, _, hd, trivial, by simp, fun _ => by rw [hcharted]⟩

/-- **A heuristic can be computed**: it is what is taken over. -/
theorem computeHeuristic (hlaws : setup.analysis.Lawful) :
    (computeHeuristic setup older index id).Ensures p fun d q =>
      q = p ∧ d = gen.inherited guide id := by
  obtain ⟨-, n, hn⟩ := h.guided.held hk
  have hknown := h.guided.isKnown_inherited hguide hk
  simp only [Exploration.computeHeuristic, ensures_bind, ensures_generation, ensures_lift,
    Graph.node_eq_ok]
  refine ⟨gen, h.held, (h.inheritedDistance hguide hk).mono ?_⟩
  rintro d _ - ⟨rfl, hnone, hsome⟩
  refine ⟨n, hn, ?_⟩
  split
  · rename_i htarget
    have hzero := h.guided.inherited_target hguide hlaws hn hk htarget
    simp only [ensures_bind, ensures_lift, demand_eq_ok, ensures_pure]
    refine ⟨(), ?_, trivial, hzero.symm⟩
    by_cases hcharted : guide = none
    · simp [hnone hcharted, Distance.isKnown]
    · simp [hsome hcharted, hzero]
  · split
    · rename_i hbase
      refine ensures_pure.2 ⟨rfl, ?_⟩
      cases hcharted : guide with
      | none => rfl
      | some charted =>
        obtain ⟨below, -, hbelow, -⟩ := h.provider charted hcharted
        simp [hbelow] at hbase
    · rename_i hprovided
      have hcharted : guide ≠ none := fun hnone => by simp [h.base hnone] at hprovided
      rw [hsome hcharted, if_pos hknown]
      exact ensures_pure.2 ⟨rfl, rfl⟩

/-- **The heuristic of a node can be made known**, and nothing else changes. -/
theorem ensureHeuristic (hlaws : setup.analysis.Lawful) :
    (ensureHeuristic setup older index id).Ensures p fun d q => d = gen.inherited guide id ∧
      ∃ gen', Hosts setup allowed index guide pending q gen' ∧ gen'.graph = gen.graph ∧
        gen.Keeps gen' ∧ gen'.heuristic id = .ok d ∧ d.isKnown = true := by
  have hinherited := h.guided.isKnown_inherited hguide hk
  simp only [Exploration.ensureHeuristic, ensures_bind, ensures_generation, ensures_lift,
    Generation.searchNode_eq_ok]
  refine ⟨gen, h.held, k, hk, ?_⟩
  split
  · rename_i hknown
    have hd : gen.heuristic id = .ok k.heuristic := Generation.heuristic_eq_ok.2 ⟨k, hk, rfl⟩
    exact ensures_pure.2 ⟨h.guided.heuristic_eq hd hknown, gen, h, rfl, .refl gen, hd, hknown⟩
  · simp only [ensures_bind]
    refine (h.computeHeuristic hguide hk hlaws).mono ?_
    rintro d _ - ⟨rfl, rfl⟩
    obtain ⟨gen', hset, hguided, hgraph, hkeeps, hd⟩ := h.guided.setHeuristic hguide hlaws hk
    simp only [ensures_setHeuristic, ensures_pure]
    exact ⟨gen, h.held, gen', hset, trivial, gen', h.put hguided hkeeps, hgraph, hkeeps, hd, hinherited⟩

end

/-! ## Providers -/

section

variable {charted : Generation S P K} {below parent : Nat} {n m : Node S} {v : Nat}
variable (hcharted : charted.Charted setup.analysis allowed far) (hlaws : setup.analysis.Lawful)

include hcharted hlaws

/-- The provider of a node that is being searched, or what covers it, is expanded. -/
theorem uncoveredProvider (h : Hosts setup allowed index (some charted) pending p gen)
    (hbelow : gen.provider = some below) (hget : p.history.get? below = some charted)
    (hk : gen.searchNodes.get? parent = some k) {provider : NodeId} (hq : k.provider = some provider)
    (hm : gen.graph.get? parent = some m) (hfeasible : m.isFeasible = true)
    (hv : gen.heuristic parent = .ok (.finite v)) :
    (uncoveredProvider index below parent provider).Ensures p fun result q =>
      q.history.get? below = some charted ∧
      ∃ gen', Hosts setup allowed index (some charted) pending q gen' ∧ gen'.graph = gen.graph ∧
        gen.Keeps gen' ∧ ∃ b, charted.graph.get? result = some b ∧ b.isExpanded = true ∧
          setup.analysis.isLeq m.state b.state = true ∧
          charted.distance result = .ok (.finite v) := by
  obtain ⟨below', hne, hbelow', -⟩ := h.provider charted rfl
  rw [hbelow] at hbelow'
  cases hbelow'
  have hguide : ∀ other, some charted = some other →
      other.Charted setup.analysis allowed far := by
    rintro _ ⟨⟩
    exact hcharted
  obtain ⟨q₀, a, hq₀, ha, hleq, hd, -⟩ := h.guided.provider_distance hguide rfl hm hk
  rw [hq] at hq₀
  cases hq₀
  rw [← h.guided.heuristic_eq hv rfl] at hd
  have hholds : ∀ {b : Node S} {i : NodeId}, charted.graph.get? i = some b →
      setup.analysis.isLeq m.state b.state = true → b.isFeasible = true := by
    intro b i hb hmb
    rw [h.guided.faithful.isFeasible hm, Bool.not_eq_true'] at hfeasible
    rw [hcharted.faithful.isFeasible hb, Bool.not_eq_true']
    refine Bool.eq_false_iff.2 fun hbottom => ?_
    rw [hlaws.isBottom_mono hmb hbottom] at hfeasible
    cases hfeasible
  simp only [Exploration.uncoveredProvider, ensures_bind, ensures_node]
  refine ⟨charted, hget, a, ha, ?_⟩
  cases hcovering : a.covering with
  | none =>
    refine ensures_pure.2 ⟨hget, gen, h, rfl, .refl gen, a, ha, ?_, hleq, hd⟩
    exact hcharted.isExpanded ha hcovering (hholds ha hleq) hd
  | some coverer =>
    obtain ⟨-, -, b, hb, hab⟩ := hcharted.faithful.covering ha hcovering
    obtain ⟨-, b', hb', hfree, -⟩ := hcharted.faithful.wellFormed.covering_link ha hcovering
    rw [hb] at hb'
    cases hb'
    have hmb := hlaws.isLeq_trans hleq hab
    have hfar := hcharted.distance_coverer hlaws ha hcovering hd
    obtain ⟨gen', hset, hguided, hgraph, hkeeps⟩ :=
      h.guided.setProvider hcharted hlaws hk hq ha hcovering
    simp only [ensures_bind, ensures_generation, ensures_lift, ensures_putGeneration, ensures_pure]
    refine ⟨gen, h.held, gen', hset, (Progress.get?_put_of_ne hne).trans hget, gen',
      h.put hguided hkeeps, hgraph, hkeeps, b, hb, ?_, hmb, hfar⟩
    exact hcharted.isExpanded hb hfree (hholds hb hmb) hfar

/-- What makes a node of the guide a provider of a new node: it subsumes the node, and what the
parent of the node takes over does not drop too far to its distance. -/
def Provides (analysis : Analysis S P K) (charted gen : Generation S P K) (n : Node S)
    (provider : NodeId) : Prop :=
  ∃ b d, charted.graph.get? provider = some b ∧ analysis.isLeq n.state b.state = true ∧
    charted.distance provider = .ok d ∧
    ∀ parent, n.parent = some parent → (gen.inherited (some charted) parent).Drops 1 d

/-- **Among the candidates there is a provider**, and whichever of them subsumes the node is one. -/
theorem providerCandidates (hsearch : setup.search = .full)
    (h : Hosts setup allowed index (some charted) (id :: pending) p gen)
    (hn : gen.graph.get? id = some n) (hbelow : gen.provider = some below)
    (hget : p.history.get? below = some charted) :
    (providerCandidates setup older index below id).Ensures p fun candidates q =>
      q.history.get? below = some charted ∧
      ∃ gen', Hosts setup allowed index (some charted) (id :: pending) q gen' ∧
        gen'.graph = gen.graph ∧ gen.Keeps gen' ∧
        (∀ c ∈ candidates, ∃ b, charted.graph.get? c = some b ∧
          (setup.analysis.isLeq n.state b.state = true →
            Provides setup.analysis charted gen' n c)) ∧
        ∃ c ∈ candidates, Provides setup.analysis charted gen' n c := by
  have hsprout := h.guided.sprout List.mem_cons_self hn
  simp only [Exploration.providerCandidates, ensures_bind, ensures_generation, ensures_lift,
    Graph.node_eq_ok]
  refine ⟨gen, h.held, n, hn, ?_⟩
  cases hparent : n.parent with
  | none =>
    simp only [ensures_bind, ensures_generation, ensures_pure]
    have hprovides : ∀ {c b}, charted.graph.get? c = some b →
        setup.analysis.isLeq n.state b.state = true → Provides setup.analysis charted gen n c := by
      intro c b hb hleq
      obtain ⟨d, hd, -⟩ := hcharted.measured.known hb
      exact ⟨b, d, hb, hleq, hd, by simp [hparent]⟩
    refine ⟨charted, hget, hget, gen, h, rfl, .refl gen, fun c hc => ?_, ?_⟩
    · obtain ⟨b, hb, -⟩ := hcharted.faithful.wellFormed.init_parentless hc
      exact ⟨b, hb, hprovides hb⟩
    · obtain ⟨c, b, hc, hb, hleq⟩ := hcharted.exists_init h.guided.finest (hsprout.root hparent)
      exact ⟨c, hc, hprovides hb hleq⟩
  | some parent =>
    obtain ⟨m, v, hm, hfeasible, hstate, hv⟩ := hsprout.child parent hparent
    obtain ⟨k, hk, -⟩ := Generation.heuristic_eq_ok.1 hv
    obtain ⟨provider, -, hq, -⟩ := h.guided.provided rfl hm hk
    have hask : (askForSuccessors setup older index below provider).run p = .ok ((), p) := by
      simp [askForSuccessors, hsearch, SearchType.expandsProviders]
    simp only [ensures_bind, ensures_lift, Generation.searchNode_eq_ok]
    refine ⟨k, hk, ?_⟩
    simp only [hq, ensures_bind, ensures_of_ok hask, ensures_node]
    refine (h.uncoveredProvider hcharted hlaws hbelow hget hk hq hm hfeasible hv).mono ?_
    rintro above q - ⟨hget', gen', h', hgraph, hkeeps, b, hb, hexpanded, hleq, hfar⟩
    refine ⟨charted, hget', b, hb, ?_⟩
    rw [if_pos hexpanded]
    have hprovides : ∀ {c b'}, c ∈ b.succs → charted.graph.get? c = some b' →
        setup.analysis.isLeq n.state b'.state = true → Provides setup.analysis charted gen' n c := by
      intro c b' hc hb' hleq'
      obtain ⟨b'', hb'', hlink⟩ := hcharted.faithful.wellFormed.succ_link hb hc
      obtain ⟨d, hd, -⟩ := hcharted.measured.known hb'
      refine ⟨b', d, hb', hleq', hd, fun p hp => ?_⟩
      obtain rfl : parent = p := Option.some.inj (hparent.symm.trans hp)
      rw [← h'.guided.heuristic_eq (hkeeps.heuristic hv rfl) rfl]
      exact hcharted.measured.drops (.tree hb'' hlink) hfar hd
    refine ensures_pure.2 ⟨hget', gen', h', hgraph, hkeeps, fun c hc => ?_, ?_⟩
    · obtain ⟨b', hb', -⟩ := hcharted.faithful.wellFormed.succ_link hb hc
      exact ⟨b', hb', hprovides hc hb'⟩
    · obtain ⟨c, b', hc, hb', hleq'⟩ :=
        hcharted.exists_succ h.guided.finest hb hexpanded hleq hstate
      exact ⟨c, hc, hprovides hc hb' hleq'⟩

/-- **A new node finds a provider.** -/
theorem findProvider (hsearch : setup.search = .full)
    (h : Hosts setup allowed index (some charted) (id :: pending) p gen)
    (hn : gen.graph.get? id = some n) (hbelow : gen.provider = some below)
    (hget : p.history.get? below = some charted) :
    (findProvider setup older index below id).Ensures p fun found q =>
      ∃ gen', Hosts setup allowed index (some charted) (id :: pending) q gen' ∧
        gen'.graph = gen.graph ∧ gen.Keeps gen' ∧
        ∃ provider, found = some provider ∧ Provides setup.analysis charted gen' n provider := by
  simp only [Exploration.findProvider, ensures_bind]
  refine (h.providerCandidates hcharted hlaws hsearch hn hbelow hget).mono ?_
  rintro candidates q - ⟨hget', gen', h', hgraph, hkeeps, hall, hsome⟩
  simp only [ensures_generation, ensures_lift, Graph.node_eq_ok]
  refine ⟨gen', h'.held, charted, hget', n, hgraph ▸ hn, ?_⟩
  let subsumes (c : NodeId) : Bool :=
    charted.graph.test (fun b => setup.analysis.isLeq n.state b.state) c
  have hsubsumes : ∀ {c b}, charted.graph.get? c = some b →
      subsumes c = setup.analysis.isLeq n.state b.state := by
    intro c b hb
    simp [subsumes, Graph.test, hb]
  rw [ensures_of_ok (run_filterM_of_forall (g := subsumes) fun c hc => ?_)]
  swap
  · obtain ⟨b, hb, -⟩ := hall c hc
    simp only [run_bind_ok, run_lift_ok, Graph.node_eq_ok, run_pure_ok]
    exact ⟨b, q, ⟨hb, rfl⟩, (hsubsumes hb).symm, rfl⟩
  -- whatever is left subsumes the node
  have hleft : ∀ c ∈ candidates.filter subsumes, Provides setup.analysis charted gen' n c := by
    intro c hc
    obtain ⟨hmem, htest⟩ := List.mem_filter.1 hc
    obtain ⟨b, hb, hprovides⟩ := hall c hmem
    exact hprovides (hsubsumes hb ▸ htest)
  let value (c : NodeId) : Distance := (charted.searchNodes.get? c).elim .unknown (·.distance)
  rw [ensures_of_ok (run_mapM_of_forall (g := fun c => (c, value c)) fun c hc => ?_)]
  swap
  · obtain ⟨b, d, -, -, hd, -⟩ := hleft c hc
    obtain ⟨k, hk, rfl⟩ := Generation.distance_eq_ok.1 hd
    simp only [run_bind_ok, run_lift_ok, run_pure_ok]
    exact ⟨k.distance, q, ⟨hd, rfl⟩, by simp [value, hk], rfl⟩
  obtain ⟨provider, hfound, hmem⟩ : ∃ provider,
      (farthest (((candidates.filter subsumes).map fun c => (c, value c)).filter (·.2.isKnown))).or
        (candidates.filter subsumes).head? = some provider ∧
      provider ∈ candidates.filter subsumes := by
    obtain ⟨c, hc, b, d, hb, hleq, -⟩ := hsome
    have hmem : c ∈ candidates.filter subsumes := List.mem_filter.2 ⟨hc, by rw [hsubsumes hb, hleq]⟩
    cases hfar : farthest
        (((candidates.filter subsumes).map fun c => (c, value c)).filter (·.2.isKnown)) with
    | some provider =>
      obtain ⟨entry, hentry, rfl⟩ := mem_of_farthest hfar
      obtain ⟨c', hc', rfl⟩ := List.mem_map.1 (List.mem_filter.1 hentry).1
      exact ⟨c', rfl, hc'⟩
    | none =>
      cases hfirst : candidates.filter subsumes with
      | nil => simp [hfirst] at hmem
      | cons first rest => exact ⟨first, rfl, List.mem_cons_self⟩
  rw [hfound]
  exact ensures_pure.2 ⟨gen', h', hgraph, hkeeps, provider, rfl, hleft provider hmem⟩

end

/-- **A new node gets a search node**, and the graph stays as it is. -/
theorem createSearchNode (h : Hosts setup allowed index guide (id :: pending) p gen)
    (hguide : ∀ charted, guide = some charted → charted.Charted setup.analysis allowed far)
    (hlaws : setup.analysis.Lawful) (hsearch : setup.search = .full) :
    (createSearchNode setup older index id).Ensures p fun _ q =>
      ∃ gen', Hosts setup allowed index guide pending q gen' ∧ gen'.graph = gen.graph ∧
        gen.Keeps gen' := by
  obtain ⟨n, hn⟩ := h.guided.pending_held List.mem_cons_self
  simp only [Exploration.createSearchNode, ensures_bind, ensures_generation]
  refine ⟨gen, h.held, ?_⟩
  cases hcharted : guide with
  | none =>
    obtain ⟨gen', hregister, hguided, hgraph, hkeeps⟩ :=
      h.guided.register hn none (by simp [hcharted])
    simp only [h.base hcharted, ensures_bind, ensures_pure, ensures_generation, ensures_lift,
      ensures_putGeneration]
    exact ⟨gen, h.held, gen', hregister, gen', hcharted ▸ h.put hguided hkeeps, hgraph, hkeeps⟩
  | some charted =>
    subst hcharted
    obtain ⟨below, -, hbelow, hget⟩ := h.provider charted rfl
    simp only [hbelow, ensures_bind]
    refine (h.findProvider (hguide charted rfl) hlaws hsearch hn hbelow hget).mono ?_
    rintro found q - ⟨mid, hmid, hgraph, hkeeps, provider, rfl, b, d, hb, hleq, hd, hdrops⟩
    obtain ⟨gen', hregister, hguided, hgraph', hkeeps'⟩ :=
      hmid.guided.register (hgraph ▸ hn) (some provider) (by
        rintro _ ⟨⟩
        exact ⟨provider, b, d, rfl, hb, hleq, hd, hdrops⟩)
    simp only [ensures_generation, ensures_lift, ensures_putGeneration]
    exact ⟨mid, hmid.held, gen', hregister, gen', hmid.put hguided hkeeps', hgraph'.trans hgraph,
      hkeeps.trans hkeeps'⟩

end Hosts

end GuidedReach.Exploration
