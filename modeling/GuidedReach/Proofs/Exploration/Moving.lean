import GuidedReach.Proofs.Exploration.Moves
import GuidedReach.Proofs.Exploration.Nodes

/-!
# Operations on single nodes are moves

* `Older.Moving` — what is asked of older generations is done in moves.
* `Exploration.ensureHeuristic_moves` — a heuristic is made known, and nothing else changes.
* `Exploration.createSearchNode_moves` — a search node is attached, and the graph stays as it is.
* `Exploration.close_moves`, `Exploration.expand_moves` — covering and expanding.
-/

namespace GuidedReach

variable {S P K : Type} [DecidableEq S] [DecidableEq K]

/-- What is asked of generations below a bound, on demand, is done in moves, in these and older
generations. -/
structure Older.Moving (older : Older S P K) (setup : Setup S P K) (top bound : Nat) : Prop where
  solve : setup.search = .semiOnDemand → ∀ {index start stop} {p q : Progress S P K},
    index < bound → (older.solve index start stop).run p = .ok ((), q) →
      Exploration.Moves setup top (index + 1) p q
  openProvider : setup.search = .semiOnDemand → ∀ {index id} {p q : Progress S P K},
    index < bound → (older.openProvider index id).run p = .ok ((), q) →
      Exploration.Moves setup top (index + 1) p q

theorem Older.Moving.mono {older : Older S P K} {setup : Setup S P K} {top bound index : Nat}
    (h : older.Moving setup top bound) (hle : index ≤ bound) : older.Moving setup top index :=
  ⟨fun hsearch _ _ _ _ _ hlt => h.solve hsearch (Nat.lt_of_lt_of_le hlt hle),
    fun hsearch _ _ _ _ hlt => h.openProvider hsearch (Nat.lt_of_lt_of_le hlt hle)⟩

omit [DecidableEq S] in
/-- A node that was covered has the coverer. -/
theorem Graph.covering_of_cover {g g' : Graph S} {id coverer : NodeId} {u : Unit}
    (h : (cover id coverer).run g = .ok u g') :
    ∃ n, g'.get? id = some n ∧ n.covering = some coverer := by
  simp only [cover, Edit.run_bind_ok] at h
  obtain ⟨_, _, -, _, _, -, _, _, -, _, _, -, _, _, -, _, _, -, _, _, -, _, _, -, _, t, -, hlast⟩ := h
  obtain ⟨⟨n, hn⟩, hrewritten⟩ := rewritten_of_updateNode hlast
  exact ⟨_, hrewritten.get?_of_get? hn, by rw [if_pos rfl]⟩

namespace Exploration

open Explore

variable {setup : Setup S P K} {older : Older S P K} {top index : Nat}
variable {p q : Progress S P K} {gen : Generation S P K} {id : NodeId} {d : Distance}

section

variable (holder : older.Moving setup top index) (hgen : p.history.get? index = some gen)

include holder hgen

/-! ## Heuristics -/

theorem computeHeuristic_moves
    (h : (computeHeuristic setup older index id).run p = .ok (d, q)) :
    Moves setup top index p q ∧ (setup.search ≠ .semiOnDemand → q = p) ∧ d.isKnown = true ∧
      Source setup q.history gen id d := by
  obtain ⟨hknown, ⟨rfl, hsource⟩ | ⟨hsearch, below, k, provider, older', hbelow, hlt, hk, hprovider,
    hsolve, holder', hvalue⟩⟩ := computeHeuristic_cases hgen h
  · exact ⟨.refl _, fun _ => rfl, hknown, hsource⟩
  · have hnested : Moves setup top (below + 1) p (p.tally _) := Move.moves (.nested hsearch)
    exact ⟨(hnested.trans (holder.solve hsearch hlt hsolve)).mono hsearch hlt,
      fun hidle => absurd hsearch hidle, hknown, .provider hbelow holder' hk hprovider hvalue hknown⟩

/-- A heuristic is known already, or it is written after older generations were asked. -/
theorem ensureHeuristic_moves_cases
    (h : (ensureHeuristic setup older index id).run p = .ok (d, q)) :
    ∃ mid, Moves setup top (index + 1) p mid ∧ mid.history.get? index = some gen ∧
      d.isKnown = true ∧
      (q = mid ∧ gen.heuristic id = .ok d ∨
        ∃ gen', Source setup mid.history gen id d ∧ gen.setHeuristic id d = .ok gen' ∧
          q = mid.put index gen') := by
  simp only [ensureHeuristic, run_bind_ok, run_generation_ok, run_lift_ok,
    Generation.searchNode_eq_ok] at h
  obtain ⟨_, _, ⟨hgen', rfl⟩, k, _, ⟨hk, rfl⟩, h⟩ := h
  obtain rfl := Option.some.inj (hgen.symm.trans hgen')
  split at h
  · rename_i hknown
    obtain ⟨rfl, rfl⟩ := run_pure_ok.1 h
    exact ⟨p, .refl p, hgen, hknown, .inl ⟨rfl, Generation.heuristic_eq_ok.2 ⟨k, hk, rfl⟩⟩⟩
  · simp only [run_bind_ok, run_setHeuristic_ok, run_pure_ok] at h
    obtain ⟨value, mid, hvalue, _, _, ⟨gen₁, gen', hgen₁, hset, rfl⟩, rfl, rfl⟩ := h
    obtain ⟨hmoves, hidle, hknown, hsource⟩ := computeHeuristic_moves holder hgen hvalue
    have hmid := (hmoves.frame (Nat.le_refl _)).trans hgen
    obtain rfl := Option.some.inj (hmid.symm.trans hgen₁)
    exact ⟨mid, hmoves.widen hidle, hmid, hknown, .inr ⟨gen', hsource, hset, rfl⟩⟩

/-- **A heuristic is made known**, and nothing else changes in its generation. -/
theorem ensureHeuristic_moves (h : (ensureHeuristic setup older index id).run p = .ok (d, q)) :
    Moves setup top (index + 1) p q ∧ d.isKnown = true ∧ ∃ gen', q.history.get? index = some gen' ∧
      gen'.graph = gen.graph ∧ gen'.heuristic id = .ok d := by
  obtain ⟨mid, hmoves, hmid, hknown, ⟨rfl, hd⟩ | ⟨gen', hsource, hset, rfl⟩⟩ :=
    ensureHeuristic_moves_cases holder hgen h
  · exact ⟨hmoves, hknown, gen, hmid, rfl, hd⟩
  · obtain ⟨_, k, -, -, -, hrewrites, -⟩ := Generation.setHeuristic_ok hset
    have hmove : Move setup top index mid (mid.put index gen') := .heuristic hmid hsource hset
    refine ⟨hmoves.trans hmove.moves, hknown, gen',
      Progress.get?_put_self hmid, hrewrites.graph,
      Generation.heuristic_eq_ok.2 ⟨{ k with heuristic := d }, ?_, rfl⟩⟩
    rw [hrewrites.get?, if_pos rfl]

/-! ## Providers -/

omit hgen in
theorem askForSuccessors_moves {below : Nat} {provider : NodeId} {u : Unit}
    (h : (askForSuccessors setup older index below provider).run p = .ok (u, q)) :
    Moves setup top index p q ∧ (setup.search ≠ .semiOnDemand → q = p) := by
  unfold askForSuccessors at h
  split at h
  · rename_i hexpands
    have hsearch : setup.search = .semiOnDemand := by
      cases hs : setup.search <;> simp_all [SearchType.expandsProviders]
    simp only [run_bind_ok, run_lift_ok, demand_eq_ok, decide_eq_true_eq] at h
    obtain ⟨_, _, ⟨hlt, rfl⟩, hopen⟩ := h
    exact ⟨(holder.openProvider hsearch hlt hopen).mono hsearch hlt,
      fun hidle => absurd hsearch hidle⟩
  · obtain ⟨-, rfl⟩ := run_pure_ok.1 h
    exact ⟨.refl p, fun _ => rfl⟩

omit holder in
theorem uncoveredProvider_moves {below : Nat} (hbelow : gen.provider = some below)
    {provider result : NodeId} {k : SearchNode} (hk : gen.searchNodes.get? id = some k)
    (hprovider : k.provider = some provider) (hid : gen.Promising id)
    (h : (uncoveredProvider index below id provider).run p = .ok (result, q)) :
    Moves setup top (index + 1) p q ∧
      ∃ gen', q.history.get? index = some gen' ∧ gen'.graph = gen.graph := by
  simp only [uncoveredProvider, run_bind_ok, run_node_ok, Graph.node_eq_ok] at h
  obtain ⟨m, _, ⟨older', holder', hm, rfl⟩, h⟩ := h
  split at h
  · rename_i coverer hcovering
    simp only [run_bind_ok, run_generation_ok, run_lift_ok, run_putGeneration_ok, run_pure_ok] at h
    obtain ⟨_, _, ⟨hgen', rfl⟩, edited, _, ⟨hedit, rfl⟩, _, _, rfl, rfl, rfl⟩ := h
    obtain rfl := Option.some.inj (hgen.symm.trans hgen')
    obtain ⟨_, _, hrewrites⟩ := Generation.setProvider_ok hedit
    have hmove : Move setup top index p (p.put index edited) :=
      .repoint hgen hbelow holder' hk hprovider hid hm hcovering hedit
    exact ⟨hmove.moves, edited, Progress.get?_put_self hgen, hrewrites.graph⟩
  · obtain ⟨-, rfl⟩ := run_pure_ok.1 h
    exact ⟨.refl p, gen, hgen, rfl⟩

theorem providerCandidates_moves {below : Nat} (hbelow : gen.provider = some below)
    (hparent : ∀ n parent, gen.graph.get? id = some n → n.parent = some parent →
      gen.Promising parent) {candidates : List NodeId}
    (h : (providerCandidates setup older index below id).run p = .ok (candidates, q)) :
    Moves setup top (index + 1) p q ∧
      ∃ gen', q.history.get? index = some gen' ∧ gen'.graph = gen.graph := by
  simp only [providerCandidates, run_bind_ok, run_generation_ok, run_lift_ok, Graph.node_eq_ok] at h
  obtain ⟨_, _, ⟨hgen', rfl⟩, n, _, ⟨hn, rfl⟩, h⟩ := h
  obtain rfl := Option.some.inj (hgen.symm.trans hgen')
  split at h
  · rename_i parent hn'
    simp only [run_bind_ok, run_lift_ok, Generation.searchNode_eq_ok] at h
    obtain ⟨k, _, ⟨hk, rfl⟩, h⟩ := h
    split at h
    · rename_i provider hprovider
      simp only [run_bind_ok, run_node_ok] at h
      obtain ⟨_, r, hask, provider', s, huncovered, above, _, ⟨_, -, -, rfl⟩, h⟩ := h
      obtain ⟨hasked, hidle⟩ := askForSuccessors_moves holder hask
      have hr := (hasked.frame (Nat.le_refl _)).trans hgen
      obtain ⟨hmoves, hgraph⟩ :=
        uncoveredProvider_moves hr hbelow hk hprovider (hparent n parent hn hn') huncovered
      have hend : s = q := by
        split at h
        · exact (run_pure_ok.1 h).2
        · simp only [run_bind_ok, run_lift_ok, run_pure_ok] at h
          obtain ⟨_, _, ⟨-, hs⟩, -, hq⟩ := h
          exact hs.trans hq
      exact hend ▸ ⟨(hasked.widen hidle).trans hmoves, hgraph⟩
    · simp only [run_bind_ok, run_lift_ok, run_pure_ok] at h
      obtain ⟨_, _, ⟨-, rfl⟩, -, rfl⟩ := h
      exact ⟨.refl p, gen, hgen, rfl⟩
  · simp only [run_bind_ok, run_generation_ok, run_pure_ok] at h
    obtain ⟨_, _, ⟨-, rfl⟩, -, rfl⟩ := h
    exact ⟨.refl p, gen, hgen, rfl⟩

/-- **A provider subsumes the node** that it is found for. -/
theorem findProvider_moves {below : Nat} (hbelow : gen.provider = some below)
    (hparent : ∀ n parent, gen.graph.get? id = some n → n.parent = some parent →
      gen.Promising parent) {found : Option NodeId}
    (h : (findProvider setup older index below id).run p = .ok (found, q)) :
    Moves setup top (index + 1) p q ∧
      (∃ gen', q.history.get? index = some gen' ∧ gen'.graph = gen.graph) ∧
      ∀ provider, found = some provider → ∃ older m n, q.history.get? below = some older ∧
        older.graph.get? provider = some m ∧ gen.graph.get? id = some n ∧
        setup.analysis.isLeq n.state m.state = true := by
  obtain ⟨candidates, gen', older', n, hcandidates, hgen', holder', hn, hlink⟩ := findProvider_cases h
  obtain ⟨hmoves, gen'', hgen'', hgraph⟩ :=
    providerCandidates_moves holder hgen hbelow hparent hcandidates
  obtain rfl := Option.some.inj (hgen'.symm.trans hgen'')
  refine ⟨hmoves, ⟨gen', hgen', hgraph⟩, fun provider hprovider => ?_⟩
  obtain ⟨m, hm, hleq⟩ := hlink provider hprovider
  exact ⟨older', m, n, holder', hm, hgraph ▸ hn, hleq⟩

/-- **A search node is attached**, and the graph stays as it is. -/
theorem createSearchNode_moves
    (hparent : ∀ n parent, gen.graph.get? id = some n → n.parent = some parent →
      gen.Promising parent) {u : Unit}
    (h : (createSearchNode setup older index id).run p = .ok (u, q)) :
    Moves setup top (index + 1) p q ∧
      ∃ gen', q.history.get? index = some gen' ∧ gen'.graph = gen.graph := by
  simp only [createSearchNode, run_bind_ok, run_generation_ok] at h
  obtain ⟨_, _, ⟨hgen', rfl⟩, h⟩ := h
  obtain rfl := Option.some.inj (hgen.symm.trans hgen')
  split at h
  · rename_i below hbelow
    simp only [run_bind_ok, run_generation_ok, run_lift_ok, run_putGeneration_ok] at h
    obtain ⟨found, r, hfound, gen₁, _, ⟨hr, rfl⟩, gen₂, _, ⟨hset, rfl⟩, rfl⟩ := h
    obtain ⟨hmoves, ⟨_, hr', hgraph⟩, hlink⟩ :=
      findProvider_moves holder hgen hbelow hparent hfound
    obtain rfl := Option.some.inj (hr.symm.trans hr')
    obtain ⟨_, hr', hkeeps⟩ := hmoves.exists_keeps hgen
    obtain rfl := Option.some.inj (hr.symm.trans hr')
    have hmove : Move setup top index r (r.put index gen₂) := by
      refine .register hr (fun provider hprovider => ?_) hset
      obtain ⟨older', m, n, holder', hm, hn, hleq⟩ := hlink provider hprovider
      exact ⟨below, older', m, n, hkeeps.provider.trans hbelow, holder', hm, hgraph ▸ hn, hleq⟩
    obtain ⟨-, -, hrewrites⟩ := Generation.register_ok hset
    exact ⟨hmoves.trans hmove.moves, gen₂, Progress.get?_put_self hr,
      hrewrites.graph.trans hgraph⟩
  · simp only [run_bind_ok, run_generation_ok, run_lift_ok, run_putGeneration_ok, run_pure_ok] at h
    obtain ⟨_, _, ⟨rfl, rfl⟩, gen₁, _, ⟨hgen₁, rfl⟩, gen₂, _, ⟨hset, rfl⟩, rfl⟩ := h
    obtain rfl := Option.some.inj (hgen.symm.trans hgen₁)
    have hmove : Move setup top index p (p.put index gen₂) := .register hgen (by simp) hset
    obtain ⟨-, -, hrewrites⟩ := Generation.register_ok hset
    exact ⟨hmove.moves, gen₂, Progress.get?_put_self hgen, hrewrites.graph⟩

theorem forM_createSearchNode_moves {ids : List NodeId}
    (hparent : ∀ i ∈ ids, ∀ n parent, gen.graph.get? i = some n → n.parent = some parent →
      gen.Promising parent) {u : Unit}
    (h : (ids.forM (createSearchNode setup older index)).run p = .ok (u, q)) :
    Moves setup top (index + 1) p q ∧
      ∃ gen', q.history.get? index = some gen' ∧ gen'.graph = gen.graph := by
  refine run_forM_induct (motive := fun r => Moves setup top (index + 1) p r ∧
    ∃ gen', r.history.get? index = some gen' ∧ gen'.graph = gen.graph) ?_ ⟨.refl p, gen, hgen, rfl⟩ h
  rintro i r r' hi ⟨hmoves, gen₁, hr, hgraph⟩ hcreate
  obtain ⟨_, hr', hkeeps⟩ := hmoves.exists_keeps hgen
  obtain rfl := Option.some.inj (hr.symm.trans hr')
  obtain ⟨hmoves', gen', hgen', hgraph'⟩ := createSearchNode_moves holder hr
    (fun n parent hn hp => (hparent i hi n parent (hgraph ▸ hn) hp).keeps hkeeps) hcreate
  exact ⟨hmoves.trans hmoves', gen', hgen', hgraph'.trans hgraph⟩

/-! ## Covering and expanding -/

/-- An open leaf is covered, or the graph stays as it is. -/
theorem coverByOneOf_moves {a : Node S} (ha : gen.graph.get? id = some a) (hleaf : a.succs = [])
    (hopen : a.isExpanded = false) {above : Distance} {candidates : List NodeId}
    {result : Option NodeId}
    (h : (coverByOneOf setup older index id a.isTarget above candidates).run p = .ok (result, q)) :
    Moves setup top (index + 1) p q ∧ ∃ gen', q.history.get? index = some gen' ∧
      (result = none → gen'.graph = gen.graph) ∧
      ∀ c, result = some c → ∃ n, gen'.graph.get? id = some n ∧ n.covering = some c := by
  induction candidates generalizing p gen with
  | nil =>
    obtain ⟨rfl, rfl⟩ := run_pure_ok.1 h
    exact ⟨.refl p, gen, hgen, fun _ => rfl, by simp⟩
  | cons candidate rest ih =>
    simp only [coverByOneOf, run_bind_ok, run_generation_ok, run_lift_ok, Graph.node_eq_ok] at h
    obtain ⟨_, _, ⟨hgen', rfl⟩, b, _, ⟨hb, rfl⟩, h⟩ := h
    obtain rfl := Option.some.inj (hgen.symm.trans hgen')
    split at h
    · exact ih hgen ha h
    · rename_i htarget
      simp only [run_bind_ok, run_lift_ok] at h
      obtain ⟨may, _, ⟨hmay, rfl⟩, h⟩ := h
      split at h
      · exact ih hgen ha h
      · rename_i hmay'
        obtain rfl : may = true := by simpa using hmay'
        simp only [run_bind_ok, run_lift_ok] at h
        obtain ⟨below, r, hensure, less, _, ⟨-, rfl⟩, h⟩ := h
        obtain ⟨hmoves, -, gen₁, hr, hgraph, -⟩ := ensureHeuristic_moves holder hgen hensure
        split at h
        · obtain ⟨hmoves', gen', hgen', hsame, hcovered⟩ := ih hr (hgraph ▸ ha) h
          exact ⟨hmoves.trans hmoves', gen', hgen', fun hnone => (hsame hnone).trans hgraph, hcovered⟩
        · simp only [run_bind_ok, run_editGraph_ok, run_count_ok, run_pure_ok] at h
          obtain ⟨_, _, ⟨gen₂, graph, hgen₂, hcover, rfl⟩, _, _, rfl, rfl, rfl⟩ := h
          obtain rfl := Option.some.inj (hr.symm.trans hgen₂)
          have hmove : Move setup top index r ((r.put index { gen₁ with graph }).tally _) :=
            .cover hr (hgraph ▸ ha) (hgraph ▸ hb) hleaf hopen
              (fun hta => by simpa [hta] using htarget) (hgraph ▸ hmay) hcover
          refine ⟨hmoves.trans hmove.moves, { gen₁ with graph },
            Progress.get?_put_self hr, by simp, fun c hc => ?_⟩
          obtain rfl := Option.some.inj hc
          exact Graph.covering_of_cover hcover

theorem close_moves {result : Option NodeId}
    (h : (close setup older index id).run p = .ok (result, q)) :
    Moves setup top (index + 1) p q ∧ ∃ gen', q.history.get? index = some gen' ∧
      (result = none → gen'.graph = gen.graph) ∧
      ∀ c, result = some c → ∃ n, gen'.graph.get? id = some n ∧ n.covering = some c := by
  simp only [close, run_bind_ok, run_generation_ok, run_lift_ok, Graph.node_eq_ok] at h
  obtain ⟨_, _, ⟨hgen', rfl⟩, a, _, ⟨ha, rfl⟩, h⟩ := h
  obtain rfl := Option.some.inj (hgen.symm.trans hgen')
  split at h
  · obtain ⟨rfl, rfl⟩ := run_pure_ok.1 h
    exact ⟨.refl p, gen, hgen, fun _ => rfl, by simp⟩
  · rename_i hclosable
    simp only [Bool.or_eq_true, Bool.not_eq_true', not_or, Bool.not_eq_true, Bool.not_eq_false,
      Node.isLeaf, List.isEmpty_iff] at hclosable
    simp only [run_bind_ok, run_lift_ok] at h
    obtain ⟨above, _, ⟨-, rfl⟩, _, _, ⟨-, rfl⟩, candidates, _, ⟨-, rfl⟩, h⟩ := h
    exact coverByOneOf_moves holder hgen ha hclosable.2 hclosable.1.2 h

omit holder in
theorem expand_moves {n : Node S} {new : List NodeId} (hn : gen.graph.get? id = some n)
    (hfree : n.covering = none) (hopen : n.isExpanded = false)
    (hfeasible : n.isFeasible = true ∨ n.isTarget = true ∧ index < top)
    (h : (expand setup index id).run p = .ok (new, q)) :
    Moves setup top (index + 1) p q ∧ ∃ graph, q.history.get? index = some { gen with graph } ∧
      Graph.AddedLeaves (some id) new gen.graph graph := by
  simp only [expand, run_bind_ok, run_generation_ok, run_editGraph_ok, run_count_ok,
    run_pure_ok] at h
  obtain ⟨_, _, ⟨hgen', rfl⟩, _, _, ⟨gen₁, graph, hgen₁, hrun, rfl⟩, _, _, rfl, rfl, rfl⟩ := h
  obtain rfl := Option.some.inj (hgen.symm.trans hgen')
  obtain rfl := Option.some.inj (hgen.symm.trans hgen₁)
  have hmove : Move setup top index p ((p.put index { gen with graph }).tally _) :=
    .expand hgen hn hfree hopen hfeasible hrun
  exact ⟨hmove.moves, graph, Progress.get?_put_self hgen,
    (Graph.expand_leaves hn hopen hrun).1⟩

end

end Exploration

end GuidedReach
