import GuidedReach.Proofs.Exploration.Keeps

/-!
# The operations of an exploration on single nodes

* `Older.Lawful` — what an exploration relies on in older generations.
* `Exploration.ensureHeuristic_ok` — a heuristic is made known, and nothing else changes.
* `Exploration.createSearchNode_ok` — a search node is attached, and the graph stays as it is.
* `Exploration.close_ok`, `Exploration.expand_ok` — covering and expanding.
-/

namespace GuidedReach

variable {S P K : Type} [DecidableEq S] [DecidableEq K]

/-- What is asked of older generations, on demand, changes nothing but these. -/
structure Older.Lawful (older : Older S P K) (setup : Setup S P K) (allowed : P → Prop)
    (bound : Nat) : Prop where
  solve : setup.search = .semiOnDemand → ∀ {index start stop} {p q : Progress S P K},
    index < bound → (older.solve index start stop).run p = .ok ((), q) →
      p.history.Faithful setup.analysis allowed → Exploration.Upto setup index p q
  openProvider : setup.search = .semiOnDemand → ∀ {index id} {p q : Progress S P K},
    index < bound → (older.openProvider index id).run p = .ok ((), q) →
      p.history.Faithful setup.analysis allowed → Exploration.Upto setup index p q

theorem Older.Lawful.mono {older : Older S P K} {setup : Setup S P K} {allowed : P → Prop}
    {bound index : Nat} (h : older.Lawful setup allowed bound) (hle : index ≤ bound) :
    older.Lawful setup allowed index :=
  ⟨fun hsemi _ _ _ _ _ hlt => h.solve hsemi (Nat.lt_of_lt_of_le hlt hle),
    fun hsemi _ _ _ _ hlt => h.openProvider hsemi (Nat.lt_of_lt_of_le hlt hle)⟩

namespace Exploration

open Explore

variable {setup : Setup S P K} {older : Older S P K} {index : Nat} {allowed : P → Prop}
variable {p q : Progress S P K} {gen : Generation S P K} {id : NodeId} {d : Distance}

/-! ## Heuristics -/

/-- The distance of a provider was asked for, which is counted, and is known now. -/
def AskedFor (setup : Setup S P K) (older : Older S P K) (index : Nat) (p q : Progress S P K)
    (gen : Generation S P K) (id : NodeId) (d : Distance) : Prop :=
  setup.search = .semiOnDemand ∧ ∃ below k provider older', gen.provider = some below ∧
    below < index ∧ gen.searchNodes.get? id = some k ∧ k.provider = some provider ∧
    (older.solve below [provider] .distanceKnowable).run (p.tally fun stats =>
      { stats with nestedSearches := stats.nestedSearches + 1 }) = .ok ((), q) ∧
    q.history.get? below = some older' ∧ older'.distance provider = .ok d

omit [DecidableEq S] [DecidableEq K] in
theorem heuristicWithoutDistance_cases (hgen : p.history.get? index = some gen)
    (h : (heuristicWithoutDistance setup older index id).run p = .ok (d, q)) :
    d.isKnown = true ∧
      (q = p ∧ Source setup p.history gen id d ∨ AskedFor setup older index p q gen id d) := by
  simp only [heuristicWithoutDistance, run_bind_ok, run_generation_ok] at h
  obtain ⟨_, _, ⟨hgen', rfl⟩, h⟩ := h
  obtain rfl := Option.some.inj (hgen.symm.trans hgen')
  split at h
  · exact absurd h (by simp)
  · rename_i hsemi
    simp only [run_bind_ok, run_lift_ok] at h
    obtain ⟨k, _, ⟨hk, rfl⟩, h⟩ := h
    rw [Generation.searchNode_eq_ok] at hk
    split at h
    · rename_i below provider hbelow hprovider
      simp only [run_bind_ok, run_lift_ok, run_count_ok, run_generation_ok, demand_eq_ok,
        decide_eq_true_eq, run_pure_ok] at h
      obtain ⟨_, _, rfl, _, _, ⟨hlt, rfl⟩, _, r, hsolve, older', _, ⟨holder', rfl⟩, value, _,
        ⟨hvalue, rfl⟩, _, _, ⟨hknown, rfl⟩, rfl, rfl⟩ := h
      exact ⟨hknown, .inr ⟨hsemi, below, k, provider, older', hbelow, hlt, hk, hprovider, hsolve,
        holder', hvalue⟩⟩
    · exact absurd h (by simp)
  · rename_i hsearch
    simp only [run_bind_ok, run_lift_ok, Graph.node_eq_ok] at h
    obtain ⟨n, _, ⟨hn, rfl⟩, h⟩ := h
    split at h
    · rename_i hroot
      obtain ⟨rfl, rfl⟩ := run_pure_ok.1 h
      exact ⟨rfl, .inl ⟨rfl, .root hsearch hn hroot⟩⟩
    · rename_i parent hparent
      simp only [run_bind_ok, run_lift_ok] at h
      obtain ⟨above, _, ⟨habove, rfl⟩, h⟩ := h
      split at h
      · obtain ⟨rfl, rfl⟩ := run_pure_ok.1 h
        exact ⟨rfl, .inl ⟨rfl, .parent hsearch hn hparent habove⟩⟩
      · obtain ⟨rfl, rfl⟩ := run_pure_ok.1 h
        exact ⟨rfl, .inl ⟨rfl, .refutedParent hsearch hn hparent habove⟩⟩
      · exact absurd h (by simp)

omit [DecidableEq S] [DecidableEq K] in
theorem inheritedDistance_ok (hgen : p.history.get? index = some gen)
    (h : (inheritedDistance index id).run p = .ok (d, q)) :
    q = p ∧ (d.isKnown = true → Source setup p.history gen id d) := by
  simp only [inheritedDistance, run_bind_ok, run_generation_ok, run_lift_ok,
    Generation.searchNode_eq_ok] at h
  obtain ⟨_, _, ⟨hgen', rfl⟩, k, _, ⟨hk, rfl⟩, h⟩ := h
  obtain rfl := Option.some.inj (hgen.symm.trans hgen')
  split at h
  · rename_i below provider hbelow hprovider
    simp only [run_bind_ok, run_generation_ok, run_lift_ok] at h
    obtain ⟨older', _, ⟨holder', rfl⟩, hvalue, rfl⟩ := h
    exact ⟨rfl, .provider hbelow holder' hk hprovider hvalue⟩
  · obtain ⟨rfl, rfl⟩ := run_pure_ok.1 h
    exact ⟨rfl, by simp [Distance.isKnown]⟩

omit [DecidableEq S] [DecidableEq K] in
/-- A heuristic is computed from what is known, or an older generation is asked for a distance. -/
theorem computeHeuristic_cases (hgen : p.history.get? index = some gen)
    (h : (computeHeuristic setup older index id).run p = .ok (d, q)) :
    d.isKnown = true ∧
      (q = p ∧ Source setup p.history gen id d ∨ AskedFor setup older index p q gen id d) := by
  simp only [computeHeuristic, run_bind_ok, run_generation_ok, run_lift_ok, Graph.node_eq_ok] at h
  obtain ⟨_, _, ⟨hgen', rfl⟩, inherited, r, hinherited, n, _, ⟨hn, rfl⟩, h⟩ := h
  obtain rfl := Option.some.inj (hgen.symm.trans hgen')
  obtain ⟨rfl, hsource⟩ : r = p ∧ (_ → Source setup _ _ _ _) := inheritedDistance_ok hgen hinherited
  split at h
  · rename_i htarget
    simp only [run_bind_ok, run_lift_ok, run_pure_ok] at h
    obtain ⟨_, _, ⟨-, rfl⟩, rfl, rfl⟩ := h
    exact ⟨rfl, .inl ⟨rfl, .target hn htarget⟩⟩
  · split at h
    · rename_i hbase
      obtain ⟨rfl, rfl⟩ := run_pure_ok.1 h
      exact ⟨rfl, .inl ⟨rfl, .base (by simpa using hbase)⟩⟩
    · split at h
      · rename_i hknown
        obtain ⟨rfl, rfl⟩ := run_pure_ok.1 h
        exact ⟨hknown, .inl ⟨rfl, hsource hknown⟩⟩
      · exact heuristicWithoutDistance_cases hgen h

section

variable (holder : older.Lawful setup allowed index)
variable (hp : p.history.Faithful setup.analysis allowed)

include holder hp

theorem computeHeuristic_ok (hgen : p.history.get? index = some gen)
    (h : (computeHeuristic setup older index id).run p = .ok (d, q)) :
    Quiet setup index p q ∧ (setup.search ≠ .semiOnDemand → q = p) ∧
      q.history.get? index = some gen ∧ d.isKnown = true ∧ Source setup q.history gen id d := by
  obtain ⟨hknown, ⟨rfl, hsource⟩ | ⟨hsemi, below, k, provider, older', hbelow, hlt, hk, hprovider,
    hsolve, holder', hvalue⟩⟩ := computeHeuristic_cases hgen h
  · exact ⟨.refl _, fun _ => rfl, hgen, hknown, hsource⟩
  · have hbelow' : Below setup index (p.tally _) q :=
      (holder.solve hsemi hlt hsolve hp).below hsemi hlt
    have hgen' : q.history.get? index = some gen :=
      (hbelow'.frame (Nat.le_refl _)).trans hgen
    refine ⟨.trans ?_ hbelow'.quiet, fun hne => absurd hsemi hne, hgen', hknown,
      .provider hbelow holder' hk hprovider hvalue hknown⟩
    exact Step.quiet (.count Progress.history_tally)

/-- A heuristic is known already, or it is written after older generations were asked. -/
theorem ensureHeuristic_cases (hgen : p.history.get? index = some gen)
    (h : (ensureHeuristic setup older index id).run p = .ok (d, q)) :
    ∃ mid, Quiet setup index p mid ∧ (setup.search ≠ .semiOnDemand → mid = p) ∧
      mid.history.get? index = some gen ∧ d.isKnown = true ∧
      (q = mid ∧ gen.heuristic id = .ok d ∨
        ∃ gen', Source setup mid.history gen id d ∧ gen.setHeuristic id d = .ok gen' ∧
          q = mid.put index gen') := by
  simp only [ensureHeuristic, run_bind_ok, run_generation_ok, run_lift_ok,
    Generation.searchNode_eq_ok] at h
  obtain ⟨_, _, ⟨hgen', rfl⟩, k, _, ⟨hk, rfl⟩, h⟩ := h
  obtain rfl := Option.some.inj (hgen.symm.trans hgen')
  split at h
  · rename_i hknown
    obtain ⟨rfl, rfl⟩ := run_pure_ok.1 h
    exact ⟨p, .refl p, fun _ => rfl, hgen, hknown,
      .inl ⟨rfl, Generation.heuristic_eq_ok.2 ⟨k, hk, rfl⟩⟩⟩
  · simp only [run_bind_ok, run_setHeuristic_ok, run_pure_ok] at h
    obtain ⟨value, mid, hvalue, _, _, ⟨gen₁, gen', hgen₁, hset, rfl⟩, rfl, rfl⟩ := h
    obtain ⟨hquiet, hsame, hmid, hknown, hsource⟩ := computeHeuristic_ok holder hp hgen hvalue
    obtain rfl := Option.some.inj (hmid.symm.trans hgen₁)
    exact ⟨mid, hquiet, hsame, hmid, hknown, .inr ⟨gen', hsource, hset, rfl⟩⟩

/-- **A heuristic is made known**, and nothing else changes in its generation. -/
theorem ensureHeuristic_ok (hgen : p.history.get? index = some gen)
    (h : (ensureHeuristic setup older index id).run p = .ok (d, q)) :
    Quiet setup index p q ∧ d.isKnown = true ∧ ∃ gen', q.history.get? index = some gen' ∧
      gen'.graph = gen.graph ∧ gen'.buckets = gen.buckets ∧ gen'.heuristic id = .ok d := by
  obtain ⟨mid, hquiet, -, hmid, hknown, ⟨rfl, hd⟩ | ⟨gen', hsource, hset, rfl⟩⟩ :=
    ensureHeuristic_cases holder hp hgen h
  · exact ⟨hquiet, hknown, gen, hmid, rfl, rfl, hd⟩
  · obtain ⟨_, k, -, -, -, hrewrites, -⟩ := Generation.setHeuristic_ok hset
    refine ⟨hquiet.trans (Step.quiet (.heuristic hmid hsource hset)), hknown, gen',
      Progress.get?_put_self hmid, hrewrites.graph, Generation.buckets_of_setHeuristic hset,
      Generation.heuristic_eq_ok.2 ⟨{ k with heuristic := d }, ?_, rfl⟩⟩
    rw [hrewrites.get?, if_pos rfl]

/-! ## Providers -/

theorem askForSuccessors_ok {below : Nat} {provider : NodeId} {u : Unit}
    (h : (askForSuccessors setup older index below provider).run p = .ok (u, q)) :
    Below setup index p q := by
  unfold askForSuccessors at h
  split at h
  · rename_i hexpands
    have hsemi : setup.search = .semiOnDemand := by
      cases hs : setup.search <;> simp_all [SearchType.expandsProviders]
    simp only [run_bind_ok, run_lift_ok, demand_eq_ok, decide_eq_true_eq] at h
    obtain ⟨_, _, ⟨hlt, rfl⟩, hopen⟩ := h
    exact (holder.openProvider hsemi hlt hopen hp).below hsemi hlt
  · obtain ⟨-, rfl⟩ := run_pure_ok.1 h
    exact .refl p

omit hp holder in
theorem uncoveredProvider_ok (hgen : p.history.get? index = some gen) {below : Nat}
    (hbelow : gen.provider = some below) {provider result : NodeId} {k : SearchNode}
    (hk : gen.searchNodes.get? id = some k) (hprovider : k.provider = some provider)
    (hknown : k.heuristic.isKnown = true)
    (h : (uncoveredProvider index below id provider).run p = .ok (result, q)) :
    Quiet setup index p q ∧ ∃ gen', q.history.get? index = some gen' ∧ gen'.graph = gen.graph := by
  simp only [uncoveredProvider, run_bind_ok, run_node_ok, Graph.node_eq_ok] at h
  obtain ⟨m, _, ⟨older', holder', hm, rfl⟩, h⟩ := h
  split at h
  · rename_i coverer hcovering
    simp only [run_bind_ok, run_generation_ok, run_lift_ok, run_putGeneration_ok, run_pure_ok] at h
    obtain ⟨_, _, ⟨hgen', rfl⟩, edited, _, ⟨hedit, rfl⟩, _, _, rfl, rfl, rfl⟩ := h
    obtain rfl := Option.some.inj (hgen.symm.trans hgen')
    obtain ⟨_, _, hrewrites⟩ := Generation.setProvider_ok hedit
    exact ⟨Step.quiet (.provider hgen hbelow holder' hk hprovider hknown hm hcovering hedit), edited,
      Progress.get?_put_self hgen, hrewrites.graph⟩
  · obtain ⟨-, rfl⟩ := run_pure_ok.1 h
    exact ⟨.refl p, gen, hgen, rfl⟩

theorem providerCandidates_ok (hgen : p.history.get? index = some gen) {below : Nat}
    (hbelow : gen.provider = some below)
    (hparent : ∀ n parent, gen.graph.get? id = some n → n.parent = some parent →
      ∃ d, gen.heuristic parent = .ok d ∧ d.isKnown = true)
    {candidates : List NodeId}
    (h : (providerCandidates setup older index below id).run p = .ok (candidates, q)) :
    Quiet setup index p q ∧ ∃ gen', q.history.get? index = some gen' ∧ gen'.graph = gen.graph := by
  simp only [providerCandidates, run_bind_ok, run_generation_ok, run_lift_ok, Graph.node_eq_ok] at h
  obtain ⟨_, _, ⟨hgen', rfl⟩, n, _, ⟨hn, rfl⟩, h⟩ := h
  obtain rfl := Option.some.inj (hgen.symm.trans hgen')
  split at h
  · rename_i parent hn'
    simp only [run_bind_ok, run_lift_ok, Generation.searchNode_eq_ok] at h
    obtain ⟨k, _, ⟨hk, rfl⟩, h⟩ := h
    split at h
    · rename_i provider hprovider
      simp only [run_bind_ok, run_node_ok] at h
      obtain ⟨_, r, hask, provider', s, huncovered, above, _, ⟨_, -, -, rfl⟩, h⟩ := h
      have hasked := askForSuccessors_ok holder hp hask
      have hr := (hasked.frame (Nat.le_refl _)).trans hgen
      obtain ⟨d, hd, hknown⟩ := hparent n parent hn hn'
      obtain ⟨k', hk', rfl⟩ := Generation.heuristic_eq_ok.1 hd
      obtain rfl := Option.some.inj (hk.symm.trans hk')
      have hquiet : Quiet setup index r s ∧
          ∃ gen', s.history.get? index = some gen' ∧ gen'.graph = gen.graph :=
        uncoveredProvider_ok hr hbelow hk hprovider hknown huncovered
      have hend : s = q := by
        split at h
        · exact (run_pure_ok.1 h).2
        · simp only [run_bind_ok, run_lift_ok, run_pure_ok] at h
          obtain ⟨_, _, ⟨-, hs⟩, -, hq⟩ := h
          exact hs.trans hq
      exact hend ▸ ⟨hasked.quiet.trans hquiet.1, hquiet.2⟩
    · simp only [run_bind_ok, run_lift_ok, run_pure_ok] at h
      obtain ⟨_, _, ⟨-, rfl⟩, -, rfl⟩ := h
      exact ⟨.refl p, gen, hgen, rfl⟩
  · simp only [run_bind_ok, run_generation_ok, run_pure_ok] at h
    obtain ⟨_, _, ⟨-, rfl⟩, -, rfl⟩ := h
    exact ⟨.refl p, gen, hgen, rfl⟩

omit [DecidableEq S] [DecidableEq K] hp holder in
theorem mem_of_farthest {entries : List (NodeId × Distance)} {best : NodeId}
    (h : farthest entries = some best) : ∃ entry ∈ entries, entry.1 = best := by
  have hfold : ∀ (rest : List (NodeId × Distance)) (first : NodeId × Distance),
      rest.foldl (fun best next => if next.2.notAbove best.2 then best else next) first ∈
        first :: rest := by
    intro rest
    induction rest with
    | nil => simp
    | cons next rest ih =>
      intro first
      rw [List.foldl_cons]
      split
      · exact List.mem_cons.2 ((List.mem_cons.1 (ih first)).imp_right (List.mem_cons_of_mem _))
      · exact List.mem_cons_of_mem _ (ih next)
  cases entries with
  | nil => simp [farthest] at h
  | cons first rest => exact ⟨_, hfold rest first, Option.some.inj h⟩

omit [DecidableEq S] [DecidableEq K] hp holder in
/-- A provider is one of the candidates, and subsumes the node that it is found for. -/
theorem findProvider_cases {below : Nat} {found : Option NodeId}
    (h : (findProvider setup older index below id).run p = .ok (found, q)) :
    ∃ candidates gen' older' n,
      (providerCandidates setup older index below id).run p = .ok (candidates, q) ∧
      q.history.get? index = some gen' ∧ q.history.get? below = some older' ∧
      gen'.graph.get? id = some n ∧ ∀ provider, found = some provider →
        ∃ m, older'.graph.get? provider = some m ∧
          setup.analysis.isLeq n.state m.state = true := by
  simp only [findProvider, run_bind_ok, run_generation_ok, run_lift_ok, Graph.node_eq_ok] at h
  obtain ⟨candidates, r, hcandidates, gen', _, ⟨hgen', rfl⟩, older', _, ⟨holder', rfl⟩, n, _,
    ⟨hn, rfl⟩, subsuming, s, hsubsuming, distances, t, hdistances, h⟩ := h
  obtain ⟨rfl, hmem⟩ := run_filterM_ok (by
    intro a b q q' h
    simp only [run_bind_ok, run_lift_ok, run_pure_ok] at h
    obtain ⟨_, _, ⟨-, rfl⟩, -, rfl⟩ := h
    rfl) hsubsuming
  obtain ⟨rfl, hread⟩ := run_mapM_ok (by
    intro a b q q' h
    simp only [run_bind_ok, run_lift_ok, run_pure_ok] at h
    obtain ⟨_, _, ⟨-, rfl⟩, -, rfl⟩ := h
    rfl) hdistances
  have hsubsumes : ∀ candidate ∈ subsuming, ∃ m, older'.graph.get? candidate = some m ∧
      setup.analysis.isLeq n.state m.state = true := by
    intro candidate hcandidate
    obtain ⟨-, h⟩ := (hmem candidate).1 hcandidate
    simp only [run_bind_ok, run_lift_ok, Graph.node_eq_ok, run_pure_ok] at h
    obtain ⟨m, _, ⟨hm, rfl⟩, hleq, -⟩ := h
    exact ⟨m, hm, hleq⟩
  -- what is chosen is one of the candidates that subsume the node
  have hchosen : ∀ provider,
      (farthest (distances.filter (·.2.isKnown))).or subsuming.head? = some provider →
        provider ∈ subsuming := by
    intro provider hprovider
    rcases Option.or_eq_some_iff.1 hprovider with hfar | ⟨-, hhead⟩
    · obtain ⟨entry, hentry, rfl⟩ := mem_of_farthest hfar
      obtain ⟨candidate, hcandidate, hrun⟩ :=
        hread entry (List.mem_filter.1 hentry).1
      simp only [run_bind_ok, run_lift_ok, run_pure_ok] at hrun
      obtain ⟨_, _, -, rfl, -⟩ := hrun
      exact hcandidate
    · exact List.mem_of_mem_head? hhead
  have hfound : (farthest (distances.filter (·.2.isKnown))).or subsuming.head? = found ∧ r = q := by
    split at h
    · simp only [run_bind_ok, run_lift_ok, run_pure_ok] at h
      obtain ⟨_, _, ⟨-, hr⟩, hfound, hq⟩ := h
      exact ⟨hfound, hr.trans hq⟩
    · exact run_pure_ok.1 h
  obtain ⟨rfl, rfl⟩ := hfound
  exact ⟨candidates, gen', older', n, hcandidates, hgen', holder', hn, fun provider hprovider =>
    hsubsumes provider (hchosen provider hprovider)⟩

/-- **A provider subsumes the node** that it is found for. -/
theorem findProvider_ok (hgen : p.history.get? index = some gen) {below : Nat}
    (hbelow : gen.provider = some below)
    (hparent : ∀ n parent, gen.graph.get? id = some n → n.parent = some parent →
      ∃ d, gen.heuristic parent = .ok d ∧ d.isKnown = true)
    {found : Option NodeId}
    (h : (findProvider setup older index below id).run p = .ok (found, q)) :
    Quiet setup index p q ∧
      (∃ gen', q.history.get? index = some gen' ∧ gen'.graph = gen.graph) ∧
      ∀ provider, found = some provider → ∃ older m n, q.history.get? below = some older ∧
        older.graph.get? provider = some m ∧ gen.graph.get? id = some n ∧
        setup.analysis.isLeq n.state m.state = true := by
  obtain ⟨candidates, gen', older', n, hcandidates, hgen', holder', hn, hlink⟩ := findProvider_cases h
  obtain ⟨hquiet, gen'', hgen'', hgraph⟩ :=
    providerCandidates_ok holder hp hgen hbelow hparent hcandidates
  obtain rfl := Option.some.inj (hgen'.symm.trans hgen'')
  refine ⟨hquiet, ⟨_, hgen', hgraph⟩, fun provider hprovider => ?_⟩
  obtain ⟨m, hm, hleq⟩ := hlink provider hprovider
  exact ⟨older', m, n, holder', hm, hgraph ▸ hn, hleq⟩

/-- **A search node is attached**, and the graph stays as it is. -/
theorem createSearchNode_ok (hlaws : setup.analysis.Lawful)
    (hgen : p.history.get? index = some gen)
    (hparent : ∀ n parent, gen.graph.get? id = some n → n.parent = some parent →
      ∃ d, gen.heuristic parent = .ok d ∧ d.isKnown = true) {u : Unit}
    (h : (createSearchNode setup older index id).run p = .ok (u, q)) :
    Quiet setup index p q ∧ ∃ gen', q.history.get? index = some gen' ∧ gen'.graph = gen.graph := by
  simp only [createSearchNode, run_bind_ok, run_generation_ok] at h
  obtain ⟨_, _, ⟨hgen', rfl⟩, h⟩ := h
  obtain rfl := Option.some.inj (hgen.symm.trans hgen')
  have hregister : ∀ {r : Progress S P K} {provider : Option NodeId} {gen₁ gen₂},
      Quiet setup index p r → r.history.get? index = some gen₁ → gen₁.graph = gen.graph →
      (∀ provider', provider = some provider' → ∃ below older m n, gen₁.provider = some below ∧
        r.history.get? below = some older ∧ older.graph.get? provider' = some m ∧
        gen₁.graph.get? id = some n ∧ setup.analysis.isLeq n.state m.state = true) →
      gen₁.register setup.analysis id { provider } = .ok gen₂ → q = r.put index gen₂ →
      Quiet setup index p q ∧ ∃ gen', q.history.get? index = some gen' ∧ gen'.graph = gen.graph := by
    rintro r provider gen₁ gen₂ hquiet hr hgraph hprovider hset rfl
    obtain ⟨-, -, hrewrites⟩ := Generation.register_ok hset
    exact ⟨hquiet.trans (Step.quiet (.register hr hprovider hset)), gen₂, Progress.get?_put_self hr,
      hrewrites.graph.trans hgraph⟩
  split at h
  · rename_i below hbelow
    simp only [run_bind_ok, run_generation_ok, run_lift_ok, run_putGeneration_ok] at h
    obtain ⟨found, r, hfound, gen₁, _, ⟨hgen₁, rfl⟩, gen₂, _, ⟨hset, rfl⟩, rfl⟩ := h
    obtain ⟨hquiet, ⟨_, hr, hgraph⟩, hlink⟩ := findProvider_ok holder hp hgen hbelow hparent hfound
    obtain rfl := Option.some.inj (hr.symm.trans hgen₁)
    obtain ⟨gen', hgen', hkeeps⟩ := (hquiet.keeps hlaws hp).2 index gen hgen
    obtain rfl := Option.some.inj (hr.symm.trans hgen')
    refine hregister hquiet hr hgraph (fun provider hprovider => ?_) hset rfl
    obtain ⟨older, m, n, holder', hm, hn, hleq⟩ := hlink provider hprovider
    exact ⟨below, older, m, n, hkeeps.provider.trans hbelow, holder', hm, hgraph ▸ hn, hleq⟩
  · simp only [run_bind_ok, run_generation_ok, run_lift_ok, run_putGeneration_ok, run_pure_ok] at h
    obtain ⟨_, _, ⟨rfl, rfl⟩, gen₁, _, ⟨hgen₁, rfl⟩, gen₂, _, ⟨hset, rfl⟩, hq⟩ := h
    obtain rfl := Option.some.inj (hgen.symm.trans hgen₁)
    exact hregister (.refl p) hgen rfl (by simp) hset hq

/-! ## Covering and expanding -/

omit [DecidableEq S] [DecidableEq K] holder hp in
theorem mayCover_ok {g : Graph S} {candidate : NodeId}
    (h : g.mayCover setup.analysis id candidate = .ok true) :
    ∃ a b, g.get? id = some a ∧ g.get? candidate = some b ∧
      setup.analysis.isLeq a.state b.state = true := by
  unfold Graph.mayCover at h
  split at h
  · simp at h
  · simp only [bind_eq_ok, Graph.node_eq_ok, pure_eq_ok, Bool.and_eq_true] at h
    obtain ⟨a, ha, b, hb, hleq, -⟩ := h
    exact ⟨a, b, ha, hb, hleq⟩

/-- Nothing changed, or a node was covered by the result. -/
def CoveredBy (id : NodeId) (result : Option NodeId) (g g' : Graph S) : Prop :=
  match result with
  | none => g' = g
  | some coverer =>
    ∃ a, g.get? id = some a ∧ Graph.Rewritten (Graph.coverNode id coverer a.covered) g g'

/-- **Covering an open leaf.** Either the node is covered now, or the graph stays as it is and no
candidate does. -/
theorem coverByOneOf_ok (hlaws : setup.analysis.Lawful) (hgen : p.history.get? index = some gen)
    {a : Node S} (ha : gen.graph.get? id = some a) (hleaf : a.succs = [])
    (hopen : a.isExpanded = false) {above : Distance} (habove : gen.heuristic id = .ok above)
    (hknown : above.isKnown = true)
    (hdistance : a.isTarget = true ∨ gen.distance id ≠ .ok .infinite) {candidates : List NodeId}
    {result : Option NodeId}
    (h : (coverByOneOf setup older index id a.isTarget above candidates).run p = .ok (result, q)) :
    Quiet setup index p q ∧
      ∃ gen', q.history.get? index = some gen' ∧ CoveredBy id result gen.graph gen'.graph ∧
        gen'.buckets = gen.buckets ∧ (result = none →
          ∀ c ∈ candidates, gen'.Unfit setup.analysis id a.isTarget above c) := by
  induction candidates generalizing p gen with
  | nil =>
    obtain ⟨rfl, rfl⟩ := run_pure_ok.1 h
    exact ⟨.refl p, gen, hgen, rfl, rfl, by simp⟩
  | cons candidate rest ih =>
    simp only [coverByOneOf, run_bind_ok, run_generation_ok, run_lift_ok, Graph.node_eq_ok] at h
    obtain ⟨_, _, ⟨hgen', rfl⟩, b, _, ⟨hb, rfl⟩, h⟩ := h
    obtain rfl := Option.some.inj (hgen.symm.trans hgen')
    -- a candidate that is passed over stays unfit until the end
    have hpass : ∀ {r : Progress S P K} {gen₁ : Generation S P K},
        r.history.Faithful setup.analysis allowed → r.history.get? index = some gen₁ →
        gen₁.graph = gen.graph → gen₁.buckets = gen.buckets →
        gen₁.heuristic id = .ok above → (a.isTarget = true ∨ gen₁.distance id ≠ .ok .infinite) →
        gen₁.Unfit setup.analysis id a.isTarget above candidate →
        (coverByOneOf setup older index id a.isTarget above rest).run r = .ok (result, q) →
        Quiet setup index r q ∧ ∃ gen', q.history.get? index = some gen' ∧
          CoveredBy id result gen.graph gen'.graph ∧ gen'.buckets = gen.buckets ∧
          (result = none →
            ∀ c ∈ candidate :: rest, gen'.Unfit setup.analysis id a.isTarget above c) := by
      intro r gen₁ hr hgen₁ hgraph hbuckets habove₁ hdistance₁ hunfit hrest
      obtain ⟨hquiet, gen', hgen', hcovered, hbuckets', hall⟩ :=
        ih hr hgen₁ (hgraph ▸ ha) habove₁ hdistance₁ hrest
      refine ⟨hquiet, gen', hgen', hgraph ▸ hcovered, hbuckets'.trans hbuckets, fun hnone => ?_⟩
      obtain ⟨gen'', hgen'', hkept⟩ := (hquiet.keeps hlaws hr).2 index gen₁ hgen₁
      obtain rfl := Option.some.inj (hgen'.symm.trans hgen'')
      have hsame : gen'.graph = gen₁.graph := by
        subst hnone
        exact hcovered
      exact List.forall_mem_cons.2 ⟨hunfit.keeps hkept hsame, hall hnone⟩
    split at h
    · rename_i hmismatch
      refine hpass hp hgen rfl rfl habove hdistance (fun _ htarget => ?_) h
      simp only [Bool.and_eq_true, Bool.not_eq_true'] at hmismatch
      have hb' := htarget b hb hmismatch.1
      simp [hmismatch.2] at hb'
    · rename_i htarget
      simp only [run_bind_ok, run_lift_ok] at h
      obtain ⟨may, _, ⟨hmay, rfl⟩, h⟩ := h
      split at h
      · rename_i hnot
        refine hpass hp hgen rfl rfl habove hdistance (fun hmay' => ?_) h
        rw [hmay, Except.ok.injEq] at hmay'
        simp [hmay'] at hnot
      · rename_i hmay'
        simp only [run_bind_ok, run_lift_ok] at h
        obtain ⟨below, r, hensure, less, _, ⟨hless, rfl⟩, h⟩ := h
        obtain ⟨hquiet, hbelow, gen', hr, hgraph, hbuckets, hvalue⟩ :=
          ensureHeuristic_ok holder hp hgen hensure
        obtain ⟨hr', hkept⟩ := hquiet.keeps hlaws hp
        obtain ⟨gen'', hr'', hkeeps⟩ := hkept index gen hgen
        obtain rfl := Option.some.inj (hr.symm.trans hr'')
        have habove' := hkeeps.heuristic habove hknown
        have hdistance' : a.isTarget = true ∨ gen'.distance id ≠ .ok .infinite :=
          hdistance.imp_right fun hne hinfinite => by
            obtain ⟨old, hold, hkept⟩ := hquiet.noNewDistances gen' hr
            obtain rfl := Option.some.inj (hgen.symm.trans hold)
            exact hne (hkept id _ hinfinite rfl)
        rw [Distance.lt_eq_ok hbelow hknown, Except.ok.injEq] at hless
        split at h
        · rename_i hnearer
          obtain ⟨hquiet', hend⟩ := hpass hr' hr hgraph hbuckets habove' hdistance'
            (fun _ _ => ⟨below, hvalue, hbelow, by simpa [hnearer] using hless⟩) h
          exact ⟨hquiet.trans hquiet', hend⟩
        · simp only [run_bind_ok, run_editGraph_ok, run_count_ok, run_pure_ok] at h
          obtain ⟨_, _, ⟨gen₁, graph, hgen₁, hcover, rfl⟩, _, _, rfl, rfl, rfl⟩ := h
          obtain rfl := Option.some.inj (hr.symm.trans hgen₁)
          have hmay' : may = true := by simpa using hmay'
          obtain ⟨a', b', ha', hb', hleq⟩ := mayCover_ok (hmay' ▸ hmay)
          obtain rfl := Option.some.inj (ha.symm.trans ha')
          obtain rfl := Option.some.inj (hb.symm.trans hb')
          have hstep : Step setup index r (r.put index { gen' with graph }) :=
            .cover hr (hgraph ▸ ha) (hgraph ▸ hb) hleaf hopen hleq
              (fun hta => by simpa [hta] using htarget) habove' hvalue hknown hbelow (by simp_all)
              hdistance' hcover
          refine ⟨hquiet.trans (hstep.quiet.trans ?_), { gen' with graph },
            Progress.get?_put_self hr, ?_, hbuckets, by simp⟩
          · exact Step.quiet (.count rfl)
          · obtain ⟨-, a', _, ha', -, -, -, hrewritten⟩ :=
              Graph.cover_ok (hr' index gen' hr).1.wellFormed hcover
            obtain rfl := Option.some.inj ((hgraph ▸ ha).symm.trans ha')
            exact hgraph ▸ ⟨a, hgraph ▸ ha, hrewritten⟩

/-- A node that is closed was an open leaf and is covered now; otherwise the graph stays as it is, and
no other node can stand in for it. -/
theorem close_ok (hlaws : setup.analysis.Lawful) (hgen : p.history.get? index = some gen)
    (hdistance : ∀ a, gen.graph.get? id = some a →
      a.isTarget = true ∨ gen.distance id ≠ .ok .infinite) {result : Option NodeId}
    (h : (close setup older index id).run p = .ok (result, q)) :
    Quiet setup index p q ∧
      ∃ gen', q.history.get? index = some gen' ∧ CoveredBy id result gen.graph gen'.graph ∧
        (result = none → gen'.Uncoverable setup.analysis id) := by
  simp only [close, run_bind_ok, run_generation_ok, run_lift_ok, Graph.node_eq_ok] at h
  obtain ⟨_, _, ⟨hgen', rfl⟩, a, _, ⟨ha, rfl⟩, h⟩ := h
  obtain rfl := Option.some.inj (hgen.symm.trans hgen')
  split at h
  · rename_i hclosed
    obtain ⟨rfl, rfl⟩ := run_pure_ok.1 h
    refine ⟨.refl p, gen, hgen, rfl, fun _ n d c hn hfree hopen hleaf => ?_⟩
    obtain rfl := Option.some.inj (ha.symm.trans hn)
    simp [Node.isCovered, Node.isLeaf, hfree, hopen, hleaf] at hclosed
  · rename_i hclosable
    simp only [Bool.or_eq_true, Bool.not_eq_true', not_or, Bool.not_eq_true, Bool.not_eq_false,
      Node.isLeaf, List.isEmpty_iff] at hclosable
    simp only [run_bind_ok, run_lift_ok, demand_eq_ok] at h
    obtain ⟨above, _, ⟨habove, rfl⟩, _, _, ⟨hknown, rfl⟩, candidates, _, ⟨hcandidates, rfl⟩, h⟩ := h
    simp only [Generation.coveringCandidates, bind_eq_ok, Graph.node_eq_ok, pure_eq_ok] at hcandidates
    obtain ⟨a', ha', rfl⟩ := hcandidates
    obtain rfl := Option.some.inj (ha.symm.trans ha')
    obtain ⟨hquiet, gen', hgen', hcovered, hbuckets, hall⟩ := coverByOneOf_ok holder hp hlaws hgen ha
      hclosable.2 hclosable.1.2 habove hknown (hdistance a ha) h
    refine ⟨hquiet, gen', hgen', hcovered, fun hnone n d c hn _ _ _ hd hc => ?_⟩
    subst hnone
    have hgraph : gen'.graph = gen.graph := hcovered
    obtain rfl := Option.some.inj (ha.symm.trans (hgraph ▸ hn))
    obtain ⟨gen'', hgen'', hkept⟩ := (hquiet.keeps hlaws hp).2 index gen hgen
    obtain rfl := Option.some.inj (hgen'.symm.trans hgen'')
    obtain rfl : d = above := Except.ok.inj (hd.symm.trans (hkept.heuristic habove hknown))
    rw [hbuckets] at hc
    exact hall rfl c hc

omit holder hp in
theorem expand_ok {n : Node S} {new : List NodeId} (hgen : p.history.get? index = some gen)
    (hn : gen.graph.get? id = some n) (hfree : n.covering = none) (hopen : n.isExpanded = false)
    (hfeasible : n.isTarget = true ∨ n.isFeasible = true) (hd : gen.heuristic id = .ok d)
    (hknown : d.isKnown = true)
    (hsearched : n.isTarget = true ∨ d ≠ .infinite ∧ gen.distance id ≠ .ok .infinite)
    (hclosed : gen.Uncoverable setup.analysis id)
    (h : (expand setup index id).run p = .ok (new, q)) :
    Quiet setup index p q ∧ ∃ graph, q.history.get? index = some { gen with graph } ∧
      (Graph.expand setup.analysis id gen.prec).run gen.graph = .ok new graph := by
  simp only [expand, run_bind_ok, run_generation_ok, run_editGraph_ok, run_count_ok,
    run_pure_ok] at h
  obtain ⟨_, _, ⟨hgen', rfl⟩, _, _, ⟨gen₁, graph, hgen₁, hrun, rfl⟩, _, _, rfl, rfl, rfl⟩ := h
  obtain rfl := Option.some.inj (hgen.symm.trans hgen')
  obtain rfl := Option.some.inj (hgen.symm.trans hgen₁)
  have hstep : Step setup index p (p.put index { gen with graph }) :=
    .expand hgen hn hfree hopen hfeasible hd hknown hsearched hclosed hrun
  refine ⟨hstep.quiet.trans ?_, graph, Progress.get?_put_self hgen, hrun⟩
  exact Step.quiet (.count rfl)

end

end Exploration

end GuidedReach
