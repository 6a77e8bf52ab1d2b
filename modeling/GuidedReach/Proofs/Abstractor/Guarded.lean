import GuidedReach.Proofs.Abstractor.Course
import GuidedReach.Proofs.Exploration.GuidedRounds

/-!
# From one exhaustive check to the next

An exhaustive check leaves all distances behind, and in the next one each node that is left takes its
heuristic from itself. So no check meets a fault, whatever the caller prunes in between, as long as
precisions become finer.

* `Generation.CopyOf` — a live generation in which nothing is known yet.
* `Abstractor.Guarded` — what holds between exhaustive checks.
* `Abstractor.Guarded.mono`, `Abstractor.Guarded.prune` — it stays so with more precisions and less of
  the graph.
* `Abstractor.Guarded.install` — a check starts with a guided generation.
* `Abstractor.Guarded.check` — a check meets no fault, and leaves its abstractor guarded.
-/

namespace GuidedReach

variable {S P K : Type}

/-! ## More precisions -/

section

variable {analysis : Analysis S P K} {allowed allowed' : P → Prop} {far : Nat}
variable {gen gen' : Generation S P K} {g g' : Graph S} {history : History S P K}
variable (hle : ∀ prec, allowed prec → allowed' prec)

include hle

theorem Graph.Faithful.mono (h : g.Faithful analysis allowed) : g.Faithful analysis allowed' :=
  { h with
    expanded := by
      intro i n hn hexpanded
      obtain ⟨prec, hprec, hall⟩ := h.expanded hn hexpanded
      exact ⟨prec, hle _ hprec, hall⟩
    initialized := by
      intro hinitialized
      obtain ⟨prec, hprec, hall⟩ := h.initialized hinitialized
      exact ⟨prec, hle _ hprec, hall⟩ }

theorem Graph.Grounded.mono (h : g.Grounded analysis allowed) : g.Grounded analysis allowed' where
  faithful := h.faithful.mono hle
  inDomain := h.inDomain
  rooted := by
    intro i n hn hparent
    obtain ⟨prec, hprec, hstate⟩ := h.rooted hn hparent
    exact ⟨prec, hle _ hprec, hstate⟩

theorem History.Faithful.mono (h : history.Faithful analysis allowed) :
    history.Faithful analysis allowed' := by
  intro i gen hgen
  obtain ⟨hfaithful, hprec⟩ := h i gen hgen
  exact ⟨hfaithful.mono hle, hle _ hprec⟩

theorem Generation.Charted.mono (h : gen.Charted analysis allowed far) :
    gen.Charted analysis allowed' far :=
  { h with faithful := h.faithful.mono hle }

end

/-! ## Between checks -/

/-- No new edges. -/
theorem Graph.Remains.edge {g g' : Graph S} (h : g.Remains g') {i j w : Nat}
    (hedge : g'.Edge i j w) : g.Edge i j w := by
  cases hedge with
  | tree hn hparent =>
    obtain ⟨m, hm, -, hparent', -⟩ := h.node hn
    exact .tree hm (hparent'.symm.trans hparent)
  | covering hn hcovering =>
    obtain ⟨m, hm, -, -, -, hcovering'⟩ := h.node hn
    exact .covering hm (hcovering' _ hcovering)

/-- The graph may be pruned. -/
theorem Graph.Grounded.pruned {analysis : Analysis S P K} {allowed : P → Prop} {g g' : Graph S}
    (h : g.Grounded analysis allowed) {root : NodeId} {cut : List NodeId}
    (hpruned : Pruned root cut g g') : g'.Grounded analysis allowed where
  faithful := h.faithful.pruned hpruned
  inDomain := by
    intro i n hn
    obtain ⟨m, hm, hstate, -⟩ := (Remains.of_pruned hpruned).node hn
    exact hstate ▸ h.inDomain hm
  rooted := by
    intro i n hn hparent
    obtain ⟨m, hm, hstate, hparent', -⟩ := (Remains.of_pruned hpruned).node hn
    exact hstate ▸ h.rooted hm (hparent'.symm.trans hparent)

namespace Generation

variable {analysis : Analysis S P K} {allowed : P → Prop} {far : Nat}
variable {gen gen' older live : Generation S P K}

/-- Each node of the older graph takes its heuristic from itself, and nothing else is known. -/
structure CopyOf (older : Generation S P K) (below : Nat) (live : Generation S P K) : Prop where
  provider : live.provider = some below
  searchNode : ∀ {i k}, live.searchNodes.get? i = some k → k = { provider := some i }
  registered : ∀ {i n}, older.graph.get? i = some n → ∃ k, live.searchNodes.get? i = some k

/-- What matters are the graph and the distances. -/
theorem Charted.congr (h : gen.Charted analysis allowed far) (hgraph : gen'.graph = gen.graph)
    (hdistance : ∀ i, gen'.distance i = gen.distance i) : gen'.Charted analysis allowed far := by
  obtain ⟨hfaithful, hinitialized, hmeasured, hroot, hnear, hhandled⟩ := h
  refine ⟨?_, ?_, hmeasured.congr hgraph hdistance, ?_, ?_, ?_⟩
  all_goals simp only [hgraph, hdistance]
  · exact hfaithful
  · exact hinitialized
  · exact hroot
  · exact hnear
  · exact hhandled

section

variable [DecidableEq K]

/-- **A copy is guided** by the generation that it was copied from, whatever is left of its graph. -/
theorem Guided.of_copy (htracked : gen.Tracked []) (hg : gen.graph.Grounded analysis allowed)
    (hfinest : analysis.Finest allowed gen.prec) (hlaws : analysis.Lawful)
    (holder : older.Charted analysis allowed far) (hremains : older.graph.Remains gen.graph)
    (hcopy : ∀ {i k}, gen.searchNodes.get? i = some k → k = { provider := some i }) :
    gen.Guided analysis allowed (some older) [] := by
  have hinherited : ∀ {i n}, gen.graph.get? i = some n →
      older.distance i = .ok (gen.inherited (some older) i) := by
    intro i n hn
    obtain ⟨k, hk⟩ := htracked.registered hn List.not_mem_nil
    obtain ⟨m, hm, -⟩ := hremains.node hn
    obtain ⟨d, hd, -⟩ := holder.measured.known hm
    rw [inherited_eq hk (by rw [hcopy hk]) hd]
    exact hd
  constructor
  · exact htracked
  · exact hg.faithful
  · exact hfinest
  · exact hg.inDomain
  · exact hg.rooted
  · -- root
    intro _ i n hn hparent
    obtain ⟨m, hm, hstate, hparent', -⟩ := hremains.node hn
    rw [hg.faithful.isTarget hn, hstate, ← holder.faithful.isTarget hm]
    exact holder.root hm (hparent'.symm.trans hparent)
  · simp
  · -- provided
    intro charted i n k hcharted hn hk
    cases hcharted
    obtain ⟨m, hm, hstate, -⟩ := hremains.node hn
    exact ⟨i, m, by rw [hcopy hk], hm, hstate ▸ hlaws.isLeq_refl _⟩
  · intro i k hk
    exact .inl (by rw [hcopy hk])
  · intro i k hk
    exact .inl (by rw [hcopy hk])
  · -- drops
    intro i j w hedge _ _
    obtain ⟨⟨a, ha⟩, b, hb⟩ := hedge.exists_nodes hg.faithful.wellFormed
    exact holder.measured.drops (hremains.edge hedge) (hinherited ha) (hinherited hb)

/-- An empty graph needs no guide. -/
theorem Guided.of_empty {prec : P} (hfinest : analysis.Finest allowed prec) :
    ({ graph := {}, prec } : Generation S P K).Guided analysis allowed none [] := by
  have hnode : ∀ {i n}, ({} : Graph S).get? i ≠ some n := by
    intro i n hn
    simp [Graph.get?, NodeMap.get?_empty] at hn
  have hsearch : ∀ {i k}, ({} : NodeMap SearchNode).get? i ≠ some k := by
    intro i k hk
    simp [NodeMap.get?_empty] at hk
  refine ⟨.of_empty prec, .empty, hfinest, fun hn => absurd hn hnode, fun hn => absurd hn hnode,
    fun _ _ _ hn => absurd hn hnode, by simp, fun _ hn => absurd hn hnode,
    fun hk => absurd hk hsearch, fun hk => absurd hk hsearch, fun {i j w} hedge _ _ => ?_⟩
  cases hedge with
  | tree hn => exact absurd hn hnode
  | covering hn => exact absurd hn hnode

end

end Generation

namespace Abstractor

variable {allowed allowed' : P → Prop} {far fuel : Nat} {abstractor abstractor' : Abstractor S P K}
variable {g g' : Graph S} {prec : P} {id : NodeId} {verdict : Verdict}

/-- Nothing was checked yet; or the last check left a charted generation and a copy of it, and the
caller has what is left of the graph. -/
inductive Guarded (allowed : P → Prop) (far : Nat) (abstractor : Abstractor S P K)
    (g : Graph S) : Prop
  | start : abstractor.history.length = 0 → g = {} → Guarded allowed far abstractor g
  | resumed {below : Nat} (older live : Generation S P K) :
    abstractor.history.length = below + 2 →
      abstractor.history.Faithful abstractor.analysis allowed →
      abstractor.history.get? below = some older →
      abstractor.history.get? (below + 1) = some live →
      older.Charted abstractor.analysis allowed far → older.CopyOf below live →
      older.graph.Remains g → g.Grounded abstractor.analysis allowed →
      Guarded allowed far abstractor g

/-- More precisions may be allowed. -/
theorem Guarded.mono (h : Guarded allowed far abstractor g)
    (hle : ∀ prec, allowed prec → allowed' prec) : Guarded allowed' far abstractor g := by
  cases h with
  | start hempty hg => exact .start hempty hg
  | resumed older live hlength hfaithful hbelow hlive hcharted hcopy hremains hg =>
    exact .resumed older live hlength (hfaithful.mono hle) hbelow hlive (hcharted.mono hle) hcopy
      hremains (hg.mono hle)

/-- The caller may prune the graph. -/
theorem Guarded.prune (h : Guarded allowed far abstractor g) {u : Unit}
    (hprune : (Graph.prune id).run g = .ok u g') : Guarded allowed far abstractor g' := by
  cases h with
  | start _ hg =>
    subst hg
    simp only [Graph.prune, Edit.run_bind_ok, Graph.run_readNode_ok] at hprune
    obtain ⟨n, _, ⟨hn, -⟩, -⟩ := hprune
    simp [Graph.get?, NodeMap.get?_empty] at hn
  | resumed older live hlength hfaithful hbelow hlive hcharted hcopy hremains hg =>
    have hpruned := Graph.prune_ok hg.faithful.wellFormed hprune
    exact .resumed older live hlength hfaithful hbelow hlive hcharted hcopy
      (hremains.trans (.of_pruned hpruned)) (hg.pruned hpruned)

/-- The history after a check: the solved generation stays behind, and a copy of it goes on. -/
theorem Guarded.of_frozen {setup : Setup S P K} {index : Nat} {progress : Progress S P K}
    (last : Generation S P K)
    (hlast : Exploration.Concluded setup allowed index progress last)
    (hsetup : setup.analysis = abstractor.analysis)
    (hcharted : last.Charted setup.analysis allowed far)
    (hhistory : abstractor.history = (progress.history.push (last.resetOnto index)).applyRetention.set
      (index + 1) { last.resetOnto index with graph := {} }) :
    Guarded allowed far abstractor last.graph := by
  have hlength : (progress.history.push (last.resetOnto index)).length = index + 2 := by
    rw [History.length_push, hlast.length]
  have hpush : ∀ i, (progress.history.push (last.resetOnto index)).get? i =
      if i = index + 1 then some (last.resetOnto index) else progress.history.get? i := by
    intro i
    rw [History.get?_push, hlast.length]
  have hget : ∀ i, abstractor.history.get? i =
      if i = index + 1 then some { last.resetOnto index with graph := {} }
      else (progress.history.push (last.resetOnto index)).applyRetention.get? i := by
    intro i
    rw [hhistory, History.get?_set (by rw [History.length_applyRetention, hlength]; omega)]
  have hsame : ∀ {old gen : Generation S P K}, gen = old ∨ gen = old.releaseProvider →
      gen.graph = old.graph ∧ gen.prec = old.prec ∧ ∀ i, gen.distance i = old.distance i := by
    rintro old gen (rfl | rfl)
    · exact ⟨rfl, rfl, fun _ => rfl⟩
    · exact ⟨rfl, rfl, old.distance_releaseProvider⟩
  obtain ⟨older, holder, hreleased⟩ := History.exists_get?_applyRetention hlength
    ((hpush index).trans ((if_neg (by omega)).trans hlast.held))
  obtain ⟨hgraph, -, hdistance⟩ := hsame hreleased
  have hcopy : older.CopyOf index { last.resetOnto index with graph := {} } := by
    refine ⟨rfl, fun {i k} (hk : (last.resetOnto index).searchNodes.get? i = some k) => ?_,
      fun {i n} hn => ?_⟩
    · rw [(Generation.exists_of_resetOnto hk).1]
    · obtain ⟨k, hk⟩ := hlast.registered (hgraph ▸ hn)
      exact ⟨_, Generation.get?_resetOnto index hk⟩
  refine .resumed older { last.resetOnto index with graph := {} } ?_ ?_ ?_ ?_ ?_ hcopy
    (hgraph ▸ .refl _) (hsetup ▸ hlast.grounded)
  · rw [hhistory, History.length_set, History.length_applyRetention, hlength]
  · intro i gen hgen
    rw [hget] at hgen
    split at hgen
    · cases hgen
      exact ⟨.empty, (hlast.faithful index last hlast.held).2⟩
    · rename_i hne
      obtain ⟨old, hold, hsame'⟩ := History.exists_of_get?_applyRetention hgen
      rw [hpush, if_neg hne] at hold
      obtain ⟨hgraph', hprec', -⟩ := hsame hsame'
      rw [hgraph', hprec', ← hsetup]
      exact hlast.faithful i old hold
  · rw [hget, if_neg (by omega)]
    exact holder
  · rw [hget, if_pos rfl]
  · exact hsetup ▸ hcharted.congr hgraph hdistance

section

variable [DecidableEq K]
variable (hfinest : abstractor.analysis.Finest allowed prec) (hlaws : abstractor.analysis.Lawful)

include hfinest hlaws

/-- **A check starts with a guided generation**, and all its nodes have search nodes. -/
theorem Guarded.install (h : Guarded allowed far abstractor g) (setup : Setup S P K)
    (hsetup : setup.analysis = abstractor.analysis) (stats : Stats) :
    ∃ history index guide gen, abstractor.install g prec = .ok (history, []) ∧
      Exploration.Hosts setup allowed index guide [] { history, stats } gen ∧
      (∀ charted, guide = some charted → charted.Charted setup.analysis allowed far) ∧
      (guide = none → ∀ {i n}, gen.graph.get? i = some n → n.covering = none) := by
  cases h with
  | start hempty hg =>
    subst hg
    obtain ⟨hinstall, hlength, hget⟩ := install_empty prec hempty
    refine ⟨_, 0, none, { graph := {}, prec }, hinstall, ⟨(hget 0).trans (if_pos rfl), hlength, ?_,
      hsetup ▸ .of_empty hfinest, by simp, fun _ => rfl⟩, by simp, ?_⟩
    · intro i gen hgen
      rw [hget] at hgen
      split at hgen
      · cases hgen
        exact ⟨.empty, hfinest.isAllowed⟩
      · cases hgen
    · intro _ i n hn
      simp [Graph.get?, NodeMap.get?_empty] at hn
  | @resumed below older live hlength hfaithful hbelow hheld hcharted hcopy hremains hg =>
    have hlive : abstractor.history.live? = some live := by
      rw [History.live?_eq_some, hlength]
      exact hheld
    obtain ⟨gen, hdrop, htracked⟩ := Generation.exists_dropPruned
      abstractor.analysis { live with graph := g, prec } fun {i n} hn => by
        obtain ⟨m, hm, -⟩ := hremains.node hn
        exact hcopy.registered hm
    obtain ⟨hgraph, hprec, hprovider, hsearchNode⟩ := Generation.dropPruned_ok hdrop
    have hget : ∀ i, (abstractor.history.set (abstractor.history.length - 1) gen).get? i =
        if i = below + 1 then some gen else abstractor.history.get? i := by
      intro i
      rw [History.get?_set (by omega), hlength]
      rfl
    have hgen : gen.Guided setup.analysis allowed (some older) [] := by
      rw [hsetup]
      refine .of_copy htracked (hgraph ▸ hg) (hprec ▸ hfinest) hlaws hcharted
        (hgraph ▸ hremains) fun {i k} hk => ?_
      rw [hsearchNode] at hk
      split at hk
      · exact hcopy.searchNode hk
      · cases hk
    refine ⟨abstractor.history.set (abstractor.history.length - 1) gen, below + 1, some older, gen, ?_,
      ⟨(hget _).trans (if_pos rfl), ?_, ?_, hgen, ?_, by simp⟩, ?_, by simp⟩
    · simp only [Abstractor.install, hlive, bind_eq_ok, pure_eq_ok]
      exact ⟨gen, hdrop, rfl⟩
    · rw [History.length_set, hlength]
    · intro i old hold
      rw [hget] at hold
      split at hold
      · cases hold
        exact ⟨hsetup ▸ hgraph ▸ hg.faithful, hprec ▸ hfinest.isAllowed⟩
      · exact hsetup ▸ hfaithful i old hold
    · rintro _ ⟨⟩
      refine ⟨below, by omega, hprovider.trans hcopy.provider, ?_⟩
      rw [hget, if_neg (by omega)]
      exact hbelow
    · rintro _ ⟨⟩
      exact hsetup ▸ hcharted

variable [DecidableEq S]

/-- **A check meets no fault.** It leaves its abstractor guarded, or an init node is a target. -/
theorem Guarded.check (h : Guarded allowed fuel abstractor g)
    (hfull : abstractor.config.search = .full) (hfuel : 2 * fuel ≤ Distance.limit) :
    EndsIn (abstractor.check fuel g prec) fun result =>
      result.2.1.analysis = abstractor.analysis ∧ result.2.1.config = abstractor.config ∧
        result.2.2.Grounded abstractor.analysis allowed ∧
        (result.1 = .counterexample → result.2.2.isSafe = false) ∧
        (Guarded allowed fuel result.2.1 result.2.2 ∨ result.2.2.HasInitTarget) := by
  obtain ⟨history, index, guide, gen, hinstall, hhosts, hguide, hfree⟩ :=
    h.install hfinest hlaws (abstractor.setup fuel) rfl abstractor.stats
  have hstop := abstractor.config.full_sees_all hfull
  refine endsIn_check hinstall hhosts.length ⟨gen, hhosts.held⟩ fun stats => ?_
  rw [hstop]
  have hround := (hhosts.congr (q := { history, stats }) rfl).solveLive hguide hlaws hfull
    (by dsimp only [setup]; omega) hfree
  refine hround.mono ?_
  rintro ⟨⟩ solved - ⟨last, hlast⟩
  have hlength : (solved.history.push (last.resetOnto index)).length = index + 2 := by
    rw [History.length_push, hlast.length]
  have hcopy : (solved.history.push (last.resetOnto index)).get? (index + 1) =
      some (last.resetOnto index) := by
    rw [History.get?_push, if_pos hlast.length.symm]
  refine ⟨last, hlast.held, hlast.length, hlast.fits, fun stats => ?_⟩
  have hresume : (Exploration.resumeLive (abstractor.setup fuel) (index + 1)).run
      { history := solved.history.push (last.resetOnto index), stats } =
        .ok ((), { history := solved.history.push (last.resetOnto index), stats }) := by
    simp only [Exploration.resumeLive, setup, hfull]
    rfl
  rw [Explore.ensures_of_ok hresume]
  refine ⟨last.resetOnto index, hcopy, hlength, fun abstractor' hanalysis hconfig hhistory =>
    ⟨hanalysis, hconfig, hlast.grounded, fun hverdict => ?_, ?_⟩⟩
  · show last.graph.isSafe = false
    cases hsafe : last.graph.isSafe with
    | false => rfl
    | true => simp [hsafe] at hverdict
  · rcases hlast.outcome with hcharted | htarget
    · exact .inl (Guarded.of_frozen last hlast hanalysis.symm hcharted hhistory)
    · exact .inr htarget

end

end Abstractor

end GuidedReach
