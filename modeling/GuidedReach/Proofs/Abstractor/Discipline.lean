import GuidedReach.Proofs.Abstractor.Evolution
import GuidedReach.Proofs.Graph.Discipline

/-!
# Covering edges over whole runs

Whatever the caller prunes and whichever precisions it chooses, all graphs stay in order: what covers
can be relied on. So a graph that is handed back is safe if all its targets are infeasible.

* `History.Disciplined` — all graphs that are held are in order.
* `Exploration.Move.disciplined`, `History.Evolves.disciplined` — they stay so.
* `Abstractor.covering_discipline` — what holds of covering edges after every check.
-/

namespace GuidedReach

variable {S P K : Type}

/-! ## Histories -/

/-- All graphs are in order, and infeasible nodes of the live one have no children. -/
structure History.Disciplined (analysis : Analysis S P K) (top : Nat) (history : History S P K) :
    Prop where
  graph : ∀ {i gen}, history.get? i = some gen → gen.graph.Disciplined analysis
  barren : ∀ {gen}, history.get? top = some gen → gen.graph.Barren

namespace History.Disciplined

variable {analysis : Analysis S P K} {top index : Nat} {history : History S P K}
variable {gen gen' : Generation S P K}

/-- Writing a generation whose graph is in order. -/
theorem set (h : history.Disciplined analysis top) (hgen : history.get? index = some gen)
    (hgraph : gen'.graph.Disciplined analysis) (hbarren : index = top → gen'.graph.Barren) :
    (history.set index gen').Disciplined analysis top := by
  refine ⟨fun {i gen₁} hi => ?_, fun {gen₁} hi => ?_⟩ <;>
    rw [History.get?_set (History.lt_length hgen)] at hi <;> split at hi
  · obtain rfl := Option.some.inj hi
    exact hgraph
  · exact h.graph hi
  · rename_i heq
    obtain rfl := Option.some.inj hi
    exact hbarren heq.symm
  · exact h.barren hi

/-- Writing a generation with the same graph. -/
theorem set_of_eq (h : history.Disciplined analysis top) (hgen : history.get? index = some gen)
    (hgraph : gen'.graph = gen.graph) : (history.set index gen').Disciplined analysis top :=
  h.set hgen (hgraph ▸ h.graph hgen) fun heq => hgraph ▸ h.barren (heq ▸ hgen)

end History.Disciplined

variable [DecidableEq S] [DecidableEq K]

/-! ## Moves -/

namespace Exploration

variable {setup : Setup S P K} {top index : Nat} {p q : Progress S P K}

/-- **Moves keep all graphs in order.** -/
theorem Move.disciplined (hmove : Move setup top index p q)
    (htrans : ∀ {a b c}, setup.analysis.isLeq a b = true → setup.analysis.isLeq b c = true →
      setup.analysis.isLeq a c = true) (hp : p.history.Disciplined setup.analysis top) :
    q.history.Disciplined setup.analysis top := by
  cases hmove with
  | nested _ => exact hp
  | heuristic hgen _ hset =>
    obtain ⟨_, _, -, -, -, hrewrites, -⟩ := Generation.setHeuristic_ok hset
    exact hp.set_of_eq hgen hrewrites.graph
  | repoint hgen _ _ _ _ _ _ _ hset =>
    obtain ⟨_, -, hrewrites⟩ := Generation.setProvider_ok hset
    exact hp.set_of_eq hgen hrewrites.graph
  | register hgen _ hset =>
    obtain ⟨-, -, hrewrites⟩ := Generation.register_ok hset
    exact hp.set_of_eq hgen hrewrites.graph
  | cover hgen ha hb hleaf hopen htarget hmay hrun =>
    obtain ⟨_, _, _, -, -, -, -, hrewritten⟩ := Graph.cover_ok (hp.graph hgen).wellFormed hrun
    refine hp.set hgen ((hp.graph hgen).cover htrans ha hb hleaf hopen htarget hmay hrun)
      fun heq => (hp.barren (heq ▸ hgen)).of_nodes fun {i n'} hn' => ?_
    obtain ⟨n, hn, rfl⟩ := hrewritten.exists_of_get? hn'
    exact ⟨n, hn, rfl, id⟩
  | expand hgen hn hfree hopen hfeasible hrun =>
    obtain ⟨hadded, -⟩ := Graph.expand_leaves hn hopen hrun
    refine hp.set hgen ((hp.graph hgen).of_addedLeaves ((hp.graph hgen).wellFormed.expand hrun) hadded
      fun {i m} hi hm => ?_) fun heq => (hp.barren (heq ▸ hgen)).of_addedLeaves hadded
        fun {i m} hi hm => ?_
    · obtain rfl := Option.some.inj hi
      exact Option.some.inj (hn.symm.trans hm) ▸ hfree
    · obtain rfl := Option.some.inj hi
      obtain rfl := Option.some.inj (hn.symm.trans hm)
      obtain hfeasible | ⟨-, hlt⟩ := hfeasible
      · exact hfeasible
      · omega
  | seed hgen hopen hrun =>
    have hadded := Graph.seed_leaves hopen hrun
    exact hp.set hgen ((hp.graph hgen).of_addedLeaves ((hp.graph hgen).wellFormed.seed hrun) hadded
      (by simp)) fun heq => (hp.barren (heq ▸ hgen)).of_addedLeaves hadded (by simp)
  | settle hsettle =>
    obtain ⟨_, _, hgen, hwrites, rfl⟩ := hsettle.exists_writes
    exact hp.set_of_eq hgen hwrites.graph
  | exhaustive hgen _ hsettle =>
    exact hp.set_of_eq hgen (Generation.settleExhaustive_writes hsettle).graph

end Exploration

/-! ## Histories that checks lead to -/

variable {analysis : Analysis S P K} {search : SearchType}

omit [DecidableEq S] [DecidableEq K] in
/-- Pruning keeps a graph in order. -/
theorem Graph.CutBack.disciplined {g g' : Graph S} (h : g.CutBack g') (hg : g.Disciplined analysis)
    (hbarren : g.Barren) : g'.Disciplined analysis ∧ g'.Barren := by
  induction h with
  | refl => exact ⟨hg, hbarren⟩
  | tail _ hlast ih =>
    obtain ⟨hg, hbarren⟩ := ih
    obtain ⟨id, hprune⟩ | rfl := hlast
    · have hpruned := Graph.prune_ok hg.wellFormed hprune
      refine ⟨hg.of_pruned hpruned, hbarren.of_nodes fun {i n'} hn' => ?_⟩
      obtain ⟨-, n, hn, rfl⟩ := hpruned.exists_of_get? hn'
      exact ⟨n, hn, rfl, fun hleaf => by simp [Graph.prunedNode, hleaf]⟩
    · refine ⟨⟨{ hg.wellFormed with }, fun hn hcov => ?_⟩, hbarren⟩
      obtain ⟨hleaf, hopen, hc, hm⟩ := hg.covering hn hcov
      exact ⟨hleaf, hopen, hc.of_nodes fun hm' => ⟨_, hm', rfl, fun _ => id⟩, hm⟩

/-- **All graphs that are held are in order.** -/
theorem History.Evolves.disciplined {top : Nat} {history : History S P K}
    (htrans : ∀ {a b c}, analysis.isLeq a b = true → analysis.isLeq b c = true →
      analysis.isLeq a c = true) (h : history.Evolves analysis search top) :
    history.Disciplined analysis top := by
  induction h with
  | first prec =>
    refine ⟨fun hgen => ?_, fun hgen => ?_⟩ <;> rw [History.eq_of_get?_first hgen]
    · exact .empty
    · simp [Graph.Barren, Graph.get?, NodeMap.get?_empty]
  | move _ _ hmove ih => exact hmove.disciplined htrans ih
  | uncover _ _ hgen _ hrun ih =>
    obtain ⟨_, -, hrewritten⟩ := Graph.uncover_ok (ih.graph hgen).wellFormed hrun
    refine ih.set hgen ((ih.graph hgen).uncover hrun) fun heq =>
      (ih.barren hgen).of_nodes fun {i n'} hn' => ?_
    obtain ⟨n, hn, rfl⟩ := hrewritten.exists_of_get? hn'
    exact ⟨n, hn, rfl, id⟩
  | install _ hgen _ hcut hdrop ih =>
    obtain ⟨hgraph, -⟩ := Generation.dropPruned_ok hdrop
    obtain ⟨hdisciplined, hbarren⟩ := hcut.disciplined (ih.graph hgen) (ih.barren hgen)
    exact ih.set hgen (hgraph ▸ hdisciplined) fun _ => hgraph ▸ hbarren
  | @freeze top history _ hevolves hfreeze ih =>
    obtain ⟨live, hlive, -, rfl⟩ := History.freezeLive_ok hfreeze
    have hlength := hevolves.length
    rw [hlength, Nat.add_sub_cancel] at hlive
    refine ⟨fun {i gen} hi => ?_, fun {gen} hi => ?_⟩ <;>
      rw [History.get?_push, hlength] at hi <;> split at hi
    · have hgraph := ih.graph hlive
      exact Option.some.inj hi ▸ hgraph
    · exact ih.graph hi
    · have hbarren := ih.barren hlive
      exact Option.some.inj hi ▸ hbarren
    · exact absurd rfl ‹_›
  | @retain top history _ ih =>
    have hkept : ∀ {i gen}, history.applyRetention.get? i = some gen →
        ∃ old, history.get? i = some old ∧ gen.graph = old.graph := by
      intro i gen hgen
      obtain ⟨old, hold, rfl | rfl⟩ := History.exists_of_get?_applyRetention hgen
      · exact ⟨gen, hold, rfl⟩
      · exact ⟨old, hold, rfl⟩
    refine ⟨fun hgen => ?_, fun hgen => ?_⟩ <;> obtain ⟨old, hold, hgraph⟩ := hkept hgen <;>
      rw [hgraph]
    · exact ih.graph hold
    · exact ih.barren hold

/-! ## Runs -/

namespace Abstractor

variable {config : Config} {mayFollow : Option P → P → Prop} {lastPrec : Option P}
variable {abstractor abstractor' : Abstractor S P K} {g g' : Graph S} {prec : P} {fuel : Nat}
variable {verdict : Verdict}

/-- **What is covered is an open leaf, and what covers it can be relied on**, in the graph that is
handed back and in all that are held. So that graph is safe if all its targets are infeasible. -/
theorem covering_discipline (h : Run analysis config mayFollow lastPrec abstractor g)
    (htrans : ∀ a b c, analysis.isLeq a b = true → analysis.isLeq b c = true →
      analysis.isLeq a c = true)
    (hcheck : abstractor.check fuel g prec = .ok (verdict, abstractor', g')) :
    g'.CoversReliably analysis ∧
      (∀ {index gen}, (abstractor'.generations g').get? index = some gen →
        gen.graph.CoversReliably analysis) ∧
      (g'.isSafe = true ↔ ∀ {i n}, g'.get? i = some n → n.isTarget = true → n.isFeasible = false) := by
  obtain ⟨history, live, hevolves, hheld, gen, hgen, rfl⟩ := h.evolves hcheck
  have hdisciplined := hevolves.disciplined (htrans _ _ _)
  exact ⟨(hdisciplined.graph hgen).coversReliably, fun hgen' =>
    (hdisciplined.graph (hheld _ ▸ hgen')).coversReliably,
    (hdisciplined.graph hgen).isSafe_iff (hdisciplined.barren hgen)⟩

/-- After one check, a node is covered by the other one with its state, and two targets are left. -/
theorem covering_discipline_detour :
    let config : Config := ⟨.semiOnDemand, .fullExploration, by decide, by decide⟩
    let analysis := TransitionSystem.detour.blockAnalysis
    (∀ a b c, analysis.isLeq a b = true → analysis.isLeq b c = true → analysis.isLeq a c = true) ∧
    ∃ partition abstractor g n, Run analysis config (fun _ _ => True) none { analysis, config } {} ∧
      check { analysis, config } 30 {} partition = .ok (.counterexample, abstractor, g) ∧
      (g.get? 6 = some n ∧ n.covering = some 2) ∧ g.CoversReliably analysis ∧
      (∀ {index gen}, (abstractor.generations g).get? index = some gen →
        gen.graph.CoversReliably analysis) ∧
      g.isSafe = false ∧
      (g.isSafe = true ↔ ∀ {i n}, g.get? i = some n → n.isTarget = true → n.isFeasible = false) := by
  intro config analysis
  let partition := (Partition.initial TransitionSystem.detour).splitAll
    ((List.range 10).map fun s => [s])
  have htrans : ∀ a b c, analysis.isLeq a b = true → analysis.isLeq b c = true →
      analysis.isLeq a c = true := fun _ _ _ =>
    TransitionSystem.detour.blockAnalysis_lawful.isLeq_trans
  have hround : (check { analysis, config } 30 {} partition).map (fun round => do
      let n ← round.2.2.get? 6
      return (round.1, n.covering, round.2.2.isSafe)) =
        .ok (some (.counterexample, some 2, false)) := by
    decide +kernel
  obtain ⟨⟨_, abstractor, g⟩, hcheck, hround⟩ := map_eq_ok.1 hround
  simp only [Option.bind_eq_bind, Option.bind_eq_some_iff, Option.pure_def, Option.some.injEq,
    Prod.mk.injEq] at hround
  obtain ⟨n, hn, rfl, hcovering, hunsafe⟩ := hround
  obtain ⟨hgraph, hall, hsafe⟩ := covering_discipline
    (.start : Run analysis config (fun _ _ => True) none _ _) htrans hcheck
  exact ⟨htrans, partition, abstractor, g, n, .start, hcheck, ⟨hn, hcovering⟩, hgraph, hall, hunsafe,
    hsafe⟩

end Abstractor

end GuidedReach
