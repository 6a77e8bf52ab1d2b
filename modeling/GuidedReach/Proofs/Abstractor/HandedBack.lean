import GuidedReach.Proofs.Abstractor.Course
import GuidedReach.Proofs.Exploration.MovingRounds
import GuidedReach.Proofs.Graph.Severed
import GuidedReach.Proofs.Partition.Blocks

/-!
# What a check hands back

Between the solved generation and the graph that the caller gets lie a copy, new heuristics and, if
heuristics are decreasing, the removal of the covering edges along which they drop. Whatever the analysis
and the history are like, nothing else happens to the graph.

* `Progress.Writes` — one generation was written, and all others are as they were.
* `Generation.drops` — whether the heuristic drops along an edge.
* `Exploration.resumeLive_severs` — what becomes of the copy.
* `Abstractor.Course.phases` — what becomes of the history, phase by phase.
* `Abstractor.Course.leaves` — the solved generation is left behind as it is.
* `Abstractor.check_hands_back` — the graph of the caller against that of the solved generation.
-/

namespace GuidedReach

variable {S P K : Type}

theorem Distance.lt_ok {a b : Distance} {isBelow : Bool} (h : a.lt b = .ok isBelow) :
    isBelow = !b.notAbove a := by
  cases ha : a.isKnown <;> cases hb : b.isKnown
  · cases a <;> simp_all [isKnown, lt, compare, Functor.map, Except.map]
  · cases a <;> simp_all [isKnown, lt, compare, Functor.map, Except.map]
  · cases a <;> cases b <;> simp_all [isKnown, lt, compare, Functor.map, Except.map]
  · exact (Except.ok.inj ((lt_eq_ok ha hb).symm.trans h)).symm

/-! ## Single writes -/

/-- The second history has the generation at the index, and is the first one otherwise. Nothing was
counted. -/
structure Progress.Writes (index : Nat) (gen : Generation S P K) (p q : Progress S P K) : Prop where
  held : q.history.get? index = some gen
  frame : ∀ i, i ≠ index → q.history.get? i = p.history.get? i
  length : q.history.length = p.history.length
  stats : q.stats = p.stats

namespace Progress.Writes

variable {index : Nat} {gen gen' : Generation S P K} {p q r : Progress S P K}

theorem refl (hgen : p.history.get? index = some gen) : Writes index gen p p :=
  ⟨hgen, fun _ _ => rfl, rfl, rfl⟩

theorem put (hgen : p.history.get? index = some gen) : Writes index gen' p (p.put index gen') :=
  ⟨get?_put_self hgen, fun _ hne => get?_put_of_ne hne, length_put, rfl⟩

theorem trans (h : Writes index gen p q) (h' : Writes index gen' q r) : Writes index gen' p r :=
  ⟨h'.held, fun i hi => (h'.frame i hi).trans (h.frame i hi), h'.length.trans h.length,
    h'.stats.trans h.stats⟩

end Progress.Writes

/-- Whether the known heuristic of a node is larger than that of another one. -/
def Generation.drops (gen : Generation S P K) (id coverer : NodeId) : Bool :=
  match gen.heuristic id, gen.heuristic coverer with
  | .ok above, .ok below => !above.notAbove below
  | _, _ => false

/-! ## Going on with the copy -/

namespace Exploration

open Explore

variable [DecidableEq S] [DecidableEq K] {setup : Setup S P K} {older : Older S P K} {index : Nat}
variable {p q : Progress S P K} {gen : Generation S P K} {id : NodeId} {ids : List NodeId}

omit [DecidableEq S] [DecidableEq K] in
/-- Unless searches are on demand, making a heuristic known writes that heuristic at most. -/
theorem ensureHeuristic_writes (hsearch : setup.search ≠ .semiOnDemand) {d : Distance}
    (hgen : p.history.get? index = some gen)
    (h : (ensureHeuristic setup older index id).run p = .ok (d, q)) :
    ∃ gen', Progress.Writes index gen' p q ∧ gen.Keeps gen' ∧ gen'.graph = gen.graph ∧
      gen'.heuristic id = .ok d ∧ d.isKnown = true := by
  simp only [ensureHeuristic, run_bind_ok, run_generation_ok, run_lift_ok,
    Generation.searchNode_eq_ok] at h
  obtain ⟨_, _, ⟨hgen', rfl⟩, k, _, ⟨hk, rfl⟩, h⟩ := h
  obtain rfl := Option.some.inj (hgen.symm.trans hgen')
  split at h
  · rename_i hknown
    obtain ⟨rfl, rfl⟩ := run_pure_ok.1 h
    exact ⟨gen, .refl hgen, .refl gen, rfl, Generation.heuristic_eq_ok.2 ⟨k, hk, rfl⟩, hknown⟩
  · simp only [run_bind_ok, run_setHeuristic_ok, run_pure_ok] at h
    obtain ⟨value, mid, hvalue, _, _, ⟨gen₁, gen', hgen₁, hset, rfl⟩, rfl, rfl⟩ := h
    obtain ⟨hknown, ⟨rfl, -⟩ | hasked⟩ := computeHeuristic_cases hgen hvalue
    · obtain rfl := Option.some.inj (hgen.symm.trans hgen₁)
      obtain ⟨_, _, -, -, -, hrewrites, -⟩ := Generation.setHeuristic_ok hset
      exact ⟨gen', .put hgen, Generation.keeps_of_setHeuristic hset, hrewrites.graph,
        Generation.heuristic_eq_ok.2 ⟨_, by rw [hrewrites.get?, if_pos rfl], rfl⟩, hknown⟩
    · exact absurd hasked.1 hsearch

omit [DecidableEq S] [DecidableEq K] in
theorem forM_ensureHeuristic_writes (hsearch : setup.search ≠ .semiOnDemand)
    (hgen : p.history.get? index = some gen) {u : Unit}
    (h : (ids.forM fun id => do let _ ← ensureHeuristic setup older index id).run p = .ok (u, q)) :
    ∃ gen', Progress.Writes index gen' p q ∧ gen.Keeps gen' ∧ gen'.graph = gen.graph ∧
      ∀ id ∈ ids, ∃ d, gen'.heuristic id = .ok d ∧ d.isKnown = true := by
  induction ids generalizing p gen with
  | nil =>
    obtain ⟨-, rfl⟩ : () = u ∧ p = q := run_pure_ok.1 h
    exact ⟨gen, .refl hgen, .refl gen, rfl, by simp⟩
  | cons id ids ih =>
    obtain ⟨r, hfirst, hrest⟩ := run_forM_cons_ok.1 h
    obtain ⟨d, _, hensure, hend⟩ := run_bind_ok.1 hfirst
    obtain ⟨-, rfl⟩ := run_pure_ok.1 hend
    obtain ⟨gen₁, hwrites, hkeeps, hgraph, hd, hknown⟩ :=
      ensureHeuristic_writes hsearch hgen hensure
    obtain ⟨gen', hwrites', hkeeps', hgraph', hall⟩ := ih hwrites.held hrest
    exact ⟨gen', hwrites.trans hwrites', hkeeps.trans hkeeps', hgraph'.trans hgraph,
      List.forall_mem_cons.2 ⟨⟨d, hkeeps'.heuristic hd hknown, hknown⟩, hall⟩⟩

omit [DecidableEq S] [DecidableEq K] in
/-- The covering edge that leaves a node is removed if the heuristic drops along it. -/
theorem loosen_severs (hgen : p.history.get? index = some gen) (hwf : gen.graph.WellFormed)
    {u : Unit} (h : (loosen index id).run p = .ok (u, q)) :
    Progress.Writes index
      { gen with graph := gen.graph.sever fun i c => i == id && gen.drops i c } p q := by
  -- nothing happens unless there is an edge along which the heuristic drops
  have hkept : (∀ c n, gen.graph.get? id = some n → n.covering = some c → gen.drops id c = false) →
      q = p → Progress.Writes index
        { gen with graph := gen.graph.sever fun i c => i == id && gen.drops i c } p q := by
    rintro hnone rfl
    rw [hwf.sever_eq_self fun {i n c} hn hc => ?_]
    · exact .refl hgen
    · by_cases hi : i = id
      · subst hi
        simp [hnone c n hn hc]
      · simp [hi]
  simp only [loosen, run_bind_ok, run_generation_ok, run_lift_ok, Graph.node_eq_ok] at h
  obtain ⟨_, _, ⟨hgen', rfl⟩, n, _, ⟨hn, rfl⟩, h⟩ := h
  obtain rfl := Option.some.inj (hgen.symm.trans hgen')
  split at h
  · rename_i coverer hcovering
    simp only [run_bind_ok, run_lift_ok] at h
    obtain ⟨below, _, ⟨hbelow, rfl⟩, above, _, ⟨habove, rfl⟩, drops, _, ⟨hlt, rfl⟩, h⟩ := h
    have hdrops : gen.drops id coverer = drops := by
      simp [Generation.drops, habove, hbelow, Distance.lt_ok hlt]
    have hcoverer : ∀ c m, gen.graph.get? id = some m → m.covering = some c → c = coverer := by
      intro c m hm hc
      obtain rfl := Option.some.inj (hn.symm.trans hm)
      exact Option.some.inj (hc.symm.trans hcovering)
    split at h
    · rename_i hdrop
      obtain ⟨_, graph, hgen', hrun, rfl⟩ := run_editGraph_ok.1 h
      obtain rfl := Option.some.inj (hgen.symm.trans hgen')
      rw [hwf.uncover_eq_sever hrun, hwf.sever_congr fun {i m c} hm hc => ?_]
      · exact .put hgen
      · by_cases hi : i = id
        · subst hi
          obtain rfl := hcoverer c m hm hc
          simp [hdrops, hdrop]
        · simp [hi]
    · rename_i hdrop
      refine hkept (fun c m hm hc => ?_) (run_pure_ok.1 h).2.symm
      obtain rfl := hcoverer c m hm hc
      simpa [hdrops] using hdrop
  · rename_i hfree
    refine hkept (fun c m hm hc => ?_) (run_pure_ok.1 h).2.symm
    obtain rfl := Option.some.inj (hn.symm.trans hm)
    exact absurd hc (hfree c)

omit [DecidableEq S] [DecidableEq K] in
theorem forM_loosen_severs (hgen : p.history.get? index = some gen) (hwf : gen.graph.WellFormed)
    {u : Unit} (h : (ids.forM (loosen index)).run p = .ok (u, q)) :
    Progress.Writes index
      { gen with graph := gen.graph.sever fun i c => ids.contains i && gen.drops i c } p q := by
  induction ids generalizing p gen with
  | nil =>
    obtain ⟨-, rfl⟩ : () = u ∧ p = q := run_pure_ok.1 h
    rw [hwf.sever_eq_self (by simp)]
    exact .refl hgen
  | cons id ids ih =>
    obtain ⟨r, hfirst, hrest⟩ := run_forM_cons_ok.1 h
    have hone := loosen_severs hgen hwf hfirst
    have hall := ih hone.held (hwf.sever _) hrest
    have hsame : ∀ {graph : Graph S}, Generation.drops { gen with graph } = gen.drops := rfl
    simp only [hsame, Graph.sever_sever, ← Bool.and_or_distrib_right, ← List.contains_cons] at hall
    exact hone.trans hall

/-- **The copy keeps its graph**, unless heuristics are decreasing: then they are all known in the end,
and the covering edges along which they drop are gone. -/
theorem resumeLive_severs (hgen : p.history.get? index = some gen) (hwf : gen.graph.WellFormed)
    {u : Unit} (h : (resumeLive setup index).run p = .ok (u, q)) :
    ∃ gen', Progress.Writes index gen' p q ∧
      (setup.search ≠ .decreasing → gen'.graph = gen.graph) ∧
      (setup.search = .decreasing → gen'.graph = gen.graph.sever gen'.drops ∧
        ∀ {i n}, gen'.graph.get? i = some n → ∃ d, gen'.heuristic i = .ok d ∧ d.isKnown = true) := by
  unfold resumeLive at h
  split at h
  · rename_i hsearch
    simp only [run_bind_ok, run_generation_ok] at h
    obtain ⟨_, _, ⟨hgen', rfl⟩, _, r, hheuristics, hloosen⟩ := h
    obtain rfl := Option.some.inj (hgen.symm.trans hgen')
    obtain ⟨gen₁, hwrites, -, hgraph, hknown⟩ :=
      forM_ensureHeuristic_writes (by simp [hsearch]) hgen hheuristics
    have hloosened := forM_loosen_severs hwrites.held (hgraph ▸ hwf) hloosen
    refine ⟨_, hwrites.trans hloosened, fun hne => absurd hsearch hne, fun _ => ⟨?_, ?_⟩⟩
    · change Graph.sever _ gen₁.graph = gen.graph.sever gen₁.drops
      rw [hgraph]
      refine hwf.sever_congr fun {i n c} hn _ => ?_
      simp [Graph.mem_ids.2 ⟨n, hn⟩]
    · intro i n hn
      obtain ⟨m, hm, -⟩ := (Graph.rewritten_sever _ _).exists_of_get? hn
      exact hknown i (Graph.mem_ids.2 ⟨m, hgraph ▸ hm⟩)
  · rename_i hsearch
    obtain ⟨-, rfl⟩ := run_pure_ok.1 h
    exact ⟨gen, .refl hgen, fun _ => rfl, fun hdecreasing => absurd hdecreasing hsearch⟩

/-! ## Solving a graph that is new -/

/-- Nodes of a generation without a provider get search nodes. -/
theorem forM_createSearchNode_base (hgen : p.history.get? index = some gen)
    (hbase : gen.provider = none) {u : Unit}
    (h : (ids.forM (createSearchNode setup older index)).run p = .ok (u, q)) :
    Moves setup index (index + 1) p q := by
  refine (run_forM_induct (motive := fun r => Moves setup index (index + 1) p r ∧
    ∃ gen', r.history.get? index = some gen' ∧ gen'.provider = none) ?_ ⟨.refl p, gen, hgen, hbase⟩ h).1
  rintro id r r' - ⟨hmoves, gen₁, hr, hnone⟩ hcreate
  simp only [createSearchNode, run_bind_ok, run_generation_ok] at hcreate
  obtain ⟨_, _, ⟨hr', rfl⟩, hcreate⟩ := hcreate
  obtain rfl := Option.some.inj (hr.symm.trans hr')
  rw [hnone] at hcreate
  simp only [run_bind_ok, run_generation_ok, run_lift_ok, run_putGeneration_ok,
    run_pure_ok] at hcreate
  obtain ⟨_, _, ⟨rfl, rfl⟩, _, _, ⟨hr', rfl⟩, gen₂, _, ⟨hset, rfl⟩, rfl⟩ := hcreate
  obtain rfl := Option.some.inj (hr.symm.trans hr')
  have hmove : Move setup index index r (r.put index gen₂) := .register hr (by simp) hset
  obtain ⟨-, -, hrewrites⟩ := Generation.register_ok hset
  exact ⟨hmoves.trans hmove.moves, gen₂, Progress.get?_put_self hr, hrewrites.provider.trans hnone⟩

/-- The live generation is solved in moves, also if its nodes have no search nodes yet. -/
theorem solveLive_moves_of_fresh {stop : StopCriterion} (hgen : p.history.get? index = some gen)
    (hfresh : ids = [] ∨ gen.provider = none)
    (h : (solveLive setup index ids stop).run p = .ok ((), q)) :
    Moves setup index (index + 1) p q := by
  obtain ⟨⟨⟩, r, hcreate, hrest⟩ := run_bind_ok.1 h
  have hsolve : (solveLive setup index [] stop).run r = .ok ((), q) :=
    run_bind_ok.2 ⟨(), r, run_pure_ok.2 ⟨rfl, rfl⟩, hrest⟩
  refine Moves.trans ?_ (solveLive_moves hsolve)
  obtain rfl | hbase := hfresh
  · obtain ⟨-, rfl⟩ : () = () ∧ p = r := run_pure_ok.1 hcreate
    exact .refl p
  · exact forM_createSearchNode_base hgen hbase hcreate

end Exploration

/-! ## Checks -/

namespace Abstractor

variable [DecidableEq S] [DecidableEq K] {abstractor abstractor' : Abstractor S P K}
variable {fuel index : Nat} {g g' : Graph S} {prec : P} {verdict : Verdict} {fresh : List NodeId}
variable {begun solved frozen resumed : Progress S P K} {last live : Generation S P K}

omit [DecidableEq S] in
/-- A check begins with the caller's graph in the last generation; it has search nodes, or takes its
heuristics from nowhere. -/
theorem install_ok {history : History S P K}
    (h : abstractor.install g prec = .ok (history, fresh)) :
    ∃ index gen, history.length = index + 1 ∧ history.get? index = some gen ∧ gen.graph = g ∧
      gen.prec = prec ∧ (fresh = [] ∨ gen.provider = none) := by
  cases hlive : abstractor.history.live? with
  | some live =>
    simp only [install, hlive, bind_eq_ok, pure_eq_ok, Prod.mk.injEq] at h
    obtain ⟨live', hdrop, rfl, rfl⟩ := h
    obtain ⟨hgraph, hprec, -⟩ := Generation.dropPruned_ok hdrop
    have hlt := History.lt_length (History.live?_eq_some.1 hlive)
    exact ⟨abstractor.history.length - 1, live', by rw [History.length_set]; omega,
      (History.get?_set hlt _).trans (if_pos rfl), hgraph, hprec, .inl rfl⟩
  | none =>
    simp only [install, hlive, pure_eq_ok, Prod.mk.injEq] at h
    obtain ⟨rfl, rfl⟩ := h
    exact ⟨_, _, History.length_push _ _, (History.get?_push _ _ _).trans (if_pos rfl), rfl, rfl,
      .inr rfl⟩

/-- What the phases of a check do, whatever the generations are like that are held. -/
structure Phases (abstractor : Abstractor S P K) (fuel : Nat) (g : Graph S) (index : Nat)
    (begun solved frozen resumed : Progress S P K) (last live : Generation S P K) : Prop where
  length : begun.history.length = index + 1
  first : ∃ gen, begun.history.get? index = some gen ∧ gen.graph = g
  solves : Exploration.Moves (abstractor.setup fuel) index (index + 1) begun solved
  freezes : frozen.history = solved.history.push (last.resetOnto index)
  resumes : Progress.Writes (index + 1) live frozen resumed
  kept : abstractor.config.search ≠ .decreasing → live.graph = last.graph
  severed : abstractor.config.search = .decreasing → live.graph = last.graph.sever live.drops ∧
    ∀ {i n}, live.graph.get? i = some n → ∃ d, live.heuristic i = .ok d ∧ d.isKnown = true

theorem Course.phases
    (hcourse : abstractor.Course fuel g prec index fresh begun solved frozen resumed last live)
    (hg : g.WellFormed) : abstractor.Phases fuel g index begun solved frozen resumed last live := by
  obtain ⟨index', first, hlength, hfirst, rfl, -, hfresh⟩ := install_ok hcourse.install
  obtain rfl : index = index' := by rw [hcourse.index_eq, hlength, Nat.add_sub_cancel]
  have hmoves := Exploration.solveLive_moves_of_fresh hfirst hfresh hcourse.solve
  have hwf : last.graph.WellFormed := hmoves.wellFormed
    (fun gen hgen => Option.some.inj (hfirst.symm.trans hgen) ▸ hg) hcourse.last
  have hsolved := hmoves.length.trans hlength
  obtain ⟨last', hlast, -, hfrozen⟩ := History.freezeLive_ok hcourse.freeze
  rw [hsolved, Nat.add_sub_cancel] at hlast hfrozen
  obtain rfl := Option.some.inj (hcourse.last.symm.trans hlast)
  have hcopy : frozen.history.get? (index + 1) = some (last.resetOnto index) := by
    rw [hfrozen, History.get?_push, hsolved, if_pos rfl]
  obtain ⟨gen, hwrites, hkept, hsevered⟩ :=
    Exploration.resumeLive_severs hcopy hwf hcourse.resume
  have hresumed : resumed.history.length = index + 2 := by
    rw [hwrites.length, hfrozen, History.length_push, hsolved]
  -- the copy goes on as the live generation
  have hlive := History.live?_eq_some.1 hcourse.live
  rw [History.length_applyRetention, hresumed, Nat.add_succ_sub_one,
    History.get?_applyRetention_live _ hresumed, hwrites.held] at hlive
  obtain rfl := Option.some.inj hlive
  exact ⟨hlength, ⟨first, hfirst, rfl⟩, hmoves, hfrozen, hwrites, hkept, hsevered⟩

namespace Phases

variable (h : abstractor.Phases fuel g index begun solved frozen resumed last live)

include h

theorem length_solved : solved.history.length = index + 1 := h.solves.length.trans h.length

theorem length_resumed : resumed.history.length = index + 2 := by
  rw [h.resumes.length, h.freezes, History.length_push, h.length_solved]

/-- The generations up to the solved one stay as they are. -/
theorem get?_resumed {i : Nat} (hi : i ≠ index + 1) :
    resumed.history.get? i = solved.history.get? i := by
  rw [h.resumes.frame i hi, h.freezes, History.get?_push, h.length_solved, if_neg hi]

end Phases

/-- **The solved generation is left behind as it is**, save that its provider may be forgotten, and
the check goes on with what became of its copy. -/
theorem Course.leaves
    (hcourse : abstractor.Course fuel g prec index fresh begun solved frozen resumed last live)
    (hg : g.WellFormed) (hhistory : abstractor'.history =
      resumed.history.applyRetention.set (index + 1) { live with graph := {} }) :
    ∃ gen, abstractor'.solved? = some gen ∧ (gen = last ∨ gen = last.releaseProvider) ∧
      abstractor'.history.live? = some { live with graph := {} } ∧
      (abstractor.config.search ≠ .decreasing → live.graph = last.graph) ∧
      (abstractor.config.search = .decreasing → live.graph = last.graph.sever live.drops ∧
        ∀ {i n}, live.graph.get? i = some n → ∃ d, live.heuristic i = .ok d ∧ d.isKnown = true) := by
  have hphases := hcourse.phases hg
  have hresumed := hphases.length_resumed
  obtain ⟨behind, hheld, hsame⟩ := History.exists_get?_applyRetention hresumed
    ((hphases.get?_resumed (Nat.ne_of_lt index.lt_succ_self)).trans hcourse.last)
  have hlt : index + 1 < resumed.history.applyRetention.length := by
    rw [History.length_applyRetention, hresumed]
    omega
  have hlength : abstractor'.history.length = index + 2 := by
    rw [hhistory, History.length_set, History.length_applyRetention, hresumed]
  refine ⟨behind, ?_, hsame, ?_, hphases.kept, hphases.severed⟩
  · rw [solved?, History.solved?_eq hlength, hhistory, History.get?_set hlt, if_neg (by omega)]
    exact hheld
  · rw [History.live?_eq_some, hlength, hhistory]
    exact (History.get?_set hlt _).trans (if_pos rfl)

/-- **The caller gets the solved graph back**, as it is. If heuristics are decreasing, the live
heuristics of all its nodes are known, and just those covering edges are missing along which they
drop. -/
theorem check_hands_back (hg : g.WellFormed)
    (hcheck : abstractor.check fuel g prec = .ok (verdict, abstractor', g')) :
    ∃ solved live, abstractor'.solved? = some solved ∧ abstractor'.history.live? = some live ∧
      (abstractor.config.search ≠ .decreasing → g' = solved.graph) ∧
      (abstractor.config.search = .decreasing → g' = solved.graph.sever live.drops ∧
        ∀ {i n}, g'.get? i = some n → ∃ d, live.heuristic i = .ok d ∧ d.isKnown = true) := by
  obtain ⟨index, fresh, begun, solved, frozen, resumed, last, live, hcourse, -, -, -, -, hhistory,
    rfl⟩ := check_ok hcheck
  obtain ⟨gen, hsolved, hsame, hlive, hkept, hsevered⟩ := hcourse.leaves hg hhistory
  have hgraph : gen.graph = last.graph := by
    obtain rfl | rfl := hsame <;> rfl
  rw [← hgraph] at hkept hsevered
  exact ⟨gen, _, hsolved, hlive, hkept, hsevered⟩

/-- Both init nodes have a node for state 0 below them, covered by the first one. Below the second,
from which a target was found, heuristics have become larger, so that node is uncovered again. -/
theorem check_hands_back_looping :
    let config : Config := ⟨.decreasing, .fullExploration, by decide, by decide⟩
    ∃ partition abstractor g solved live, ({} : Graph StateSet).WellFormed ∧
      check { analysis := TransitionSystem.looping.blockAnalysis, config } 30 {} partition =
        .ok (.counterexample, abstractor, g) ∧
      abstractor.solved? = some solved ∧ abstractor.history.live? = some live ∧
      (solved.graph.get? 0).map (·.covered) = some [2, 3] ∧ (g.get? 0).map (·.covered) = some [2] ∧
      g = solved.graph.sever live.drops ∧
      ∀ {i n}, g.get? i = some n → ∃ d, live.heuristic i = .ok d ∧ d.isKnown = true := by
  intro config
  let partition := (Partition.initial TransitionSystem.looping).splitAll
    ((List.range 4).map fun s => [s])
  have hround : (check { analysis := TransitionSystem.looping.blockAnalysis, config } 30 {}
      partition).map (fun round => (round.1, do
        let solved ← round.2.1.solved?
        let old ← solved.graph.get? 0
        let new ← round.2.2.get? 0
        return (old.covered, new.covered))) = .ok (.counterexample, some ([2, 3], [2])) := by
    decide +kernel
  obtain ⟨⟨_, abstractor, g⟩, hcheck, hround⟩ := map_eq_ok.1 hround
  simp only [Option.bind_eq_bind, Option.bind_eq_some_iff, Option.pure_def, Option.some.injEq,
    Prod.mk.injEq] at hround
  obtain ⟨rfl, solved, hsolved, old, hold, new, hnew, hcovered, hcovered'⟩ := hround
  obtain ⟨solved', live, hsolved', hlive, -, hsevered⟩ := check_hands_back .empty hcheck
  obtain rfl := Option.some.inj (hsolved.symm.trans hsolved')
  obtain ⟨hgraph, hknown⟩ := hsevered rfl
  exact ⟨partition, abstractor, g, solved, live, .empty, hcheck, hsolved, hlive,
    by simp [hold, hcovered], by simp [hnew, hcovered'], hgraph, hknown⟩

end Abstractor

end GuidedReach
