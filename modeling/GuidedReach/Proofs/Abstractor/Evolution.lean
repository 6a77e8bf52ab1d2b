import GuidedReach.Proofs.Abstractor.Refinement
import GuidedReach.Proofs.Exploration.MovingRounds

/-!
# What becomes of a history

Whatever the analysis is like, the generations of an abstractor only change in a few ways, so that
what each of these keeps holds after every check of every run.

* `Graph.CutBack` — what a caller may leave of a graph.
* `Generation.Renewed` — a generation that was reset onto its copy, and not searched since.
* `History.Evolves` — the histories that checks lead to, with the graph of the live generation.
* `Abstractor.Run.evolves` — after every check of a run, the history is one of these.
-/

namespace GuidedReach

variable {S P K : Type}

/-! ## Pruning -/

/-- What a caller may leave of a graph. -/
def Graph.CutBack : Graph S → Graph S → Prop :=
  Relation.ReflTransGen fun g g' =>
    (∃ id, (Graph.prune id).run g = .ok () g') ∨ g' = { g with isInitialized := false }

theorem Graph.CutBack.of_pruneAll {g g' : Graph S} {u : Unit}
    (h : Graph.pruneAll.run g = .ok u g') : g.CutBack g' := by
  simp only [Graph.pruneAll, Edit.run_bind_ok, Edit.run_get_ok] at h
  obtain ⟨_, _, ⟨rfl, rfl⟩, ⟨⟩, mid, hprune, hset⟩ := h
  refine Relation.ReflTransGen.tail (b := mid) ?_ (.inr (Edit.run_modify_ok.1 hset))
  exact Edit.run_forM_induct (motive := g.CutBack)
    (fun id _ _ _ hcut hrun => hcut.tail (.inl ⟨id, hrun⟩)) .refl hprune

/-- Nothing can be left of an empty graph. -/
theorem Graph.CutBack.eq_empty {g : Graph S} (h : Graph.CutBack {} g) : g = {} := by
  induction h with
  | refl => rfl
  | tail _ hlast ih =>
    subst ih
    obtain ⟨id, hprune⟩ | rfl := hlast
    · simp only [Graph.prune, Edit.run_bind_ok, Graph.run_readNode_ok] at hprune
      obtain ⟨n, _, ⟨hn, -⟩, -⟩ := hprune
      simp [Graph.get?, NodeMap.get?_empty] at hn
    · rfl

/-! ## Renewed generations -/

/-- Every node of the generation points at itself in a copy, and no distances are known. -/
structure Generation.Renewed (copy : Nat) (gen : Generation S P K) : Prop where
  provider : gen.provider = some copy
  searchNode : ∀ {i k}, gen.searchNodes.get? i = some k → k.provider = some i ∧ k.distance = .unknown

namespace Generation

variable {copy : Nat} {gen gen' : Generation S P K}

theorem renewed_resetOnto (gen : Generation S P K) (copy : Nat) :
    (gen.resetOnto copy).Renewed copy := by
  refine ⟨rfl, fun {i k} hk => ?_⟩
  obtain ⟨rfl, -⟩ := exists_of_resetOnto hk
  exact ⟨rfl, rfl⟩

theorem Renewed.setHeuristic (h : gen.Renewed copy) {id : NodeId} {value : Distance}
    (hset : gen.setHeuristic id value = .ok gen') : gen'.Renewed copy := by
  obtain ⟨_, k, -, hk, -, hrewrites, -⟩ := setHeuristic_ok hset
  refine ⟨hrewrites.provider.trans h.provider, fun {i k'} hk' => ?_⟩
  rw [hrewrites.get?] at hk'
  split at hk'
  · rename_i heq
    obtain rfl := Option.some.inj hk'
    have hself := h.searchNode hk
    exact heq ▸ hself
  · exact h.searchNode hk'

end Generation

/-! ## Histories -/

variable [DecidableEq S] [DecidableEq K]

/-- The histories that checks lead to, with the index of the live generation. That one is held with
the graph that the caller has or will get. -/
inductive History.Evolves (analysis : Analysis S P K) (search : SearchType) :
    Nat → History S P K → Prop
  | first (prec : P) :
    Evolves analysis search 0 (History.push { retention := search.retention } { graph := {}, prec })
  | move {top index fuel : Nat} {p q : Progress S P K} : Evolves analysis search top p.history →
    index ≤ top → Exploration.Move { analysis, search, fuel } top index p q →
      Evolves analysis search top q.history
  /-- With decreasing heuristics, a renewed generation may lose covering edges. -/
  | uncover {top copy : Nat} {history : History S P K} {gen : Generation S P K} {graph : Graph S}
    {id : NodeId} : Evolves analysis search top history → search = .decreasing →
      history.get? top = some gen → gen.Renewed copy →
      (Graph.uncover id).run gen.graph = .ok () graph →
      Evolves analysis search top (history.set top { gen with graph })
  /-- The caller has left some of the graph, and chooses a precision for the next check. -/
  | install {top copy : Nat} {history : History S P K} {gen gen' : Generation S P K} {g : Graph S}
    {prec : P} : Evolves analysis search top history → history.get? top = some gen →
      gen.Renewed copy → gen.graph.CutBack g →
      Generation.dropPruned { gen with graph := g, prec } analysis = .ok gen' →
      Evolves analysis search top (history.set top gen')
  | freeze {top : Nat} {history history' : History S P K} : Evolves analysis search top history →
    history.freezeLive = .ok history' → Evolves analysis search (top + 1) history'
  | retain {top : Nat} {history : History S P K} : Evolves analysis search top history →
    Evolves analysis search top history.applyRetention

omit [DecidableEq S] [DecidableEq K] in
/-- The first history holds one generation. -/
theorem History.eq_of_get?_first {retention : Retention} {gen gen' : Generation S P K} {i : Nat}
    (h : (History.push { retention } gen).get? i = some gen') : gen' = gen := by
  rw [History.get?_push] at h
  split at h
  · exact (Option.some.inj h).symm
  · simp [History.get?] at h

namespace History.Evolves

variable {analysis : Analysis S P K} {search : SearchType} {top : Nat} {history : History S P K}

/-- The live generation is the last one. -/
theorem length (h : Evolves analysis search top history) : history.length = top + 1 := by
  induction h with
  | first prec => rw [History.length_push]; rfl
  | move _ _ hmove ih => exact hmove.length.trans ih
  | uncover _ _ _ _ _ ih => rw [History.length_set, ih]
  | install _ _ _ _ _ ih => rw [History.length_set, ih]
  | freeze _ hfreeze ih =>
    obtain ⟨_, -, -, rfl⟩ := History.freezeLive_ok hfreeze
    rw [History.length_push, ih]
  | retain _ ih => rw [History.length_applyRetention, ih]

/-- The search type decides what is retained. -/
theorem retention (h : Evolves analysis search top history) :
    history.retention = search.retention := by
  induction h with
  | first prec => rfl
  | move _ _ hmove ih => exact hmove.retention.trans ih
  | uncover _ _ _ _ _ ih => exact ih
  | install _ _ _ _ _ ih => exact ih
  | freeze _ hfreeze ih =>
    obtain ⟨_, -, -, rfl⟩ := History.freezeLive_ok hfreeze
    exact ih
  | retain _ ih =>
    rw [← ih]
    unfold History.applyRetention
    split <;> rfl

theorem moves {setup : Setup S P K} {p q : Progress S P K}
    (h : Evolves setup.analysis setup.search top p.history)
    (hmoves : Exploration.Moves setup top (top + 1) p q) :
    Evolves setup.analysis setup.search top q.history := by
  induction hmoves with
  | refl => exact h
  | tail _ hlast ih =>
    obtain ⟨index, hindex, hmove⟩ := hlast
    cases setup
    exact .move ih (by omega) hmove

end History.Evolves

/-! ## Going on with the copy -/

namespace Exploration

open Explore

variable {setup : Setup S P K} {top copy : Nat} {start p q : Progress S P K} {id : NodeId}

/-- The history has evolved further from where it was resumed: its live generation is still renewed,
and all generations have the providers that they had. -/
structure Resumes (setup : Setup S P K) (top copy : Nat) (start p : Progress S P K) : Prop where
  evolves : p.history.Evolves setup.analysis setup.search top
  live : ∃ gen, p.history.get? top = some gen ∧ gen.Renewed copy
  providers : ∀ i, (p.history.get? i).map (·.provider) = (start.history.get? i).map (·.provider)

namespace Resumes

theorem ensureHeuristic (hp : Resumes setup top copy start p) {d : Distance}
    (h : (ensureHeuristic setup (below setup top) top id).run p = .ok (d, q)) :
    Resumes setup top copy start q := by
  obtain ⟨gen, hgen, hrenewed⟩ := hp.live
  have holder : (below setup top).Moving setup top top := below_moving (Nat.le_refl top)
  have hmoves := (ensureHeuristic_moves holder hgen h).1
  refine ⟨hp.evolves.moves hmoves, ?_,
    fun i => (hmoves.provider i).trans (hp.providers i)⟩
  obtain ⟨mid, -, hmid, -, ⟨rfl, -⟩ | ⟨gen', -, hset, rfl⟩⟩ :=
    ensureHeuristic_moves_cases holder hgen h
  · exact ⟨gen, hmid, hrenewed⟩
  · exact ⟨gen', Progress.get?_put_self hmid, hrenewed.setHeuristic hset⟩

theorem loosen (hp : Resumes setup top copy start p) (hsearch : setup.search = .decreasing)
    {u : Unit} (h : (loosen top id).run p = .ok (u, q)) : Resumes setup top copy start q := by
  simp only [Exploration.loosen, run_bind_ok, run_generation_ok, run_lift_ok] at h
  obtain ⟨gen, _, ⟨hgen, rfl⟩, n, _, ⟨-, rfl⟩, h⟩ := h
  split at h
  · simp only [run_bind_ok, run_lift_ok] at h
    obtain ⟨_, _, ⟨-, rfl⟩, _, _, ⟨-, rfl⟩, drops, _, ⟨-, rfl⟩, h⟩ := h
    split at h
    · obtain ⟨_, graph, hgen', hrun, rfl⟩ := run_editGraph_ok.1 h
      obtain rfl := Option.some.inj (hgen.symm.trans hgen')
      obtain ⟨gen', hgen', hrenewed⟩ := hp.live
      obtain rfl := Option.some.inj (hgen.symm.trans hgen')
      have hsame : ({ gen with graph } : Generation S P K).provider = gen.provider := rfl
      exact ⟨.uncover hp.evolves hsearch hgen hrenewed hrun, ⟨_, Progress.get?_put_self hgen,
        hrenewed.provider, hrenewed.searchNode⟩,
        fun i => (Progress.provider_put hgen hsame i).trans (hp.providers i)⟩
    · obtain ⟨-, rfl⟩ := run_pure_ok.1 h
      exact hp
  · obtain ⟨-, rfl⟩ := run_pure_ok.1 h
    exact hp

theorem resumeLive (hp : Resumes setup top copy start p) {u : Unit}
    (h : (resumeLive setup top).run p = .ok (u, q)) : Resumes setup top copy start q := by
  unfold Exploration.resumeLive at h
  split at h
  · rename_i hsearch
    simp only [run_bind_ok, run_generation_ok] at h
    obtain ⟨gen, _, ⟨-, rfl⟩, _, r, hheuristics, hloosen⟩ := h
    refine run_forM_induct (fun _ _ _ _ hr hrun => Resumes.loosen hr hsearch hrun) ?_ hloosen
    refine run_forM_induct (fun id s t _ hs hrun => ?_) hp hheuristics
    obtain ⟨_, _, hensure, hpure⟩ := run_bind_ok.1 hrun
    obtain ⟨-, rfl⟩ := run_pure_ok.1 hpure
    exact Resumes.ensureHeuristic hs hensure
  · obtain ⟨-, rfl⟩ := run_pure_ok.1 h
    exact hp

end Resumes

end Exploration

/-! ## Runs -/

namespace Abstractor

variable {analysis : Analysis S P K} {config : Config} {mayFollow : Option P → P → Prop}
variable {lastPrec : Option P} {abstractor abstractor' : Abstractor S P K} {g g' : Graph S} {prec : P}
variable {fuel : Nat} {verdict : Verdict}

/-- What holds between checks: nothing was checked yet, or the history has evolved up to the live
generation, of whose graph the caller has left some. -/
inductive Underway (analysis : Analysis S P K) (config : Config) (abstractor : Abstractor S P K)
    (g : Graph S) : Prop
  | start : abstractor.history = { retention := config.search.retention } → g = {} →
    Underway analysis config abstractor g
  | resumed {history : History S P K} {live copy : Nat} {gen : Generation S P K} :
    history.Evolves analysis config.search live → history.get? live = some gen →
      gen.Renewed copy → gen.graph.CutBack g →
      abstractor.history = history.set live { gen with graph := {} } →
      Underway analysis config abstractor g

/-- The caller may prune the graph. -/
theorem Underway.cutBack (h : Underway analysis config abstractor g) (hcut : g.CutBack g') :
    Underway analysis config abstractor g' := by
  cases h with
  | start hhistory hg => exact .start hhistory (Graph.CutBack.eq_empty (hg ▸ hcut))
  | resumed hevolves hgen hrenewed hcut' hhistory =>
    exact .resumed hevolves hgen hrenewed (hcut'.trans hcut) hhistory

/-- **A check begins with an evolved history**, in which no search nodes are missing. -/
theorem Underway.install (h : Underway abstractor.analysis config abstractor g)
    {history : History S P K} {fresh : List NodeId}
    (hinstall : abstractor.install g prec = .ok (history, fresh)) :
    fresh = [] ∧ history.Evolves abstractor.analysis config.search (history.length - 1) := by
  cases h with
  | start hhistory hg =>
    have hempty : abstractor.history.length = 0 := by
      rw [hhistory]
      rfl
    obtain ⟨hfirst, hlength, -⟩ := install_empty prec hempty
    rw [hg, hfirst] at hinstall
    obtain ⟨rfl, rfl⟩ := Prod.mk.inj (Except.ok.inj hinstall)
    rw [hlength, hhistory]
    exact ⟨rfl, .first prec⟩
  | @resumed before live copy gen hevolves hgen hrenewed hcut hhistory =>
    have hlive := live?_of_history hevolves.length hhistory
    simp only [Abstractor.install, hlive, bind_eq_ok, pure_eq_ok, Prod.mk.injEq] at hinstall
    obtain ⟨gen', hdrop, rfl, rfl⟩ := hinstall
    have hset : abstractor.history.set (abstractor.history.length - 1) gen' =
        before.set live gen' := by
      rw [hhistory, History.length_set, hevolves.length, Nat.add_sub_cancel]
      simp [History.set]
    rw [hset, History.length_set, hevolves.length, Nat.add_sub_cancel]
    exact ⟨rfl, .install hevolves hgen hrenewed hcut hdrop⟩

/-- What the phases of a check do to the history. -/
structure Evolution (abstractor : Abstractor S P K) (fuel index : Nat)
    (begun solved frozen resumed : Progress S P K) (last live : Generation S P K) : Prop where
  evolves : begun.history.Evolves abstractor.analysis abstractor.config.search index
  solves : Exploration.Moves (abstractor.setup fuel) index (index + 1) begun solved
  freezes : frozen.history = solved.history.push (last.resetOnto index)
  resumes : Exploration.Resumes (abstractor.setup fuel) (index + 1) index frozen resumed
  isLive : resumed.history.get? (index + 1) = some live
  isRenewed : live.Renewed index

/-- **The course of a check** as far as the history is concerned. -/
theorem Course.evolution {index : Nat} {fresh : List NodeId}
    {begun solved frozen resumed : Progress S P K} {last live : Generation S P K}
    (hcourse : abstractor.Course fuel g prec index fresh begun solved frozen resumed last live)
    (h : Underway abstractor.analysis abstractor.config abstractor g) :
    abstractor.Evolution fuel index begun solved frozen resumed last live := by
  obtain ⟨rfl, hbegun⟩ := h.install hcourse.install
  rw [← hcourse.index_eq] at hbegun
  have hmoves := Exploration.solveLive_moves hcourse.solve
  have hsolved : solved.history.Evolves abstractor.analysis abstractor.config.search index :=
    History.Evolves.moves hbegun hmoves
  obtain ⟨last', hlast, -, hfrozen⟩ := History.freezeLive_ok hcourse.freeze
  rw [hsolved.length, Nat.add_sub_cancel] at hlast hfrozen
  obtain rfl := Option.some.inj (hcourse.last.symm.trans hlast)
  have hcopy : frozen.history.get? (index + 1) = some (last.resetOnto index) := by
    rw [hfrozen, History.get?_push, hsolved.length, if_pos rfl]
  have hresumes : Exploration.Resumes (abstractor.setup fuel) (index + 1) index frozen frozen :=
    ⟨.freeze hsolved hcourse.freeze, ⟨_, hcopy, last.renewed_resetOnto index⟩, fun _ => rfl⟩
  have hresumed := hresumes.resumeLive hcourse.resume
  obtain ⟨gen, hgen, hrenewed⟩ := hresumed.live
  have hlive := History.live?_eq_some.1 hcourse.live
  rw [History.length_applyRetention, hresumed.evolves.length, Nat.add_sub_cancel,
    History.get?_applyRetention_live _ hresumed.evolves.length, hgen] at hlive
  obtain rfl := Option.some.inj hlive
  exact ⟨hbegun, hmoves, hfrozen, hresumed, hgen, hrenewed⟩

/-- **A check leaves an evolved history**, in which the live generation is renewed and has the graph
that the caller gets. -/
theorem Underway.check (h : Underway abstractor.analysis abstractor.config abstractor g)
    (hcheck : abstractor.check fuel g prec = .ok (verdict, abstractor', g')) :
    ∃ (history : History S P K) (live copy : Nat) (gen : Generation S P K),
      history.Evolves abstractor.analysis abstractor.config.search live ∧
      history.get? live = some gen ∧ gen.Renewed copy ∧ gen.graph = g' ∧
      abstractor'.history = history.set live { gen with graph := {} } := by
  obtain ⟨index, fresh, begun, solved, frozen, resumed, last, live, hcourse, -, -, -, -, hhistory,
    rfl⟩ := check_ok hcheck
  have hevolution := hcourse.evolution h
  have hevolves := hevolution.resumes.evolves
  exact ⟨_, _, _, live, .retain hevolves,
    (History.get?_applyRetention_live _ hevolves.length).trans hevolution.isLive,
    hevolution.isRenewed, rfl, hhistory⟩

theorem Run.underway (h : Run analysis config mayFollow lastPrec abstractor g) :
    Underway analysis config abstractor g ∧ abstractor.analysis = analysis ∧
      abstractor.config = config := by
  induction h with
  | start => exact ⟨.start rfl rfl, rfl, rfl⟩
  | @prune _ _ _ _ id _ hprune ih =>
    exact ⟨ih.1.cutBack (.single (.inl ⟨id, hprune⟩)), ih.2⟩
  | pruneAll _ hprune ih => exact ⟨ih.1.cutBack (.of_pruneAll hprune), ih.2⟩
  | check _ _ hcheck ih =>
    obtain ⟨hunderway, rfl, rfl⟩ := ih
    obtain ⟨history, live, copy, gen, hevolves, hgen, hrenewed, rfl, hhistory⟩ :=
      hunderway.check hcheck
    obtain ⟨_, _, _, _, _, _, _, _, -, -, -, hanalysis, hconfig, -⟩ := check_ok hcheck
    exact ⟨.resumed hevolves hgen hrenewed .refl hhistory, hanalysis, hconfig⟩

/-- **After every check of a run, the generations that are held have evolved**, the live one with the
graph that the caller gets. -/
theorem Run.evolves (h : Run analysis config mayFollow lastPrec abstractor g)
    (hcheck : abstractor.check fuel g prec = .ok (verdict, abstractor', g')) :
    ∃ (history : History S P K) (live : Nat), history.Evolves analysis config.search live ∧
      (∀ i, (abstractor'.generations g').get? i = history.get? i) ∧
      ∃ gen, history.get? live = some gen ∧ gen.graph = g' := by
  obtain ⟨hunderway, rfl, rfl⟩ := h.underway
  obtain ⟨history, live, copy, gen, hevolves, hgen, -, rfl, hhistory⟩ := hunderway.check hcheck
  refine ⟨history, live, hevolves, fun i => ?_, gen, hgen, rfl⟩
  rw [get?_generations hevolves.length hhistory]
  split
  · rename_i hi
    rw [hi, hgen]
  · rfl

end Abstractor

end GuidedReach
