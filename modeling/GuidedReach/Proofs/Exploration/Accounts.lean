import GuidedReach.Proofs.Counts
import GuidedReach.Proofs.Exploration.Moves

/-!
# The counters of an exploration

Whatever an exploration does, each node that it covers or expands is counted once, in whichever
generation it is: no covering edge is removed, and no node is expanded twice.

* `Progress.Accounts` — what was counted is what happened to the graphs.
* `Exploration.Move.accounts`, `Exploration.Moves.accounts` — it is so for moves and sequences of them.
* `Exploration.Moves.nestedSearches` — unless searches are on demand, none is counted.
* `Exploration.Moves.count_live` — and all that is counted is in the live generation.
-/

namespace GuidedReach

variable {S P K : Type}

/-- The counters have grown as much as the number of covered nodes and that of expanded ones, in all
generations taken together. Nothing else was counted. -/
structure Progress.Accounts (p q : Progress S P K) : Prop where
  covered : q.history.count Node.isCovered + p.stats.covered =
    p.history.count Node.isCovered + q.stats.covered
  expanded : q.history.count (·.isExpanded) + p.stats.expanded =
    p.history.count (·.isExpanded) + q.stats.expanded
  leftoverNodes : q.stats.leftoverNodes = p.stats.leftoverNodes
  leftoverCoverings : q.stats.leftoverCoverings = p.stats.leftoverCoverings

namespace Progress.Accounts

variable {p q r : Progress S P K} {index : Nat} {gen gen' : Generation S P K}

theorem refl (p : Progress S P K) : Accounts p p := ⟨rfl, rfl, rfl, rfl⟩

theorem trans (h : Accounts p q) (h' : Accounts q r) : Accounts p r where
  covered := by
    have hcovered := h.covered
    have hcovered' := h'.covered
    omega
  expanded := by
    have hexpanded := h.expanded
    have hexpanded' := h'.expanded
    omega
  leftoverNodes := h'.leftoverNodes.trans h.leftoverNodes
  leftoverCoverings := h'.leftoverCoverings.trans h.leftoverCoverings

/-- Writing a generation, and counting what becomes of its nodes. -/
theorem put_tally {f : Stats → Stats} (hgen : p.history.get? index = some gen)
    (hcovered : gen'.graph.count Node.isCovered + p.stats.covered =
      gen.graph.count Node.isCovered + (f p.stats).covered)
    (hexpanded : gen'.graph.count (·.isExpanded) + p.stats.expanded =
      gen.graph.count (·.isExpanded) + (f p.stats).expanded)
    (hnodes : (f p.stats).leftoverNodes = p.stats.leftoverNodes)
    (hcoverings : (f p.stats).leftoverCoverings = p.stats.leftoverCoverings) :
    Accounts p ((p.put index gen').tally f) := by
  refine ⟨?_, ?_, hnodes, hcoverings⟩
  · change (p.history.set index gen').count Node.isCovered + _ = _ + (f p.stats).covered
    have hset := History.count_set Node.isCovered gen' hgen
    omega
  · change (p.history.set index gen').count (·.isExpanded) + _ = _ + (f p.stats).expanded
    have hset := History.count_set (·.isExpanded) gen' hgen
    omega

/-- Writing a generation in which as many nodes are covered and expanded. -/
theorem put (hgen : p.history.get? index = some gen)
    (hcovered : gen'.graph.count Node.isCovered = gen.graph.count Node.isCovered)
    (hexpanded : gen'.graph.count (·.isExpanded) = gen.graph.count (·.isExpanded)) :
    Accounts p (p.put index gen') :=
  put_tally (f := id) hgen (by rw [hcovered]; rfl) (by rw [hexpanded]; rfl) rfl rfl

theorem put_of_eq (hgen : p.history.get? index = some gen) (hgraph : gen'.graph = gen.graph) :
    Accounts p (p.put index gen') :=
  put hgen (by rw [hgraph]) (by rw [hgraph])

end Progress.Accounts

namespace Exploration

variable [DecidableEq S] [DecidableEq K] {setup : Setup S P K} {top index bound : Nat}
variable {p q : Progress S P K}

/-- **Whatever is covered or expanded is counted**, and nothing else is. -/
theorem Move.accounts (hmove : Move setup top index p q)
    (hp : ∀ {gen}, p.history.get? index = some gen → gen.graph.WellFormed) :
    p.Accounts q := by
  cases hmove with
  | nested _ => exact ⟨rfl, rfl, rfl, rfl⟩
  | heuristic hgen _ hset =>
    obtain ⟨_, _, -, -, -, hrewrites, -⟩ := Generation.setHeuristic_ok hset
    exact .put_of_eq hgen hrewrites.graph
  | repoint hgen _ _ _ _ _ _ _ hset =>
    obtain ⟨_, -, hrewrites⟩ := Generation.setProvider_ok hset
    exact .put_of_eq hgen hrewrites.graph
  | register hgen _ hset =>
    obtain ⟨-, -, hrewrites⟩ := Generation.register_ok hset
    exact .put_of_eq hgen hrewrites.graph
  | cover hgen _ _ _ _ _ _ hrun =>
    have hcovered := (hp hgen).count_isCovered_of_cover hrun
    have hexpanded := (hp hgen).count_isExpanded_of_cover hrun
    exact .put_tally hgen (by dsimp only; omega) (by dsimp only; omega) rfl rfl
  | expand hgen hn _ hopen _ hrun =>
    have hcovered := (Graph.expand_leaves hn hopen hrun).1.count_isCovered
    have hexpanded := Graph.count_isExpanded_of_expand hn hopen hrun
    exact .put_tally hgen (by dsimp only; omega) (by dsimp only; omega) rfl rfl
  | seed hgen hopen hrun =>
    have hadded := Graph.seed_leaves hopen hrun
    exact .put hgen hadded.count_isCovered
      (Graph.count_congr fun i => hadded.test_isExpanded (by simp))
  | settle hsettle =>
    obtain ⟨_, _, hgen, hwrites, rfl⟩ := hsettle.exists_writes
    exact .put_of_eq hgen hwrites.graph
  | exhaustive hgen _ hsettle =>
    exact .put_of_eq hgen (Generation.settleExhaustive_writes hsettle).graph

/-- **Over a whole exploration, the counters account for every change**, if the graphs that it begins
with are well-formed. -/
theorem Moves.accounts (hmoves : Moves setup top bound p q)
    (hp : ∀ {i gen}, p.history.get? i = some gen → gen.graph.WellFormed) : p.Accounts q := by
  induction hmoves with
  | refl => exact .refl p
  | @tail r _ hmoves hlast ih =>
    obtain ⟨_, -, hmove⟩ := hlast
    have hmoves : Moves setup top bound p r := hmoves
    exact ih.trans (hmove.accounts fun hgen => hmoves.wellFormed (fun _ => hp) hgen)

/-- Only searches on demand are counted. -/
theorem Moves.nestedSearches (hmoves : Moves setup top bound p q)
    (hsearch : setup.search ≠ .semiOnDemand) :
    q.stats.nestedSearches = p.stats.nestedSearches := by
  induction hmoves with
  | refl => rfl
  | tail _ hlast ih =>
    obtain ⟨_, -, hmove⟩ := hlast
    rw [← ih]
    cases hmove with
    | nested hsemi => exact absurd hsemi hsearch
    | settle hsettle =>
      obtain ⟨_, _, -, -, rfl⟩ := hsettle.exists_writes
      rfl
    | _ => rfl

/-- **Unless searches are on demand, all that is counted is in the live generation.** -/
theorem Moves.count_live {gen gen' : Generation S P K} (hmoves : Moves setup top (top + 1) p q)
    (hp : ∀ {i gen}, p.history.get? i = some gen → gen.graph.WellFormed)
    (hsearch : setup.search ≠ .semiOnDemand) (hgen : p.history.get? top = some gen)
    (hgen' : q.history.get? top = some gen') :
    gen'.graph.count Node.isCovered + p.stats.covered =
        gen.graph.count Node.isCovered + q.stats.covered ∧
      gen'.graph.count (·.isExpanded) + p.stats.expanded =
        gen.graph.count (·.isExpanded) + q.stats.expanded := by
  have hwritten (test : Node S → Bool) :
      q.history.count test = (p.history.set top gen').count test := by
    refine History.count_congr (by rw [hmoves.length, History.length_set]) fun i => ?_
    rw [History.get?_set (History.lt_length hgen)]
    split
    · rename_i hi
      rw [hi, hgen']
    · exact hmoves.frame_of_ne hsearch (by omega)
  have hcount (test : Node S → Bool) :
      q.history.count test + gen.graph.count test = p.history.count test + gen'.graph.count test := by
    rw [hwritten, History.count_set test gen' hgen]
  have haccounts := hmoves.accounts hp
  have hcovered := haccounts.covered
  have hexpanded := haccounts.expanded
  have hcovered' := hcount Node.isCovered
  have hexpanded' := hcount (·.isExpanded)
  constructor <;> omega

end Exploration

end GuidedReach
