import GuidedReach.Proofs.Exploration.Preservation
import GuidedReach.Proofs.Exploration.Rounds
import GuidedReach.Proofs.Graph.Discipline
import GuidedReach.Proofs.Graph.Walks

/-!
# Where infinite distances come from

A search leaves out nodes with infinite heuristics, and what lies below them. Every infinite distance
goes back to such nodes, or to nodes that were explored in full. So once all init nodes are infinitely
far away, a node that was not explored lies below a node with an infinite heuristic.

* `Generation.Justified` — nothing is left below an infinitely far node.
* `Generation.Explored` — what was not explored lies below an infinite heuristic.
* `Exploration.Upto.justified` — explorations keep infinite distances justified.
* `Exploration.solveLive_explores` — solving the live generation finds a target or explores it.
-/

namespace GuidedReach

variable {S P K : Type}

namespace Generation

variable {gen gen' : Generation S P K}

/-- An infinitely far node has an infinite heuristic, or its coverer or all its successors are
infinitely far away, or it is empty. -/
def Justified (gen : Generation S P K) : Prop :=
  ∀ i, gen.distance i = .ok .infinite → ∃ n, gen.graph.get? i = some n ∧ n.isTarget = false ∧
    Blocked (fun j => gen.heuristic j = .ok .infinite) gen i n

/-- Each node is expanded, covered or empty, unless a search does not get there because a node on the
way down to it has an infinite heuristic. -/
def Explored (gen : Generation S P K) : Prop :=
  ∀ i n, gen.graph.get? i = some n → n.isExpanded = true ∨ n.isSubsumed = true ∨
    ∃ x ∈ gen.graph.ancestors i, gen.heuristic x = .ok .infinite

/-- Without infinite distances there is nothing to explain. -/
theorem Justified.of_unknown (h : ∀ i d, gen.distance i = .ok d → d = .unknown) : gen.Justified := by
  intro i hi
  cases h i _ hi

/-- As a graph grows, the covering edges are all that matters. -/
theorem Justified.of_keeps (h : gen.Justified) (hkeeps : gen.Keeps gen')
    (hnew : ∀ i d, gen'.distance i = .ok d → d.isKnown = true → gen.distance i = .ok d)
    (hcovering : ∀ {i n n'}, gen.distance i = .ok .infinite → gen.graph.get? i = some n →
      (∀ c, n.covering = some c → gen.distance c = .ok .infinite) →
      gen'.graph.get? i = some n' → n'.covering = n.covering) : gen'.Justified := by
  intro i hi
  have hold := hnew i _ hi rfl
  obtain ⟨n, hn, htarget, hblocked⟩ := h i hold
  obtain ⟨n', hn', hgrows⟩ := hkeeps.grows.node hn
  refine ⟨n', hn', hgrows.isTarget.trans htarget, ?_⟩
  rcases hblocked with hrefuted | ⟨c, hc, hd⟩ | ⟨hfree, hempty | ⟨hexpanded, hall⟩⟩
  · exact .inl (hkeeps.heuristic hrefuted rfl)
  · have hsame := hcovering hold hn (fun c' hc' => Option.some.inj (hc.symm.trans hc') ▸ hd) hn'
    exact .inr (.inl ⟨c, hsame.trans hc, hkeeps.distance hd rfl⟩)
  · have hsame := hcovering hold hn (fun c hc => by simp [hfree] at hc) hn'
    exact .inr (.inr ⟨hsame.trans hfree, .inl (hgrows.isFeasible.trans hempty)⟩)
  · have hsame := hcovering hold hn (fun c hc => by simp [hfree] at hc) hn'
    obtain ⟨hexpanded', hsuccs⟩ := hgrows.isExpanded hexpanded
    exact .inr (.inr ⟨hsame.trans hfree, .inr ⟨hexpanded', fun c hc =>
      hkeeps.distance (hall c (hsuccs ▸ hc)) rfl⟩⟩)

/-- Settling only writes infinite distances where nothing is left. -/
theorem Justified.of_settles (h : gen.Justified)
    (hsettles : gen.Settles (fun j => gen.heuristic j = .ok .infinite) gen') : gen'.Justified := by
  have hrefuted : (fun j => gen'.heuristic j = .ok .infinite) =
      fun j => gen.heuristic j = .ok .infinite :=
    funext fun j => propext hsettles.heuristic_eq_ok
  intro i hi
  rw [hsettles.graph, hrefuted]
  rcases hsettles.infinite hi with hold | hblocked
  · obtain ⟨n, hn, htarget, hn'⟩ := h i hold
    exact ⟨n, hn, htarget, hsettles.blocked hn'⟩
  · exact hblocked

/-- Only graph and heuristics matter. -/
theorem Explored.congr (h : gen.Explored) (hgraph : gen'.graph = gen.graph)
    (hheuristic : ∀ {i d}, gen'.heuristic i = .ok d ↔ gen.heuristic i = .ok d) : gen'.Explored := by
  intro i n hn
  rw [hgraph] at hn ⊢
  simp only [hheuristic]
  exact h i n hn

/-- **A search that came to its end has explored the graph.** A node that it did not visit is below a
node with an infinite heuristic, or an infinitely far one; and what is below that was explored before,
or goes back to an infinite heuristic as well. -/
theorem Justified.explored {analysis : Analysis S P K} {allowed : P → Prop} (h : gen.Justified)
    (hg : gen.graph.Faithful analysis allowed)
    (hexhausted : Exploration.Exhausted gen.graph.initNodes gen) : gen.Explored := by
  have hwf := hg.wellFormed
  obtain ⟨finished, hstart, hhandled⟩ := hexhausted
  let Visited (i : NodeId) : Prop := i ∈ finished ∨
    gen.distance i = .ok .infinite ∧ gen.heuristic i ≠ .ok .infinite
  let Out (i : NodeId) : Prop := ∃ x ∈ gen.graph.ancestors i, gen.heuristic x = .ok .infinite
  have hseen : ∀ {i}, i ∈ finished ∨ gen.Hopeless i → Visited i ∨ Out i := by
    intro i hi
    by_cases hinfinite : gen.heuristic i = .ok .infinite
    · exact .inr ⟨i, gen.graph.mem_ancestorsWithin_self i i, hinfinite⟩
    · rcases hi with hi | hi | hi
      · exact .inl (.inl hi)
      · exact absurd hi hinfinite
      · exact .inl (.inr ⟨hi, hinfinite⟩)
  have hbelow : ∀ i, Visited i → gen.graph.Handled (fun c => Visited c ∨ Out c) i := by
    rintro i (hi | ⟨hi, hfinite⟩)
    · exact (hhandled i hi).mono fun c hc => hseen hc
    · obtain ⟨n, hn, -, hblocked⟩ := h i hi
      rcases hblocked with hinfinite | ⟨c, hc, hd⟩ | ⟨hfree, hrest⟩
      · exact absurd hinfinite hfinite
      · exact ⟨n, hn, .inl ⟨c, hc, hseen (.inr (.inr hd))⟩⟩
      · exact ⟨n, hn, .inr ⟨hfree, hrest.imp_right fun ⟨hexpanded, hall⟩ =>
          ⟨hexpanded, fun c hc => hseen (.inr (.inr (hall c hc)))⟩⟩⟩
  intro i n hn
  have hvisited := hg.visited_or Visited Out (fun i hi => hseen (hstart i hi)) hbelow
    (fun hn hparent ⟨x, hx, hinfinite⟩ =>
      ⟨x, (hwf.mem_ancestors_iff hn).2 (.inr ⟨_, hparent, hx⟩), hinfinite⟩) hn
  rcases hvisited with hvisited | hout
  · obtain ⟨m, hm, ⟨c, hc, -⟩ | ⟨-, hempty | ⟨hexpanded, -⟩⟩⟩ := hbelow i hvisited
    all_goals obtain rfl := Option.some.inj (hn.symm.trans hm)
    · exact .inr (.inl (by simp [Node.isSubsumed, Node.isCovered, hc]))
    · exact .inr (.inl (by simp [Node.isSubsumed, hempty]))
    · exact .inl hexpanded
  · exact .inr (.inr hout)

end Generation

namespace Exploration

variable [DecidableEq S] [DecidableEq K] {setup : Setup S P K} {index : Nat}
variable {p q : Progress S P K} {allowed : P → Prop} {dead : S → Prop}
variable {gen gen' : Generation S P K}

section

variable (hgen : p.history.get? index = some gen) (hgen' : q.history.get? index = some gen')

include hgen hgen'

/-- A node that is searched or covered is not infinitely far away, unless it is a target. So no
infinitely far node is covered, and none loses a coverer that is infinitely far away. -/
theorem Step.justified (hlaws : setup.analysis.Lawful)
    (hp : p.history.Faithful setup.analysis allowed) (h : Step setup index p q)
    (hjustified : gen.Justified) : gen'.Justified := by
  obtain ⟨old, hold, hnew⟩ := h.noNewDistances gen' hgen'
  obtain rfl := Option.some.inj (hgen.symm.trans hold)
  obtain ⟨gen'', hgen'', hkeeps⟩ := (h.keeps hlaws hp).2 index gen hgen
  obtain rfl := Option.some.inj (hgen'.symm.trans hgen'')
  obtain ⟨hfaithful, hprec⟩ := hp index gen hgen
  refine hjustified.of_keeps hkeeps hnew fun {j n n'} hj hn hcoverers hn' => ?_
  have hput : ∀ {old new : Generation S P K}, p.history.get? index = some old →
      (p.put index new).history.get? index = some gen' → old = gen ∧ new = gen' := by
    intro old new hold hnew
    rw [Progress.get?_put_self hold] at hnew
    exact ⟨Option.some.inj (hold.symm.trans hgen), Option.some.inj hnew⟩
  have hsame : gen'.graph = gen.graph → n'.covering = n.covering := fun hgraph => by
    rw [hgraph, hn] at hn'
    rw [Option.some.inj hn']
  have hadded : ∀ {parent new}, Graph.AddedLeaves parent new gen.graph gen'.graph →
      n'.covering = n.covering := fun hadded => by
    obtain ⟨m, hm, -, hcovering, -⟩ := hadded.exists_old (hadded.notMem hn) hn'
    rw [hcovering, Option.some.inj (hn.symm.trans hm)]
  cases h with
  | count hhistory =>
    rw [hhistory, hgen] at hgen'
    exact hsame (congrArg Generation.graph (Option.some.inj hgen').symm)
  | heuristic hold _ hset =>
    obtain ⟨rfl, rfl⟩ := hput hold hgen'
    obtain ⟨-, _, -, -, -, hrewrites, -⟩ := Generation.setHeuristic_ok hset
    exact hsame hrewrites.graph
  | provider hold _ _ _ _ _ _ _ hset =>
    obtain ⟨rfl, rfl⟩ := hput hold hgen'
    obtain ⟨_, -, hrewrites⟩ := Generation.setProvider_ok hset
    exact hsame hrewrites.graph
  | register hold _ hset =>
    obtain ⟨rfl, rfl⟩ := hput hold hgen'
    obtain ⟨-, -, hrewrites⟩ := Generation.register_ok hset
    exact hsame hrewrites.graph
  | @cover gen graph id coverer a _ _ _ hold ha _ _ _ _ _ _ _ _ _ _ hclosed hrun =>
    obtain ⟨rfl, rfl⟩ := hput hold hgen'
    obtain ⟨-, a', -, -, -, -, -, hrewritten⟩ := Graph.cover_ok hfaithful.wellFormed hrun
    have hfinite : gen.distance id ≠ .ok .infinite := by
      intro hid
      obtain ⟨m, hm, htarget, -⟩ := hjustified id hid
      obtain rfl := Option.some.inj (ha.symm.trans hm)
      rcases hclosed with htarget' | hopen
      · simp [htarget] at htarget'
      · exact hopen hid
    have hcover : n' = Graph.coverNode id coverer a'.covered j n :=
      Option.some.inj (hn'.symm.trans (hrewritten.get?_of_get? hn))
    rw [hcover, Graph.coverNode, if_neg]
    rintro (rfl | hcovered)
    · exact hfinite hj
    · exact hfinite (hcoverers id hcovered)
  | expand hold hid hfree hopen hfeasible _ _ _ _ hrun =>
    obtain ⟨rfl, rfl⟩ := hput hold hgen'
    have hfeasible := hfeasible.elim (hfaithful.isFeasible_of_isTarget hlaws hid) fun h => h
    exact hadded (Graph.expand_ok hfaithful hprec hid hfree hfeasible hopen hrun).2.1
  | seed hold hopen hrun =>
    obtain ⟨rfl, rfl⟩ := hput hold hgen'
    exact hadded (Graph.seed_ok hfaithful hopen hprec hrun).2.1

omit [DecidableEq S] [DecidableEq K] in
/-- Distances are settled where nothing is left; no target has an infinite heuristic. -/
theorem Settle.justified (hrefutes : setup.analysis.Refutes allowed dead)
    (hp : p.history.Sound setup.analysis allowed dead) (h : Settle setup index p q)
    (hjustified : gen.Justified) : gen'.Justified := by
  have hput : ∀ {old new : Generation S P K}, p.history.get? index = some old →
      (p.put index new).history.get? index = some gen' → old = gen ∧ new = gen' := by
    intro old new hold hnew
    rw [Progress.get?_put_self hold] at hnew
    exact ⟨Option.some.inj (hold.symm.trans hgen), Option.some.inj hnew⟩
  cases h with
  | target hold hn htarget hset =>
    obtain ⟨rfl, rfl⟩ := hput hold hgen'
    exact hjustified.of_settles (.of_setDistance hset (.refl _ _) hn nofun
      fun _ => .inr ⟨_, _, hn, htarget⟩)
  | start hold hrefuted hset =>
    obtain ⟨rfl, rfl⟩ := hput hold hgen'
    obtain ⟨n, _, hn, -⟩ := Generation.setDistance_ok hset
    have htarget : n.isTarget = false := Bool.eq_false_iff.2 fun htarget =>
      not_refuted_of_isTarget hrefutes hp hgen hn htarget (.inl (.inl hrefuted))
    exact hjustified.of_settles (.of_setDistance hset (.refl _ _) hn
      (fun _ => ⟨htarget, .inl hrefuted⟩) nofun)
  | guided hold hsettle =>
    obtain ⟨rfl, rfl⟩ := hput hold hgen'
    exact hjustified.of_settles (Generation.settleGuided_settles (fun _ h => h) hsettle)

end

section

variable (hlaws : setup.analysis.Lawful) (hrefutes : setup.analysis.Refutes allowed dead)

include hlaws hrefutes

omit hrefutes in
theorem Quiet.justified (hp : p.history.Faithful setup.analysis allowed)
    (hgen : p.history.get? index = some gen) (hjustified : gen.Justified)
    (h : Quiet setup index p q) :
    ∃ gen', q.history.get? index = some gen' ∧ gen'.Justified := by
  induction h with
  | refl => exact ⟨gen, hgen, hjustified⟩
  | tail hquiet hlast ih =>
    obtain ⟨mid, hmid, ih⟩ := ih
    rcases hlast with hstep | hbelow
    · obtain ⟨hp', -⟩ := Quiet.keeps hlaws hp hquiet
      obtain ⟨gen', hgen', -⟩ := (hstep.keeps hlaws hp').2 index mid hmid
      exact ⟨gen', hgen', hstep.justified hmid hgen' hlaws hp' ih⟩
    · exact ⟨mid, (hbelow.frame (Nat.le_refl _)).trans hmid, ih⟩

/-- **Explorations keep infinite distances justified.** -/
theorem Upto.justified (hp : SoundAt setup.analysis setup.search allowed dead index p.history)
    (hgen : p.history.get? index = some gen) (hjustified : gen.Justified)
    (h : Upto setup index p q) :
    ∃ gen', q.history.get? index = some gen' ∧ gen'.Justified := by
  induction h with
  | refl => exact ⟨gen, hgen, hjustified⟩
  | tail hupto hlast ih =>
    obtain ⟨mid, hmid, ih⟩ := ih
    have hp' := Upto.soundAt hlaws hrefutes hp hupto
    rcases hlast with hsettle | hquiet
    · obtain ⟨gen', hgen', -⟩ := (hsettle.keeps hp'.sound.faithful).2 index mid hmid
      exact ⟨gen', hgen', hsettle.justified hmid hgen' hrefutes hp'.sound ih⟩
    · exact hquiet.justified hlaws hp'.sound.faithful hmid ih

end

/-! ## Solving -/

section

variable {older : Older S P K} {stop : StopCriterion}
variable (hlaws : setup.analysis.Lawful) (hrefutes : setup.analysis.Refutes allowed dead)
variable (hp : SoundAt setup.analysis setup.search allowed dead index p.history)
variable (hgen : p.history.get? index = some gen)
variable (hstop : setup.search = .full → stop = .fullExploration)

include hlaws hrefutes hp hgen hstop

/-- **Solving a generation finds a target or explores it.** -/
theorem solve_explores (holder : older.Lawful setup allowed index) (hjustified : gen.Justified)
    (hinitialized : gen.graph.isInitialized = true)
    (h : (solve setup older index gen.graph.initNodes stop).run p = .ok ((), q)) :
    ∃ gen', q.history.get? index = some gen' ∧
      ((∃ i ∈ gen'.graph.initNodes, ∃ m, gen'.distance i = .ok (.finite m)) ∨ gen'.Explored) := by
  have hinit : ∀ {r : Progress S P K} {new : Generation S P K}, p.history.Keeps r.history →
      r.history.get? index = some new → new.graph.initNodes = gen.graph.initNodes := by
    intro r new hkeeps hnew
    obtain ⟨new', hnew', hkept⟩ := hkeeps index gen hgen
    obtain rfl := Option.some.inj (hnew.symm.trans hnew')
    exact (hkept.grows.isInitialized hinitialized).2
  obtain ⟨⟨gen', hgen', hdecided⟩, hchanges⟩ := solve_ok hlaws hp.sound.faithful hgen holder h
  refine ⟨gen', hgen', ?_⟩
  rcases hchanges with ⟨hupto, -⟩ |
    ⟨hfull, mid, gen₁, run, gen₂, hupto, hgen₁, -, hexhausted, hsettle, rfl⟩
  · -- a start node is near to a target, or all of them are infinitely far away
    obtain ⟨gen'', hgen'', hjustified'⟩ := hupto.justified hlaws hrefutes hp hgen hjustified
    obtain rfl := Option.some.inj (hgen'.symm.trans hgen'')
    obtain ⟨hq, hkeeps⟩ := hupto.keeps hlaws hp.sound.faithful
    rw [hinit hkeeps hgen']
    refine hdecided.imp_right fun hall => hjustified'.explored (hq index gen' hgen').1 ⟨[], ?_, nofun⟩
    rw [hinit hkeeps hgen']
    exact fun i hi => .inr (.inr (hall i hi))
  · -- an exhaustive search has visited all it could
    obtain ⟨gen₁', hgen₁', hjustified'⟩ := hupto.justified hlaws hrefutes hp hgen hjustified
    obtain rfl := Option.some.inj (hgen₁.symm.trans hgen₁')
    obtain ⟨hmid, hkeeps⟩ := hupto.keeps hlaws hp.sound.faithful
    have hwrites := Generation.settleExhaustive_writes hsettle
    rw [Progress.get?_put_self hgen₁] at hgen'
    obtain rfl := Option.some.inj hgen'
    refine .inr (Generation.Explored.congr ?_ hwrites.graph hwrites.heuristic_eq_ok)
    exact hjustified'.explored (hmid index gen₁ hgen₁).1 (hinit hkeeps hgen₁ ▸ hexhausted (hstop hfull))

/-- **Solving the live generation finds a target or explores it**, if no distances are known before. -/
theorem solveLive_explores (hunknown : ∀ i d, gen.distance i = .ok d → d = .unknown)
    (h : (solveLive setup index [] stop).run p = .ok ((), q)) :
    ∃ gen', q.history.get? index = some gen' ∧
      ((∃ i ∈ gen'.graph.initNodes, ∃ m, gen'.distance i = .ok (.finite m)) ∨ gen'.Explored) := by
  obtain ⟨mid, hinitialize, gen₁, hgen₁, hsolve⟩ := solveLive_ok h
  obtain ⟨hquiet, gen₁', hgen₁', hinitialized⟩ :=
    ensureInitialized_ok hlaws hp.sound.faithful hgen hinitialize
  obtain rfl := Option.some.inj (hgen₁.symm.trans hgen₁')
  exact solve_explores hlaws hrefutes (hquiet.soundAt hlaws hrefutes hp) hgen₁ hstop
    (below_lawful hlaws index) (.of_unknown (hquiet.unknown hgen hgen₁ hunknown)) hinitialized hsolve

end

end Exploration

end GuidedReach
