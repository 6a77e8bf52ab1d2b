import GuidedReach.Proofs.Exploration.Step

/-!
# What an exploration keeps

Whatever an exploration does, graphs only grow and stay faithful to the analysis, and known values
stay as they are.

* `History.Faithful` — all graphs that are held agree with the analysis.
* `Generation.Keeps` — a later state of a generation.
* `Step.keeps`, `Settle.keeps`, `Quiet.keeps`, `Upto.keeps` — explorations keep both.
* `Quiet.noNewDistances` — until a search is settled, its generation gets no new distances.
-/

namespace GuidedReach

variable {S P K : Type}

/-- The graphs of all generations that are held agree with the analysis. -/
def History.Faithful (analysis : Analysis S P K) (allowed : P → Prop) (history : History S P K) :
    Prop :=
  ∀ index gen, history.get? index = some gen →
    gen.graph.Faithful analysis allowed ∧ allowed gen.prec

/-- The second generation is a later state of the first. -/
structure Generation.Keeps (gen gen' : Generation S P K) : Prop where
  grows : gen.graph.Grows gen'.graph
  prec : gen'.prec = gen.prec
  provider : gen'.provider = gen.provider
  heuristic : ∀ {id d}, gen.heuristic id = .ok d → d.isKnown = true → gen'.heuristic id = .ok d
  distance : ∀ {id d}, gen.distance id = .ok d → d.isKnown = true → gen'.distance id = .ok d

namespace Generation.Keeps

variable {gen gen' gen'' : Generation S P K}

theorem refl (gen : Generation S P K) : gen.Keeps gen :=
  ⟨.refl _, rfl, rfl, fun h _ => h, fun h _ => h⟩

theorem trans (h : gen.Keeps gen') (h' : gen'.Keeps gen'') : gen.Keeps gen'' where
  grows := h.grows.trans h'.grows
  prec := h'.prec.trans h.prec
  provider := h'.provider.trans h.provider
  heuristic hid hd := h'.heuristic (h.heuristic hid hd) hd
  distance hid hd := h'.distance (h.distance hid hd) hd

theorem of_grows {graph : Graph S} (h : gen.graph.Grows graph) : gen.Keeps { gen with graph } :=
  ⟨h, rfl, rfl, fun h _ => h, fun h _ => h⟩

/-- A write to a search node that changes no known value. -/
theorem of_rewrites {id : NodeId} {k' : SearchNode} (h : gen.Rewrites gen' id k')
    (hheuristic : ∀ k, gen.searchNodes.get? id = some k → k.heuristic.isKnown = true →
      k'.heuristic = k.heuristic)
    (hdistance : ∀ k, gen.searchNodes.get? id = some k → k.distance.isKnown = true →
      k'.distance = k.distance) : gen.Keeps gen' where
  grows := h.graph ▸ .refl _
  prec := h.prec
  provider := h.provider
  heuristic := by
    intro i d hi hd
    obtain ⟨k, hk, rfl⟩ := heuristic_eq_ok.1 hi
    rw [heuristic_eq_ok, h.get?]
    split
    · rename_i heq
      exact ⟨k', rfl, hheuristic k (heq ▸ hk) hd⟩
    · exact ⟨k, hk, rfl⟩
  distance := by
    intro i d hi hd
    obtain ⟨k, hk, rfl⟩ := distance_eq_ok.1 hi
    rw [distance_eq_ok, h.get?]
    split
    · rename_i heq
      exact ⟨k', rfl, hdistance k (heq ▸ hk) hd⟩
    · exact ⟨k, hk, rfl⟩

theorem of_distanceWrites (h : DistanceWrites gen gen') : gen.Keeps gen' where
  grows := h.graph ▸ .refl _
  prec := h.prec
  provider := h.provider
  heuristic hid _ := h.heuristic_eq_ok.2 hid
  distance hid hd := h.distance_eq_ok hid hd

end Generation.Keeps

namespace Generation

variable {gen gen' : Generation S P K}

theorem keeps_of_setHeuristic {id : NodeId} {value : Distance}
    (h : gen.setHeuristic id value = .ok gen') : gen.Keeps gen' := by
  obtain ⟨-, k, -, hk, -, hrewrites, hold⟩ := setHeuristic_ok h
  refine .of_rewrites hrewrites (fun k' hk' hknown => ?_) fun k' hk' _ => ?_
  · obtain rfl := Option.some.inj (hk.symm.trans hk')
    obtain hold | ⟨hold, -⟩ := hold
    · exact hold.symm
    · simp [hold, Distance.isKnown] at hknown
  · obtain rfl := Option.some.inj (hk.symm.trans hk')
    rfl

theorem keeps_of_setProvider {id : NodeId} {provider : Option NodeId}
    (h : gen.editSearchNode id (SearchNode.setProvider provider) = .ok gen') : gen.Keeps gen' := by
  obtain ⟨k, hk, hrewrites⟩ := setProvider_ok h
  refine .of_rewrites hrewrites (fun k' hk' _ => ?_) fun k' hk' _ => ?_ <;>
  · obtain rfl := Option.some.inj (hk.symm.trans hk')
    rfl

theorem keeps_of_register [DecidableEq K] {analysis : Analysis S P K} {id : NodeId}
    {k : SearchNode} (h : gen.register analysis id k = .ok gen') : gen.Keeps gen' := by
  obtain ⟨-, hnone, hrewrites⟩ := register_ok h
  exact .of_rewrites hrewrites (by simp [hnone]) (by simp [hnone])

/-- A candidate stays unfit as long as the graph stays as it is. -/
theorem Unfit.keeps {analysis : Analysis S P K} {id candidate : NodeId} {isTarget : Bool}
    {above : Distance} (h : gen.Unfit analysis id isTarget above candidate) (hkeeps : gen.Keeps gen')
    (hgraph : gen'.graph = gen.graph) : gen'.Unfit analysis id isTarget above candidate := by
  intro hmay htarget
  rw [hgraph] at hmay htarget
  obtain ⟨below, hbelow, hknown, hless⟩ := h hmay htarget
  exact ⟨below, hkeeps.heuristic hbelow hknown, hknown, hless⟩

end Generation

namespace Graph

variable {g g' : Graph S}

theorem Grows.of_updateNode {id : NodeId} {f : Node S → Node S} {u : Unit}
    (hf : ∀ n : Node S, n.Grows (f n)) (h : (updateNode id f).run g = .ok u g') : g.Grows g' := by
  refine .of_rewritten (rewritten_of_updateNode h).2 fun i n _ => ?_
  split
  · exact hf n
  · exact .refl n

/-- Covering a node changes covering edges only, and removes none. -/
theorem grows_of_cover {id coverer : NodeId} {u : Unit}
    (h : (cover id coverer).run g = .ok u g') : g.Grows g' := by
  simp only [cover, Edit.run_bind_ok, Edit.run_lift_ok, run_readNode_ok] at h
  obtain ⟨_, _, ⟨-, rfl⟩, _, _, ⟨-, rfl⟩, _, _, ⟨-, rfl⟩, _, _, ⟨-, rfl⟩, _, _, ⟨-, rfl⟩, a, _, ⟨-, rfl⟩,
    _, g₁, h₁, _, g₂, h₂, _, g₃, h₃, h₄⟩ := h
  have hcovered : ∀ (n : Node S) (covered : List NodeId), n.Grows { n with covered } :=
    fun n _ => ⟨rfl, rfl, rfl, rfl, rfl, List.prefix_refl _, fun h => ⟨h, rfl⟩, fun h => h⟩
  have hcovering : ∀ n : Node S, n.Grows { n with covering := some coverer } :=
    fun n => ⟨rfl, rfl, rfl, rfl, rfl, List.prefix_refl _, fun h => ⟨h, rfl⟩, fun _ => rfl⟩
  have hmoved : g₁.Grows g₂ := Edit.run_forM_induct (motive := g₁.Grows)
    (fun i t t' _ ht hrun => ht.trans (.of_updateNode hcovering hrun)) (.refl g₁) h₂
  exact ((Grows.of_updateNode (fun n => hcovered n _) h₁).trans hmoved).trans
    ((Grows.of_updateNode (fun n => hcovered n _) h₃).trans (.of_updateNode hcovering h₄))

end Graph

/-! ## Histories -/

namespace History

/-- Every generation that is held is held later, in a later state. -/
def Keeps (history history' : History S P K) : Prop :=
  ∀ index gen, history.get? index = some gen →
    ∃ gen', history'.get? index = some gen' ∧ gen.Keeps gen'

theorem Keeps.refl (history : History S P K) : history.Keeps history :=
  fun _ gen hgen => ⟨gen, hgen, .refl gen⟩

theorem Keeps.trans {history history' history'' : History S P K} (h : history.Keeps history')
    (h' : history'.Keeps history'') : history.Keeps history'' := by
  intro index gen hgen
  obtain ⟨gen', hgen', hkeeps⟩ := h index gen hgen
  obtain ⟨gen'', hgen'', hkeeps'⟩ := h' index gen' hgen'
  exact ⟨gen'', hgen'', hkeeps.trans hkeeps'⟩

end History

namespace Progress

variable {p : Progress S P K} {index : Nat} {gen gen' : Generation S P K}

theorem keeps_put (hgen : p.history.get? index = some gen) (h : gen.Keeps gen') :
    p.history.Keeps (p.put index gen').history := by
  intro i old hold
  rw [get?_put hgen]
  split
  · rename_i heq
    obtain rfl := Option.some.inj (hgen.symm.trans (heq ▸ hold))
    exact ⟨gen', rfl, h⟩
  · exact ⟨old, hold, .refl old⟩

theorem faithful_put {analysis : Analysis S P K} {allowed : P → Prop}
    (hp : p.history.Faithful analysis allowed) (hgen : p.history.get? index = some gen)
    (hgraph : gen'.graph.Faithful analysis allowed) (hprec : gen'.prec = gen.prec) :
    (p.put index gen').history.Faithful analysis allowed := by
  intro i new hnew
  rw [get?_put hgen] at hnew
  split at hnew
  · obtain rfl := Option.some.inj hnew
    exact ⟨hgraph, hprec ▸ (hp index gen hgen).2⟩
  · exact hp i new hnew

end Progress

/-! ## Explorations -/

namespace Exploration

variable [DecidableEq S] [DecidableEq K] {setup : Setup S P K} {index bound : Nat}
variable {p q : Progress S P K} {allowed : P → Prop}

section

variable (hlaws : setup.analysis.Lawful) (hp : p.history.Faithful setup.analysis allowed)

include hlaws hp

theorem Step.keeps (h : Step setup index p q) :
    q.history.Faithful setup.analysis allowed ∧ p.history.Keeps q.history := by
  cases h with
  | count hsame => exact hsame.symm ▸ ⟨hp, .refl _⟩
  | heuristic hgen _ hset =>
    have hkeeps := Generation.keeps_of_setHeuristic hset
    obtain ⟨_, k, -, -, -, hrewrites, -⟩ := Generation.setHeuristic_ok hset
    exact ⟨Progress.faithful_put hp hgen (hrewrites.graph ▸ (hp _ _ hgen).1) hkeeps.prec,
      Progress.keeps_put hgen hkeeps⟩
  | provider hgen _ _ _ _ _ _ _ hset =>
    have hkeeps := Generation.keeps_of_setProvider hset
    obtain ⟨k, -, hrewrites⟩ := Generation.setProvider_ok hset
    exact ⟨Progress.faithful_put hp hgen (hrewrites.graph ▸ (hp _ _ hgen).1) hkeeps.prec,
      Progress.keeps_put hgen hkeeps⟩
  | register hgen _ hset =>
    have hkeeps := Generation.keeps_of_register hset
    obtain ⟨-, -, hrewrites⟩ := Generation.register_ok hset
    exact ⟨Progress.faithful_put hp hgen (hrewrites.graph ▸ (hp _ _ hgen).1) hkeeps.prec,
      Progress.keeps_put hgen hkeeps⟩
  | cover hgen ha hb hleaf hopen hleq _ _ _ _ _ _ _ hrun =>
    have hfaithful := (hp _ _ hgen).1
    exact ⟨Progress.faithful_put hp hgen (hfaithful.cover hlaws ha hb hleaf hopen hleq hrun) rfl,
      Progress.keeps_put hgen (.of_grows (Graph.grows_of_cover hrun))⟩
  | expand hgen hn hfree hopen hfeasible _ _ _ _ hrun =>
    obtain ⟨hfaithful, hprec⟩ := hp _ _ hgen
    have hfeasible := hfeasible.elim (hfaithful.isFeasible_of_isTarget hlaws hn) id
    obtain ⟨hgraph, hadded, -⟩ := Graph.expand_ok hfaithful hprec hn hfree hfeasible hopen hrun
    exact ⟨Progress.faithful_put hp hgen hgraph rfl,
      Progress.keeps_put hgen (.of_grows hadded.grows)⟩
  | seed hgen hopen hrun =>
    obtain ⟨hfaithful, hprec⟩ := hp _ _ hgen
    obtain ⟨hgraph, hadded, -⟩ := Graph.seed_ok hfaithful hopen hprec hrun
    exact ⟨Progress.faithful_put hp hgen hgraph rfl,
      Progress.keeps_put hgen (.of_grows hadded.grows)⟩

omit [DecidableEq S] [DecidableEq K] hlaws in
theorem Settle.keeps (h : Settle setup index p q) :
    q.history.Faithful setup.analysis allowed ∧ p.history.Keeps q.history := by
  have hput : ∀ {gen gen' : Generation S P K}, p.history.get? index = some gen →
      gen.DistanceWrites gen' → (p.put index gen').history.Faithful setup.analysis allowed ∧
        p.history.Keeps (p.put index gen').history := fun hgen hwrites =>
    ⟨Progress.faithful_put hp hgen (hwrites.graph ▸ (hp _ _ hgen).1) hwrites.prec,
      Progress.keeps_put hgen (.of_distanceWrites hwrites)⟩
  cases h with
  | target hgen _ _ hset => exact hput hgen (.of_setDistance hset)
  | start hgen _ hset => exact hput hgen (.of_setDistance hset)
  | guided hgen hsettle =>
    have hsettles : Generation.Settles (fun _ => True) _ _ :=
      Generation.settleGuided_settles (fun _ _ => trivial) hsettle
    exact hput hgen hsettles.toDistanceWrites

theorem Below.keeps (h : Below setup bound p q) :
    q.history.Faithful setup.analysis allowed ∧ p.history.Keeps q.history := by
  induction h with
  | refl => exact ⟨hp, .refl _⟩
  | tail _ hlast ih =>
    obtain ⟨-, j, -, hstep | hsettle⟩ := hlast
    · exact ⟨(hstep.keeps hlaws ih.1).1, ih.2.trans (hstep.keeps hlaws ih.1).2⟩
    · exact ⟨(hsettle.keeps ih.1).1, ih.2.trans (hsettle.keeps ih.1).2⟩

/-- **Explorations keep what is known**, until the search is settled. -/
theorem Quiet.keeps (h : Quiet setup index p q) :
    q.history.Faithful setup.analysis allowed ∧ p.history.Keeps q.history := by
  induction h with
  | refl => exact ⟨hp, .refl _⟩
  | tail _ hlast ih =>
    obtain hstep | hbelow := hlast
    · exact ⟨(hstep.keeps hlaws ih.1).1, ih.2.trans (hstep.keeps hlaws ih.1).2⟩
    · exact ⟨(hbelow.keeps hlaws ih.1).1, ih.2.trans (hbelow.keeps hlaws ih.1).2⟩

/-- **Settled searches keep what is known.** -/
theorem Upto.keeps (h : Upto setup index p q) :
    q.history.Faithful setup.analysis allowed ∧ p.history.Keeps q.history := by
  induction h with
  | refl => exact ⟨hp, .refl _⟩
  | tail _ hlast ih =>
    obtain hsettle | hquiet := hlast
    · exact ⟨(hsettle.keeps ih.1).1, ih.2.trans (hsettle.keeps ih.1).2⟩
    · exact ⟨(hquiet.keeps hlaws ih.1).1, ih.2.trans (hquiet.keeps hlaws ih.1).2⟩

end

/-! ## Distances -/

/-- The generation with the index has no known distances that it did not have before. -/
def NoNewDistances (index : Nat) (p q : Progress S P K) : Prop :=
  ∀ gen', q.history.get? index = some gen' → ∃ gen, p.history.get? index = some gen ∧
    ∀ id d, gen'.distance id = .ok d → d.isKnown = true → gen.distance id = .ok d

omit [DecidableEq S] [DecidableEq K] in
theorem noNewDistances_of_rewrites {gen gen' : Generation S P K} {id : NodeId} {k' : SearchNode}
    (hgen : p.history.get? index = some gen) (h : gen.Rewrites gen' id k')
    (hdistance : k'.distance.isKnown = true → gen.distance id = .ok k'.distance) :
    NoNewDistances index p (p.put index gen') := by
  intro new hnew
  rw [Progress.get?_put_self hgen] at hnew
  obtain rfl := Option.some.inj hnew
  refine ⟨gen, hgen, fun i d hi hd => ?_⟩
  obtain ⟨k, hk, rfl⟩ := Generation.distance_eq_ok.1 hi
  rw [h.get?] at hk
  split at hk
  · rename_i heq
    obtain rfl := Option.some.inj hk
    exact heq ▸ hdistance hd
  · exact Generation.distance_eq_ok.2 ⟨k, hk, rfl⟩

omit [DecidableEq S] [DecidableEq K] in
theorem noNewDistances_of_graph {gen : Generation S P K} {graph : Graph S}
    (hgen : p.history.get? index = some gen) :
    NoNewDistances index p (p.put index { gen with graph }) := by
  intro new hnew
  rw [Progress.get?_put_self hgen] at hnew
  obtain rfl := Option.some.inj hnew
  exact ⟨gen, hgen, fun _ _ hi _ => hi⟩

theorem Step.noNewDistances (h : Step setup index p q) : NoNewDistances index p q := by
  cases h with
  | count hsame => exact fun gen' hgen' => ⟨gen', hsame ▸ hgen', fun _ _ hi _ => hi⟩
  | heuristic hgen _ hset =>
    obtain ⟨-, k, -, hk, -, hrewrites, -⟩ := Generation.setHeuristic_ok hset
    exact noNewDistances_of_rewrites hgen hrewrites fun _ =>
      Generation.distance_eq_ok.2 ⟨k, hk, rfl⟩
  | provider hgen _ _ _ _ _ _ _ hset =>
    obtain ⟨k, hk, hrewrites⟩ := Generation.setProvider_ok hset
    exact noNewDistances_of_rewrites hgen hrewrites fun _ =>
      Generation.distance_eq_ok.2 ⟨k, hk, rfl⟩
  | register hgen _ hset =>
    obtain ⟨-, -, hrewrites⟩ := Generation.register_ok hset
    exact noNewDistances_of_rewrites hgen hrewrites (by simp [Distance.isKnown])
  | cover hgen => exact noNewDistances_of_graph hgen
  | expand hgen => exact noNewDistances_of_graph hgen
  | seed hgen => exact noNewDistances_of_graph hgen

/-- **Until a search is settled, its generation gets no new distances.** -/
theorem Quiet.noNewDistances (h : Quiet setup index p q) : NoNewDistances index p q := by
  induction h with
  | refl => exact fun gen' hgen' => ⟨gen', hgen', fun _ _ hi _ => hi⟩
  | tail _ hlast ih =>
    intro gen' hgen'
    obtain hstep | hbelow := hlast
    · obtain ⟨mid, hmid, hdistance⟩ := hstep.noNewDistances gen' hgen'
      obtain ⟨gen, hgen, hdistance'⟩ := ih mid hmid
      exact ⟨gen, hgen, fun id d hi hd => hdistance' id d (hdistance id d hi hd) hd⟩
    · rw [hbelow.frame (Nat.le_refl _)] at hgen'
      exact ih gen' hgen'

/-- Until a search is settled, unknown distances stay unknown. -/
theorem Quiet.unknown (h : Quiet setup index p q) {gen gen' : Generation S P K}
    (hgen : p.history.get? index = some gen) (hgen' : q.history.get? index = some gen')
    (hunknown : ∀ i d, gen.distance i = .ok d → d = .unknown) (i : NodeId) (d : Distance)
    (hd : gen'.distance i = .ok d) : d = .unknown := by
  obtain ⟨old, hold, hdistance⟩ := h.noNewDistances gen' hgen'
  obtain rfl := Option.some.inj (hgen.symm.trans hold)
  cases d with
  | unknown => rfl
  | finite d => exact hunknown i _ (hdistance i _ hd rfl)
  | infinite => exact hunknown i _ (hdistance i _ hd rfl)

end Exploration

end GuidedReach
