import GuidedReach.Proofs.Exploration.Keeps
import GuidedReach.Proofs.Generation.Exhaustive
import GuidedReach.Proofs.Graph.Leaves

/-!
# What an exploration may do under any analysis

`Step` and `Settle` describe explorations under a lawful analysis. A `Move` asks nothing of the
analysis; it comes with just what the code has checked before it changes a generation.

* `Generation.Promising` — a node below which a search may go on.
* `Move`, `Moves` — a change of one generation, with what is counted; sequences of them below a bound.
* `Moves.frame`, `Moves.length` — the generations from the bound on stay as they are.
* `Moves.keeps` — graphs only grow, and what is known stays known.
* `Moves.wellFormed` — a well-formed graph stays so, whatever the other generations are like.
-/

namespace GuidedReach

variable {S P K : Type}

/-- A node is a target, or its known heuristic does not rule out that it reaches one. -/
def Generation.Promising (gen : Generation S P K) (id : NodeId) : Prop :=
  ∃ d, gen.heuristic id = .ok d ∧ d.isKnown = true ∧
    (d ≠ .infinite ∨ ∃ n, gen.graph.get? id = some n ∧ n.isTarget = true)

theorem Generation.Promising.keeps {gen gen' : Generation S P K} {id : NodeId}
    (h : gen.Promising id) (hkeeps : gen.Keeps gen') : gen'.Promising id := by
  obtain ⟨d, hd, hknown, hhope⟩ := h
  refine ⟨d, hkeeps.heuristic hd hknown, hknown, hhope.imp_right fun ⟨n, hn, htarget⟩ => ?_⟩
  obtain ⟨n', hn', hgrows⟩ := hkeeps.grows.node hn
  exact ⟨n', hn', hgrows.isTarget.trans htarget⟩

/-- Writing a generation with the same provider. -/
theorem Progress.provider_put {p : Progress S P K} {index : Nat} {gen gen' : Generation S P K}
    (hgen : p.history.get? index = some gen) (hsame : gen'.provider = gen.provider) (i : Nat) :
    ((p.put index gen').history.get? i).map (·.provider) =
      (p.history.get? i).map (·.provider) := by
  rw [get?_put hgen]
  split
  · rename_i hi
    rw [hi, hgen, Option.map_some, Option.map_some, hsame]
  · rfl

namespace Exploration

variable [DecidableEq S] [DecidableEq K]

/-- A change of the generation with an index, where `top` is the live one. -/
inductive Move (setup : Setup S P K) (top index : Nat) (p : Progress S P K) :
    Progress S P K → Prop where
  /-- On demand, a search is about to begin. -/
  | nested : setup.search = .semiOnDemand → Move setup top index p
      (p.tally fun stats => { stats with nestedSearches := stats.nestedSearches + 1 })
  | heuristic {gen gen' : Generation S P K} {id : NodeId} {value : Distance} :
    p.history.get? index = some gen → Source setup p.history gen id value →
      gen.setHeuristic id value = .ok gen' → Move setup top index p (p.put index gen')
  /-- The covered provider of a node whose successors are looked for is replaced by its coverer. -/
  | repoint {gen gen' older : Generation S P K} {below : Nat} {id provider coverer : NodeId}
    {k : SearchNode} {m : Node S} : p.history.get? index = some gen → gen.provider = some below →
      p.history.get? below = some older → gen.searchNodes.get? id = some k →
      k.provider = some provider → gen.Promising id → older.graph.get? provider = some m →
      m.covering = some coverer →
      gen.editSearchNode id (SearchNode.setProvider (some coverer)) = .ok gen' →
      Move setup top index p (p.put index gen')
  /-- A provider subsumes the node that it provides for. -/
  | register {gen gen' : Generation S P K} {id : NodeId} {provider : Option NodeId} :
    p.history.get? index = some gen →
      (∀ q, provider = some q → ∃ below older m n, gen.provider = some below ∧
        p.history.get? below = some older ∧ older.graph.get? q = some m ∧
        gen.graph.get? id = some n ∧ setup.analysis.isLeq n.state m.state = true) →
      gen.register setup.analysis id { provider } = .ok gen' →
      Move setup top index p (p.put index gen')
  /-- An open leaf is covered by a node that may cover it; a target only by a target. -/
  | cover {gen : Generation S P K} {graph : Graph S} {id coverer : NodeId} {a b : Node S} :
    p.history.get? index = some gen → gen.graph.get? id = some a →
      gen.graph.get? coverer = some b → a.succs = [] → a.isExpanded = false →
      (a.isTarget = true → b.isTarget = true) →
      gen.graph.mayCover setup.analysis id coverer = .ok true →
      (Graph.cover id coverer).run gen.graph = .ok () graph →
      Move setup top index p ((p.put index { gen with graph }).tally fun stats =>
        { stats with covered := stats.covered + 1 })
  /-- An open node is expanded. It is feasible, unless it is a target of an older generation. -/
  | expand {gen : Generation S P K} {graph : Graph S} {id : NodeId} {n : Node S}
    {new : List NodeId} : p.history.get? index = some gen → gen.graph.get? id = some n →
      n.covering = none → n.isExpanded = false →
      (n.isFeasible = true ∨ n.isTarget = true ∧ index < top) →
      (Graph.expand setup.analysis id gen.prec).run gen.graph = .ok new graph →
      Move setup top index p ((p.put index { gen with graph }).tally fun stats =>
        { stats with expanded := stats.expanded + 1 })
  /-- The missing init nodes are added. -/
  | seed {gen : Generation S P K} {graph : Graph S} {new : List NodeId} :
    p.history.get? index = some gen → gen.graph.isInitialized = false →
      (Graph.seed setup.analysis gen.prec).run gen.graph = .ok new graph →
      Move setup top index p (p.put index { gen with graph })
  | settle {q : Progress S P K} : Settle setup index p q → Move setup top index p q
  | exhaustive {gen gen' : Generation S P K} {run : SearchRun} :
    p.history.get? index = some gen → setup.search = .full →
      gen.settleExhaustive run = .ok gen' → Move setup top index p (p.put index gen')

/-- Changes of the last generation below a bound and, on demand, of those before it; `top` is the live
one. -/
def Moves (setup : Setup S P K) (top bound : Nat) : Progress S P K → Progress S P K → Prop :=
  Relation.ReflTransGen fun p q => ∃ index,
    (index + 1 = bound ∨ index < bound ∧ setup.search = .semiOnDemand) ∧ Move setup top index p q

variable {setup : Setup S P K} {top index bound i : Nat} {p q r : Progress S P K}

namespace Moves

theorem refl (p : Progress S P K) : Moves setup top bound p p := Relation.ReflTransGen.refl

theorem trans (h : Moves setup top bound p q) (h' : Moves setup top bound q r) :
    Moves setup top bound p r :=
  Relation.ReflTransGen.trans h h'

theorem mono (h : Moves setup top bound p q) (hsearch : setup.search = .semiOnDemand)
    (hle : bound ≤ i) : Moves setup top i p q := by
  induction h with
  | refl => exact .refl _
  | tail _ hlast ih =>
    obtain ⟨j, hj, hmove⟩ := hlast
    exact Relation.ReflTransGen.tail ih ⟨j, .inr ⟨by omega, hsearch⟩, hmove⟩

/-- Older generations are only asked on demand. -/
theorem widen (h : Moves setup top index p q) (hidle : setup.search ≠ .semiOnDemand → q = p) :
    Moves setup top (index + 1) p q := by
  by_cases hsearch : setup.search = .semiOnDemand
  · exact h.mono hsearch (Nat.le_succ index)
  · exact hidle hsearch ▸ .refl _

end Moves

theorem Move.moves (h : Move setup top index p q) : Moves setup top (index + 1) p q :=
  .single ⟨index, .inl rfl, h⟩

/-! ## What stays as it is -/

theorem Move.frame (h : Move setup top index p q) (hne : i ≠ index) :
    q.history.get? i = p.history.get? i := by
  cases h with
  | nested _ => rfl
  | settle hsettle => exact hsettle.frame hne
  | _ => exact Progress.get?_put_of_ne hne

/-- **Generations from the bound on stay as they are.** -/
theorem Moves.frame (h : Moves setup top bound p q) (hle : bound ≤ i) :
    q.history.get? i = p.history.get? i := by
  induction h with
  | refl => rfl
  | tail _ hlast ih =>
    obtain ⟨j, hj, hmove⟩ := hlast
    exact (hmove.frame (by omega)).trans ih

/-- Unless searches are on demand, the older generations stay as they are, too. -/
theorem Moves.frame_of_ne (h : Moves setup top bound p q) (hsearch : setup.search ≠ .semiOnDemand)
    (hne : i + 1 ≠ bound) : q.history.get? i = p.history.get? i := by
  induction h with
  | refl => rfl
  | tail _ hlast ih =>
    obtain ⟨j, hj, hmove⟩ := hlast
    have hj : j + 1 = bound := hj.resolve_right fun h => hsearch h.2
    exact (hmove.frame (by omega)).trans ih

theorem Move.length (h : Move setup top index p q) : q.history.length = p.history.length := by
  cases h with
  | nested _ => rfl
  | settle hsettle => exact hsettle.length
  | _ => exact Progress.length_put

theorem Moves.length (h : Moves setup top bound p q) :
    q.history.length = p.history.length := by
  induction h with
  | refl => rfl
  | tail _ hlast ih =>
    obtain ⟨_, -, hmove⟩ := hlast
    exact hmove.length.trans ih

omit [DecidableEq S] [DecidableEq K] in
/-- Settling writes distances, and those only in its generation. -/
theorem Settle.exists_writes (h : Settle setup index p q) :
    ∃ gen gen', p.history.get? index = some gen ∧ gen.DistanceWrites gen' ∧
      q = p.put index gen' := by
  cases h with
  | target hgen _ _ hset => exact ⟨_, _, hgen, .of_setDistance hset, rfl⟩
  | start hgen _ hset => exact ⟨_, _, hgen, .of_setDistance hset, rfl⟩
  | guided hgen hsettle =>
    have hsettles : Generation.Settles (fun _ => True) _ _ :=
      Generation.settleGuided_settles (fun _ _ => trivial) hsettle
    exact ⟨_, _, hgen, hsettles.toDistanceWrites, rfl⟩

theorem Move.retention (h : Move setup top index p q) :
    q.history.retention = p.history.retention := by
  cases h with
  | nested _ => rfl
  | settle hsettle =>
    obtain ⟨_, _, -, -, rfl⟩ := hsettle.exists_writes
    rfl
  | _ => rfl

/-! ## What is kept -/

theorem Move.keeps (h : Move setup top index p q) : p.history.Keeps q.history := by
  cases h with
  | nested _ => exact .refl _
  | heuristic hgen _ hset =>
    exact Progress.keeps_put hgen (Generation.keeps_of_setHeuristic hset)
  | repoint hgen _ _ _ _ _ _ _ hset =>
    exact Progress.keeps_put hgen (Generation.keeps_of_setProvider hset)
  | register hgen _ hset => exact Progress.keeps_put hgen (Generation.keeps_of_register hset)
  | cover hgen _ _ _ _ _ _ hrun =>
    exact Progress.keeps_put hgen (.of_grows (Graph.grows_of_cover hrun))
  | expand hgen hn _ hopen _ hrun =>
    exact Progress.keeps_put hgen (.of_grows (Graph.expand_leaves hn hopen hrun).1.grows)
  | seed hgen hopen hrun =>
    exact Progress.keeps_put hgen (.of_grows (Graph.seed_leaves hopen hrun).grows)
  | settle hsettle =>
    obtain ⟨_, _, hgen, hwrites, rfl⟩ := hsettle.exists_writes
    exact Progress.keeps_put hgen (.of_distanceWrites hwrites)
  | exhaustive hgen _ hsettle =>
    exact Progress.keeps_put hgen
      (.of_distanceWrites (Generation.settleExhaustive_writes hsettle))

/-- **Graphs only grow, and what is known stays known.** -/
theorem Moves.keeps (h : Moves setup top bound p q) : p.history.Keeps q.history := by
  induction h with
  | refl => exact .refl _
  | tail _ hlast ih =>
    obtain ⟨_, -, hmove⟩ := hlast
    exact ih.trans hmove.keeps

theorem Move.wellFormed (h : Move setup top index p q)
    (hp : ∀ gen, p.history.get? i = some gen → gen.graph.WellFormed) {gen' : Generation S P K}
    (hgen' : q.history.get? i = some gen') : gen'.graph.WellFormed := by
  rcases eq_or_ne i index with rfl | hne
  · have hput : ∀ {old new : Generation S P K}, p.history.get? i = some old →
        (old.graph.WellFormed → new.graph.WellFormed) →
        (p.put i new).history.get? i = some gen' → gen'.graph.WellFormed := by
      intro old new hold hwf hnew
      rw [Progress.get?_put_self hold] at hnew
      exact Option.some.inj hnew ▸ hwf (hp old hold)
    cases h with
    | nested _ => exact hp gen' hgen'
    | heuristic hgen _ hset =>
      obtain ⟨_, _, -, -, -, hrewrites, -⟩ := Generation.setHeuristic_ok hset
      exact hput hgen (fun hwf => hrewrites.graph ▸ hwf) hgen'
    | repoint hgen _ _ _ _ _ _ _ hset =>
      obtain ⟨_, -, hrewrites⟩ := Generation.setProvider_ok hset
      exact hput hgen (fun hwf => hrewrites.graph ▸ hwf) hgen'
    | register hgen _ hset =>
      obtain ⟨-, -, hrewrites⟩ := Generation.register_ok hset
      exact hput hgen (fun hwf => hrewrites.graph ▸ hwf) hgen'
    | cover hgen _ _ _ _ _ _ hrun => exact hput hgen (fun hwf => hwf.cover hrun) hgen'
    | expand hgen _ _ _ _ hrun => exact hput hgen (fun hwf => hwf.expand hrun) hgen'
    | seed hgen _ hrun => exact hput hgen (fun hwf => hwf.seed hrun) hgen'
    | settle hsettle =>
      obtain ⟨_, _, hgen, hwrites, rfl⟩ := hsettle.exists_writes
      exact hput hgen (fun hwf => hwrites.graph ▸ hwf) hgen'
    | exhaustive hgen _ hsettle =>
      exact hput hgen (fun hwf => (Generation.settleExhaustive_writes hsettle).graph ▸ hwf) hgen'
  · exact hp gen' (h.frame hne ▸ hgen')

/-- **A well-formed graph stays so**, whatever the other generations are like. -/
theorem Moves.wellFormed (h : Moves setup top bound p q)
    (hp : ∀ gen, p.history.get? i = some gen → gen.graph.WellFormed) {gen' : Generation S P K}
    (hgen' : q.history.get? i = some gen') : gen'.graph.WellFormed := by
  induction h generalizing gen' with
  | refl => exact hp gen' hgen'
  | tail _ hlast ih =>
    obtain ⟨_, -, hmove⟩ := hlast
    exact hmove.wellFormed (fun _ hgen => ih hgen) hgen'

/-- The slots that hold generations, and the providers of these, stay the same. -/
theorem Move.provider (h : Move setup top index p q) (i : Nat) :
    (q.history.get? i).map (·.provider) = (p.history.get? i).map (·.provider) := by
  have hput : ∀ {gen gen' : Generation S P K}, p.history.get? index = some gen →
      gen'.provider = gen.provider → ((p.put index gen').history.get? i).map (·.provider) =
        (p.history.get? i).map (·.provider) := fun hgen hsame => Progress.provider_put hgen hsame i
  cases h with
  | nested _ => rfl
  | heuristic hgen _ hset => exact hput hgen (Generation.keeps_of_setHeuristic hset).provider
  | repoint hgen _ _ _ _ _ _ _ hset => exact hput hgen (Generation.keeps_of_setProvider hset).provider
  | register hgen _ hset => exact hput hgen (Generation.keeps_of_register hset).provider
  | cover hgen => exact hput hgen rfl
  | expand hgen => exact hput hgen rfl
  | seed hgen => exact hput hgen rfl
  | settle hsettle =>
    obtain ⟨_, _, hgen, hwrites, rfl⟩ := hsettle.exists_writes
    exact hput hgen hwrites.provider
  | exhaustive hgen _ hsettle =>
    exact hput hgen (Generation.settleExhaustive_writes hsettle).provider

theorem Moves.provider (h : Moves setup top bound p q) (i : Nat) :
    (q.history.get? i).map (·.provider) = (p.history.get? i).map (·.provider) := by
  induction h with
  | refl => rfl
  | tail _ hlast ih =>
    obtain ⟨_, -, hmove⟩ := hlast
    exact (hmove.provider i).trans ih

/-- The later state of a generation that is held. -/
theorem Moves.exists_keeps (h : Moves setup top bound p q) {gen : Generation S P K}
    (hgen : p.history.get? i = some gen) :
    ∃ gen', q.history.get? i = some gen' ∧ gen.Keeps gen' :=
  h.keeps i gen hgen

end Exploration

end GuidedReach
