import GuidedReach.Proofs.Exploration.Keeps
import GuidedReach.Proofs.Generation.Found

/-!
# Tidy generations

An exploration finds the search nodes that it looks up as long as the generations are *tidy*: search
nodes and buckets mirror the graphs, and the provider of a search node is in the graph of the
generation that heuristics are taken from.

* `History.Tidy` — the generations up to an index are tidy, save for pending nodes of the last.
* `Progress.Tidies` — a later state, which is tidy again.
* `Progress.Tidies.of_below`, `History.Tidy.put` — changes of older generations and of the last one.
* `Older.Tidying` — what is asked of older generations finds its search nodes and leaves them tidy.
-/

namespace GuidedReach

variable {S P K : Type}

/-- The providers of a generation's search nodes are nodes of an older graph. -/
def Generation.DrawsFrom (gen older : Generation S P K) : Prop :=
  ∀ {i k q}, gen.searchNodes.get? i = some k → k.provider = some q → ∃ m, older.graph.get? q = some m

/-- The second generation has the nodes of the first, and the same provider. -/
structure Generation.Extends (gen gen' : Generation S P K) : Prop where
  provider : gen'.provider = gen.provider
  node : ∀ {i n}, gen.graph.get? i = some n → ∃ n', gen'.graph.get? i = some n'

theorem Generation.Extends.refl (gen : Generation S P K) : gen.Extends gen :=
  ⟨rfl, fun hn => ⟨_, hn⟩⟩

theorem Generation.Extends.trans {gen gen' gen'' : Generation S P K} (h : gen.Extends gen')
    (h' : gen'.Extends gen'') : gen.Extends gen'' :=
  ⟨h'.provider.trans h.provider, fun hn => (h.node hn).elim fun _ hn' => h'.node hn'⟩

/-- Writes to search nodes leave the graph as it is. -/
theorem Generation.Extends.of_graph {gen gen' : Generation S P K} (hgraph : gen'.graph = gen.graph)
    (hprovider : gen'.provider = gen.provider) : gen.Extends gen' :=
  ⟨hprovider, fun hn => ⟨_, hgraph ▸ hn⟩⟩

variable [DecidableEq K]

/-- Search nodes and buckets mirror the graphs of the generations up to an index, save for nodes of
the last one that are still pending; and providers are nodes of older graphs. -/
structure History.Tidy (analysis : Analysis S P K) (pending : List NodeId) (index : Nat)
    (history : History S P K) : Prop where
  wellFormed : ∀ {i gen}, i ≤ index → history.get? i = some gen → gen.graph.WellFormed
  older : ∀ {i gen}, i < index → history.get? i = some gen → gen.Filed analysis []
  filed : ∀ {gen}, history.get? index = some gen → gen.Filed analysis pending
  provided : ∀ {i gen below}, i ≤ index → history.get? i = some gen → gen.provider = some below →
    below < i ∧ ∃ older, history.get? below = some older ∧ gen.DrawsFrom older

/-- A node is in the graph of the generation with an index. -/
def Progress.Holds (p : Progress S P K) (index : Nat) (id : NodeId) : Prop :=
  ∃ gen n, p.history.get? index = some gen ∧ gen.graph.get? id = some n

/-- A later state, in which the generations up to an index are tidy, and the others as they were. -/
structure Progress.Tidies (analysis : Analysis S P K) (pending : List NodeId) (index : Nat)
    (p q : Progress S P K) : Prop where
  tidy : q.history.Tidy analysis pending index
  continued : ∀ {i gen}, p.history.get? i = some gen →
    ∃ gen', q.history.get? i = some gen' ∧ gen.Extends gen'
  frame : ∀ {i}, index < i → q.history.get? i = p.history.get? i
  length : q.history.length = p.history.length

section

variable {analysis : Analysis S P K} {pending pending' new : List NodeId} {index bound : Nat}
variable {p q r : Progress S P K} {gen gen' : Generation S P K} {id : NodeId}

namespace History.Tidy

/-- Older generations have no pending nodes. -/
theorem below (h : p.history.Tidy analysis pending index) (hlt : bound < index) :
    p.history.Tidy analysis [] bound where
  wellFormed hle := h.wellFormed (by omega)
  older hlt' := h.older (by omega)
  filed := h.older hlt
  provided hle := h.provided (by omega)

/-- The last generation is changed. -/
theorem put (h : p.history.Tidy analysis pending index) (hgen : p.history.get? index = some gen)
    (hsame : gen'.provider = gen.provider) (hwf : gen'.graph.WellFormed)
    (hfiled : gen'.Filed analysis pending') (hprovided : ∀ {below older},
      gen.provider = some below → p.history.get? below = some older →
        gen.DrawsFrom older → gen'.DrawsFrom older) :
    (p.put index gen').history.Tidy analysis pending' index := by
  refine ⟨fun {i new} hle hnew => ?_, fun {i new} hlt hnew => ?_, fun {new} hnew => ?_,
    fun {i new b} hle hnew hb => ?_⟩
  · rw [Progress.get?_put hgen] at hnew
    split at hnew
    · exact Option.some.inj hnew ▸ hwf
    · exact h.wellFormed hle hnew
  · exact h.older hlt ((Progress.get?_put_of_ne (by omega)).symm.trans hnew)
  · rw [Progress.get?_put_self hgen] at hnew
    exact Option.some.inj hnew ▸ hfiled
  · have hold : ∀ {b}, b < i → ∀ {older}, p.history.get? b = some older →
        (p.put index gen').history.get? b = some older := fun hlt _ holder =>
      (Progress.get?_put_of_ne (by omega)).trans holder
    rw [Progress.get?_put hgen] at hnew
    split at hnew
    · rename_i heq
      obtain rfl := Option.some.inj hnew
      obtain ⟨hlt, older, holder, hby⟩ := h.provided (Nat.le_refl _) hgen (hsame.symm.trans hb)
      exact ⟨heq ▸ hlt, older, hold (heq ▸ hlt) holder, hprovided (hsame.symm.trans hb) holder hby⟩
    · obtain ⟨hlt, older, holder, hby⟩ := h.provided hle hnew hb
      exact ⟨hlt, older, hold hlt holder, hby⟩

theorem furnished (h : p.history.Tidy analysis [] index)
    (hgen : p.history.get? index = some gen) : gen.Furnished :=
  (h.filed hgen).furnished (h.wellFormed (Nat.le_refl _) hgen)

end History.Tidy

omit [DecidableEq K] in
theorem Progress.Holds.exists (h : p.Holds index id) (hgen : p.history.get? index = some gen) :
    ∃ n, gen.graph.get? id = some n := by
  obtain ⟨gen', n, hgen', hn⟩ := h
  obtain rfl := Option.some.inj (hgen.symm.trans hgen')
  exact ⟨n, hn⟩

namespace Progress.Tidies

theorem refl (h : p.history.Tidy analysis pending index) : p.Tidies analysis pending index p :=
  ⟨h, fun hgen => ⟨_, hgen, .refl _⟩, fun _ => rfl, rfl⟩

theorem trans (h : p.Tidies analysis pending index q) (h' : q.Tidies analysis pending' index r) :
    p.Tidies analysis pending' index r := by
  refine ⟨h'.tidy, fun hgen => ?_, fun hlt => (h'.frame hlt).trans (h.frame hlt),
    h'.length.trans h.length⟩
  obtain ⟨gen', hgen', hcontinued⟩ := h.continued hgen
  obtain ⟨gen'', hgen'', hcontinued'⟩ := h'.continued hgen'
  exact ⟨gen'', hgen'', hcontinued.trans hcontinued'⟩

/-- Counters do not matter. -/
theorem of_count (h : p.history.Tidy analysis pending index) {stats : Stats} :
    p.Tidies analysis pending index { p with stats } :=
  ⟨h, fun hgen => ⟨_, hgen, .refl _⟩, fun _ => rfl, rfl⟩

theorem holds (h : p.Tidies analysis pending index q) {i : Nat} (hid : p.Holds i id) :
    q.Holds i id := by
  obtain ⟨gen, n, hgen, hn⟩ := hid
  obtain ⟨gen', hgen', hcontinued⟩ := h.continued hgen
  obtain ⟨n', hn'⟩ := hcontinued.node hn
  exact ⟨gen', n', hgen', hn'⟩

/-- Generations keep their providers. -/
theorem provider (h : p.Tidies analysis pending index q) {i : Nat}
    (hgen : p.history.get? i = some gen) (hgen' : q.history.get? i = some gen') :
    gen'.provider = gen.provider := by
  obtain ⟨gen'', hgen'', hcontinued⟩ := h.continued hgen
  obtain rfl := Option.some.inj (hgen'.symm.trans hgen'')
  exact hcontinued.provider

/-- What is done in older generations keeps all of them tidy. -/
theorem of_below (h : p.history.Tidy analysis pending index) (hlt : bound < index)
    (hbelow : p.Tidies analysis [] bound q) : p.Tidies analysis pending index q := by
  refine ⟨⟨fun {i gen} hle hgen => ?_, fun {i gen} hlt' hgen => ?_, fun {gen} hgen => ?_,
    fun {i gen b} hle hgen hb => ?_⟩, hbelow.continued, fun hlt' => hbelow.frame (by omega),
    hbelow.length⟩
  · rcases Nat.lt_or_ge bound i with hi | hi
    · exact h.wellFormed hle (hbelow.frame hi ▸ hgen)
    · exact hbelow.tidy.wellFormed hi hgen
  · rcases Nat.lt_trichotomy bound i with hi | rfl | hi
    · exact h.older hlt' (hbelow.frame hi ▸ hgen)
    · exact hbelow.tidy.filed hgen
    · exact hbelow.tidy.older hi hgen
  · exact h.filed (hbelow.frame hlt ▸ hgen)
  · rcases Nat.lt_or_ge bound i with hi | hi
    · obtain ⟨hb', older, holder, hprovided⟩ := h.provided hle (hbelow.frame hi ▸ hgen) hb
      obtain ⟨older', holder', hcontinued⟩ := hbelow.continued holder
      refine ⟨hb', older', holder', fun hk hq => ?_⟩
      obtain ⟨m, hm⟩ := hprovided hk hq
      exact hcontinued.node hm
    · exact hbelow.tidy.provided hi hgen hb

/-- The last generation is changed. -/
theorem put (h : p.history.Tidy analysis pending index) (hgen : p.history.get? index = some gen)
    (hextends : gen.Extends gen') (hwf : gen'.graph.WellFormed)
    (hfiled : gen'.Filed analysis pending') (hprovided : ∀ {below older},
      gen.provider = some below → p.history.get? below = some older →
        gen.DrawsFrom older → gen'.DrawsFrom older) :
    p.Tidies analysis pending' index (p.put index gen') := by
  refine ⟨h.put hgen hextends.provider hwf hfiled hprovided, fun {i old} hold => ?_,
    fun hlt => get?_put_of_ne (by omega), length_put⟩
  rw [get?_put hgen]
  split
  · rename_i heq
    obtain rfl := Option.some.inj (hgen.symm.trans (heq ▸ hold))
    exact ⟨gen', rfl, hextends⟩
  · exact ⟨old, hold, .refl _⟩

/-- A write to a search node that leaves its provider. -/
theorem put_of_rewrites (h : p.history.Tidy analysis pending index)
    (hgen : p.history.get? index = some gen) {k k' : SearchNode}
    (hk : gen.searchNodes.get? id = some k) (hrewrites : gen.Rewrites gen' id k')
    (hsame : k'.provider = k.provider) (hfiled : gen'.Filed analysis pending) :
    p.Tidies analysis pending index (p.put index gen') := by
  refine put h hgen (.of_graph hrewrites.graph hrewrites.provider)
    (hrewrites.graph ▸ h.wellFormed (Nat.le_refl _) hgen) hfiled fun _ _ hby => ?_
  intro i l q hl hq
  rw [hrewrites.get?] at hl
  split at hl
  · obtain rfl := Option.some.inj hl
    exact hby hk (hsame ▸ hq)
  · exact hby hl hq

theorem put_of_distanceWrites (h : p.history.Tidy analysis pending index)
    (hgen : p.history.get? index = some gen) (hwrites : gen.DistanceWrites gen') :
    p.Tidies analysis pending index (p.put index gen') := by
  refine put h hgen (.of_graph hwrites.graph hwrites.provider)
    (hwrites.graph ▸ h.wellFormed (Nat.le_refl _) hgen)
    ((h.filed hgen).of_distanceWrites hwrites) fun _ _ hby => ?_
  intro i l q hl hq
  obtain ⟨-, hnone⟩ | ⟨k, d, hk, hk', -⟩ := hwrites.searchNode i
  · simp [hnone] at hl
  · obtain rfl := Option.some.inj (hl.symm.trans hk')
    exact hby hk hq

/-- The graph of the last generation is changed, and has all its nodes still. -/
theorem put_of_graph (h : p.history.Tidy analysis pending index)
    (hgen : p.history.get? index = some gen) {graph : Graph S} (hwf : graph.WellFormed)
    (hfiled : ({ gen with graph } : Generation S P K).Filed analysis pending')
    (hnode : ∀ {i n}, gen.graph.get? i = some n → ∃ n', graph.get? i = some n') :
    p.Tidies analysis pending' index (p.put index { gen with graph }) :=
  put h hgen ⟨rfl, hnode⟩ hwf hfiled fun _ _ hby => hby

/-- The graph of the last generation has grown. -/
theorem put_of_grows (h : p.history.Tidy analysis pending index)
    (hgen : p.history.get? index = some gen) {graph : Graph S} (hgrows : gen.graph.Grows graph)
    (hwf : graph.WellFormed) (hids : graph.ids = gen.graph.ids ++ new) :
    p.Tidies analysis (pending ++ new) index (p.put index { gen with graph }) :=
  put_of_graph h hgen hwf ((h.filed hgen).of_grows hgrows hids) fun hn =>
    (hgrows.node hn).imp fun _ hn' => hn'.1

end Progress.Tidies

end

/-- What is asked of generations below a bound finds its search nodes and leaves them tidy. -/
structure Older.Tidying (older : Older S P K) (analysis : Analysis S P K) (bound : Nat) : Prop where
  solve : ∀ {index start stop} {p : Progress S P K}, index < bound →
    p.history.Tidy analysis [] index → (∀ i ∈ start, p.Holds index i) →
      (older.solve index start stop).Finds p fun _ q => p.Tidies analysis [] index q
  openProvider : ∀ {index id} {p : Progress S P K}, index < bound →
    p.history.Tidy analysis [] index → p.Holds index id →
      (older.openProvider index id).Finds p fun _ q => p.Tidies analysis [] index q

/-! ## Reading and changing graphs -/

namespace Explore

omit [DecidableEq K] in
theorem finds_node {index : Nat} {id : NodeId} {p : Progress S P K} :
    (node index id).Finds p fun n q => q = p ∧
      ∃ gen, p.history.get? index = some gen ∧ gen.graph.get? id = some n :=
  finds_generation_bind fun gen hgen =>
    (finds_lift Graph.finds_node).mono fun _ _ _ ⟨hn, hq⟩ => ⟨hq, gen, hgen, hn⟩

omit [DecidableEq K] in
/-- Reading a node changes nothing. -/
theorem finds_node_bind {α : Type} {index : Nat} {id : NodeId} {p : Progress S P K}
    {f : Node S → Explore S P K α} {post : α → Progress S P K → Prop}
    (hf : ∀ gen n, p.history.get? index = some gen → gen.graph.get? id = some n → (f n).Finds p post) :
    (node index id >>= f).Finds p post :=
  finds_node.bind fun n _ _ ⟨hq, gen, hgen, hn⟩ => hq ▸ hf gen n hgen hn

omit [DecidableEq K] in
/-- A change of a graph knows nothing of search nodes. -/
theorem finds_editGraph {α : Type} {index : Nat} {edit : Edit (Graph S) α} {p : Progress S P K}
    (hedit : ∀ g, edit.Finds g fun _ _ => True) :
    (editGraph index edit).Finds p fun a q => ∃ gen graph, p.history.get? index = some gen ∧
      edit.run gen.graph = .ok a graph ∧ q = p.put index { gen with graph } := by
  have hfinds : (editGraph index edit).Finds p fun _ _ => True :=
    finds_generation_bind fun gen _ => finds_lift_bind (hedit gen.graph) fun _ _ _ =>
      finds_putGeneration.bind fun _ _ _ _ => finds_pure trivial
  exact hfinds.mono fun _ _ hrun _ => run_editGraph_ok.1 hrun

end Explore

end GuidedReach
