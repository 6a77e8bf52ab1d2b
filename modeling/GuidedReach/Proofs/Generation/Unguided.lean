import GuidedReach.Proofs.Exploration.Keeps
import GuidedReach.Proofs.Generation.Tracked
import GuidedReach.Proofs.Graph.Edits
import GuidedReach.Proofs.Graph.Grown

/-!
# A first exploration

The first generation grows out of an empty graph under one precision, and no generation provides
heuristics for it: they are all 0. Nothing is asked of the analysis here. Its order of the states need
not even be transitive; what covering edges keep to is any transitive relation that holds wherever the
order does.

* `Analysis.under`, `Analysis.Refines` — another order of the states.
* `Analysis.Encloses` — states that are not left and can be expanded.
* `Generation.Unguided` — what holds while the first generation grows.
* `Generation.Unguided.setHeuristic`, `Generation.Unguided.register`, `Generation.Unguided.cover`,
  `Generation.Unguided.of_addedLeaves` — the changes that keep it so.
-/

namespace GuidedReach

variable {S P K : Type}

/-! ## Orders and states -/

/-- The analysis with another order of the states. -/
def Analysis.under (analysis : Analysis S P K) (leq : S → S → Bool) : Analysis S P K :=
  { analysis with isLeq := leq }

/-- The order of the analysis implies a relation, as far as only targets stand in for targets. The
relation is transitive and goes from targets only to targets. -/
structure Analysis.Refines (analysis : Analysis S P K) (leq : S → S → Bool) : Prop where
  le : ∀ {a b}, analysis.isLeq a b = true →
    (analysis.isTarget a = true → analysis.isTarget b = true) → leq a b = true
  trans : ∀ {a b c}, leq a b = true → leq b c = true → leq a c = true
  isTarget : ∀ {a b}, leq a b = true → analysis.isTarget a = true → analysis.isTarget b = true

/-- Some states are not left under a precision, and those that are not empty can be expanded. -/
structure Analysis.Encloses (analysis : Analysis S P K) (prec : P) (inside : S → Prop) : Prop where
  init : ∀ s ∈ analysis.initStates prec, inside s
  succ : ∀ {s}, inside s ∧ analysis.isBottom s = false → ∀ t ∈ analysis.succStates s prec, inside t
  inDomain : ∀ {s}, inside s ∧ analysis.isBottom s = false → analysis.inDomain s = true

/-- Nodes that could stand in for each other. -/
structure Node.Alike (analysis : Analysis S P K) (n m : Node S) : Prop where
  key : analysis.key n.state = analysis.key m.state
  le : analysis.isLeq n.state m.state = true
  ge : analysis.isLeq m.state n.state = true
  isTarget : n.isTarget = m.isTarget

theorem Node.Alike.symm {analysis : Analysis S P K} {n m : Node S} (h : n.Alike analysis m) :
    m.Alike analysis n :=
  ⟨h.key.symm, h.ge, h.le, h.isTarget.symm⟩

namespace Graph

variable {g g' : Graph S} {analysis : Analysis S P K} {prec : P} {inside : S → Prop}

/-- The states of a graph that grew out of nothing are not outside, by induction on the node
numbers. -/
theorem GrownFrom.enclosed (h : ({} : Graph S).GrownFrom analysis prec g)
    {allowed : P → Prop} (hg : g.Faithful analysis allowed)
    (hinside : analysis.Encloses prec inside) {i : NodeId} {n : Node S} (hn : g.get? i = some n) :
    inside n.state := by
  have hempty : ∀ j, ({} : Graph S).get? j = none := fun j => NodeMap.get?_empty j
  induction i using Nat.strongRecOn generalizing n with
  | ind i ih =>
    cases hparent : n.parent with
    | none => exact hinside.init _ (h.root hn (hempty i) hparent)
    | some p =>
      obtain ⟨hlt, m, hm, -⟩ := hg.wellFormed.parent_link hn hparent
      exact hinside.succ ⟨ih p hlt hm, hg.not_isBottom_of_parent hn hparent hm⟩ _
        (h.child hn (hempty i) hparent hm)

/-! ## Growth under another order -/

section

variable [DecidableEq S] {leq : S → S → Bool}

theorem addSuccStates_under (parent : NodeId) (states : List S) :
    addSuccStates (analysis.under leq) parent states = addSuccStates analysis parent states := by
  induction states with
  | nil => rfl
  | cons s states ih =>
    simp only [addSuccStates, ih]
    rfl

/-- Expanding a node does not depend on the order. -/
theorem expand_under (id : NodeId) :
    expand (analysis.under leq) id prec = expand analysis id prec := by
  simp only [expand, addSuccStates_under]
  rfl

theorem addInitStates_under (states : List S) :
    addInitStates (analysis.under leq) states = addInitStates analysis states := by
  induction states with
  | nil => rfl
  | cons s states ih =>
    simp only [addInitStates, ih]
    rfl

/-- Neither does adding the init states. -/
theorem seed_under : seed (analysis.under leq) prec = seed analysis prec := by
  simp only [seed, addInitStates_under]
  rfl

end

end Graph

namespace Generation

variable [DecidableEq K] {analysis : Analysis S P K} {leq : S → S → Bool} {prec : P}
variable {gen gen' : Generation S P K} {pending new : List NodeId} {id c : NodeId} {n : Node S}
variable {k k' : SearchNode}

/-- No heuristic but 0 is known, and no distance. Covering edges keep to a relation, and of the nodes
that could stand in for each other only one is expanded. -/
structure Unguided (analysis : Analysis S P K) (leq : S → S → Bool) (prec : P)
    (pending : List NodeId) (gen : Generation S P K) : Prop extends gen.Tracked pending where
  faithful : gen.graph.Faithful (analysis.under leq) (· = prec)
  grown : ({} : Graph S).GrownFrom (analysis.under leq) prec gen.graph
  prec_eq : gen.prec = prec
  provider : gen.provider = none
  heuristic : ∀ {i k}, gen.searchNodes.get? i = some k →
    k.heuristic = .unknown ∨ k.heuristic = .zero
  distance : ∀ {i k}, gen.searchNodes.get? i = some k → k.distance = .unknown
  /-- A node is found under its key. -/
  listed : ∀ {i n}, gen.graph.get? i = some n → i ∉ pending →
    i ∈ gen.buckets.find (analysis.key n.state)
  apart : ∀ {i j n m}, gen.graph.get? i = some n → gen.graph.get? j = some m →
    n.isExpanded = true → m.isExpanded = true → n.Alike analysis m → i = j

namespace Unguided

/-- While no distance is known, only targets count as reaching one. -/
theorem reachesTarget (h : gen.Unguided analysis leq prec []) {i : NodeId}
    (hn : gen.graph.get? i = some n) : gen.reachesTarget i = .ok n.isTarget := by
  obtain ⟨k, hk⟩ := h.registered hn List.not_mem_nil
  have hd : gen.distance i = .ok .unknown := distance_eq_ok.2 ⟨k, hk, h.distance hk⟩
  cases htarget : n.isTarget <;>
    simp [Generation.reachesTarget, Graph.node_eq_ok.2 hn, htarget, hd, Distance.isFinite, bind,
      Except.bind, pure, Except.pure]

/-! ## Changes of search nodes -/

/-- Only targets cover targets. -/
theorem isTarget_of_covering (h : gen.Unguided analysis leq prec pending)
    (hleq : analysis.Refines leq) {i : NodeId} {m : Node S} (hn : gen.graph.get? i = some n)
    (hcovering : n.covering = some c) (hm : gen.graph.get? c = some m) (htarget : n.isTarget = true) :
    m.isTarget = true := by
  obtain ⟨-, -, m', hm', hle⟩ := h.faithful.covering hn hcovering
  obtain rfl := Option.some.inj (hm.symm.trans hm')
  rw [h.faithful.isTarget hm]
  exact hleq.isTarget hle (h.faithful.isTarget hn ▸ htarget)

/-- **The heuristic of a node can be set** to 0. -/
theorem setHeuristic (h : gen.Unguided analysis leq prec pending)
    (hk : gen.searchNodes.get? id = some k) :
    ∃ gen', gen.setHeuristic id .zero = .ok gen' ∧ gen'.Unguided analysis leq prec pending ∧
      gen'.graph = gen.graph ∧ gen.Keeps gen' ∧ gen'.heuristic id = .ok .zero := by
  obtain ⟨-, n, hn⟩ := h.held hk
  have hfits : k.heuristic = .zero ∨ k.heuristic = .unknown ∧ (n.isTarget = true → Distance.zero = .zero) ∧
      (k.distance.isKnown = true → Distance.zero.notAbove k.distance = true) :=
    (h.heuristic hk).symm.imp_right fun hopen => ⟨hopen, fun _ => rfl, by simp [h.distance hk, Distance.isKnown]⟩
  obtain ⟨gen', hset⟩ := exists_setHeuristic hn hk rfl hfits
  obtain ⟨_, k', -, hk', -, hrewrites, -⟩ := setHeuristic_ok hset
  obtain rfl := Option.some.inj (hk.symm.trans hk')
  have hbuckets := buckets_of_setHeuristic hset
  have hnodes : ∀ {i l}, gen'.searchNodes.get? i = some l →
      (i = id ∧ l = { k with heuristic := .zero }) ∨ gen.searchNodes.get? i = some l := by
    intro i l hl
    rw [hrewrites.get?] at hl
    split at hl
    · exact .inl ⟨‹_›, (Option.some.inj hl).symm⟩
    · exact .inr hl
  refine ⟨gen', hset, ⟨h.toTracked.of_rewrites hk hrewrites hbuckets, hrewrites.graph ▸ h.faithful,
    hrewrites.graph ▸ h.grown, hrewrites.prec.trans h.prec_eq, hrewrites.provider.trans h.provider,
    ?_, ?_, ?_, ?_⟩, hrewrites.graph, keeps_of_setHeuristic hset,
    heuristic_eq_ok.2 ⟨_, by rw [hrewrites.get?, if_pos rfl], rfl⟩⟩
  · intro i l hl
    rcases hnodes hl with ⟨-, rfl⟩ | hold
    · exact .inr rfl
    · exact h.heuristic hold
  · intro i l hl
    rcases hnodes hl with ⟨-, rfl⟩ | hold
    · show k.distance = .unknown
      exact h.distance hk
    · exact h.distance hold
  · rw [hrewrites.graph, hbuckets]
    exact h.listed
  · rw [hrewrites.graph]
    exact h.apart

/-- **The next pending node can be registered.** -/
theorem register (h : gen.Unguided analysis leq prec (id :: pending)) :
    ∃ gen', gen.register analysis id {} = .ok gen' ∧ gen'.Unguided analysis leq prec pending ∧
      gen'.graph = gen.graph ∧ gen.Keeps gen' := by
  obtain ⟨n, hn⟩ := h.pending_held List.mem_cons_self
  obtain ⟨gen', hregister, htracked⟩ := h.toTracked.register analysis {}
  obtain ⟨-, -, hrewrites⟩ := register_ok hregister
  have hbuckets : gen'.buckets = gen.buckets.file (analysis.key n.state) id := by
    simp only [Generation.register, bind_eq_ok, Graph.node_eq_ok, demand_eq_ok, pure_eq_ok] at hregister
    obtain ⟨m, hm, -, -, rfl⟩ := hregister
    obtain rfl := Option.some.inj (hn.symm.trans hm)
    rfl
  have hnodes : ∀ {i l}, gen'.searchNodes.get? i = some l →
      l = {} ∨ gen.searchNodes.get? i = some l := by
    intro i l hl
    rw [hrewrites.get?] at hl
    split at hl
    · exact .inl (Option.some.inj hl).symm
    · exact .inr hl
  refine ⟨gen', hregister, ⟨htracked, hrewrites.graph ▸ h.faithful, hrewrites.graph ▸ h.grown,
    hrewrites.prec.trans h.prec_eq, hrewrites.provider.trans h.provider, ?_, ?_, ?_, ?_⟩,
    hrewrites.graph, keeps_of_register hregister⟩
  · intro i l hl
    rcases hnodes hl with rfl | hold
    · exact .inl rfl
    · exact h.heuristic hold
  · intro i l hl
    rcases hnodes hl with rfl | hold
    · rfl
    · exact h.distance hold
  · intro i m hm hi
    rw [hrewrites.graph] at hm
    rw [hbuckets, Buckets.find_file]
    by_cases hne : i = id
    · subst hne
      obtain rfl := Option.some.inj (hn.symm.trans hm)
      simp
    · have hold := h.listed hm (by simp [hne, hi])
      split
      · rename_i hkey
        exact List.mem_append_left _ (hkey ▸ hold)
      · exact hold
  · rw [hrewrites.graph]
    exact h.apart

/-! ## Changes of the graph -/

/-- **A node can be covered** by one above it in the relation. -/
theorem cover (h : gen.Unguided analysis leq prec []) (hleq : analysis.Refines leq)
    {a b : Node S} {graph : Graph S} (ha : gen.graph.get? id = some a)
    (hb : gen.graph.get? c = some b) (hleaf : a.succs = []) (hopen : a.isExpanded = false)
    (hle : analysis.isLeq a.state b.state = true) (htarget : a.isTarget = true → b.isTarget = true)
    (hcover : (Graph.cover id c).run gen.graph = .ok () graph) :
    Unguided analysis leq prec [] { gen with graph } := by
  have hwf := h.faithful.wellFormed
  rw [h.faithful.isTarget ha, h.faithful.isTarget hb] at htarget
  obtain ⟨-, a', b', -, -, -, -, hrewritten⟩ := Graph.cover_ok hwf hcover
  have hgrows := Graph.grows_of_cover hcover
  have hold : ∀ {i n'}, graph.get? i = some n' → ∃ n, gen.graph.get? i = some n ∧
      n' = Graph.coverNode id c a'.covered i n := hrewritten.exists_of_get?
  constructor
  · refine h.toTracked.of_grows hgrows ?_ (by simp) List.nodup_nil
    intro i n' hn' _
    obtain ⟨n, hn, -⟩ := hold hn'
    exact ⟨n, hn⟩
  · exact h.faithful.cover_of_trans hleq.trans ha hb hleaf hopen (hleq.le hle htarget) hcover
  · exact h.grown.of_rewritten hrewritten hgrows fun _ _ => ⟨rfl, rfl, rfl, rfl⟩
  · exact h.prec_eq
  · exact h.provider
  · exact h.heuristic
  · exact h.distance
  · intro i n' hn' hi
    obtain ⟨n, hn, rfl⟩ := hold hn'
    exact h.listed (n := n) hn hi
  · intro i j n' m' hn' hm' hexpanded hexpanded' halike
    obtain ⟨n, hn, rfl⟩ := hold hn'
    obtain ⟨m, hm, rfl⟩ := hold hm'
    exact h.apart (n := n) (m := m) hn hm hexpanded hexpanded'
      ⟨halike.key, halike.le, halike.ge, halike.isTarget⟩

/-- **New leaves can be added**, if nothing that is expanded could stand in for their parent. -/
theorem of_addedLeaves (h : gen.Unguided analysis leq prec []) {parent : Option NodeId}
    {graph : Graph S} (hadded : Graph.AddedLeaves parent new gen.graph graph) (hnodup : new.Nodup)
    (hfaithful : graph.Faithful (analysis.under leq) (· = prec))
    (hgrown : ({} : Graph S).GrownFrom (analysis.under leq) prec graph)
    (hapart : ∀ p a, parent = some p → gen.graph.get? p = some a →
      ∀ {j m}, gen.graph.get? j = some m → m.isExpanded = true → a.Alike analysis m → p = j) :
    Unguided analysis leq prec new { gen with graph } := by
  -- an expanded node is the parent, or was expanded before
  have hexpanded : ∀ {i n'}, graph.get? i = some n' → n'.isExpanded = true →
      ∃ n, gen.graph.get? i = some n ∧ n.Grows n' ∧ (some i = parent ∨ n.isExpanded = true) := by
    intro i n' hn' hexp
    have hi : i ∉ new := fun hi => by simp [(hadded.isOpen_of_mem hi hn').2.2] at hexp
    obtain ⟨n, hn, hgrows, -, hlinks⟩ := hadded.exists_old hi hn'
    exact ⟨n, hn, hgrows, or_iff_not_imp_left.2 fun hne => (hlinks hne).2.symm.trans hexp⟩
  constructor
  · refine h.toTracked.of_grows hadded.grows ?_ ?_ hnodup
    · intro i n' hn' hi
      obtain ⟨n, hn, -⟩ := hadded.old hi hn'
      exact ⟨n, hn⟩
    · intro i hi
      obtain ⟨hnone, n, hn, -⟩ := hadded.new hi
      exact ⟨hnone, n, hn⟩
  · exact hfaithful
  · exact hgrown
  · exact h.prec_eq
  · exact h.provider
  · exact h.heuristic
  · exact h.distance
  · intro i n' hn' hi
    obtain ⟨n, hn, hgrows, -⟩ := hadded.exists_old hi hn'
    rw [hgrows.state]
    exact h.listed hn List.not_mem_nil
  · intro i j n' m' hn' hm' hexp hexp' halike
    obtain ⟨n, hn, hgrows, hi⟩ := hexpanded hn' hexp
    obtain ⟨m, hm, hgrows', hj⟩ := hexpanded hm' hexp'
    have hsame : n.Alike analysis m := by
      refine ⟨?_, ?_, ?_, ?_⟩
      · rw [← hgrows.state, ← hgrows'.state]
        exact halike.key
      · rw [← hgrows.state, ← hgrows'.state]
        exact halike.le
      · rw [← hgrows.state, ← hgrows'.state]
        exact halike.ge
      · rw [← hgrows.isTarget, ← hgrows'.isTarget]
        exact halike.isTarget
    rcases hi with hi | hi
    · rcases hj with hj | hj
      · exact Option.some.inj (hi.trans hj.symm)
      · exact hapart i n hi.symm hn hm hj hsame
    · rcases hj with hj | hj
      · exact (hapart j m hj.symm hm hn hi hsame.symm).symm
      · exact h.apart hn hm hi hj hsame

end Unguided

end Generation

end GuidedReach
