import GuidedReach.Exploration.Round
import GuidedReach.Proofs.Generation.Settles
import GuidedReach.Proofs.Graph.Growth
import GuidedReach.Proofs.History.Slots

/-!
# What an exploration may do

An exploration changes the generations of a history in small steps. Each step changes one of them
and comes with what was checked before it was taken, so that invariants can be shown step by step
without another look at the control flow.

* `Source` — where the heuristic of a node comes from.
* `Generation.Uncoverable` — no node can stand in for another one.
* `Step`, `Settle` — the changes of graphs, heuristics and providers; the changes of distances.
* `Below`, `Quiet`, `Upto` — sequences of them: in generations below a bound; in addition `Step`s in
  one generation; in addition `Settle`s there.
* `Quiet.frame`, `Upto.frame` — the other generations stay as they are.
-/

namespace GuidedReach

variable {S P K : Type}

namespace Progress

variable {p : Progress S P K}

theorem get?_put {index : Nat} {old gen : Generation S P K} (h : p.history.get? index = some old)
    (i : Nat) : (p.put index gen).history.get? i = if i = index then some gen else p.history.get? i :=
  History.get?_set (History.lt_length h) i

theorem get?_put_self {index : Nat} {old gen : Generation S P K}
    (h : p.history.get? index = some old) : (p.put index gen).history.get? index = some gen := by
  rw [get?_put h, if_pos rfl]

theorem get?_put_of_ne {index i : Nat} {gen : Generation S P K} (hne : i ≠ index) :
    (p.put index gen).history.get? i = p.history.get? i := by
  simp only [put, History.get?, History.set, Array.set!_eq_setIfInBounds,
    Array.getElem?_setIfInBounds]
  rw [if_neg hne.symm]

@[simp] theorem length_put {index : Nat} {gen : Generation S P K} :
    (p.put index gen).history.length = p.history.length :=
  History.length_set

/-- The progress after something was counted. -/
def tally (p : Progress S P K) (f : Stats → Stats) : Progress S P K :=
  { p with stats := f p.stats }

@[simp] theorem history_tally {f : Stats → Stats} : (p.tally f).history = p.history := rfl

end Progress

namespace Exploration

/-! ## Steps -/

/-- Where a heuristic comes from: a target, a generation without a provider, the known distance of
the provider, or, with decreasing heuristics, the tree parent. -/
inductive Source (setup : Setup S P K) (history : History S P K) (gen : Generation S P K)
    (id : NodeId) : Distance → Prop where
  | target {n : Node S} : gen.graph.get? id = some n → n.isTarget = true →
    Source setup history gen id .zero
  | base : gen.provider = none → Source setup history gen id .zero
  | provider {below : Nat} {older : Generation S P K} {k : SearchNode} {provider : NodeId}
    {d : Distance} : gen.provider = some below → history.get? below = some older →
      gen.searchNodes.get? id = some k → k.provider = some provider →
      older.distance provider = .ok d → d.isKnown = true → Source setup history gen id d
  | root {n : Node S} : setup.search = .decreasing → gen.graph.get? id = some n →
    n.parent = none → Source setup history gen id .zero
  | parent {n : Node S} {parent : NodeId} {edges : Nat} : setup.search = .decreasing →
    gen.graph.get? id = some n → n.parent = some parent →
      gen.heuristic parent = .ok (.finite edges) →
      Source setup history gen id (.finite (edges - 1))
  | refutedParent {n : Node S} {parent : NodeId} : setup.search = .decreasing →
    gen.graph.get? id = some n → n.parent = some parent → gen.heuristic parent = .ok .infinite →
      Source setup history gen id .infinite

end Exploration

namespace Generation

/-- A candidate does not do as the coverer of a node: if it may cover the node, and is a target when
the node is one, then it promises nearer targets. -/
def Unfit (analysis : Analysis S P K) (gen : Generation S P K) (id : NodeId) (isTarget : Bool)
    (above : Distance) (candidate : NodeId) : Prop :=
  gen.graph.mayCover analysis id candidate = .ok true →
    (∀ b, gen.graph.get? candidate = some b → isTarget = true → b.isTarget = true) →
      ∃ below, gen.heuristic candidate = .ok below ∧ below.isKnown = true ∧
        above.notAbove below = false

/-- No candidate does as the coverer of a node, if that is an open leaf. -/
def Uncoverable [DecidableEq K] (analysis : Analysis S P K) (gen : Generation S P K) (id : NodeId) :
    Prop :=
  ∀ {n d c}, gen.graph.get? id = some n → n.covering = none → n.isExpanded = false →
    n.succs = [] → gen.heuristic id = .ok d → c ∈ gen.buckets.find (analysis.key n.state) →
      gen.Unfit analysis id n.isTarget d c

end Generation

namespace Exploration

variable [DecidableEq S] [DecidableEq K]

/-- A change of a graph, a heuristic or a provider in the generation with an index. -/
inductive Step (setup : Setup S P K) (index : Nat) (p : Progress S P K) :
    Progress S P K → Prop where
  /-- Only counters change. -/
  | count {q : Progress S P K} : q.history = p.history → Step setup index p q
  | heuristic {gen gen' : Generation S P K} {id : NodeId} {value : Distance} :
    p.history.get? index = some gen → Source setup p.history gen id value →
      gen.setHeuristic id value = .ok gen' → Step setup index p (p.put index gen')
  /-- A covered provider is replaced by its coverer. -/
  | provider {gen gen' older : Generation S P K} {below : Nat} {id provider coverer : NodeId}
    {k : SearchNode} {m : Node S} : p.history.get? index = some gen → gen.provider = some below →
      p.history.get? below = some older → gen.searchNodes.get? id = some k →
      k.provider = some provider → k.heuristic.isKnown = true →
      older.graph.get? provider = some m → m.covering = some coverer →
      gen.editSearchNode id (SearchNode.setProvider (some coverer)) = .ok gen' →
      Step setup index p (p.put index gen')
  /-- A provider subsumes the node that it provides for. -/
  | register {gen gen' : Generation S P K} {id : NodeId} {provider : Option NodeId} :
    p.history.get? index = some gen →
      (∀ q, provider = some q → ∃ below older m n, gen.provider = some below ∧
        p.history.get? below = some older ∧ older.graph.get? q = some m ∧
        gen.graph.get? id = some n ∧ setup.analysis.isLeq n.state m.state = true) →
      gen.register setup.analysis id { provider } = .ok gen' → Step setup index p (p.put index gen')
  /-- An open leaf is covered by a node that subsumes it and promises no nearer targets. -/
  | cover {gen : Generation S P K} {graph : Graph S} {id coverer : NodeId} {a b : Node S}
    {above below : Distance} : p.history.get? index = some gen → gen.graph.get? id = some a →
      gen.graph.get? coverer = some b → a.succs = [] → a.isExpanded = false →
      setup.analysis.isLeq a.state b.state = true → (a.isTarget = true → b.isTarget = true) →
      gen.heuristic id = .ok above → gen.heuristic coverer = .ok below → above.isKnown = true →
      below.isKnown = true → above.notAbove below = true →
      (a.isTarget = true ∨ gen.distance id ≠ .ok .infinite) →
      (Graph.cover id coverer).run gen.graph = .ok () graph →
      Step setup index p (p.put index { gen with graph })
  /-- An open node that is not refuted, or is a target, is expanded, if no other can stand in for
  it. -/
  | expand {gen : Generation S P K} {graph : Graph S} {id : NodeId} {n : Node S} {d : Distance}
    {new : List NodeId} : p.history.get? index = some gen → gen.graph.get? id = some n →
      n.covering = none → n.isExpanded = false → (n.isTarget = true ∨ n.isFeasible = true) →
      gen.heuristic id = .ok d → d.isKnown = true →
      (n.isTarget = true ∨ d ≠ .infinite ∧ gen.distance id ≠ .ok .infinite) →
      gen.Uncoverable setup.analysis id →
      (Graph.expand setup.analysis id gen.prec).run gen.graph = .ok new graph →
      Step setup index p (p.put index { gen with graph })
  /-- The missing init nodes are added. -/
  | seed {gen : Generation S P K} {graph : Graph S} {new : List NodeId} :
    p.history.get? index = some gen → gen.graph.isInitialized = false →
      (Graph.seed setup.analysis gen.prec).run gen.graph = .ok new graph →
      Step setup index p (p.put index { gen with graph })

/-- A change of distances in the generation with an index. -/
inductive Settle (setup : Setup S P K) (index : Nat) (p : Progress S P K) :
    Progress S P K → Prop where
  | target {gen gen' : Generation S P K} {id : NodeId} {n : Node S} :
    p.history.get? index = some gen → gen.graph.get? id = some n → n.isTarget = true →
      gen.setDistance id .zero = .ok gen' → Settle setup index p (p.put index gen')
  | start {gen gen' : Generation S P K} {id : NodeId} : p.history.get? index = some gen →
    gen.heuristic id = .ok .infinite → gen.setDistance id .infinite = .ok gen' →
      Settle setup index p (p.put index gen')
  | guided {gen gen' : Generation S P K} {run : SearchRun} : p.history.get? index = some gen →
    gen.settleGuided run = .ok gen' → Settle setup index p (p.put index gen')

/-! ## Sequences of steps -/

/-- Changes of generations below a bound, which only searches on demand make. -/
def Below (setup : Setup S P K) (bound : Nat) : Progress S P K → Progress S P K → Prop :=
  Relation.ReflTransGen fun p q => setup.search = .semiOnDemand ∧
    ∃ index, index < bound ∧ (Step setup index p q ∨ Settle setup index p q)

/-- Steps in one generation, and changes below it. -/
def Quiet (setup : Setup S P K) (index : Nat) : Progress S P K → Progress S P K → Prop :=
  Relation.ReflTransGen fun p q => Step setup index p q ∨ Below setup index p q

/-- Changes of one generation, and of those below it. -/
def Upto (setup : Setup S P K) (index : Nat) : Progress S P K → Progress S P K → Prop :=
  Relation.ReflTransGen fun p q => Settle setup index p q ∨ Quiet setup index p q

variable {setup : Setup S P K} {index bound i : Nat} {p q r : Progress S P K}

theorem Below.refl (p : Progress S P K) : Below setup bound p p := Relation.ReflTransGen.refl

theorem Quiet.refl (p : Progress S P K) : Quiet setup index p p := Relation.ReflTransGen.refl

theorem Upto.refl (p : Progress S P K) : Upto setup index p p := Relation.ReflTransGen.refl

theorem Below.trans (h : Below setup bound p q) (h' : Below setup bound q r) :
    Below setup bound p r :=
  Relation.ReflTransGen.trans h h'

theorem Quiet.trans (h : Quiet setup index p q) (h' : Quiet setup index q r) :
    Quiet setup index p r :=
  Relation.ReflTransGen.trans h h'

theorem Upto.trans (h : Upto setup index p q) (h' : Upto setup index q r) :
    Upto setup index p r :=
  Relation.ReflTransGen.trans h h'

theorem Step.quiet (h : Step setup index p q) : Quiet setup index p q := .single (.inl h)

theorem Below.quiet (h : Below setup index p q) : Quiet setup index p q := .single (.inr h)

theorem Quiet.upto (h : Quiet setup index p q) : Upto setup index p q := .single (.inr h)

theorem Settle.upto (h : Settle setup index p q) : Upto setup index p q := .single (.inl h)

theorem Below.mono (h : Below setup bound p q) (hle : bound ≤ i) : Below setup i p q := by
  induction h with
  | refl => exact .refl _
  | tail _ hlast ih =>
    obtain ⟨hsearch, j, hj, hstep⟩ := hlast
    exact Relation.ReflTransGen.tail ih ⟨hsearch, j, Nat.lt_of_lt_of_le hj hle, hstep⟩

/-- Work on an older generation, as a search on demand does it. -/
theorem Upto.below (hsearch : setup.search = .semiOnDemand) (hlt : index < bound)
    (h : Upto setup index p q) : Below setup bound p q := by
  have hstep : ∀ {p q : Progress S P K}, Step setup index p q ∨ Settle setup index p q →
      Below setup bound p q :=
    fun h => .single ⟨hsearch, index, hlt, h⟩
  have hquiet : ∀ {p q : Progress S P K}, Quiet setup index p q → Below setup bound p q := by
    intro p q h
    induction h with
    | refl => exact .refl _
    | tail _ hlast ih =>
      obtain hlast | hlast := hlast
      · exact ih.trans (hstep (.inl hlast))
      · exact ih.trans (hlast.mono (Nat.le_of_lt hlt))
  induction h with
  | refl => exact .refl _
  | tail _ hlast ih =>
    obtain hlast | hlast := hlast
    · exact ih.trans (hstep (.inr hlast))
    · exact ih.trans (hquiet hlast)

/-! ## What stays as it is -/

theorem Step.frame (h : Step setup index p q) (hne : i ≠ index) :
    q.history.get? i = p.history.get? i := by
  cases h with
  | count hsame => rw [hsame]
  | _ => exact Progress.get?_put_of_ne hne

omit [DecidableEq S] [DecidableEq K] in
theorem Settle.frame (h : Settle setup index p q) (hne : i ≠ index) :
    q.history.get? i = p.history.get? i := by
  cases h with
  | _ => exact Progress.get?_put_of_ne hne

/-- Generations from the bound on stay as they are. -/
theorem Below.frame (h : Below setup bound p q) (hle : bound ≤ i) :
    q.history.get? i = p.history.get? i := by
  induction h with
  | refl => rfl
  | tail _ hlast ih =>
    obtain ⟨-, j, hj, hstep | hsettle⟩ := hlast
    · exact (hstep.frame (by omega)).trans ih
    · exact (hsettle.frame (by omega)).trans ih

/-- Unless searches are on demand, older generations stay as they are. -/
theorem Below.eq_of_search (hsearch : setup.search ≠ .semiOnDemand) (h : Below setup bound p q) :
    q = p := by
  induction h with
  | refl => rfl
  | tail _ hlast _ => exact absurd hlast.1 hsearch

theorem Quiet.frame (h : Quiet setup index p q) (hlt : index < i) :
    q.history.get? i = p.history.get? i := by
  induction h with
  | refl => rfl
  | tail _ hlast ih =>
    obtain hstep | hbelow := hlast
    · exact (hstep.frame (by omega)).trans ih
    · exact (hbelow.frame (by omega)).trans ih

theorem Upto.frame (h : Upto setup index p q) (hlt : index < i) :
    q.history.get? i = p.history.get? i := by
  induction h with
  | refl => rfl
  | tail _ hlast ih =>
    obtain hsettle | hquiet := hlast
    · exact (hsettle.frame (by omega)).trans ih
    · exact (hquiet.frame hlt).trans ih

/-! ## The number of generations -/

theorem Step.length (h : Step setup index p q) : q.history.length = p.history.length := by
  cases h with
  | count hsame => rw [hsame]
  | _ => exact Progress.length_put

omit [DecidableEq S] [DecidableEq K] in
theorem Settle.length (h : Settle setup index p q) : q.history.length = p.history.length := by
  cases h with
  | _ => exact Progress.length_put

theorem Below.length (h : Below setup bound p q) : q.history.length = p.history.length := by
  induction h with
  | refl => rfl
  | tail _ hlast ih =>
    obtain ⟨-, _, -, hstep | hsettle⟩ := hlast
    · exact hstep.length.trans ih
    · exact hsettle.length.trans ih

theorem Quiet.length (h : Quiet setup index p q) : q.history.length = p.history.length := by
  induction h with
  | refl => rfl
  | tail _ hlast ih =>
    obtain hstep | hbelow := hlast
    · exact hstep.length.trans ih
    · exact hbelow.length.trans ih

theorem Upto.length (h : Upto setup index p q) : q.history.length = p.history.length := by
  induction h with
  | refl => rfl
  | tail _ hlast ih =>
    obtain hsettle | hquiet := hlast
    · exact hsettle.length.trans ih
    · exact hquiet.length.trans ih

end Exploration

end GuidedReach
