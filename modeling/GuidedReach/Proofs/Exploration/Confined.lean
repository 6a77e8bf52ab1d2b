import GuidedReach.Proofs.Exploration.Rising
import GuidedReach.Proofs.Graph.Levels

/-!
# All graphs stay finite

Before any work is done, one number bounds all that matters: the values that are known, the states
that the analysis knows under the precisions of the generations, and the heights and widths of their
graphs. From it follows a size that no graph ever exceeds, whatever work is done.

* `Analysis.Finitary` — only so many states can be reached under each precision.
* `Generation.Spans` — what a bound says about a generation.
* `Exploration.Works.size_le` — the size that follows from it.
* `Exploration.Confined` — no graph ever exceeds a size.
* `Exploration.exists_confined` — there is always such a size, however much fuel there is.
-/

namespace GuidedReach

variable {S P K : Type}

/-! ## Bounds -/

/-- Finitely many things have a common bound. -/
theorem exists_common_bound {α : Type} (within : Nat → α → Prop) {l : List α}
    (hmono : ∀ {b b' a}, within b a → b ≤ b' → within b' a) (h : ∀ a ∈ l, ∃ b, within b a) :
    ∃ b, ∀ a ∈ l, within b a := by
  induction l with
  | nil => exact ⟨0, by simp⟩
  | cons a l ih =>
    obtain ⟨⟨b, hb⟩, hl⟩ := List.forall_mem_cons.1 h
    obtain ⟨b', hb'⟩ := ih hl
    refine ⟨max b b', List.forall_mem_cons.2 ⟨hmono hb (Nat.le_max_left b b'), fun x hx => ?_⟩⟩
    exact hmono (hb' x hx) (Nat.le_max_right b b')

theorem NodeMap.exists_bound {α : Type} (m : NodeMap α) (f : α → Nat) :
    ∃ b, ∀ {i a}, m.get? i = some a → f a ≤ b := by
  have hentries : ∀ entry ∈ m.toList, ∃ b, f entry.2 ≤ b := fun entry _ => ⟨f entry.2, Nat.le_refl _⟩
  obtain ⟨b, hb⟩ := exists_common_bound (fun b (entry : NodeId × α) => f entry.2 ≤ b)
    Nat.le_trans hentries
  exact ⟨b, fun ha => hb (_, _) (mem_toList.2 ha)⟩

/-- Under every precision that is allowed, all states that can be reached are among finitely many. -/
def Analysis.Finitary (analysis : Analysis S P K) (allowed : P → Prop) : Prop :=
  ∀ prec, allowed prec → ∃ states : List S, (analysis.initStates prec).Sublist states ∧
    ∀ a, (analysis.succStates a prec).Sublist states

namespace Generation

variable {analysis : Analysis S P K} {allowed : P → Prop} {bound bound' : Nat}
variable {gen : Generation S P K}

/-- A number bounds the values of a generation, the height and the width of its graph, and the states
that can be reached under its precision. -/
structure Spans (analysis : Analysis S P K) (bound : Nat) (gen : Generation S P K) : Prop where
  capped : gen.Capped bound
  depth : ∀ {i n}, gen.graph.get? i = some n → n.depth ≤ bound
  succs : ∀ {i n}, gen.graph.get? i = some n → n.succs.length ≤ bound
  initNodes : gen.graph.initNodes.length ≤ bound
  states : ∃ states : List S, states.length ≤ bound ∧ (analysis.initStates gen.prec).Sublist states ∧
    ∀ a, (analysis.succStates a gen.prec).Sublist states

theorem Spans.mono (h : gen.Spans analysis bound) (hle : bound ≤ bound') :
    gen.Spans analysis bound' where
  capped := h.capped.mono hle
  depth hn := (h.depth hn).trans hle
  succs hn := (h.succs hn).trans hle
  initNodes := h.initNodes.trans hle
  states := by
    obtain ⟨states, hlength, hrest⟩ := h.states
    exact ⟨states, hlength.trans hle, hrest⟩

theorem exists_spans (hfinitary : analysis.Finitary allowed) (hprec : allowed gen.prec) :
    ∃ bound, gen.Spans analysis bound := by
  obtain ⟨states, hstates⟩ := hfinitary gen.prec hprec
  obtain ⟨b₁, hdepth⟩ := gen.graph.nodes.exists_bound (·.depth)
  obtain ⟨b₂, hsuccs⟩ := gen.graph.nodes.exists_bound (·.succs.length)
  obtain ⟨b₃, hheuristic⟩ := gen.searchNodes.exists_bound (·.heuristic.edges)
  obtain ⟨b₄, hdistance⟩ := gen.searchNodes.exists_bound (·.distance.edges)
  refine ⟨states.length + gen.graph.initNodes.length + b₁ + b₂ + b₃ + b₄, ⟨⟨?_, ?_⟩, ?_, ?_, ?_, ?_⟩⟩
  · intro i d hd
    obtain ⟨k, hk, rfl⟩ := heuristic_eq_ok.1 hd
    have hle := hheuristic hk
    exact Distance.capped_iff.2 (by omega)
  · intro i d hd
    obtain ⟨k, hk, rfl⟩ := distance_eq_ok.1 hd
    have hle := hdistance hk
    exact Distance.capped_iff.2 (by omega)
  · intro i n hn
    have hle := hdepth hn
    omega
  · intro i n hn
    have hle := hsuccs hn
    omega
  · omega
  · exact ⟨states, by omega, hstates⟩

end Generation

/-- The slots of a history have a common bound. -/
theorem History.exists_spans {analysis : Analysis S P K} {allowed : P → Prop}
    {history : History S P K} (hfinitary : analysis.Finitary allowed)
    (hfaithful : history.Faithful analysis allowed) (least : Nat) :
    ∃ bound, least ≤ bound ∧
      ∀ index gen, history.get? index = some gen → gen.Spans analysis bound := by
  have hslots : ∀ index ∈ List.range history.length,
      ∃ b, ∀ gen, history.get? index = some gen → gen.Spans analysis b := by
    intro index _
    cases hgen : history.get? index with
    | none => exact ⟨0, by simp⟩
    | some gen =>
      obtain ⟨b, hb⟩ := Generation.exists_spans hfinitary (hfaithful index gen hgen).2
      exact ⟨b, fun gen' hgen' => Option.some.inj hgen' ▸ hb⟩
  obtain ⟨b, hb⟩ := exists_common_bound _ (fun h hle gen hgen => (h gen hgen).mono hle) hslots
  refine ⟨max least b, Nat.le_max_left least b, fun index gen hgen => ?_⟩
  exact (hb index (List.mem_range.2 (History.lt_length hgen)) gen hgen).mono (Nat.le_max_right least b)

/-! ## Sizes -/

namespace Exploration

variable [DecidableEq S] [DecidableEq K] {setup : Setup S P K} {index i size bound : Nat}
variable {p q : Progress S P K} {allowed : P → Prop} {gen gen' : Generation S P K}

theorem Work.exists_get? (h : Work setup p q) (hgen' : q.history.get? i = some gen') :
    ∃ gen, p.history.get? i = some gen := by
  obtain ⟨index, hwork⟩ := h
  by_cases hi : i = index
  · subst hi
    rcases hwork with hstep | hsettle
    · cases hstep with
      | count hsame => exact ⟨gen', hsame ▸ hgen'⟩
      | heuristic hgen | provider hgen | register hgen | cover hgen | expand hgen | seed hgen =>
        exact ⟨_, hgen⟩
    · cases hsettle with
      | target hgen | start hgen | guided hgen => exact ⟨_, hgen⟩
  · have hframe : q.history.get? i = p.history.get? i :=
      hwork.elim (fun hstep => hstep.frame hi) fun hsettle => hsettle.frame hi
    exact ⟨gen', hframe ▸ hgen'⟩

/-- Work adds no generations. -/
theorem Works.exists_get? (h : Works setup p q) (hgen' : q.history.get? i = some gen') :
    ∃ gen, p.history.get? i = some gen := by
  induction h generalizing gen' with
  | refl => exact ⟨gen', hgen'⟩
  | tail _ hlast ih =>
    obtain ⟨mid, hmid⟩ := hlast.exists_get? hgen'
    exact ih hmid

/-- The height that a graph can reach, and the size, if a number bounds all that matters. -/
def heightFrom (bound : Nat) : Nat := bound + 1 + bound * (bound + 2)

def sizeFrom (bound : Nat) : Nat :=
  (heightFrom bound + 1) * (2 * bound + 1) ^ (heightFrom bound + 1)

/-- **The size of a graph after some work** follows from bounds on the graph that it grew out of, and
on the states that its nodes have. -/
theorem Works.size_le_of_states (hlaws : setup.analysis.Lawful)
    (hp : p.history.Faithful setup.analysis allowed) (h : Works setup p q)
    (hgen : p.history.get? i = some gen) (hgen' : q.history.get? i = some gen')
    (hheld : ∀ {j k}, gen.searchNodes.get? j = some k → ∃ n, gen.graph.get? j = some n)
    (hcapped : gen'.Capped bound) (hdepth : ∀ {j n}, gen.graph.get? j = some n → n.depth ≤ bound)
    (hsuccs : ∀ {j n}, gen.graph.get? j = some n → n.succs.length ≤ bound)
    (hroots : gen.graph.initNodes.length ≤ bound)
    (hinit : (setup.analysis.initStates gen.prec).length ≤ bound)
    (hnext : ∀ {j n}, gen'.graph.get? j = some n →
      (setup.analysis.succStates n.state gen.prec).length ≤ bound)
    {states : List S} (hlength : states.length ≤ bound)
    (hstates : ∀ {j n}, gen.graph.get? j = none → gen'.graph.get? j = some n → n.state ∈ states) :
    gen'.graph.size ≤ sizeFrom bound := by
  have hwf := ((Works.keeps hlaws hp h).1 i gen' hgen').1.wellFormed
  have hgrown := Works.grownFrom hlaws hp h hgen hgen'
  have hrising := Works.rising hlaws hp h hheld hgen hgen'
  have hheight : ∀ {j n}, gen'.graph.get? j = some n → n.depth ≤ heightFrom bound := by
    intro j n hn
    calc n.depth ≤ bound + 1 + states.length * (bound + 2) :=
          hrising.depth_le hwf hgrown hdepth hcapped hstates hn
      _ ≤ heightFrom bound := Nat.add_le_add_left (Nat.mul_le_mul_right _ hlength) _
  refine hwf.size_le hheight ?_ fun {j n} hn => ?_
  · have hle := hgrown.initNodes_length
    omega
  · have hwidth := hnext hn
    have hle := hgrown.succs_length hn
    have hbase : (gen.graph.succsOf j).length ≤ bound := by
      cases hj : gen.graph.get? j with
      | none => simp [Graph.succsOf_eq_nil hj]
      | some m => rw [Graph.succsOf_eq hj]; exact hsuccs hj
    omega

/-- **Every graph stays finite**: whatever work is done, it stays below a size that depends on the
beginning only. -/
theorem Works.size_le (hlaws : setup.analysis.Lawful)
    (hp : p.history.Faithful setup.analysis allowed)
    (hheld : ∀ index gen, p.history.get? index = some gen → ∀ {j k},
      gen.searchNodes.get? j = some k → ∃ n, gen.graph.get? j = some n)
    (hlimit : Distance.limit ≤ bound)
    (hspans : ∀ index gen, p.history.get? index = some gen → gen.Spans setup.analysis bound)
    (h : Works setup p q) (hgen' : q.history.get? i = some gen') :
    gen'.graph.size ≤ sizeFrom bound := by
  obtain ⟨gen, hgen⟩ := h.exists_get? hgen'
  obtain ⟨-, hdepth, hsuccs, hroots, states, hstates, hinit, hnext⟩ := hspans i gen hgen
  have hwf := ((Works.keeps hlaws hp h).1 i gen' hgen').1.wellFormed
  have hgrown := Works.grownFrom hlaws hp h hgen hgen'
  have hcapped := Works.capped h hlimit (fun j gen hgen => (hspans j gen hgen).capped) i gen' hgen'
  refine h.size_le_of_states hlaws hp hgen hgen' (hheld i gen hgen) hcapped hdepth hsuccs hroots
    (hinit.length_le.trans hstates) (fun {_ n} _ => (hnext n.state).length_le.trans hstates) hstates ?_
  intro j n hnone hn
  cases hparent : n.parent with
  | none => exact hinit.subset (hgrown.root hn hnone hparent)
  | some parent =>
    obtain ⟨m, hm, -⟩ := hwf.exists_parent hn hparent
    exact (hnext m.state).subset (hgrown.child hn hnone hparent hm)

/-- Whatever work is done, all graphs agree with the analysis and none exceeds a size. -/
structure Confined (setup : Setup S P K) (allowed : P → Prop) (size : Nat) (p : Progress S P K) :
    Prop where
  faithful : p.history.Faithful setup.analysis allowed
  size_le : ∀ {q i gen}, Works setup p q → q.history.get? i = some gen → gen.graph.size ≤ size

theorem Confined.works (hlaws : setup.analysis.Lawful) (hp : Confined setup allowed size p)
    (h : Works setup p q) : Confined setup allowed size q :=
  ⟨(h.keeps hlaws hp.faithful).1, fun h' hgen => hp.size_le (h.trans h') hgen⟩

/-- **There is a size that no graph ever exceeds**, however much fuel there is. -/
theorem exists_confined {analysis : Analysis S P K} {history : History S P K}
    (hlaws : analysis.Lawful) (hfinitary : analysis.Finitary allowed)
    (hfaithful : history.Faithful analysis allowed)
    (hheld : ∀ index gen, history.get? index = some gen → ∀ {j k},
      gen.searchNodes.get? j = some k → ∃ n, gen.graph.get? j = some n) :
    ∃ size, ∀ (setup : Setup S P K) (stats : Stats), setup.analysis = analysis →
      Confined setup allowed size ⟨history, stats⟩ := by
  obtain ⟨bound, hlimit, hspans⟩ := History.exists_spans hfinitary hfaithful Distance.limit
  refine ⟨sizeFrom bound, ?_⟩
  rintro setup stats rfl
  exact ⟨hfaithful, fun h hgen => Works.size_le hlaws hfaithful hheld hlimit hspans h hgen⟩

end Exploration

end GuidedReach
