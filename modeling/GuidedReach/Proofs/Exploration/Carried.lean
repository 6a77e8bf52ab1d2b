import GuidedReach.Proofs.Exploration.Resumed
import GuidedReach.Proofs.Generation.Climbs

/-!
# Carrying heuristics over

With decreasing heuristics they are all computed as soon as the live generation was reset onto its
copy. That meets no fault: each node takes the distance of its copy, or else goes by its parent, which
comes first since it has the smaller number.

* `Exploration.Inherits.ensureHeuristic` — the heuristic of one node.
* `Exploration.Inherits.forM_ensureHeuristic` — those of all nodes, parents first.
* `Exploration.ensures_resumeLive` — and then the covering edges along which they drop can be removed.
-/

namespace GuidedReach.Exploration

open Explore

variable {S P K : Type} {setup : Setup S P K} {history : History S P K} {ops : Older S P K}
variable {older gen gen' : Generation S P K} {p q : Progress S P K} {id : NodeId} {n : Node S}

namespace Inherits

section

variable (hp : Inherits setup history older p gen) (hpos : 0 < history.length)
variable (holder : history.get? (history.length - 1) = some older) (hsettleable : older.Settleable)
variable (hdecreasing : setup.search = .decreasing)

include hp hpos holder hsettleable

/-- What a node takes over is the distance of its copy. -/
theorem exists_inheritedDistance (hn : gen.graph.get? id = some n) :
    ∃ d, (inheritedDistance history.length id).run p = .ok (d, p) ∧ older.distance id = .ok d ∧
      (d.isKnown = true → Source setup p.history gen id d) := by
  have hn' : older.graph.get? id = some n := hp.graph ▸ hn
  obtain ⟨d, hd⟩ := hsettleable.furnished.exists_distance hn'
  obtain ⟨k₀, hk₀⟩ := hsettleable.registered hn'
  obtain ⟨k, hk⟩ := hp.registered hk₀
  obtain ⟨-, hprovider, -, -⟩ := hp.searchNode hk
  have holder' : p.history.get? (history.length - 1) = some older :=
    (hp.below _ (by omega)).trans holder
  refine ⟨d, ?_, hd, fun hknown => .provider hp.provider holder' hk hprovider hd hknown⟩
  simp only [inheritedDistance, run_bind_ok, run_generation_ok, run_lift_ok,
    Generation.searchNode_eq_ok]
  refine ⟨gen, p, ⟨hp.held, rfl⟩, k, p, ⟨hk, rfl⟩, ?_⟩
  rw [hp.provider, hprovider]
  simp only [run_bind_ok, run_generation_ok, run_lift_ok]
  exact ⟨older, p, ⟨holder', rfl⟩, hd, rfl⟩

include hdecreasing

/-- A heuristic can be computed once that of the parent is known. -/
theorem exists_computeHeuristic (ops : Older S P K) (hn : gen.graph.get? id = some n)
    (hparent : ∀ parent, n.parent = some parent →
      ∃ d, gen.heuristic parent = .ok d ∧ d.isKnown = true) :
    ∃ d, (computeHeuristic setup ops history.length id).run p = .ok (d, p) ∧ d.isKnown = true ∧
      (n.isTarget = true → d = .zero) ∧ Source setup p.history gen id d := by
  obtain ⟨inherited, hinherited, hd, hsource⟩ :=
    hp.exists_inheritedDistance hpos holder hsettleable hn
  have hrun : ∀ {d : Distance}, (do
      if n.isTarget then
        demand (!inherited.isKnown || inherited == .zero) (.targetWithDistantProvider id inherited)
        return .zero
      else if gen.provider.isNone then return .zero
      else if inherited.isKnown then return inherited
      else heuristicWithoutDistance setup ops history.length id : Explore S P K Distance).run p =
        .ok (d, p) → (computeHeuristic setup ops history.length id).run p = .ok (d, p) := by
    intro d hrest
    simp only [computeHeuristic, run_bind_ok, run_generation_ok, run_lift_ok, Graph.node_eq_ok]
    exact ⟨gen, p, ⟨hp.held, rfl⟩, inherited, p, hinherited, n, p, ⟨hn, rfl⟩, hrest⟩
  cases htarget : n.isTarget with
  | true =>
    refine ⟨.zero, hrun ?_, rfl, fun _ => rfl, .target hn htarget⟩
    rw [if_pos htarget]
    simp only [run_bind_ok, run_lift_ok, demand_eq_ok, run_pure_ok]
    refine ⟨(), p, ⟨?_, rfl⟩, trivial, rfl⟩
    rcases hsettleable.target (hp.graph ▸ hn) htarget hd with rfl | rfl <;> rfl
  | false =>
    cases hknown : inherited.isKnown with
    | true =>
      refine ⟨inherited, hrun ?_, hknown, by simp, hsource hknown⟩
      rw [if_neg (by simp [htarget]), if_neg (by simp [hp.provider]), if_pos hknown]
      exact run_pure_ok.2 ⟨rfl, rfl⟩
    | false =>
      have hwithout : ∀ {d : Distance}, (heuristicWithoutDistance setup ops history.length id).run p =
          .ok (d, p) → (computeHeuristic setup ops history.length id).run p = .ok (d, p) := by
        intro d hrest
        refine hrun ?_
        rw [if_neg (by simp [htarget]), if_neg (by simp [hp.provider]), if_neg (by simp [hknown])]
        exact hrest
      simp only [heuristicWithoutDistance, hdecreasing, run_bind_ok, run_generation_ok, run_lift_ok,
        Graph.node_eq_ok] at hwithout
      cases hup : n.parent with
      | none =>
        refine ⟨.zero, hwithout ⟨gen, p, ⟨hp.held, rfl⟩, n, p, ⟨hn, rfl⟩, ?_⟩, rfl, by simp,
          .root hdecreasing hn hup⟩
        rw [hup]
        exact run_pure_ok.2 ⟨rfl, rfl⟩
      | some parent =>
        obtain ⟨above, habove, hknown'⟩ := hparent parent hup
        cases above with
        | unknown => cases hknown'
        | finite edges =>
          refine ⟨.finite (edges - 1), hwithout ⟨gen, p, ⟨hp.held, rfl⟩, n, p, ⟨hn, rfl⟩, ?_⟩, rfl,
            by simp, .parent hdecreasing hn hup habove⟩
          rw [hup]
          simp only [run_bind_ok, run_lift_ok]
          exact ⟨.finite edges, p, ⟨habove, rfl⟩, run_pure_ok.2 ⟨rfl, rfl⟩⟩
        | infinite =>
          refine ⟨.infinite, hwithout ⟨gen, p, ⟨hp.held, rfl⟩, n, p, ⟨hn, rfl⟩, ?_⟩, rfl,
            by simp, .refutedParent hdecreasing hn hup habove⟩
          rw [hup]
          simp only [run_bind_ok, run_lift_ok]
          exact ⟨.infinite, p, ⟨habove, rfl⟩, run_pure_ok.2 ⟨rfl, rfl⟩⟩

/-- **The heuristic of a node can be carried over** once that of its parent is known. -/
theorem ensureHeuristic (hn : gen.graph.get? id = some n)
    (hparent : ∀ parent, n.parent = some parent →
      ∃ d, gen.heuristic parent = .ok d ∧ d.isKnown = true) :
    (ensureHeuristic setup ops history.length id).Ensures p fun _ q => ∃ gen',
      Inherits setup history older q gen' ∧ gen.Keeps gen' ∧
      ∃ d, gen'.heuristic id = .ok d ∧ d.isKnown = true := by
  obtain ⟨k₀, hk₀⟩ := hsettleable.registered (hp.graph ▸ hn)
  obtain ⟨k, hk⟩ := hp.registered hk₀
  obtain ⟨-, -, hopen, -⟩ := hp.searchNode hk
  simp only [Exploration.ensureHeuristic, ensures_bind, ensures_generation, ensures_lift,
    Generation.searchNode_eq_ok]
  refine ⟨gen, hp.held, k, hk, ?_⟩
  split
  · rename_i hknown
    exact ensures_pure.2 ⟨gen, hp, .refl gen, _, Generation.heuristic_eq_ok.2 ⟨k, hk, rfl⟩, hknown⟩
  · rename_i hunknown
    obtain ⟨d, hcompute, hknown, htarget, hsource⟩ := hp.exists_computeHeuristic hpos holder hsettleable
      hdecreasing ops hn hparent
    obtain ⟨gen', hset⟩ := Generation.exists_setHeuristic hn hk hknown
      (.inr ⟨Distance.eq_unknown_of_not_isKnown (by simpa using hunknown), htarget,
        by simp [hopen, Distance.isKnown]⟩)
    obtain ⟨_, _, -, -, -, hrewrites, -⟩ := Generation.setHeuristic_ok hset
    rw [ensures_bind, ensures_of_ok hcompute]
    simp only [ensures_bind, ensures_setHeuristic, ensures_pure]
    exact ⟨gen, hp.held, gen', hset, gen', hp.setHeuristic hpos hsource hset,
      Generation.keeps_of_setHeuristic hset, d,
      Generation.heuristic_eq_ok.2 ⟨_, by rw [hrewrites.get?, if_pos rfl], rfl⟩, hknown⟩

/-- **All heuristics can be carried over**, parents first. -/
theorem forM_ensureHeuristic :
    (gen.graph.ids.forM fun id => do
      let _ ← Exploration.ensureHeuristic setup ops history.length id).Ensures p fun _ q =>
        ∃ gen', Inherits setup history older q gen' ∧ ∀ {i n}, older.graph.get? i = some n →
          ∃ d, gen'.heuristic i = Except.ok d ∧ d.isKnown = true := by
  have hascending : gen.graph.ids.Pairwise (· < ·) := List.pairwise_lt_range.filter _
  refine (ensures_forM (motive := fun rest q => rest.Pairwise (· < ·) ∧
    (∀ i ∈ rest, ∃ n, older.graph.get? i = some n) ∧ ∃ gen', Inherits setup history older q gen' ∧
      ∀ {i n}, older.graph.get? i = some n → i ∉ rest →
        ∃ d, gen'.heuristic i = .ok d ∧ d.isKnown = true) ?_ ⟨hascending, ?_, gen, hp, ?_⟩).mono ?_
  · rintro id rest q ⟨hsorted, hheld, mid, hmid, hall⟩
    obtain ⟨hfirst, hsorted'⟩ := List.pairwise_cons.1 hsorted
    obtain ⟨⟨n, hn⟩, hheld'⟩ := List.forall_mem_cons.1 hheld
    have hparent : ∀ parent, n.parent = some parent →
        ∃ d, mid.heuristic parent = .ok d ∧ d.isKnown = true := by
      intro parent hup
      obtain ⟨hlt, m, hm, -⟩ := hsettleable.wellFormed.parent_link hn hup
      refine hall hm fun hmem => ?_
      rcases List.mem_cons.1 hmem with rfl | hmem
      · exact Nat.lt_irrefl _ hlt
      · exact absurd (hfirst parent hmem) (Nat.not_lt.2 hlt.le)
    simp only [ensures_bind]
    refine (hmid.ensureHeuristic hpos holder hsettleable hdecreasing (hmid.graph ▸ hn) hparent).mono ?_
    rintro - q' - ⟨gen', h', hkeeps, hid⟩
    refine ensures_pure.2 ⟨hsorted', hheld', gen', h', fun {i m} hm hi => ?_⟩
    by_cases heq : i = id
    · exact heq ▸ hid
    · obtain ⟨d, hd, hknown⟩ := hall hm (by simp [heq, hi])
      exact ⟨d, hkeeps.heuristic hd hknown, hknown⟩
  · intro i hi
    exact hp.graph ▸ Graph.mem_ids.1 hi
  · intro i n hn hi
    exact absurd (Graph.mem_ids.2 ⟨n, hp.graph ▸ hn⟩) hi
  · rintro - q - ⟨-, -, gen', h', hall⟩
    exact ⟨gen', h', fun hn => hall hn List.not_mem_nil⟩

end

end Inherits

/-! ## Removing covering edges -/

/-- All heuristics of the live generation are known, and the older generations are as they were. -/
structure Carries (history : History S P K) (p : Progress S P K) (gen : Generation S P K) : Prop where
  below : ∀ i < history.length, p.history.get? i = history.get? i
  length : p.history.length = history.length + 1
  held : p.history.get? history.length = some gen
  wellFormed : gen.graph.WellFormed
  known : ∀ {i n}, gen.graph.get? i = some n → ∃ d, gen.heuristic i = .ok d ∧ d.isKnown = true

/-- The covering edge of a node can be removed, if the heuristic drops along it. -/
theorem Carries.loosen (h : Carries history p gen) (hn : gen.graph.get? id = some n) :
    (loosen history.length id).Ensures p fun _ q => ∃ gen', Carries history q gen' ∧
      ∀ {i m}, gen.graph.get? i = some m → ∃ m', gen'.graph.get? i = some m' := by
  have hsame : ∃ gen', Carries history p gen' ∧
      ∀ {i m}, gen.graph.get? i = some m → ∃ m', gen'.graph.get? i = some m' :=
    ⟨gen, h, fun hm => ⟨_, hm⟩⟩
  simp only [Exploration.loosen, ensures_bind, ensures_generation, ensures_lift, Graph.node_eq_ok]
  refine ⟨gen, h.held, n, hn, ?_⟩
  split
  · rename_i coverer hcovering
    obtain ⟨-, b, hb, -⟩ := h.wellFormed.covering_link hn hcovering
    obtain ⟨below, hbelow, hknown⟩ := h.known hb
    obtain ⟨above, habove, hknown'⟩ := h.known hn
    simp only [ensures_bind, ensures_lift]
    refine ⟨below, hbelow, above, habove, _, Distance.lt_eq_ok hknown hknown', ?_⟩
    split
    · obtain ⟨graph, hrun⟩ := Graph.exists_uncover h.wellFormed hn
      obtain ⟨-, -, hrewritten⟩ := Graph.uncover_ok h.wellFormed hrun
      simp only [ensures_editGraph]
      refine ⟨gen, h.held, (), graph, hrun, { gen with graph }, ⟨fun i hi => ?_, ?_,
        Progress.get?_put_self h.held, h.wellFormed.uncover hrun, fun hm => ?_⟩,
        fun hm => ⟨_, hrewritten.get?_of_get? hm⟩⟩
      · exact (Progress.get?_put_of_ne (Nat.ne_of_lt hi)).trans (h.below i hi)
      · exact Progress.length_put.trans h.length
      · obtain ⟨m, hm, -⟩ := hrewritten.exists_of_get? hm
        exact h.known hm
    · exact ensures_pure.2 hsame
  · exact ensures_pure.2 hsame

/-- **Resuming a settled generation meets no fault**, and the older generations stay as they are. -/
theorem ensures_resumeLive [DecidableEq S] [DecidableEq K] (setup : Setup S P K) (hpos : 0 < history.length)
    (holder : history.get? (history.length - 1) = some older) (hsettleable : older.Settleable)
    (stats : Stats) :
    (resumeLive setup history.length).Ensures
      { history := history.push (older.resetOnto (history.length - 1)), stats } fun _ q =>
        (∀ i < history.length, q.history.get? i = history.get? i) ∧
        q.history.length = history.length + 1 ∧ ∃ gen, q.history.get? history.length = some gen := by
  have hp : Inherits setup history older
      { history := history.push (older.resetOnto (history.length - 1)), stats }
      (older.resetOnto (history.length - 1)) := .of_resetOnto
  unfold Exploration.resumeLive
  split
  · rename_i hdecreasing
    simp only [ensures_bind, ensures_generation]
    refine ⟨_, hp.held, ?_⟩
    refine (hp.forM_ensureHeuristic hpos holder hsettleable hdecreasing).mono ?_
    rintro - q - ⟨mid, hmid, hknown⟩
    have hcarries : Carries history q mid := ⟨hmid.below, hmid.length, hmid.held,
      hmid.graph ▸ hsettleable.wellFormed, fun hn => hknown (hmid.graph ▸ hn)⟩
    refine (ensures_forM (motive := fun rest q => ∃ gen, Carries history q gen ∧
      ∀ i ∈ rest, ∃ n, gen.graph.get? i = some n) ?_ ⟨mid, hcarries, fun i hi => ?_⟩).mono ?_
    · rintro id rest q' ⟨gen, hgen, hrest⟩
      obtain ⟨⟨n, hn⟩, hrest'⟩ := List.forall_mem_cons.1 hrest
      refine (hgen.loosen hn).mono ?_
      rintro - q'' - ⟨gen', hgen', hstill⟩
      refine ⟨gen', hgen', fun i hi => ?_⟩
      obtain ⟨m, hm⟩ := hrest' i hi
      exact hstill hm
    · rw [hmid.graph]
      exact Graph.mem_ids.1 hi
    · rintro - q' - ⟨gen, hgen, -⟩
      exact ⟨hgen.below, hgen.length, gen, hgen.held⟩
  · exact ensures_pure.2 ⟨hp.below, hp.length, _, hp.held⟩

end GuidedReach.Exploration
