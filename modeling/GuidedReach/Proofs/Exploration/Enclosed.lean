import GuidedReach.Proofs.Exploration.Confined
import GuidedReach.Proofs.Generation.Unguided

/-!
# First explorations of finitely many states

If the analysis never leaves finitely many states, then a graph that grows out of nothing cannot grow
for ever; and if states are covered by none but equal ones, then each of the states is expanded at one
node only.

* `Analysis.Discrete` — states are compared for equality.
* `Generation.Unguided.length_expandedIds_le` — no state is expanded twice.
* `Exploration.exists_confined_of_encloses` — a size that the graph never exceeds.
-/

namespace GuidedReach

variable {S P K : Type} {analysis : Analysis S P K} {prec : P} {states : List S}

/-! ## States that are compared for equality -/

/-- A state subsumes itself and nothing else, and no target is empty. -/
structure Analysis.Discrete (analysis : Analysis S P K) : Prop where
  isLeq_iff : ∀ a b, analysis.isLeq a b = true ↔ a = b
  not_both : ∀ a, ¬ (analysis.isTarget a = true ∧ analysis.isBottom a = true)

theorem Analysis.Discrete.lawful (h : analysis.Discrete) : analysis.Lawful where
  isLeq_refl a := (h.isLeq_iff a a).2 rfl
  isLeq_trans {a b c} hab hbc := (h.isLeq_iff a c).2 <|
    ((h.isLeq_iff a b).1 hab).trans ((h.isLeq_iff b c).1 hbc)
  isTarget_mono {a b} hab htarget := (h.isLeq_iff a b).1 hab ▸ htarget
  not_isBottom {a} htarget := by simpa [htarget] using h.not_both a
  isBottom_mono {a b} hab hbottom := (h.isLeq_iff a b).1 hab ▸ hbottom

theorem Analysis.Discrete.refines (h : analysis.Discrete) : analysis.Refines analysis.isLeq where
  le hle _ := hle
  trans := h.lawful.isLeq_trans
  isTarget := h.lawful.isTarget_mono

/-- **Each state is expanded at one node only**, so no more nodes are expanded than there are states. -/
theorem Generation.Unguided.length_expandedIds_le [DecidableEq K] {gen : Generation S P K}
    {pending : List NodeId} (h : gen.Unguided analysis analysis.isLeq prec pending)
    (hdiscrete : analysis.Discrete) (hinside : analysis.Encloses prec (· ∈ states)) :
    gen.graph.expandedIds.length ≤ states.length := by
  have hheld : ∀ i ∈ gen.graph.expandedIds, ∃ n, gen.graph.get? i = some n ∧ n.isExpanded = true :=
    fun i hi => Graph.mem_expandedIds.1 hi
  have hnodup : (gen.graph.statesOf gen.graph.expandedIds).Nodup := by
    refine List.pairwise_filterMap.2 ((Graph.nodup_expandedIds gen.graph).imp_of_mem ?_)
    intro i j hi hj hne s hs t ht
    obtain ⟨n, hn, hexpanded⟩ := hheld i hi
    obtain ⟨m, hm, hexpanded'⟩ := hheld j hj
    obtain rfl : n.state = s := by simpa [hn] using hs
    obtain rfl : m.state = t := by simpa [hm] using ht
    intro hstate
    refine hne (h.apart hn hm hexpanded hexpanded' ⟨?_, ?_, ?_, ?_⟩)
    · rw [hstate]
    · rw [hstate, hdiscrete.isLeq_iff]
    · rw [hstate, hdiscrete.isLeq_iff]
    · rw [h.faithful.isTarget hn, h.faithful.isTarget hm, hstate]
  have hsubset : gen.graph.statesOf gen.graph.expandedIds ⊆ states := by
    intro s hs
    obtain ⟨i, n, -, hn, rfl⟩ := Graph.mem_statesOf.1 hs
    exact h.grown.enclosed h.faithful hinside hn
  calc gen.graph.expandedIds.length = (gen.graph.statesOf gen.graph.expandedIds).length :=
        (Graph.length_statesOf fun i hi => (hheld i hi).imp fun _ hn => hn.1).symm
    _ ≤ states.length := (hnodup.subperm hsubset).length_le

/-! ## Sizes -/

namespace Exploration

variable [DecidableEq S] [DecidableEq K]

/-- **There is a size that a first exploration of finitely many states never exceeds**, however much
fuel there is. -/
theorem exists_confined_of_encloses {history : History S P K} (hlaws : analysis.Lawful)
    (hinside : analysis.Encloses prec (· ∈ states))
    (hget : ∀ i, history.get? i = if i = 0 then some { graph := {}, prec } else none) :
    ∃ size, ∀ (setup : Setup S P K) (stats : Stats), setup.analysis = analysis →
      Confined setup (· = prec) size ⟨history, stats⟩ := by
  obtain ⟨width, hwidth⟩ := exists_common_bound
    (fun b s => (analysis.succStates s prec).length ≤ b) (l := states) Nat.le_trans
    fun s _ => ⟨_, Nat.le_refl _⟩
  let bound := Distance.limit + states.length + (analysis.initStates prec).length + width
  refine ⟨sizeFrom bound, ?_⟩
  rintro setup stats rfl
  have hfirst : ∀ {i gen}, history.get? i = some gen → gen = { graph := {}, prec } := by
    intro i gen hgen
    rw [hget] at hgen
    split at hgen
    · exact (Option.some.inj hgen).symm
    · cases hgen
  have hfaithful : history.Faithful setup.analysis (· = prec) := by
    intro i gen hgen
    obtain rfl := hfirst hgen
    exact ⟨.empty, rfl⟩
  have hempty : ∀ {j}, ({ graph := {}, prec } : Generation S P K).searchNodes.get? j = none :=
    fun {j} => NodeMap.get?_empty j
  have hnode : ∀ {j n}, ({} : Graph S).get? j ≠ some n := by
    intro j n hn
    simp [Graph.get?, NodeMap.get?_empty] at hn
  have hcapped : history.Capped bound := by
    intro i gen hgen
    obtain rfl := hfirst hgen
    exact ⟨fun hd => by simp [Generation.heuristic_eq_ok, hempty] at hd,
      fun hd => by simp [Generation.distance_eq_ok, hempty] at hd⟩
  refine ⟨hfaithful, fun {q i gen'} h hgen' => ?_⟩
  obtain ⟨gen, hgen⟩ := h.exists_get? hgen'
  obtain rfl := hfirst hgen
  have hgrown := Works.grownFrom hlaws hfaithful h hgen hgen'
  have hcapped' := Works.capped h (by simp only [bound]; omega) hcapped i gen' hgen'
  have hstates : ∀ {j n}, gen'.graph.get? j = some n → n.state ∈ states :=
    fun hn => hgrown.enclosed ((Works.keeps hlaws hfaithful h).1 i gen' hgen').1 hinside hn
  have hlength : states.length ≤ bound := by
    simp only [bound]
    omega
  refine h.size_le_of_states hlaws hfaithful hgen hgen' (fun hk => by simp [hempty] at hk) hcapped'
    (fun hn => absurd hn hnode) (fun hn => absurd hn hnode) (Nat.zero_le bound) ?_ (fun hn => ?_)
    hlength fun _ hn => hstates hn
  · simp only [bound]
    omega
  · have hle := hwidth _ (hstates hn)
    simp only [bound]
    omega

end Exploration

end GuidedReach
