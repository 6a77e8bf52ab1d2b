import GuidedReach.Proofs.Generation.Due
import GuidedReach.Proofs.Generation.Measured

/-!
# The worklist of a derivation

Where every node of the graph has a search node, what a worklist does with a node can be told at once:
the node is dropped, and then nothing is due at it, or its distance is written and its neighbours follow
in the worklist. What both keep true holds once the worklist is empty.

* `Generation.Furnished` — every node of a well-formed graph has a search node.
* `Generation.Furnished.deriveWithin_cons` — what happens to the first node of a worklist.
* `Generation.Furnished.exists_deriveFrom` — deriving meets no fault and keeps what each turn keeps.
-/

namespace GuidedReach.Generation

variable {S P K : Type} {gen gen' : Generation S P K} {id : NodeId} {n : Node S} {ids : List NodeId}

/-- Every node of a well-formed graph has a search node. -/
structure Furnished (gen : Generation S P K) : Prop where
  wellFormed : gen.graph.WellFormed
  registered : ∀ {i n}, gen.graph.get? i = some n → ∃ k, gen.searchNodes.get? i = some k

namespace Furnished

theorem of_distanceWrites (h : gen.Furnished) (hwrites : gen.DistanceWrites gen') :
    gen'.Furnished := by
  refine ⟨hwrites.graph ▸ h.wellFormed, fun {i n} hn => ?_⟩
  obtain ⟨k, hk⟩ := h.registered (hwrites.graph ▸ hn)
  obtain ⟨hnone, -⟩ | ⟨_, _, -, hk', -⟩ := hwrites.searchNode i
  · simp [hk] at hnone
  · exact ⟨_, hk'⟩

section

variable (h : gen.Furnished)

include h

/-! ## What can be told of a node -/

theorem exists_distance (hn : gen.graph.get? id = some n) : ∃ d, gen.distance id = .ok d := by
  obtain ⟨k, hk⟩ := h.registered hn
  exact ⟨k.distance, distance_eq_ok.2 ⟨k, hk, rfl⟩⟩

theorem exists_unsettled (hids : ∀ i ∈ ids, ∃ n, gen.graph.get? i = some n) :
    ∃ waiting, gen.unsettled ids = .ok waiting ∧ ∀ i ∈ waiting, i ∈ ids := by
  refine ⟨ids.filter fun i => !gen.settled i, filterM_of_forall fun i hi => ?_,
    fun i hi => (List.mem_filter.1 hi).1⟩
  obtain ⟨n, hn⟩ := hids i hi
  obtain ⟨d, hd⟩ := h.exists_distance hn
  have hsettled := isSettled_of_distance hd
  rw [← isSettled_eq_ok hsettled] at hsettled
  simp [hsettled, bind, Except.bind, pure, Except.pure]

theorem exists_isDeadEnd (hn : gen.graph.get? id = some n) :
    ∃ dead, gen.isDeadEnd id n = .ok dead := by
  obtain ⟨k, hk⟩ := h.registered hn
  have hheuristic : gen.heuristic id = .ok k.heuristic := heuristic_eq_ok.2 ⟨k, hk, rfl⟩
  unfold isDeadEnd
  split
  · exact ⟨true, rfl⟩
  · exact ⟨_, by simp [hheuristic, bind, Except.bind, pure, Except.pure]; rfl⟩

/-- What follows for a node can be told. -/
theorem exists_derived (hn : gen.graph.get? id = some n) : ∃ d, gen.derived id n = .ok d := by
  unfold derived
  split
  · rename_i c hcovering
    obtain ⟨-, b, hb, -⟩ := h.wellFormed.covering_link hn hcovering
    exact h.exists_distance hb
  · split
    · obtain ⟨dead, hdead⟩ := h.exists_isDeadEnd hn
      exact ⟨_, by rw [hdead]; rfl⟩
    · split
      · exact ⟨_, rfl⟩
      · have hbelow : ∀ c ∈ n.succs, gen.distance c =
            .ok ((gen.searchNodes.get? c).elim .unknown (·.distance)) := by
          intro c hc
          obtain ⟨b, hb, -⟩ := h.wellFormed.succ_link hn hc
          obtain ⟨k, hk⟩ := h.registered hb
          rw [hk]
          exact distance_eq_ok.2 ⟨k, hk, rfl⟩
        rw [mapM_of_forall hbelow]
        simp only [bind, Except.bind]
        split
        · rename_i hall
          obtain ⟨hknown, -⟩ := Distance.foldl_smaller (show Distance.infinite.isKnown = true from rfl)
            (List.all_eq_true.1 hall)
          cases hd : Distance.nearest (n.succs.map fun c =>
              (gen.searchNodes.get? c).elim Distance.unknown (·.distance)) with
          | unknown =>
            rw [Distance.nearest] at hd
            simp [hd, Distance.isKnown] at hknown
          | finite v => exact ⟨_, rfl⟩
          | infinite => exact ⟨_, rfl⟩
        · exact ⟨_, rfl⟩

/-- The nodes around a node are in the graph. -/
theorem exists_beside (hn : gen.graph.get? id = some n) {i : NodeId}
    (hi : i ∈ n.parent.toList ∨ i ∈ n.covered) : ∃ m, gen.graph.get? i = some m := by
  rcases hi with hi | hi
  · obtain ⟨m, hm, -⟩ := h.wellFormed.exists_parent hn (Option.mem_toList.1 hi)
    exact ⟨m, hm⟩
  · obtain ⟨m, hm, -⟩ := h.wellFormed.covered_link hn hi
    exact ⟨m, hm⟩

/-! ## Taking up the first node -/

/-- **What happens to the first node of a worklist.** It is dropped, since nothing is due at it; or its
distance is open and follows, and is written. -/
theorem deriveWithin_cons (hn : gen.graph.get? id = some n) :
    ((∀ m, ¬ gen.Due id m) ∧ ∀ steps rest,
      gen.deriveWithin (steps + 1) (id :: rest) = gen.deriveWithin steps rest) ∨
    ∃ d, n.isTarget = false ∧ gen.distance id = .ok .unknown ∧ gen.derived id n = .ok d ∧
      d.isKnown = true ∧ ∀ mid, gen.setDistance id d = .ok mid → ∃ waiting,
        mid.unsettled n.covered = .ok waiting ∧ (∀ i ∈ waiting, i ∈ n.covered) ∧ ∀ steps rest,
          gen.deriveWithin (steps + 1) (id :: rest) =
            mid.deriveWithin steps (n.parent.toList ++ rest ++ waiting) := by
  have hnode := Graph.node_eq_ok.2 hn
  obtain ⟨known, hknown⟩ := h.exists_distance hn
  obtain ⟨d, hd⟩ := h.exists_derived hn
  have hsettled := isSettled_of_distance hknown
  have hsame : ∀ {m}, gen.Due id m → m = n := fun hm => Option.some.inj (hm.node.symm.trans hn)
  by_cases htarget : n.isTarget = true
  · refine .inl ⟨fun m hm => ?_, fun steps rest => ?_⟩
    · obtain rfl := hsame hm
      exact absurd hm.plain (by simp [htarget])
    · simp [deriveWithin, hnode, htarget, bind, Except.bind]
  cases hopen : known.isKnown with
  | true =>
    refine .inl ⟨fun m hm => ?_, fun steps rest => ?_⟩
    · obtain rfl := Except.ok.inj (hknown.symm.trans hm.unknown)
      cases hopen
    · simp [deriveWithin, hnode, htarget, hsettled, hopen, bind, Except.bind]
  | false =>
    obtain rfl := Distance.eq_unknown_of_not_isKnown hopen
    cases hfollows : d.isKnown with
    | false =>
      refine .inl ⟨fun m hm => ?_, fun steps rest => ?_⟩
      · obtain rfl := hsame hm
        simp [hm.follows.isKnown hd] at hfollows
      · simp [deriveWithin, hnode, htarget, hsettled, hopen, hd, hfollows, bind, Except.bind]
    | true =>
      refine .inr ⟨d, by simpa using htarget, hknown, hd, hfollows, fun mid hset => ?_⟩
      have hwrites := DistanceWrites.of_setDistance hset
      obtain ⟨waiting, hwaiting, hsub⟩ := (h.of_distanceWrites hwrites).exists_unsettled
        fun i hi => h.of_distanceWrites hwrites |>.exists_beside (hwrites.graph ▸ hn) (.inr hi)
      refine ⟨waiting, hwaiting, hsub, fun steps rest => ?_⟩
      simp [deriveWithin, hnode, htarget, hsettled, hopen, hd, hfollows, hset, hwaiting, bind,
        Except.bind]

end

/-! ## Emptying the worklist -/

/-- **Deriving what follows meets no fault and keeps what each turn keeps**, if each write that a turn
asks for can be done. -/
theorem exists_deriveWithin {motive : Generation S P K → List NodeId → Prop} {steps : Nat}
    (hskip : ∀ {g id rest}, motive g (id :: rest) → (∀ m, ¬ g.Due id m) → motive g rest)
    (hwrite : ∀ {g id rest n d}, g.Furnished → motive g (id :: rest) → g.graph.get? id = some n →
      n.isTarget = false → g.distance id = .ok .unknown → g.derived id n = .ok d →
      d.isKnown = true → ∃ mid, g.setDistance id d = .ok mid ∧ ∀ waiting,
        mid.unsettled n.covered = .ok waiting → motive mid (n.parent.toList ++ rest ++ waiting))
    (h : gen.Furnished) (hids : ∀ i ∈ ids, ∃ n, gen.graph.get? i = some n)
    (hsteps : ids.length + gen.graph.weightOutside gen.settled ≤ steps) (hmotive : motive gen ids) :
    ∃ gen', gen.deriveWithin steps ids = .ok gen' ∧ DistanceWrites gen gen' ∧ motive gen' [] := by
  induction steps generalizing gen ids with
  | zero =>
    obtain rfl : ids = [] := List.length_eq_zero_iff.1 (by omega)
    exact ⟨gen, rfl, .refl gen, hmotive⟩
  | succ steps ih =>
    cases ids with
    | nil => exact ⟨gen, rfl, .refl gen, hmotive⟩
    | cons id rest =>
      rw [List.length_cons] at hsteps
      obtain ⟨⟨n, hn⟩, hrest⟩ := List.forall_mem_cons.1 hids
      obtain ⟨hnot, heq⟩ | ⟨d, hplain, hopen, hd, hknown, hturn⟩ := h.deriveWithin_cons hn
      · rw [heq]
        exact ih h hrest (by omega) (hskip hmotive hnot)
      · obtain ⟨mid, hset, hmid⟩ := hwrite h hmotive hn hplain hopen hd hknown
        obtain ⟨waiting, hwaiting, hsub, heq⟩ := hturn mid hset
        have hwrites := DistanceWrites.of_setDistance hset
        have hpaid := weightOutside_of_setDistance hn (settled_eq_false hopen) hset
        have habove := Graph.length_above_le n
        have hlength := length_filterM_le hwaiting
        have hnext : ∀ i ∈ n.parent.toList ++ rest ++ waiting, ∃ m, mid.graph.get? i = some m := by
          intro i hi
          rw [hwrites.graph]
          simp only [List.mem_append] at hi
          rcases hi with (hi | hi) | hi
          · exact h.exists_beside hn (.inl hi)
          · exact hrest i hi
          · exact h.exists_beside hn (.inr (hsub i hi))
        obtain ⟨gen', hrun, hlater, hlast⟩ := ih (h.of_distanceWrites hwrites) hnext
          (by simp only [List.length_append]; omega) (hmid waiting hwaiting)
        exact ⟨gen', (heq steps rest).trans hrun, hwrites.trans hlater, hlast⟩

theorem exists_deriveFrom {motive : Generation S P K → List NodeId → Prop}
    (hskip : ∀ {g id rest}, motive g (id :: rest) → (∀ m, ¬ g.Due id m) → motive g rest)
    (hwrite : ∀ {g id rest n d}, g.Furnished → motive g (id :: rest) → g.graph.get? id = some n →
      n.isTarget = false → g.distance id = .ok .unknown → g.derived id n = .ok d →
      d.isKnown = true → ∃ mid, g.setDistance id d = .ok mid ∧ ∀ waiting,
        mid.unsettled n.covered = .ok waiting → motive mid (n.parent.toList ++ rest ++ waiting))
    (h : gen.Furnished) (hids : ∀ i ∈ ids, ∃ n, gen.graph.get? i = some n)
    (hmotive : motive gen ids) :
    ∃ gen', gen.deriveFrom ids = .ok gen' ∧ DistanceWrites gen gen' ∧ motive gen' [] :=
  exists_deriveWithin hskip hwrite h hids
    (Nat.add_le_add_left (gen.graph.weightOutside_le_linkCount _) _) hmotive

end Furnished

end GuidedReach.Generation
