import GuidedReach.Proofs.Partition.Size

/-!
# Abstraction by blocks is sound and monotone

The transfer functions of `TransitionSystem.blockAnalysis` lose no state of the system, and they are
monotone: in a smaller set of states, and under a finer partition, they yield parts of what they yield
otherwise. Heuristics, providers and covering rely on these laws.

* `TransitionSystem.blockAnalysis_successors?` — sets of states have successors.
* `TransitionSystem.blockAnalysis_covers_step`, `TransitionSystem.blockAnalysis_covers_init` —
  soundness.
* `TransitionSystem.blockAnalysis_sound_monotone` — **the laws of the abstraction**.
-/

namespace GuidedReach.TransitionSystem

variable {system : TransitionSystem} {p q : Partition} {a b : StateSet} {s t : Nat}

theorem blockAnalysis_successors? (ha : ∀ s, s ∈ a → s < system.states) (p : Partition) :
    system.blockAnalysis.successors? a p = .ok (system.blockAnalysis.succStates a p) := by
  rw [Analysis.successors?, blockAnalysis_inDomain.2 ha]
  rfl

/-- The abstract successors cover the successors of all states. -/
theorem blockAnalysis_covers_step (hvalid : p.Valid system) (hs : s ∈ a) (hstep : system.Step s t) :
    ∃ c ∈ system.blockAnalysis.succStates a p, t ∈ c :=
  hvalid.exists_meeting (mem_image.2 ⟨s, hs, hstep⟩) (system.edges_lt _ hstep).2

/-- The abstract init states cover all init states. -/
theorem blockAnalysis_covers_init (hvalid : p.Valid system) (hs : s ∈ system.init) :
    ∃ c ∈ system.blockAnalysis.initStates p, s ∈ c :=
  hvalid.exists_meeting hs (system.init_lt s hs)

/-- **The abstraction is sound and monotone.** Let `q` be finer than `p`, and `a` a part of `b`. Then
the successors and init states under `q` cover those of the system, and each is part of one under `p`;
what `a` says about targets and emptiness is in keeping with `b`; and no block of `p` mixes targets with
other states. -/
theorem blockAnalysis_sound_monotone (system : TransitionSystem) {p q : Partition} {a b : StateSet}
    (hp : (Partition.initial system).SplitsInto p) (hq : p.SplitsInto q)
    (hab : ∀ s, s ∈ a → s ∈ b) (hb : ∀ s, s ∈ b → s < system.states) :
    system.blockAnalysis.successors? a q = .ok (system.blockAnalysis.succStates a q) ∧
    system.blockAnalysis.successors? b p = .ok (system.blockAnalysis.succStates b p) ∧
    (∀ s t, s ∈ a → system.Step s t → ∃ c ∈ system.blockAnalysis.succStates a q, t ∈ c) ∧
    (∀ s, s ∈ system.init → ∃ c ∈ system.blockAnalysis.initStates q, s ∈ c) ∧
    (∀ c ∈ system.blockAnalysis.succStates a q,
      ∃ d ∈ system.blockAnalysis.succStates b p, ∀ s, s ∈ c → s ∈ d) ∧
    (∀ c ∈ system.blockAnalysis.initStates q,
      ∃ d ∈ system.blockAnalysis.initStates p, ∀ s, s ∈ c → s ∈ d) ∧
    (system.blockAnalysis.isTarget a = true → system.blockAnalysis.isTarget b = true) ∧
    (system.blockAnalysis.isBottom b = true → system.blockAnalysis.isBottom a = true) ∧
    ∀ c ∈ p.blocks, system.blockAnalysis.isTarget c = true → ∀ s, s ∈ c → s ∈ system.targets := by
  have hvalid : p.Valid system := hp.valid (.initial system)
  have hfiner : q.Valid system := hq.valid hvalid
  have hleq : system.blockAnalysis.isLeq a b = true := blockAnalysis_isLeq.2 hab
  refine ⟨blockAnalysis_successors? (fun s hs => hb s (hab s hs)) q, blockAnalysis_successors? hb p,
    ?_, ?_, ?_, ?_, ?_, ?_, ?_⟩
  · exact fun s t => blockAnalysis_covers_step hfiner
  · exact fun s => blockAnalysis_covers_init hfiner
  · exact fun c => hq.exists_meeting fun s => image_mono hab
  · exact fun c => hq.exists_meeting fun s hs => hs
  · exact system.blockAnalysis_lawful.isTarget_mono hleq
  · exact system.blockAnalysis_lawful.isBottom_mono hleq
  · exact fun c hc htarget s => targets_of_isTarget hvalid hc htarget

/-- State 0 alone, with state 2 told apart, against all but the target. -/
theorem blockAnalysis_sound_monotone_forked :
    (forked.blockAnalysis.succStates (.ofList [0]) ((Partition.initial forked).split (.ofList [2]))).map
      StateSet.toList = [[2], [0, 1]] ∧
    (forked.blockAnalysis.succStates (.ofList [0, 1, 2]) (.initial forked)).map StateSet.toList =
      [[0, 1, 2], [3]] ∧
    ∀ c ∈ forked.blockAnalysis.succStates (.ofList [0])
        ((Partition.initial forked).split (.ofList [2])),
      ∃ d ∈ forked.blockAnalysis.succStates (.ofList [0, 1, 2]) (.initial forked),
        ∀ s, s ∈ c → s ∈ d := by
  obtain ⟨-, -, -, -, hmonotone, -⟩ := blockAnalysis_sound_monotone forked (p := .initial forked)
    .refl (.split (.ofList [2]) .refl) (a := .ofList [0]) (b := .ofList [0, 1, 2])
    (by simp [StateSet.mem_ofList]) (by simp [StateSet.mem_ofList, forked])
  exact ⟨by decide, by decide, hmonotone⟩

end GuidedReach.TransitionSystem
