import GuidedReach.Proofs.Abstractor.Refinement
import GuidedReach.Proofs.Exploration.LowerBounds

/-!
# Lower bounds in exhaustive runs

In a run whose searches are exhaustive, known heuristics and distances are lower bounds of the real
distances: of those from each state that a node stands for. Whatever is taken over from an older
generation was such a bound there, and belonged to a block that is no smaller.

* `TransitionSystem.Away` — blocks from which targets are at least so many steps away.
* `Abstractor.Bounded` — all that is known between checks are lower bounds.
* `Abstractor.Ready.check_bounded` — an exhaustive check keeps it so.
* `Abstractor.exhaustive_values_bound_distances` — known values are at most the real distances.
-/

namespace GuidedReach

/-! ## Distances of blocks -/

namespace TransitionSystem

variable {system : TransitionSystem} {block : StateSet}

/-- From every state of the block, targets are at least so many steps away. -/
def Away (system : TransitionSystem) (bound : Nat) (block : StateSet) : Prop :=
  ∀ s, s ∈ block → ∀ length, system.ReachesTarget s length → bound ≤ length

theorem Dead.away (h : system.Dead block) (bound : Nat) : system.Away bound block :=
  fun s hs length hreaches => absurd hreaches (h s hs length)

/-- **From a block that is no target, targets are one step further away than from its successors.** -/
theorem blockAnalysis_delays (system : TransitionSystem) :
    system.blockAnalysis.Delays (Partition.Valid system) system.Away where
  zero _ _ _ _ _ := Nat.zero_le _
  of_isLeq hab hb s hs := hb s (blockAnalysis_isLeq.1 hab s hs)
  of_isBottom := fun {_ a} ha s hs => absurd hs ((StateSet.isEmpty_iff (a := a)).1 ha s)
  succ := by
    intro bound a partition hvalid hnot hsuccs s hs length ⟨target, hwalk, htarget⟩
    cases hwalk with
    | refl =>
      have := blockAnalysis_isTarget.2 ⟨s, hs, htarget⟩
      simp [hnot] at this
    | @step _ t _ length hstep hwalk =>
      have himage : t ∈ system.image a := mem_image.2 ⟨s, hs, hstep⟩
      obtain ⟨block, hblock, ht⟩ := hvalid.exists_meeting himage (system.edges_lt _ hstep).2
      have hle := hsuccs block hblock t ht length ⟨target, hwalk, htarget⟩
      omega

end TransitionSystem

/-! ## Known values of a node -/

/-- Known values of a node are at most the distances from the states that it stands for. -/
theorem Generation.LowerBounds.notAbove {system : TransitionSystem} {P K : Type}
    {gen : Generation StateSet P K} {value : NodeId → Except Fault Distance}
    (h : gen.LowerBounds system.Away value) {i : NodeId} {n : Node StateSet} {s length : Nat}
    (hn : gen.graph.get? i = some n) (hs : s ∈ n.state)
    (hreaches : system.ReachesTarget s length) {d : Distance} (hd : value i = .ok d)
    (hknown : d.isKnown = true) : d.notAbove (.finite length) = true := by
  cases d with
  | unknown => cases hknown
  | finite m =>
    have hle := h hn hd (.finite (Nat.le_refl m)) s hs length hreaches
    simpa [Distance.notAbove] using hle
  | infinite =>
    have hle : length + 1 ≤ length := h hn hd (.infinite rfl) s hs length hreaches
    omega

namespace Abstractor

variable {S P K : Type} {allowed : P → Prop} {dead : S → Prop} {away : Nat → S → Prop}
variable {abstractor abstractor' : Abstractor S P K} {g g' : Graph S}

/-! ## Between checks -/

/-- What is known in all generations are lower bounds, and the live one has no heuristics yet. -/
structure Bounded (away : Nat → S → Prop) (abstractor : Abstractor S P K) : Prop where
  held : ∀ index gen, abstractor.history.get? index = some gen →
    gen.LowerBounds away gen.heuristic ∧ gen.LowerBounds away gen.distance
  live : ∀ gen, abstractor.history.live? = some gen → ∀ i d, gen.heuristic i = .ok d → d = .unknown

/-- A generation that loses its provider keeps its values. -/
theorem lowerBounds_releaseProvider {gen : Generation S P K}
    (h : gen.LowerBounds away gen.heuristic ∧ gen.LowerBounds away gen.distance) :
    gen.releaseProvider.LowerBounds away gen.releaseProvider.heuristic ∧
      gen.releaseProvider.LowerBounds away gen.releaseProvider.distance := by
  constructor
  · intro i n d m hn hd hdrops
    obtain ⟨k, hk, rfl⟩ := Generation.heuristic_eq_ok.1 hd
    obtain ⟨k', hk', rfl⟩ := Generation.exists_of_releaseProvider hk
    exact h.1 hn (Generation.heuristic_eq_ok.2 ⟨k', hk', rfl⟩) hdrops
  · intro i n d m hn hd hdrops
    rw [gen.distance_releaseProvider] at hd
    exact h.2 hn hd hdrops

/-- A reset generation has no heuristics. -/
theorem unknown_of_resetOnto {gen : Generation S P K} {copy : Nat} {i : NodeId} {d : Distance}
    (hd : (gen.resetOnto copy).heuristic i = .ok d) : d = .unknown := by
  obtain ⟨k, hk, rfl⟩ := Generation.heuristic_eq_ok.1 hd
  obtain ⟨rfl, -⟩ := Generation.exists_of_resetOnto hk
  rfl

/-- An exhaustive check goes on with nothing but a reset copy. -/
theorem Course.live_eq_resetOnto [DecidableEq S] [DecidableEq K] {fuel index : Nat} {prec : P}
    {fresh : List NodeId} {begun solved frozen resumed : Progress S P K}
    {last live : Generation S P K}
    (hcourse : abstractor.Course fuel g prec index fresh begun solved frozen resumed last live)
    (hfull : abstractor.config.search = .full) (hlength : solved.history.length = index + 1)
    (hlive : resumed.history.get? (index + 1) = some live) : live = last.resetOnto index := by
  obtain ⟨last', hlast, -, hfrozen⟩ := History.freezeLive_ok hcourse.freeze
  rw [hlength, Nat.add_sub_cancel] at hlast hfrozen
  obtain rfl := Option.some.inj (hcourse.last.symm.trans hlast)
  have hresume := hcourse.resume
  simp only [Exploration.resumeLive, setup, hfull] at hresume
  obtain ⟨-, rfl⟩ := Explore.run_pure_ok.1 hresume
  rw [hfrozen, History.get?_push, if_pos hlength.symm] at hlive
  exact (Option.some.inj hlive).symm

/-- The live generation, however much of it is left, has no heuristics when a check begins. -/
theorem Bounded.install [DecidableEq K] (h : Bounded away abstractor) {prec : P}
    {history : History S P K} {fresh : List NodeId} {gen : Generation S P K}
    (hinstall : abstractor.install g prec = .ok (history, fresh))
    (hgen : history.get? (history.length - 1) = some gen) :
    ∀ i d, gen.heuristic i = .ok d → d = .unknown := by
  intro i d hd
  cases hlive : abstractor.history.live? with
  | some live =>
    simp only [Abstractor.install, hlive, bind_eq_ok, pure_eq_ok, Prod.mk.injEq] at hinstall
    obtain ⟨live', hdrop, rfl, -⟩ := hinstall
    have hlt := History.lt_length (History.live?_eq_some.1 hlive)
    rw [History.length_set, History.get?_set hlt, if_pos rfl] at hgen
    obtain rfl := Option.some.inj hgen
    obtain ⟨-, -, -, hsearchNodes⟩ := Generation.dropPruned_ok hdrop
    obtain ⟨k, hk, rfl⟩ := Generation.heuristic_eq_ok.1 hd
    rw [hsearchNodes] at hk
    split at hk
    · exact h.live live hlive i _ (Generation.heuristic_eq_ok.2 ⟨k, hk, rfl⟩)
    · cases hk
  | none =>
    simp only [Abstractor.install, hlive, pure_eq_ok, Prod.mk.injEq] at hinstall
    obtain ⟨rfl, -⟩ := hinstall
    rw [History.length_push, History.get?_push, if_pos (by omega)] at hgen
    obtain rfl := Option.some.inj hgen
    simp [Generation.heuristic_eq_ok, NodeMap.get?_empty] at hd

variable [DecidableEq S] [DecidableEq K]

/-- **An exhaustive check keeps what is known lower bounds.** -/
theorem Ready.check_bounded {prec : P} {fuel : Nat} {verdict : Verdict}
    (h : Ready allowed dead abstractor g) (hprec : allowed prec)
    (hlaws : abstractor.analysis.Lawful) (hrefutes : abstractor.analysis.Refutes allowed dead)
    (hdelays : abstractor.analysis.Delays allowed away) (hdead : ∀ {a}, dead a → ∀ m, away m a)
    (hfull : abstractor.config.search = .full) (hbounded : Bounded away abstractor)
    (hcheck : abstractor.check fuel g prec = .ok (verdict, abstractor', g')) :
    Bounded away abstractor' := by
  obtain ⟨index, fresh, begun, solved, frozen, resumed, last, live, hcourse, -, -, -, -, hhistory,
    rfl⟩ := check_ok hcheck
  obtain ⟨rfl, hlength, first, hfirst, -, -, hsound, hunknown⟩ := h.begins hprec hcourse
  have hindex := hcourse.index_eq
  have hheuristic : ∀ i d, first.heuristic i = .ok d → d = .unknown :=
    hbounded.install hcourse.install (hindex ▸ hfirst)
  have holder : ∀ i < index, ∀ older, begun.history.get? i = some older →
      older.LowerBounds away older.heuristic ∧ older.LowerBounds away older.distance := by
    intro i hi older hget
    rw [hcourse.behind hi] at hget
    exact hbounded.held i older hget
  -- solving leaves lower bounds in all generations
  have hsolve := hcourse.solve
  rw [abstractor.config.full_sees_all hfull] at hsolve
  obtain ⟨⟨last', hlast, hbounds⟩, hframe⟩ := Exploration.solveLive_lowerBounds hlaws hdelays hfull
    hrefutes hsound (fun i hi older hget => (holder i hi older hget).2) hdead hfirst hunknown
    (.of_unknown hheuristic) hsolve
  obtain rfl := Option.some.inj (hcourse.last.symm.trans hlast)
  have hsolved : ∀ i ≤ index, ∀ gen, solved.history.get? i = some gen →
      gen.LowerBounds away gen.heuristic ∧ gen.LowerBounds away gen.distance := by
    intro i hi gen hgen
    by_cases heq : i = index
    · obtain rfl := Option.some.inj (hlast.symm.trans (heq ▸ hgen))
      exact hbounds
    · rw [hframe i heq] at hgen
      exact holder i (by omega) gen hgen
  -- nothing is taken over by the live generation yet
  obtain ⟨-, hsolvedLength, -⟩ := h.solves hprec hcourse hlaws hrefutes
  obtain ⟨-, hlength', hlive, -, hbehind, -⟩ := h.resumes hprec hcourse hlaws hrefutes
  have hcopied : ∀ i d, live.heuristic i = .ok d → d = .unknown := by
    intro i d hd
    rw [hcourse.live_eq_resetOnto hfull hsolvedLength hlive] at hd
    exact unknown_of_resetOnto hd
  have hget : ∀ i, (resumed.history.applyRetention.set (index + 1) { live with graph := {} }).get? i =
      if i = index + 1 then some { live with graph := {} }
      else resumed.history.applyRetention.get? i := by
    intro i
    rw [History.get?_set (by rw [History.length_applyRetention, hlength']; omega)]
  constructor
  · intro i gen hgen
    rw [hhistory, hget] at hgen
    split at hgen
    · obtain rfl := Option.some.inj hgen
      constructor <;>
      · intro j n d m hn
        simp [Graph.get?, NodeMap.get?_empty] at hn
    · obtain ⟨old, hold, hsame⟩ := History.exists_of_get?_applyRetention hgen
      have hlt := History.lt_length hold
      rw [hbehind i (by omega)] at hold
      rcases hsame with rfl | rfl
      · exact hsolved i (by omega) gen hold
      · exact lowerBounds_releaseProvider (hsolved i (by omega) old hold)
  · intro gen hgen
    rw [History.live?_eq_some, hhistory, History.length_set, History.length_applyRetention, hlength',
      hget, if_pos (by omega)] at hgen
    obtain rfl := Option.some.inj hgen
    exact hcopied

/-! ## Refinement runs -/

variable {system : TransitionSystem} {config : Config} {last : Option Partition}

/-- **What is known in exhaustive runs are lower bounds.** -/
theorem RefinementRun.bounded {abstractor : Abstractor StateSet Partition Unit} {g : Graph StateSet}
    (h : RefinementRun system config last abstractor g) (hfull : config.search = .full) :
    Bounded system.Away abstractor := by
  induction h with
  | start =>
    constructor
    · intro i gen hgen
      have hlt := History.lt_length hgen
      exact absurd hlt (Nat.not_lt_zero i)
    · intro gen hgen
      have hlt := History.lt_length (History.live?_eq_some.1 hgen)
      exact absurd hlt (Nat.not_lt_zero _)
  | prune _ _ ih => exact ih
  | pruneAll _ _ ih => exact ih
  | check hrun hfollows hcheck ih =>
    obtain ⟨hready, hanalysis, hconfig, hvalid⟩ := Ready.of_refinementRun hrun
    exact hready.check_bounded (hfollows.valid hvalid) (hanalysis ▸ system.blockAnalysis_lawful)
      (hanalysis ▸ system.blockAnalysis_refutes) (hanalysis ▸ system.blockAnalysis_delays)
      (fun hdead m => hdead.away m) (hconfig ▸ hfull) ih hcheck

/-- **Known values are lower bounds on the real distances**: in every generation of an exhaustive run,
what is known about a node is at most the distance from any state that it stands for. -/
theorem exhaustive_values_bound_distances {abstractor : Abstractor StateSet Partition Unit}
    {g : Graph StateSet} (h : RefinementRun system config last abstractor g)
    (hfull : config.search = .full) {index : Nat} {gen : Generation StateSet Partition Unit}
    (hgen : (abstractor.generations g).get? index = some gen) {i : NodeId} {n : Node StateSet}
    (hn : gen.graph.get? i = some n) {s k : Nat} (hs : s ∈ n.state)
    (hk : system.targetDistance s = some k) :
    (∀ d, gen.heuristic i = .ok d → d.isKnown = true → d.notAbove (.finite k) = true) ∧
      ∀ d, gen.distance i = .ok d → d.isKnown = true → d.notAbove (.finite k) = true := by
  have hreaches := TransitionSystem.reachesTarget_of_targetDistance hk
  have hbounds := RefinementRun.bounded h hfull
  have hvalues : gen.LowerBounds system.Away gen.heuristic ∧
      gen.LowerBounds system.Away gen.distance := by
    obtain ⟨hready, -⟩ := Ready.of_refinementRun h
    cases hready with
    | start hempty _ =>
      have hnone : ∀ j, abstractor.history.get? j = none := fun j =>
        Option.eq_none_iff_forall_ne_some.2 fun _ hj => by
          have := History.lt_length hj
          omega
      have hlive : abstractor.history.live? = none :=
        Option.eq_none_iff_forall_ne_some.2 fun _ hlive => by
          simpa [hnone] using History.live?_eq_some.1 hlive
      simp [generations, hlive, hnone] at hgen
    | @resumed before live held hlength hheld _ hunknown _ _ hhistory =>
      rw [get?_generations hlength hhistory] at hgen
      by_cases hindex : index = live
      · obtain rfl : { held with graph := g } = gen := by simpa [hindex] using hgen
        have hheuristic := hbounds.live _ (live?_of_history hlength hhistory)
        exact ⟨.of_unknown hheuristic, .of_unknown hunknown⟩
      · rw [if_neg hindex] at hgen
        refine hbounds.held index gen ?_
        rw [hhistory, History.get?_set (by omega), if_neg hindex]
        exact hgen
  exact ⟨fun d hd hknown => hvalues.1.notAbove hn hs hreaches hd hknown,
    fun d hd hknown => hvalues.2.notAbove hn hs hreaches hd hknown⟩

open TransitionSystem (forked) in
/-- In a second round, the heuristic of the init state is the distance from the first one. -/
theorem exhaustive_values_bound_distances_forked :
    ∃ partition abstractor g gen n,
      RefinementRun forked ⟨.full, .fullExploration, by decide, by decide⟩ (some partition)
        abstractor g ∧ (abstractor.generations g).get? 1 = some gen ∧ gen.graph.get? 0 = some n ∧
      0 ∈ n.state ∧ forked.targetDistance 0 = some 2 ∧ gen.heuristic 0 = .ok (.finite 2) ∧
      (∀ d, gen.heuristic 0 = .ok d → d.isKnown = true → d.notAbove (.finite 2) = true) ∧
      ∀ d, gen.distance 0 = .ok d → d.isKnown = true → d.notAbove (.finite 2) = true := by
  let config : Config := ⟨.full, .fullExploration, by decide, by decide⟩
  let partition := ((Partition.initial forked).split (.ofList [0])).split (.ofList [1])
  let abstractor : Abstractor StateSet Partition Unit := { analysis := forked.blockAnalysis, config }
  have hrounds : ((abstractor.check 9 {} partition).bind fun first =>
      (first.2.1.check 9 first.2.2 partition).map fun second => do
        let gen ← (second.2.1.generations second.2.2).get? 1
        let n ← gen.graph.get? 0
        return (n.state.contains 0, gen.heuristic 0)) = .ok (some (true, .ok (.finite 2))) := by
    decide +kernel
  obtain ⟨⟨_, middle, g⟩, hfirst, hrounds⟩ := bind_eq_ok.1 hrounds
  obtain ⟨⟨_, last, g'⟩, hsecond, hround⟩ := map_eq_ok.1 hrounds
  simp only [Option.bind_eq_bind, Option.bind_eq_some_iff, Option.pure_def, Option.some.injEq,
    Prod.mk.injEq] at hround
  obtain ⟨gen, hgen, n, hn, hmem, hheuristic⟩ := hround
  have hs := StateSet.contains_iff.1 hmem
  have hdistance : forked.targetDistance 0 = some 2 := by decide +kernel
  have hrun : RefinementRun forked config (some partition) last g' :=
    .check (.check .start (.split _ (.split _ .refl)) hfirst) .refl hsecond
  exact ⟨partition, last, g', gen, n, hrun, hgen, hn, hs, hdistance, hheuristic,
    exhaustive_values_bound_distances hrun rfl hgen hn hs hdistance⟩

end Abstractor

end GuidedReach
