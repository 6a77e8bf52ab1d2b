import GuidedReach.Proofs.Abstractor.Evolution

/-!
# The shape of a history

Each check adds one slot to the history. Which slots are held, and from where generations take their
heuristics, depends on the number of checks and on what is retained.

* `Abstractor.Rounds` — runs with the number of their checks.
* `Abstractor.Linked` — histories in which each generation takes its heuristics from the one before.
* `Abstractor.history_shape` — the history after any positive number of checks.
-/

namespace GuidedReach.Abstractor

variable {S P K : Type}

/-- Nothing was dropped, and each generation takes its heuristics from the one before it. -/
def Linked (history : History S P K) : Prop :=
  ∀ i, i < history.length →
    (history.get? i).map (·.provider) = some (if i = 0 then none else some (i - 1))

variable [DecidableEq S] [DecidableEq K]

/-- What a caller arrives at with a number of checks: the abstractor and the graph. -/
inductive Rounds (analysis : Analysis S P K) (config : Config) :
    Nat → Abstractor S P K → Graph S → Prop where
  | start : Rounds analysis config 0 { analysis, config } {}
  | prune {k : Nat} {abstractor : Abstractor S P K} {g g' : Graph S} {id : NodeId} :
    Rounds analysis config k abstractor g → (Graph.prune id).run g = .ok () g' →
      Rounds analysis config k abstractor g'
  | pruneAll {k : Nat} {abstractor : Abstractor S P K} {g g' : Graph S} :
    Rounds analysis config k abstractor g → Graph.pruneAll.run g = .ok () g' →
      Rounds analysis config k abstractor g'
  | check {k : Nat} {abstractor abstractor' : Abstractor S P K} {g g' : Graph S} {prec : P}
    {fuel : Nat} {verdict : Verdict} : Rounds analysis config k abstractor g →
      abstractor.check fuel g prec = .ok (verdict, abstractor', g') →
        Rounds analysis config (k + 1) abstractor' g'

variable {analysis : Analysis S P K} {config : Config} {abstractor abstractor' : Abstractor S P K}
variable {g g' : Graph S} {prec : P} {fuel k index : Nat} {verdict : Verdict}

theorem Rounds.exists_run (h : Rounds analysis config k abstractor g) :
    ∃ last, Run analysis config (fun _ _ => True) last abstractor g := by
  induction h with
  | start => exact ⟨_, .start⟩
  | prune _ hprune ih =>
    obtain ⟨_, hrun⟩ := ih
    exact ⟨_, .prune hrun hprune⟩
  | pruneAll _ hprune ih =>
    obtain ⟨_, hrun⟩ := ih
    exact ⟨_, .pruneAll hrun hprune⟩
  | check _ hcheck ih =>
    obtain ⟨_, hrun⟩ := ih
    exact ⟨_, .check hrun trivial hcheck⟩

/-- Every run has some number of checks. -/
theorem Run.exists_rounds {mayFollow : Option P → P → Prop} {last : Option P}
    (h : Run analysis config mayFollow last abstractor g) :
    ∃ k, Rounds analysis config k abstractor g := by
  induction h with
  | start => exact ⟨_, .start⟩
  | prune _ hprune ih =>
    obtain ⟨_, hrounds⟩ := ih
    exact ⟨_, .prune hrounds hprune⟩
  | pruneAll _ hprune ih =>
    obtain ⟨_, hrounds⟩ := ih
    exact ⟨_, .pruneAll hrounds hprune⟩
  | check _ _ hcheck ih =>
    obtain ⟨_, hrounds⟩ := ih
    exact ⟨_, .check hrounds hcheck⟩

/-! ## One check -/

/-- A check begins with an empty history, or with a live generation. -/
theorem Underway.first_or_live (h : Underway analysis config abstractor g) :
    abstractor.history.length = 0 ∧ g = {} ∨ ∃ live, abstractor.history.live? = some live := by
  cases h with
  | start hhistory hg => exact .inl ⟨by rw [hhistory]; rfl, hg⟩
  | resumed hevolves _ _ _ hhistory =>
    exact .inr ⟨_, live?_of_history hevolves.length hhistory⟩

omit [DecidableEq S] in
/-- Putting the caller's graph into the live generation keeps the slots and the providers. -/
theorem install_live {live : Generation S P K} {history : History S P K} {fresh : List NodeId}
    (hlive : abstractor.history.live? = some live)
    (hinstall : abstractor.install g prec = .ok (history, fresh)) :
    history.length = abstractor.history.length ∧ ∀ i,
      (history.get? i).map (·.provider) = (abstractor.history.get? i).map (·.provider) := by
  simp only [install, hlive, bind_eq_ok, pure_eq_ok, Prod.mk.injEq] at hinstall
  obtain ⟨gen, hdrop, rfl, -⟩ := hinstall
  obtain ⟨-, -, hprovider, -⟩ := Generation.dropPruned_ok hdrop
  have hget := History.live?_eq_some.1 hlive
  refine ⟨History.length_set, fun i => ?_⟩
  rw [History.get?_set (History.lt_length hget)]
  split
  · rename_i hi
    rw [hi, hget, Option.map_some, Option.map_some, hprovider]
  · rfl

/-- A check begins with one slot for each check so far and one more; if nothing was dropped, each
generation takes its heuristics from the one before. -/
theorem Underway.linked (h : Underway abstractor.analysis abstractor.config abstractor g)
    {history : History S P K} {fresh : List NodeId}
    (hinstall : abstractor.install g prec = .ok (history, fresh)) :
    history.length = max 1 abstractor.history.length ∧
      (Linked abstractor.history → Linked history) := by
  obtain ⟨hempty, rfl⟩ | ⟨live, hlive⟩ := h.first_or_live
  · obtain ⟨hinstall', hlength, hget⟩ := install_empty prec hempty
    rw [hinstall'] at hinstall
    obtain ⟨rfl, -⟩ := Prod.mk.inj (Except.ok.inj hinstall)
    refine ⟨by omega, fun _ i hi => ?_⟩
    obtain rfl : i = 0 := by omega
    rw [hget]
    rfl
  · obtain ⟨hlength, hproviders⟩ := install_live hlive hinstall
    have hlt := History.lt_length (History.live?_eq_some.1 hlive)
    exact ⟨by omega, fun hlinked i hi => (hproviders i).trans (hlinked i (by omega))⟩

/-- The history after `k + 1` checks. -/
structure Shape (retention : Retention) (k : Nat) (history : History S P K) : Prop where
  length : history.length = k + 2
  liveIndex : history.liveIndex? = some (k + 1)
  /-- The live generation takes its heuristics from its copy, node by node, and has no distances. -/
  live : ∃ live, history.live? = some live ∧ history.get? (k + 1) = some live ∧ live.Renewed k
  solved : ∃ last, history.solved? = some last ∧ history.get? k = some last
  linked : retention = .all → Linked history
  lastTwo : retention = .previous → (∀ i, (history.get? i).isSome = true ↔ i = k ∨ i = k + 1) ∧
    ∀ last, history.get? k = some last → last.provider = none ∧
      ∀ {i n}, last.searchNodes.get? i = some n → n.provider = none

/-- Up to the copy, all generations keep the providers with which the check began. -/
theorem Evolution.providers {index i : Nat} {begun solved frozen resumed : Progress S P K}
    {last live : Generation S P K}
    (h : abstractor.Evolution fuel index begun solved frozen resumed last live) (hi : i ≤ index) :
    (resumed.history.get? i).map (·.provider) = (begun.history.get? i).map (·.provider) := by
  have hsolved := h.solves.length.trans h.evolves.length
  rw [h.resumes.providers, h.freezes, History.get?_push, if_neg (by omega), h.solves.provider]

/-- **One check adds one slot**, and leaves the others as retention has it. -/
theorem Underway.shape (h : Underway abstractor.analysis abstractor.config abstractor g)
    (hlinked : abstractor.config.search.retention = .all → Linked abstractor.history)
    (hcheck : abstractor.check fuel g prec = .ok (verdict, abstractor', g')) :
    Shape abstractor.config.search.retention (max 1 abstractor.history.length - 1)
      abstractor'.history := by
  obtain ⟨index, fresh, begun, solved, frozen, resumed, last, live, hcourse, -, -, -, -, hhistory,
    -⟩ := check_ok hcheck
  have hevolution := hcourse.evolution h
  obtain ⟨hbegun, hbegunLinked⟩ := h.linked hcourse.install
  rw [← hbegun, ← hcourse.index_eq]
  have hlength : resumed.history.length = index + 2 := hevolution.resumes.evolves.length
  have hretention := hevolution.resumes.evolves.retention
  have hlive : abstractor'.history.get? (index + 1) = some { live with graph := {} } := by
    rw [hhistory, History.get?_set (by rw [History.length_applyRetention]; omega), if_pos rfl]
  have hbefore : ∀ i, i ≠ index + 1 →
      abstractor'.history.get? i = resumed.history.applyRetention.get? i := fun i hi => by
    rw [hhistory, History.get?_set (by rw [History.length_applyRetention]; omega), if_neg hi]
  have hlength' : abstractor'.history.length = index + 2 := by
    rw [hhistory, History.length_set, History.length_applyRetention, hlength]
  obtain ⟨kept, hkept⟩ : ∃ kept, resumed.history.get? index = some kept := by
    have hheld := hevolution.providers (Nat.le_refl index)
    rw [← hevolution.solves.provider, hcourse.last, Option.map_some, Option.map_eq_some_iff] at hheld
    obtain ⟨kept, hkept, -⟩ := hheld
    exact ⟨kept, hkept⟩
  obtain ⟨last, hlast, -⟩ := History.exists_get?_applyRetention hlength hkept
  rw [← hbefore index (by omega)] at hlast
  have hslots : abstractor.config.search.retention = .previous → ∀ i,
      abstractor'.history.get? i = if i = index + 1 then some { live with graph := {} }
        else if i = index then some kept.releaseProvider else none := by
    intro hprevious i
    split
    · rename_i hi
      rw [hi, hlive]
    · rename_i hi
      rw [hbefore i hi,
        History.get?_applyRetention_lastTwo (hretention.trans hprevious) hlength hkept hi]
  refine ⟨hlength', History.liveIndex?_eq hlength', ⟨_, ?_, hlive,
    hevolution.isRenewed.provider, hevolution.isRenewed.searchNode⟩, ?_, fun hall => ?_,
    fun hprevious => ⟨fun i => ?_, fun last hlast => ?_⟩⟩
  · rw [History.live?_eq_some, hlength']
    exact hlive
  · exact ⟨last, (History.solved?_eq hlength').trans hlast, hlast⟩
  · have hsame := History.applyRetention_of_all (hretention.trans hall)
    intro i hi
    rcases Nat.lt_or_ge index i with hlt | hle
    · obtain rfl : i = index + 1 := by omega
      rw [hlive, Option.map_some, hevolution.isRenewed.provider, if_neg (by omega),
        Nat.add_sub_cancel]
    · have hindex := hcourse.index_eq
      rw [hbefore i (by omega), hsame, hevolution.providers hle]
      exact hbegunLinked (hlinked hall) i (by omega)
  · rw [hslots hprevious]
    split
    · simp_all
    · split <;> simp_all
  · rw [hslots hprevious, if_neg (by omega), if_pos rfl] at hlast
    obtain rfl := Option.some.inj hlast
    refine ⟨rfl, fun {i n} hn => ?_⟩
    obtain ⟨_, -, rfl⟩ := Generation.exists_of_releaseProvider hn
    rfl

/-! ## All checks -/

/-- The history is empty before the first check, and each check makes it one slot longer. -/
theorem Rounds.shape (h : Rounds analysis config k abstractor g) :
    k = 0 ∧ abstractor.history.length = 0 ∨
      ∃ j, k = j + 1 ∧ Shape config.search.retention j abstractor.history := by
  induction h with
  | start => exact .inl ⟨rfl, rfl⟩
  | prune _ _ ih => exact ih
  | pruneAll _ _ ih => exact ih
  | @check k _ _ _ _ _ _ _ hrounds hcheck ih =>
    obtain ⟨_, hrun⟩ := hrounds.exists_run
    obtain ⟨hunderway, rfl, rfl⟩ := hrun.underway
    refine .inr ⟨k, rfl, ?_⟩
    obtain ⟨rfl, hempty⟩ | ⟨j, rfl, hshape⟩ := ih
    · have hlinked : Linked _ := fun i hi => absurd hi (by rw [hempty]; omega)
      simpa [hempty] using hunderway.shape (fun _ => hlinked) hcheck
    · simpa [hshape.length] using hunderway.shape hshape.linked hcheck

/-- **The history has one slot for each check and one more.** The last is the live one, and its copy
stands before it. Either nothing is dropped, or the last two slots are held, and the copy takes its
heuristics from nowhere. -/
theorem history_shape (h : Rounds analysis config (k + 1) abstractor g) :
    Shape config.search.retention k abstractor.history := by
  obtain ⟨hzero, -⟩ | ⟨j, hj, hshape⟩ := h.shape
  · omega
  · obtain rfl : k = j := by omega
    exact hshape

/-- Two checks, with each kind of retention. -/
theorem history_shape_forked :
    let semi : Config := ⟨.semiOnDemand, .firstCounterexample, by decide, by decide⟩
    (∃ abstractor g, Rounds TransitionSystem.forked.blockAnalysis .standard (1 + 1) abstractor g ∧
      Shape .previous 1 abstractor.history) ∧
    ∃ abstractor g, Rounds TransitionSystem.forked.blockAnalysis semi (1 + 1) abstractor g ∧
      Shape .all 1 abstractor.history := by
  intro semi
  let system := TransitionSystem.forked
  let partition := (Partition.initial system).split (.ofList [0])
  have hrounds : ∀ config, config ∈ [Config.standard, semi] →
      (check { analysis := system.blockAnalysis, config } 9 {} (.initial system)).map (fun first =>
        Graph.pruneAll.result first.2.2 |>.map fun pruned =>
          (first.2.1.check 9 pruned.2 partition).map fun _ => ()) = .ok (.ok (.ok ())) := by
    decide +kernel
  have hshape : ∀ config, config ∈ [Config.standard, semi] →
      ∃ abstractor g, Rounds system.blockAnalysis config (1 + 1) abstractor g ∧
        Shape config.search.retention 1 abstractor.history := by
    intro config hconfig
    obtain ⟨⟨_, abstractor, g⟩, hfirst, hrounds⟩ := map_eq_ok.1 (hrounds config hconfig)
    obtain ⟨⟨⟨⟩, g'⟩, hprune, hrounds⟩ := map_eq_ok.1 hrounds
    obtain ⟨⟨_, abstractor', g''⟩, hsecond, -⟩ := map_eq_ok.1 hrounds
    have hrun : Rounds system.blockAnalysis config (1 + 1) abstractor' g'' :=
      .check (.pruneAll (.check .start hfirst) (Edit.result_eq_ok.1 hprune)) hsecond
    exact ⟨abstractor', g'', hrun, history_shape hrun⟩
  exact ⟨hshape _ (by simp), hshape _ (by simp)⟩

end GuidedReach.Abstractor
