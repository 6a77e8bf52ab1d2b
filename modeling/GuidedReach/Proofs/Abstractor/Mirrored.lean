import GuidedReach.Abstractor.Run
import GuidedReach.Proofs.Abstractor.HandedBack
import GuidedReach.Proofs.Abstractor.Providers
import GuidedReach.Proofs.Exploration.FoundRounds

/-!
# Search nodes are never missed

Between two checks the generations are tidy, but for what the caller has pruned from the live one.
Every check begins by dropping the search nodes of what was pruned, so it finds all search nodes that
it looks up, and leaves the generations tidy once more.

* `History.Tidy.dropPruned`, `History.Tidy.freeze`, `History.Tidy.applyRetention` — what is done to
  tidy generations before and after a search.
* `Abstractor.Kept` — what holds between checks.
* `Abstractor.Kept.spares_check` — a check finds its search nodes, and then it holds again.
* `Abstractor.Session.mirrored` — search nodes and buckets mirror the graphs of all generations.
-/

namespace GuidedReach

variable {S P K : Type} [DecidableEq K]

/-! ## Histories between two searches -/

namespace History.Tidy

variable {analysis : Analysis S P K} {history : History S P K} {index : Nat} {gen : Generation S P K}

/-- The first generation has no search nodes yet. -/
theorem of_fresh (hempty : history.length = 0) {g : Graph S} (hwf : g.WellFormed) (prec : P) :
    (history.push { graph := g, prec }).Tidy analysis g.ids 0 := by
  have hfirst : ∀ {i gen}, i ≤ 0 → (history.push { graph := g, prec }).get? i = some gen →
      gen = { graph := g, prec } := fun hi hgen => by
    rw [get?_push, hempty, if_pos (Nat.le_zero.1 hi)] at hgen
    exact (Option.some.inj hgen).symm
  refine ⟨fun hi hgen => ?_, fun hi => absurd hi (Nat.not_lt_zero _), fun hgen => ?_,
    fun hi hgen hprovider => ?_⟩
  · exact hfirst hi hgen ▸ hwf
  · exact hfirst (Nat.le_refl _) hgen ▸ .of_fresh analysis g prec
  · rw [hfirst hi hgen] at hprovider
    cases hprovider

/-- **What the caller has pruned is dropped**, and the generations are tidy with what is left. -/
theorem dropPruned (h : history.Tidy analysis [] index) (hgen : history.get? index = some gen)
    {g : Graph S} (hcut : gen.graph.CutBack g) (prec : P) :
    ∃ gen', Generation.dropPruned { gen with graph := g, prec } analysis = .ok gen' ∧
      gen'.Filed analysis [] ∧ (history.set index gen').Tidy analysis [] index := by
  have hwf := h.wellFormed (Nat.le_refl _) hgen
  obtain ⟨hwf', hnode⟩ := hcut.node hwf
  obtain ⟨gen', hdrop, hfiled⟩ := (h.filed hgen).dropPruned prec fun hn =>
    (hnode hn).imp fun _ hm => hm.1
  obtain ⟨hgraph, -, hprovider, hget⟩ := Generation.dropPruned_ok hdrop
  refine ⟨gen', hdrop, hfiled, ?_⟩
  refine h.put (p := ⟨history, {}⟩) hgen hprovider (hgraph ▸ hwf') hfiled fun _ _ hby => ?_
  intro i k q hk hq
  rw [hget] at hk
  split at hk
  · exact hby hk hq
  · cases hk

/-- **A copy of the live generation is gone on with.** Its providers are the nodes themselves. -/
theorem freeze (h : history.Tidy analysis [] index) (hlength : history.length = index + 1)
    (hgen : history.get? index = some gen) :
    (history.push (gen.resetOnto index)).Tidy analysis [] (index + 1) := by
  have hcopy : ∀ {new}, (history.push (gen.resetOnto index)).get? (index + 1) = some new →
      new = gen.resetOnto index := fun hnew => by
    rw [get?_push, if_pos hlength.symm] at hnew
    exact (Option.some.inj hnew).symm
  have hold : ∀ {i}, i ≤ index → (history.push (gen.resetOnto index)).get? i = history.get? i :=
    fun hi => by rw [get?_push, if_neg (by omega)]
  have hwf : gen.graph.WellFormed := h.wellFormed (Nat.le_refl _) hgen
  refine ⟨fun {i new} hi hnew => ?_, fun {i new} hi hnew => ?_, fun hnew => ?_,
    fun {i new below} hi hnew hbelow => ?_⟩
  · rcases Nat.lt_or_eq_of_le hi with hi | rfl
    · rw [hold (Nat.le_of_lt_succ hi)] at hnew
      exact h.wellFormed (Nat.le_of_lt_succ hi) hnew
    · obtain rfl := hcopy hnew
      exact hwf
  · rw [hold (Nat.le_of_lt_succ hi)] at hnew
    rcases Nat.lt_or_eq_of_le (Nat.le_of_lt_succ hi) with hi | rfl
    · exact h.older hi hnew
    · exact h.filed hnew
  · exact hcopy hnew ▸ (h.filed hgen).resetOnto index
  · rcases Nat.lt_or_eq_of_le hi with hi | rfl
    · rw [hold (Nat.le_of_lt_succ hi)] at hnew
      obtain ⟨hlt, older, holder, hby⟩ := h.provided (Nat.le_of_lt_succ hi) hnew hbelow
      exact ⟨hlt, older, (hold (by omega)).trans holder, hby⟩
    · obtain rfl := hcopy hnew
      obtain rfl : index = below := Option.some.inj hbelow
      refine ⟨Nat.lt_succ_self _, gen, (hold (Nat.le_refl _)).trans hgen, fun {j k q} hk hq => ?_⟩
      obtain ⟨rfl, hj⟩ := Generation.exists_of_resetOnto hk
      obtain rfl : j = q := Option.some.inj hq
      exact (h.filed hgen).mem_graph ((h.filed hgen).held.1 hj)

/-- **Generations that are kept stay tidy**, since the live one takes its heuristics from the one
before it. -/
theorem applyRetention (h : history.Tidy analysis [] (index + 1))
    (hlength : history.length = index + 2) (hlive : history.get? (index + 1) = some gen)
    (hprovider : gen.provider = some index) :
    history.applyRetention.Tidy analysis [] (index + 1) := by
  rcases history.get?_applyRetention with hsame | hget
  · exact hsame.symm ▸ h
  have hkept : history.applyRetention.get? (index + 1) = some gen :=
    (get?_applyRetention_live _ hlength).trans hlive
  refine ⟨fun {i new} hi hnew => ?_, fun {i new} hi hnew => ?_, fun {new} hnew => ?_,
    fun {i new below} hi hnew hbelow => ?_⟩
  · obtain ⟨old, hold, rfl | rfl⟩ := exists_of_get?_applyRetention hnew
    · exact h.wellFormed hi hold
    · exact (h.wellFormed hi hold : old.graph.WellFormed)
  · obtain ⟨old, hold, rfl | rfl⟩ := exists_of_get?_applyRetention hnew
    · exact h.older hi hold
    · exact (h.older hi hold).releaseProvider
  · obtain rfl := Option.some.inj (hnew.symm.trans hkept)
    exact h.filed hlive
  · rcases Nat.lt_or_eq_of_le hi with hi | rfl
    · -- only the generation before the live one is kept, without its provider
      rw [hget] at hnew
      split at hnew
      · cases hnew
      · rw [if_pos (by omega)] at hnew
        obtain ⟨old, -, rfl⟩ := Option.map_eq_some_iff.1 hnew
        cases hbelow
    · obtain rfl := Option.some.inj (hnew.symm.trans hkept)
      obtain rfl := Option.some.inj (hprovider.symm.trans hbelow)
      obtain ⟨hlt, older, holder, hby⟩ := h.provided (Nat.le_refl _) hlive hprovider
      obtain ⟨left, hleft, rfl | rfl⟩ := exists_get?_applyRetention hlength holder
      · exact ⟨hlt, left, hleft, hby⟩
      · exact ⟨hlt, _, hleft, hby⟩

end History.Tidy

/-! ## Checks -/

namespace Abstractor

variable {abstractor abstractor' : Abstractor S P K} {g g' : Graph S} {fuel : Nat}

/-- What holds between checks: nothing was checked yet, or the generations were tidy, and the caller has
left some of the live graph. -/
inductive Kept (abstractor : Abstractor S P K) (g : Graph S) : Prop
  | start : abstractor.history.length = 0 → g.WellFormed → Kept abstractor g
  | resumed {history : History S P K} {live : Nat} {gen : Generation S P K} :
    history.Tidy abstractor.analysis [] live → history.length = live + 1 →
      history.get? live = some gen → gen.graph.CutBack g →
      abstractor.history = history.set live { gen with graph := {} } → Kept abstractor g

/-- The caller may prune the graph. -/
theorem Kept.cutBack (h : Kept abstractor g) (hcut : g.CutBack g') : Kept abstractor g' := by
  cases h with
  | start hempty hwf => exact .start hempty (hcut.node hwf).1
  | resumed htidy hlength hgen hcut' hhistory =>
    exact .resumed htidy hlength hgen (hcut'.trans hcut) hhistory

/-- **A check begins with tidy generations**, but for the nodes of a first graph. -/
theorem Kept.finds_install (h : Kept abstractor g) (prec : P) :
    Finds (abstractor.install g prec) fun result => ∃ index, result.1.length = index + 1 ∧
      result.1.Tidy abstractor.analysis result.2 index := by
  cases h with
  | start hempty hwf =>
    have hlive : abstractor.history.live? = none :=
      Option.eq_none_iff_forall_ne_some.2 fun _ hlive => by
        have := History.lt_length (History.live?_eq_some.1 hlive)
        omega
    simp only [install, hlive]
    exact ⟨0, by rw [History.length_push, hempty], .of_fresh hempty hwf prec⟩
  | @resumed before live gen htidy hlength hgen hcut hhistory =>
    have hlive := live?_of_history hlength hhistory
    obtain ⟨gen', hdrop, -, htidy'⟩ := htidy.dropPruned hgen hcut prec
    have hset : abstractor.history.set (abstractor.history.length - 1) gen' =
        before.set live gen' := by
      rw [hhistory, History.length_set, hlength, Nat.add_sub_cancel]
      simp [History.set]
    simp only [install, hlive]
    have hfinds : Finds (Generation.dropPruned { gen with graph := g, prec } abstractor.analysis)
        fun result => result = gen' := by
      rw [hdrop]
      exact rfl
    refine hfinds.bind fun result _ hresult => ?_
    subst hresult
    exact ⟨live, by rw [hset, History.length_set, hlength], hset ▸ htidy'⟩

omit [DecidableEq K] in
/-- The solved generation stays behind, if its values fit. -/
theorem finds_freezeLive {history : History S P K} {index : Nat} {last : Generation S P K}
    (hlength : history.length = index + 1) (hlast : history.get? index = some last) :
    Finds history.freezeLive fun frozen => frozen = history.push (last.resetOnto index) := by
  have hlive : history.live? = some last := by
    rw [History.live?_eq_some, hlength, Nat.add_sub_cancel, hlast]
  have hcheck : Finds last.checkSearchNodes fun _ => True :=
    Spares.forM fun _ _ => Spares.bind Graph.finds_node fun _ _ _ => SearchNode.finds_checkFits
  simp only [History.freezeLive, hlive, hlength, Nat.add_sub_cancel]
  exact hcheck.bind fun _ _ _ => spares_pure rfl

variable [DecidableEq S]

/-- **A check finds all search nodes that it looks up**, and leaves the generations tidy. -/
theorem Kept.spares_check (h : Kept abstractor g) (fuel : Nat) (prec : P) :
    Spares Halt.IsMissing (abstractor.check fuel g prec) fun result =>
      Kept result.2.1 result.2.2 := by
  unfold check
  refine Spares.bind (spares_lift (h.finds_install prec)) ?_
  rintro ⟨history, fresh⟩ - ⟨index, hlength, htidy⟩
  dsimp only at hlength htidy ⊢
  rw [hlength, Nat.add_sub_cancel]
  -- the search
  have hexplore : (do
      let gen ← Explore.generation index
      Explore.count (·.recordStart gen)
      Exploration.solveLive (abstractor.setup fuel) index fresh abstractor.config.stop :
        Explore S P K Unit).Finds { history, stats := { iteration := abstractor.iteration + 1 } }
          fun _ solved => solved.history.Tidy abstractor.analysis [] index ∧
            solved.history.length = index + 1 := by
    refine Explore.finds_generation_bind fun gen _ => Explore.finds_count.bind fun _ q _ hq => ?_
    subst hq
    refine Explore.Finds.mono (Exploration.finds_solveLive ?_) fun _ _ _ hsolved =>
      ⟨hsolved.tidy, hsolved.length.trans hlength⟩
    exact htidy
  refine Spares.bind hexplore ?_
  rintro ⟨⟨⟩, solved⟩ - ⟨hsolved, hlength⟩
  refine Spares.bind Explore.finds_generation ?_
  rintro ⟨last, solved'⟩ - ⟨hlast, hsame⟩
  dsimp only at hsolved hlength hlast hsame ⊢
  subst solved'
  -- what stays behind, and the copy
  refine Spares.bind (spares_lift (finds_freezeLive hlength hlast)) ?_
  rintro _ - rfl
  have hcopy : (solved.history.push (last.resetOnto index)).get? (index + 1) =
      some (last.resetOnto index) := by
    rw [History.get?_push, if_pos hlength.symm]
  have hfrozen := hsolved.freeze hlength hlast
  have hresume : (Exploration.resumeLive (abstractor.setup fuel) (index + 1)).Finds
      { history := solved.history.push (last.resetOnto index), stats := solved.stats.recordEnd last }
      _ := Exploration.finds_resumeLive hfrozen
  refine Spares.bind hresume ?_
  rintro ⟨⟨⟩, resumed⟩ - hresumed
  obtain ⟨live, hlive, hextends⟩ := hresumed.continued hcopy
  have hlength' : resumed.history.length = index + 2 := by
    rw [hresumed.length, History.length_push, hlength]
  -- what is kept
  have hheld : resumed.history.applyRetention.get? (index + 1) = some live :=
    (History.get?_applyRetention_live _ hlength').trans hlive
  have hlive' : resumed.history.applyRetention.live? = some live := by
    rw [History.live?_eq_some, History.length_applyRetention, hlength']
    exact hheld
  dsimp only
  rw [hlive']
  exact .resumed (hresumed.tidy.applyRetention hlength' hlive hextends.provider)
    (by rw [History.length_applyRetention, hlength']) hheld .refl rfl

/-! ## Sessions -/

variable {analysis : Analysis S P K} {config : Config}

theorem Session.kept (h : Session analysis config abstractor g) :
    Kept abstractor g ∧ abstractor.analysis = analysis := by
  induction h with
  | start hwf => exact ⟨.start rfl hwf, rfl⟩
  | @prune _ _ _ id _ hprune ih => exact ⟨ih.1.cutBack (.single (.inl ⟨id, hprune⟩)), ih.2⟩
  | pruneAll _ hprune ih => exact ⟨ih.1.cutBack (.of_pruneAll hprune), ih.2⟩
  | check _ hcheck ih =>
    obtain ⟨_, _, _, _, _, _, _, _, -, -, -, hanalysis, -⟩ := check_ok hcheck
    exact ⟨(ih.1.spares_check _ _).result hcheck, hanalysis.trans ih.2⟩

/-- **Search nodes and buckets mirror the graphs.** They do so in all generations that stay behind,
and in the live one as soon as the search nodes of what was pruned are dropped. So no check misses a
search node. -/
theorem Session.mirrored (h : Session analysis config abstractor g) :
    (∀ i gen, abstractor.history.get? i = some gen → i + 1 < abstractor.history.length →
      gen.Mirrors analysis) ∧
    (∀ live prec, abstractor.history.live? = some live →
      ∃ gen, Generation.dropPruned { live with graph := g, prec } analysis = .ok gen ∧
        gen.graph = g ∧ gen.Mirrors analysis) ∧
    ∀ fuel prec id, abstractor.check fuel g prec ≠ .error (.fault (.noSearchNode id)) := by
  obtain ⟨hkept, rfl⟩ := h.kept
  refine ⟨fun i gen hgen hi => ?_, fun live prec hlive => ?_, fun fuel prec id =>
    (hkept.spares_check fuel prec).ne_error trivial⟩
  · cases hkept with
    | start hempty => omega
    | @resumed before index last htidy hlength hlast hcut hhistory =>
      rw [hhistory, History.length_set] at hi
      rw [hhistory, History.get?_set (by omega), if_neg (by omega)] at hgen
      exact (htidy.older (by omega) hgen).mirrors
  · cases hkept with
    | start hempty =>
      have := History.lt_length (History.live?_eq_some.1 hlive)
      omega
    | @resumed before index last htidy hlength hlast hcut hhistory =>
      obtain rfl := Option.some.inj (hlive.symm.trans (live?_of_history hlength hhistory))
      obtain ⟨gen, hdrop, hfiled, -⟩ := htidy.dropPruned hlast hcut prec
      exact ⟨gen, hdrop, (Generation.dropPruned_ok hdrop).1, hfiled.mirrors⟩

/-- After a check of six nodes, all but two are pruned. -/
theorem mirrored_looping :
    let analysis := TransitionSystem.looping.blockAnalysis
    ∃ abstractor g solved live gen prec, Session analysis
        ⟨.decreasing, .fullExploration, by decide, by decide⟩ abstractor g ∧
      abstractor.history.get? 0 = some solved ∧ solved.attached = [0, 1, 2, 3, 4, 5] ∧
      solved.Mirrors analysis ∧ abstractor.history.live? = some live ∧ g.ids = [0, 2] ∧
      Generation.dropPruned { live with graph := g, prec } analysis = .ok gen ∧ gen.graph = g ∧
      gen.Mirrors analysis := by
  intro analysis
  let abstractor : Abstractor StateSet Partition Unit :=
    { analysis, config := ⟨.decreasing, .fullExploration, by decide, by decide⟩ }
  let partition := (Partition.initial TransitionSystem.looping).splitAll
    ((List.range 4).map fun s => [s])
  have hround : (abstractor.check 30 {} partition).map (fun round => do
      let (_, g) ← (Graph.prune 1).result round.2.2
      return (g.ids, round.2.1.history.length, (round.2.1.history.get? 0).map Generation.attached,
        round.2.1.history.live?.isSome)) =
        .ok (.ok ([0, 2], 2, some [0, 1, 2, 3, 4, 5], true)) := by
    decide +kernel
  obtain ⟨⟨_, abstractor', g'⟩, hcheck, hround⟩ := map_eq_ok.1 hround
  simp only [bind_eq_ok, pure_eq_ok, Prod.mk.injEq, Option.map_eq_some_iff,
    Option.isSome_iff_exists] at hround
  obtain ⟨⟨_, g⟩, hprune, hids, hlength, ⟨solved, hsolved, hattached⟩, live, hlive⟩ := hround
  have hsession : Session analysis abstractor.config abstractor' g :=
    .prune (.check (.start .empty) hcheck) (Edit.result_eq_ok.1 hprune)
  obtain ⟨hbehind, hdropped, -⟩ := hsession.mirrored
  obtain ⟨gen, hdrop, hgraph, hmirrors⟩ := hdropped live partition hlive
  exact ⟨abstractor', g, solved, live, gen, partition, hsession, hsolved, hattached,
    hbehind 0 solved hsolved (by omega), hlive, hids, hdrop, hgraph, hmirrors⟩

end Abstractor

end GuidedReach
