import GuidedReach.Proofs.Abstractor.Course
import GuidedReach.Proofs.Exploration.Resumed

/-!
# From check to check

An abstractor stays *ready* for the next check, whatever its caller prunes in between: what its live
generation knows about the nodes that are left is sound.

* `Generation.CutTo` — a generation with what is left of its graph.
* `Exploration.SoundAt.applyRetention` — dropping older generations does no harm.
* `Abstractor.Ready` — what holds between checks.
* `Abstractor.Ready.begins`, `Abstractor.Ready.solves`, `Abstractor.Ready.grows`,
  `Abstractor.Ready.resumes`, `Abstractor.Ready.leaves` — the phases of a check.
* `Abstractor.Ready.prune`, `Abstractor.Ready.check` — and goes on holding.
-/

namespace GuidedReach

variable {S P K : Type}

/-! ## Generations with pruned graphs -/

/-- The second generation is the first one with what is left of its graph. -/
structure Generation.CutTo (gen gen' : Generation S P K) : Prop where
  graph : gen.graph.Remains gen'.graph
  provider : gen'.provider = gen.provider
  searchNode : ∀ i, gen'.searchNodes.get? i =
    if gen'.graph.contains i then gen.searchNodes.get? i else none

section

variable {analysis : Analysis S P K} {search : SearchType} {allowed : P → Prop} {dead : S → Prop}
variable {history history' : History S P K} {index : Nat} {gen gen' : Generation S P K}

theorem Generation.CutTo.get?_of_get? (h : gen.CutTo gen') {i : NodeId} {k : SearchNode}
    (hk : gen'.searchNodes.get? i = some k) :
    gen.searchNodes.get? i = some k ∧ ∃ n, gen'.graph.get? i = some n := by
  rw [h.searchNode] at hk
  split at hk
  · exact ⟨hk, Option.isSome_iff_exists.1 (by assumption)⟩
  · simp at hk

theorem Generation.CutTo.get?_eq (h : gen.CutTo gen') {i : NodeId} {n : Node S}
    (hn : gen'.graph.get? i = some n) : gen'.searchNodes.get? i = gen.searchNodes.get? i := by
  rw [h.searchNode, if_pos]
  exact Option.isSome_iff_exists.2 ⟨n, hn⟩

/-- Values that are left are sound, as long as no distances are known. -/
theorem Generation.Sound.cutTo (h : gen.Sound analysis dead history index) (hcut : gen.CutTo gen')
    (hunknown : ∀ i d, gen.distance i = .ok d → d = .unknown) :
    gen'.Sound analysis dead history index := by
  have hdistance : ∀ {i d}, gen'.distance i = .ok d → d = .unknown := by
    intro i d hd
    obtain ⟨k, hk, rfl⟩ := distance_eq_ok.1 hd
    exact hunknown i _ (distance_eq_ok.2 ⟨k, (hcut.get?_of_get? hk).1, rfl⟩)
  refine ⟨fun hk => (hcut.get?_of_get? hk).2, fun hbelow => h.provider_lt (hcut.provider ▸ hbelow),
    fun hk hq hbelow => ?_, fun hi hn => ?_, fun hi _ => ?_, fun hi => ?_⟩
  · obtain ⟨hk', n', hn'⟩ := hcut.get?_of_get? hk
    obtain ⟨n, hn, hstate, -⟩ := hcut.graph.node hn'
    obtain ⟨older, m, n₁, holder, hm, hn₁, hleq⟩ := h.subsumed hk' hq (hcut.provider ▸ hbelow)
    obtain rfl := Option.some.inj (hn.symm.trans hn₁)
    exact ⟨older, m, n', holder, hm, hn', hstate ▸ hleq⟩
  · obtain ⟨k, hk, hd⟩ := heuristic_eq_ok.1 hi
    obtain ⟨n, hn', hstate, -⟩ := hcut.graph.node hn
    exact hstate ▸ h.heuristic (heuristic_eq_ok.2 ⟨k, (hcut.get?_of_get? hk).1, hd⟩) hn'
  · simpa using hdistance hi
  · simpa using hdistance hi

/-- Whatever lies below a refuted node that is left is refuted. -/
theorem Exploration.Closed.cutTo (h : Exploration.Closed search history gen) (hcut : gen.CutTo gen')
    (hwf : gen'.graph.WellFormed)
    (hframe : ∀ below, gen.provider = some below → history'.get? below = history.get? below) :
    Exploration.Closed search history' gen' := by
  have hframe' : ∀ {i}, Exploration.Refuted search history' gen' i ↔
      Exploration.Refuted search history gen' i :=
    Exploration.refuted_congr fun below hbelow => hframe below (hcut.provider ▸ hbelow)
  have hrefuted : ∀ {i n}, gen'.graph.get? i = some n →
      (Exploration.Refuted search history' gen' i ↔ Exploration.Refuted search history gen i) := by
    intro i n hn
    rw [hframe']
    simp only [Exploration.Refuted, Generation.Hopeless, Generation.heuristic_eq_ok,
      Generation.distance_eq_ok, hcut.get?_eq hn, hcut.provider]
  refine ⟨fun hn hparent hi => ?_, fun hn hcov hi => ?_, fun {i n} hn hi => ?_⟩
  · obtain ⟨m, hm, -⟩ := hwf.exists_parent hn hparent
    obtain ⟨n', hn', -, hparent', -⟩ := hcut.graph.node hn
    exact (hrefuted hn).2 (h.child hn' (hparent'.symm.trans hparent) ((hrefuted hm).1 hi))
  · obtain ⟨-, m, hm, -⟩ := hwf.covering_link hn hcov
    obtain ⟨n', hn', -, -, -, hcov'⟩ := hcut.graph.node hn
    exact (hrefuted hm).2 (h.coverer hn' (hcov' _ hcov) ((hrefuted hn).1 hi))
  · obtain ⟨n', hn', -, -, hleaf, hcov⟩ := hcut.graph.node hn
    obtain ⟨hnil, hfree⟩ := h.fresh hn' (by
      simpa only [Exploration.Fresh, Generation.heuristic_eq_ok, hcut.get?_eq hn] using hi)
    refine ⟨hleaf hnil, ?_⟩
    cases hc : n.covering with
    | none => rfl
    | some c => simp [hfree] at hcov; exact absurd hc (hcov c)

/-! ## Dropping older generations -/

/-- Dropping older generations does no harm: the live one only takes values from the one before. -/
theorem Exploration.SoundAt.applyRetention
    (h : Exploration.SoundAt analysis search allowed dead index history)
    (hlength : history.length = index + 1) (hgen : history.get? index = some gen)
    (hprovider : gen.provider = some (index - 1)) (hpos : 0 < index) :
    Exploration.SoundAt analysis search allowed dead index history.applyRetention ∧
      history.applyRetention.get? index = some gen := by
  obtain hsame | hget := history.get?_applyRetention
  · exact hsame.symm ▸ ⟨h, hgen⟩
  have hlive : history.applyRetention.get? index = some gen := by
    rw [hget, if_neg (by omega), if_neg (by omega), hgen]
  -- the generation before the live one stays, without its provider
  have hcases : ∀ {i old}, history.applyRetention.get? i = some old →
      i = index ∧ old = gen ∨ i + 1 = index ∧ ∃ old', history.get? i = some old' ∧
        old = old'.releaseProvider := by
    intro i old hold
    rw [hget] at hold
    split at hold
    · simp at hold
    · split at hold
      · obtain ⟨old', hold', rfl⟩ := Option.map_eq_some_iff.1 hold
        exact .inr ⟨by omega, old', hold', rfl⟩
      · have := History.lt_length hold
        obtain rfl : i = index := by omega
        exact .inl ⟨rfl, Option.some.inj (hold.symm.trans hgen)⟩
  have hreleased : ∀ {old : Generation S P K} {i d}, old.releaseProvider.distance i = .ok d ↔
      old.distance i = .ok d := by
    intro old i d
    rw [old.distance_releaseProvider]
  have hbelow : ∀ older, history.get? (index - 1) = some older →
      history.applyRetention.get? (index - 1) = some older.releaseProvider := by
    intro older holder
    rw [hget, if_neg (by omega), if_pos (by omega), holder]
    rfl
  refine ⟨⟨⟨fun i old hold => ?_, fun i old hold => ?_⟩, fun hsearch live hlive' => ?_⟩, hlive⟩
  · obtain ⟨rfl, rfl⟩ | ⟨-, old', hold', rfl⟩ := hcases hold
    · exact h.sound.faithful _ _ hgen
    · exact h.sound.faithful i old' hold'
  · obtain ⟨rfl, rfl⟩ | ⟨-, old', hold', rfl⟩ := hcases hold
    · have hsound := h.sound.generation _ _ hgen
      refine ⟨hsound.inGraph, hsound.provider_lt, fun hk hq hbelow' => ?_, hsound.heuristic,
        hsound.distance, hsound.finite⟩
      obtain ⟨older, m, n, holder, hrest⟩ := hsound.subsumed hk hq hbelow'
      obtain rfl := Option.some.inj (hprovider.symm.trans hbelow')
      exact ⟨_, m, n, hbelow older holder, hrest⟩
    · have hsound := h.sound.generation i old' hold'
      refine ⟨fun hk => ?_, by simp [Generation.releaseProvider], fun _ _ hnone => ?_,
        fun hi hn => ?_, fun hi hn => hsound.distance (hreleased.1 hi) hn,
        fun hi => hsound.finite (hreleased.1 hi)⟩
      · obtain ⟨k', hk', -⟩ := Generation.exists_of_releaseProvider hk
        exact hsound.inGraph hk'
      · simp [Generation.releaseProvider] at hnone
      · obtain ⟨k, hk, hd⟩ := Generation.heuristic_eq_ok.1 hi
        obtain ⟨k', hk', rfl⟩ := Generation.exists_of_releaseProvider hk
        exact hsound.heuristic (Generation.heuristic_eq_ok.2 ⟨k', hk', hd⟩) hn
  · obtain rfl := Option.some.inj (hlive.symm.trans hlive')
    have hclosed := h.closed hsearch gen hgen
    have hrefuted : ∀ i, Exploration.Refuted search history.applyRetention gen i ↔
        Exploration.Refuted search history gen i := by
      intro i
      refine or_congr_right (and_congr_right fun _ => ?_)
      constructor
      · rintro ⟨k, q, below, older, hk, hunknown, hq, hbelow', holder, hd⟩
        obtain rfl := Option.some.inj (hprovider.symm.trans hbelow')
        obtain ⟨heq, -⟩ | ⟨-, older', holder', rfl⟩ := hcases holder
        · omega
        · exact ⟨k, q, _, older', hk, hunknown, hq, hbelow', holder', hreleased.1 hd⟩
      · rintro ⟨k, q, below, older, hk, hunknown, hq, hbelow', holder, hd⟩
        obtain rfl := Option.some.inj (hprovider.symm.trans hbelow')
        exact ⟨k, q, _, _, hk, hunknown, hq, hbelow', hbelow older holder, hreleased.2 hd⟩
    exact hclosed.congr hrefuted

end

/-! ## Between checks -/

namespace Abstractor

variable {allowed : P → Prop} {dead : S → Prop} {abstractor abstractor' : Abstractor S P K}
variable {g g' : Graph S} {prec : P} {fuel : Nat} {verdict : Verdict}

/-- Nothing was checked yet; or the last check left a sound live generation, and the caller has what
is left of its graph. -/
inductive Ready (allowed : P → Prop) (dead : S → Prop) (abstractor : Abstractor S P K)
    (g : Graph S) : Prop
  | start : abstractor.history.length = 0 → g = {} → Ready allowed dead abstractor g
  | resumed {history : History S P K} {live : Nat} {gen : Generation S P K} :
    history.length = live + 1 → history.get? live = some gen →
      Exploration.SoundAt abstractor.analysis abstractor.config.search allowed dead live history →
      (∀ i d, gen.distance i = .ok d → d = .unknown) → gen.graph.Remains g →
      g.Faithful abstractor.analysis allowed →
      abstractor.history = history.set live { gen with graph := {} } →
      Ready allowed dead abstractor g

theorem Ready.faithful (h : Ready allowed dead abstractor g) :
    g.Faithful abstractor.analysis allowed := by
  cases h with
  | start _ hg => exact hg ▸ .empty
  | resumed _ _ _ _ _ hg _ => exact hg

/-- The caller may prune the graph. -/
theorem Ready.prune (h : Ready allowed dead abstractor g) {id : NodeId} {u : Unit}
    (hprune : (Graph.prune id).run g = .ok u g') : Ready allowed dead abstractor g' := by
  cases h with
  | start _ hg =>
    subst hg
    simp only [Graph.prune, Edit.run_bind_ok, Graph.run_readNode_ok] at hprune
    obtain ⟨n, _, ⟨hn, -⟩, -⟩ := hprune
    simp [Graph.get?, NodeMap.get?_empty] at hn
  | resumed hlength hgen hsound hunknown hremains hg hhistory =>
    have hpruned := Graph.prune_ok hg.wellFormed hprune
    exact .resumed hlength hgen hsound hunknown (hremains.trans (.of_pruned hpruned))
      (hg.pruned hpruned) hhistory

/-- The live generation, which is held without its graph. -/
theorem live?_of_history {history : History S P K} {live : Nat} {gen : Generation S P K}
    (hlength : history.length = live + 1) (hhistory : abstractor.history = history.set live gen) :
    abstractor.history.live? = some gen := by
  rw [History.live?_eq_some, hhistory, History.length_set, hlength]
  exact (History.get?_set (by omega) live).trans (if_pos rfl)

variable [DecidableEq K]

/-- **The generation that a check starts with is sound**, all its nodes have search nodes, and no
distances are known. -/
theorem Ready.install (h : Ready allowed dead abstractor g) (hprec : allowed prec)
    {history : History S P K} {fresh : List NodeId}
    (hinstall : abstractor.install g prec = .ok (history, fresh)) :
    fresh = [] ∧ ∃ gen, history.get? (history.length - 1) = some gen ∧ gen.graph = g ∧
      gen.prec = prec ∧ Exploration.SoundAt abstractor.analysis abstractor.config.search allowed dead
        (history.length - 1) history ∧ ∀ i d, gen.distance i = .ok d → d = .unknown := by
  cases h with
  | start hempty hg =>
    subst hg
    have hnone : abstractor.history.live? = none := by
      cases hlive : abstractor.history.live? with
      | none => rfl
      | some live =>
        have := History.lt_length (History.live?_eq_some.1 hlive)
        omega
    simp only [Abstractor.install, hnone] at hinstall
    obtain ⟨rfl, rfl⟩ := Prod.mk.inj (pure_eq_ok.1 hinstall)
    have hget : (abstractor.history.push { graph := {}, prec }).get? 0 =
        some { graph := {}, prec } := by
      rw [History.get?_push, if_pos hempty.symm]
    have hnosearch : ∀ i, ({ graph := {}, prec } : Generation S P K).searchNodes.get? i = none :=
      NodeMap.get?_empty
    rw [History.length_push, hempty]
    refine ⟨rfl, _, hget, rfl, rfl,
      ⟨⟨fun i old hold => ?_, fun i old hold => ?_⟩, fun _ old hold => ?_⟩, ?_⟩
    · obtain rfl : i = 0 := by
        have := History.lt_length hold
        rw [History.length_push] at this
        omega
      obtain rfl := Option.some.inj (hget.symm.trans hold)
      exact ⟨.empty, hprec⟩
    · obtain rfl : i = 0 := by
        have := History.lt_length hold
        rw [History.length_push] at this
        omega
      obtain rfl := Option.some.inj (hget.symm.trans hold)
      exact ⟨by simp [hnosearch], by simp, by simp [hnosearch], by simp [hnosearch],
        by simp [hnosearch], by simp [hnosearch]⟩
    · obtain rfl := Option.some.inj (hget.symm.trans hold)
      constructor <;> simp [Graph.get?, NodeMap.get?_empty]
    · simp [hnosearch]
  | @resumed before live gen hlength hgen hsound hunknown hremains hg hhistory =>
    have hlive := live?_of_history hlength hhistory
    simp only [Abstractor.install, hlive, bind_eq_ok, pure_eq_ok, Prod.mk.injEq] at hinstall
    obtain ⟨gen', hdrop, rfl, rfl⟩ := hinstall
    obtain ⟨hgraph, hprec', hprovider, hsearchNode⟩ := Generation.dropPruned_ok hdrop
    have hcut : gen.CutTo gen' := ⟨hgraph ▸ hremains, hprovider, hgraph ▸ hsearchNode⟩
    have hfinal : ∀ i, (abstractor.history.set (abstractor.history.length - 1) gen').get? i =
        if i = live then some gen' else before.get? i := by
      intro i
      rw [hhistory, History.length_set, hlength, History.get?_set (by simp; omega),
        History.get?_set (by omega)]
      by_cases hi : i = live <;> simp [hi]
    have hlength' : (abstractor.history.set (abstractor.history.length - 1) gen').length = live + 1 := by
      rw [History.length_set, hhistory, History.length_set, hlength]
    have hbelow : ∀ i < live, (abstractor.history.set (abstractor.history.length - 1) gen').get? i =
        before.get? i := fun i hi => (hfinal i).trans (if_neg (Nat.ne_of_lt hi))
    have hget : (abstractor.history.set (abstractor.history.length - 1) gen').get? live = some gen' :=
      (hfinal live).trans (if_pos rfl)
    have hgenSound := hsound.sound.generation live gen hgen
    rw [hlength']
    refine ⟨rfl, gen', hget, hgraph, hprec', ⟨hsound.sound.of_last hbelow hlength' hget (hgraph ▸ hg)
      (hprec' ▸ hprec) (hgenSound.cutTo hcut hunknown), fun hsearch old hold => ?_⟩, fun i d hd => ?_⟩
    · obtain rfl := Option.some.inj (hget.symm.trans hold)
      exact (hsound.closed hsearch gen hgen).cutTo hcut (hgraph ▸ hg.wellFormed)
        fun below hbelow' => hbelow below (hgenSound.provider_lt hbelow')
    · obtain ⟨k, hk, rfl⟩ := Generation.distance_eq_ok.1 hd
      exact hunknown i _ (Generation.distance_eq_ok.2 ⟨k, (hcut.get?_of_get? hk).1, rfl⟩)

variable [DecidableEq S] {index : Nat} {fresh : List NodeId}
variable {begun solved frozen resumed : Progress S P K} {last live : Generation S P K}

section

variable (h : Ready allowed dead abstractor g) (hprec : allowed prec)
variable (hcourse : abstractor.Course fuel g prec index fresh begun solved frozen resumed last live)

include h hprec hcourse

/-- A check begins with a sound generation, and all its nodes have search nodes. -/
theorem Ready.begins : fresh = [] ∧ begun.history.length = index + 1 ∧
    ∃ first, begun.history.get? index = some first ∧ first.graph = g ∧ first.prec = prec ∧
      Exploration.SoundAt abstractor.analysis abstractor.config.search allowed dead index
        begun.history ∧ ∀ i d, first.distance i = .ok d → d = .unknown := by
  obtain ⟨rfl, first, hfirst, hgraph, hprec', hsound, hunknown⟩ := h.install hprec hcourse.install
  have hlt := History.lt_length hfirst
  obtain rfl := hcourse.index_eq
  exact ⟨rfl, by omega, first, hfirst, hgraph, hprec', hsound, hunknown⟩

variable (hlaws : abstractor.analysis.Lawful) (hrefutes : abstractor.analysis.Refutes allowed dead)

include hlaws hrefutes

/-- Solving keeps the values sound, and if there is no target afterwards, none can be reached. -/
theorem Ready.solves :
    Exploration.Solved abstractor.analysis abstractor.config.search allowed dead index
        solved.history ∧ solved.history.length = index + 1 ∧
      ((∀ i n, last.graph.get? i = some n → n.isTarget = false) →
        ∃ prec, allowed prec ∧ ∀ s ∈ abstractor.analysis.initStates prec, dead s) := by
  obtain ⟨rfl, hlength, first, hfirst, -, -, hsound, hunknown⟩ := h.begins hprec hcourse
  obtain ⟨hsolved, hlength', last', hlast, hrefuted⟩ := Exploration.solveLive_solved hlaws hrefutes
    hsound hfirst hunknown abstractor.config.full_sees_all hcourse.solve
  obtain rfl := Option.some.inj (hcourse.last.symm.trans hlast)
  exact ⟨hsolved, hlength'.trans hlength, hrefuted⟩

omit hrefutes in
/-- **Solving grows the caller's graph** under the precision of the check. -/
theorem Ready.grows : g.GrownFrom abstractor.analysis prec last.graph := by
  obtain ⟨rfl, -, first, hfirst, rfl, rfl, hsound, -⟩ := h.begins hprec hcourse
  obtain ⟨mid, hworks, -, hwritten⟩ :=
    Exploration.solveLive_works hlaws hsound.sound.faithful hfirst hcourse.solve
  obtain ⟨gen, hgen, hwrites⟩ := hwritten hcourse.last
  rw [hwrites.graph]
  exact hworks.grownFrom hlaws hsound.sound.faithful hfirst hgen

/-- The copy that a check goes on with is sound, and the solved generations stay behind. -/
theorem Ready.resumes :
    Exploration.SoundAt abstractor.analysis abstractor.config.search allowed dead (index + 1)
        resumed.history ∧ resumed.history.length = index + 2 ∧
      resumed.history.get? (index + 1) = some live ∧ live.provider = some index ∧
      (∀ i ≤ index, resumed.history.get? i = solved.history.get? i) ∧ last.graph.Remains live.graph ∧
      ∀ i d, live.distance i = .ok d → d = .unknown := by
  obtain ⟨hsolved, hlength, -⟩ := h.solves hprec hcourse hlaws hrefutes
  obtain ⟨last', hlast', hadmissible, hfrozen⟩ := History.freezeLive_ok hcourse.freeze
  have hlast : solved.history.get? (solved.history.length - 1) = some last := by
    rw [hlength, Nat.add_sub_cancel]
    exact hcourse.last
  obtain rfl := Option.some.inj (hlast.symm.trans hlast')
  have hcopy : frozen =
      ⟨solved.history.push (last.resetOnto (solved.history.length - 1)), frozen.stats⟩ := by
    rw [← hfrozen]
  have hresume := hcourse.resume
  rw [← hlength, hcopy] at hresume
  have hsolved' : Exploration.Solved abstractor.analysis abstractor.config.search allowed dead
      (solved.history.length - 1) solved.history := by
    rw [hlength, Nat.add_sub_cancel]
    exact hsolved
  obtain ⟨hsound, hbelow, hlength', live', hlive', hprovider, hremains, hunknown⟩ :=
    Exploration.resumeLive_soundAt hsolved' hlast hlaws hrefutes hadmissible hresume
  rw [hlength] at hsound hlength' hlive' hprovider
  obtain rfl : live' = live := by
    have hlive := History.live?_eq_some.1 hcourse.live
    rw [History.length_applyRetention, hlength', Nat.add_sub_cancel,
      History.get?_applyRetention_live _ hlength', hlive'] at hlive
    exact Option.some.inj hlive
  exact ⟨hsound, hlength', hlive', hprovider, fun i hi => hbelow i (by omega), hremains, hunknown⟩

/-- The generation that was solved can be looked at after the check. -/
theorem Ready.leaves {abstractor' : Abstractor S P K} (hhistory : abstractor'.history =
      resumed.history.applyRetention.set (index + 1) { live with graph := {} }) :
    ∃ gen, abstractor'.solved? = some gen ∧ gen.graph = last.graph ∧
      ∀ i, gen.distance i = last.distance i := by
  obtain ⟨-, hlength, -, -, hbehind, -⟩ := h.resumes hprec hcourse hlaws hrefutes
  obtain ⟨gen, hgen, hsame⟩ := History.exists_get?_applyRetention hlength
    ((hbehind index (Nat.le_refl _)).trans hcourse.last)
  have hlength' : abstractor'.history.length = index + 2 := by
    rw [hhistory, History.length_set, History.length_applyRetention, hlength]
  have hsolved : abstractor'.solved? = some gen := by
    rw [solved?, History.solved?_eq hlength', hhistory,
      History.get?_set (by rw [History.length_applyRetention, hlength]; omega), if_neg (by omega)]
    exact hgen
  rcases hsame with rfl | rfl
  · exact ⟨gen, hsolved, rfl, fun _ => rfl⟩
  · exact ⟨last.releaseProvider, hsolved, rfl, last.distance_releaseProvider⟩

end

/-- **A check leaves its abstractor ready for the next one**, and if it finds the graph safe, no
target can be reached from the init states under some precision. -/
theorem Ready.check (h : Ready allowed dead abstractor g) (hprec : allowed prec)
    (hlaws : abstractor.analysis.Lawful) (hrefutes : abstractor.analysis.Refutes allowed dead)
    (hcheck : abstractor.check fuel g prec = .ok (verdict, abstractor', g')) :
    Ready allowed dead abstractor' g' ∧ abstractor'.analysis = abstractor.analysis ∧
      abstractor'.config = abstractor.config ∧
      (verdict = .safe → ∃ prec, allowed prec ∧ ∀ s ∈ abstractor.analysis.initStates prec, dead s) := by
  obtain ⟨index, fresh, begun, solved, frozen, resumed, last, live, hcourse, hsafe, -, hanalysis,
    hconfig, hhistory, rfl⟩ := check_ok hcheck
  obtain ⟨hsolved, -, hrefuted⟩ := h.solves hprec hcourse hlaws hrefutes
  obtain ⟨hresumed, hlength, hlive, hprovider, -, -, hunknown⟩ :=
    h.resumes hprec hcourse hlaws hrefutes
  obtain ⟨hretained, hget⟩ := hresumed.applyRetention hlength hlive hprovider (by omega)
  refine ⟨.resumed (by rw [History.length_applyRetention, hlength]) hget
    (by rw [hanalysis, hconfig]; exact hretained) hunknown (.refl _)
    (hanalysis ▸ (hretained.sound.faithful _ _ hget).1) hhistory, hanalysis, hconfig,
    fun hverdict => hrefuted fun i n hn => ?_⟩
  exact (hsolved.sound.faithful _ _ hcourse.last).1.not_isTarget_of_isSafe hlaws (hsafe hverdict) hn

/-- **A check only adds what the analysis asks for** under its precision, before it may remove some
covering edges. -/
theorem Ready.check_graph (h : Ready allowed dead abstractor g) (hprec : allowed prec)
    (hlaws : abstractor.analysis.Lawful) (hrefutes : abstractor.analysis.Refutes allowed dead)
    (hcheck : abstractor.check fuel g prec = .ok (verdict, abstractor', g')) :
    ∃ grown, g.GrownFrom abstractor.analysis prec grown ∧ grown.WellFormed ∧ grown.Remains g' := by
  obtain ⟨index, fresh, begun, solved, frozen, resumed, last, live, hcourse, -, -, -, -, -, rfl⟩ :=
    check_ok hcheck
  obtain ⟨hsolved, -⟩ := h.solves hprec hcourse hlaws hrefutes
  obtain ⟨-, -, -, -, -, hremains, -⟩ := h.resumes hprec hcourse hlaws hrefutes
  exact ⟨last.graph, h.grows hprec hcourse hlaws,
    (hsolved.sound.faithful index last hcourse.last).1.wellFormed, hremains⟩

end Abstractor

end GuidedReach
