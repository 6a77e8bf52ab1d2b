import GuidedReach.Proofs.Exploration.Preservation
import GuidedReach.Proofs.Exploration.Rounds

/-!
# Solved generations

Solving a generation keeps its values sound. An exhaustive search also leaves it *sealed*: whatever
lies below an infinitely far node is infinitely far away, so that the distances can serve as
heuristics of the next generation.

* `Exploration.handled_or_refuted` — an exhaustive search passes over refuted nodes only.
* `Exploration.Sealed` — below an infinitely far node there are only such nodes.
* `Exploration.Solved`, `Exploration.solveLive_solved` — what solving a generation leaves behind.
-/

namespace GuidedReach.Exploration

variable {S P K : Type}

/-- Whatever lies below an infinitely far node is infinitely far away as well. -/
structure Sealed (gen : Generation S P K) : Prop where
  child : ∀ {i n parent}, gen.graph.get? i = some n → n.parent = some parent →
    gen.distance parent = .ok .infinite → gen.distance i = .ok .infinite
  coverer : ∀ {i n c}, gen.graph.get? i = some n → n.covering = some c →
    gen.distance i = .ok .infinite → gen.distance c = .ok .infinite
  fresh : ∀ {i n}, gen.graph.get? i = some n → gen.searchNodes.get? i = none →
    n.succs = [] ∧ n.covering = none

/-- Values are sound, and whatever lies below nodes that reach no target is ruled out as well, as far
as the next generation relies on it. -/
structure Solved (analysis : Analysis S P K) (search : SearchType) (allowed : P → Prop)
    (dead : S → Prop) (index : Nat) (history : History S P K) : Prop where
  sound : history.Sound analysis allowed dead
  decreasing : search = .decreasing → ClosedAt search index history
  full : search = .full → ∀ gen, history.get? index = some gen → Sealed gen

variable {analysis : Analysis S P K} {search : SearchType} {allowed : P → Prop} {dead : S → Prop}
variable {history : History S P K} {gen gen' : Generation S P K} {run : SearchRun} {index : Nat}

/-! ## Exhaustive searches -/

/-- An exhaustive search from the init nodes passes over refuted nodes only. -/
theorem handled_or_refuted (hfaithful : gen.graph.Faithful analysis allowed)
    (hclosed : Closed search history gen) (hexhausted : Exhausted gen.graph.initNodes gen)
    {i : NodeId} {n : Node S} (hn : gen.graph.get? i = some n) :
    gen.graph.Handled (fun _ => True) i ∨ Refuted search history gen i := by
  obtain ⟨finished, hstart, hhandled⟩ := hexhausted
  have hvisited : i ∈ finished ∨ Refuted search history gen i := by
    refine hfaithful.visited_or (· ∈ finished) _ (fun i hi => (hstart i hi).imp_right .inl)
      (fun i hi => (hhandled i hi).mono fun c hc => hc.imp_right .inl) hclosed.child hn
  exact hvisited.imp_left fun hi => (hhandled i hi).mono fun _ _ => trivial

section

variable (hwf : gen.graph.WellFormed) (hfinite : ∀ i d, gen.distance i ≠ .ok (.finite d))
variable (h : gen.settleExhaustive run = .ok gen')

include hwf hfinite h

omit hwf hfinite in
/-- A node gets an infinite distance if it gets no finite one. -/
theorem infinite_of_settleExhaustive {i : NodeId} {n : Node S} (hn : gen.graph.get? i = some n)
    (hnot : ∀ d, gen'.distance i ≠ .ok (.finite d)) : gen'.distance i = .ok .infinite := by
  obtain ⟨d, hd, hknown⟩ := Generation.settled_iff.1 (Generation.settleExhaustive_settled h hn)
  cases d with
  | unknown => simp [Distance.isKnown] at hknown
  | finite d => exact absurd hd (hnot d)
  | infinite => exact hd

/-- Below a node that became infinitely far away there are only such nodes. -/
theorem links_of_settleExhaustive {i : NodeId} (hi : gen'.distance i = .ok .infinite) :
    gen.distance i = .ok .infinite ∨ ∃ n, gen.graph.get? i = some n ∧ n.isTarget = false ∧
      (∀ c ∈ n.succs, gen'.distance c = .ok .infinite) ∧
      ∀ c, n.covering = some c → gen'.distance c = .ok .infinite := by
  obtain hold | ⟨n, hn, htarget, hbelow⟩ := Generation.settleExhaustive_infinite h hi
  · exact .inl hold
  · refine .inr ⟨n, hn, htarget, fun c hc => ?_, fun c hc => ?_⟩
    · obtain ⟨m, hm, hparent⟩ := hwf.succ_link hn hc
      exact infinite_of_settleExhaustive h hm fun d hd => hfinite c d (hbelow hm (.inl hparent) hd)
    · obtain ⟨-, m, hm, -, hcount⟩ := hwf.covering_link hn hc
      exact infinite_of_settleExhaustive h hm fun d hd =>
        hfinite c d (hbelow hm (.inr (List.count_pos_iff.1 (by omega))) hd)

end

section

variable [DecidableEq S] [DecidableEq K] {setup : Setup S P K} {older : Older S P K}
variable {p q : Progress S P K} {start : List NodeId} {stop : StopCriterion}
variable (hlaws : setup.analysis.Lawful) (hrefutes : setup.analysis.Refutes allowed dead)

include hlaws hrefutes

omit [DecidableEq S] [DecidableEq K] hlaws in
/-- A refuted node becomes infinitely far away: what lies below it holds no targets. -/
theorem infinite_of_refuted (hp : p.history.Sound setup.analysis allowed dead)
    (hgen : p.history.get? index = some gen) (hclosed : Closed setup.search p.history gen)
    (hfinite : ∀ i d, gen.distance i ≠ .ok (.finite d)) (h : gen.settleExhaustive run = .ok gen')
    {i : NodeId} {n : Node S} (hn : gen.graph.get? i = some n)
    (hi : Refuted setup.search p.history gen i) : gen'.distance i = .ok .infinite := by
  have hwf := (hp.faithful index gen hgen).1.wellFormed
  refine infinite_of_settleExhaustive h hn fun d hd => hfinite i d
    (Generation.settleExhaustive_avoids h (Refuted setup.search p.history gen)
      hclosed.child (fun {i n x} hn hx hrefuted => ?_) (fun {i n} hn hrefuted => ?_) hi hd)
  · obtain ⟨a, ha, hcov⟩ := hwf.covered_link hn hx
    exact hclosed.coverer ha hcov hrefuted
  · cases ht : n.isTarget with
    | false => rfl
    | true => exact absurd hrefuted (not_refuted_of_isTarget hrefutes hp hgen hn ht)

omit [DecidableEq S] [DecidableEq K] in
/-- **Distances from an exhaustive search are sound**, and the generation is sealed. -/
theorem settleExhaustive_sound (hp : p.history.Sound setup.analysis allowed dead)
    (hgen : p.history.get? index = some gen) (hclosed : Closed setup.search p.history gen)
    (hfinite : ∀ i d, gen.distance i ≠ .ok (.finite d))
    (hexhausted : Exhausted gen.graph.initNodes gen) (h : gen.settleExhaustive run = .ok gen') :
    (p.put index gen').history.Sound setup.analysis allowed dead ∧ Sealed gen' := by
  have hsound := hp.generation index gen hgen
  obtain ⟨hfaithful, -⟩ := hp.faithful index gen hgen
  have hwrites := Generation.settleExhaustive_writes h
  have hlinks : ∀ {i}, gen'.distance i = .ok .infinite → _ :=
    fun hi => links_of_settleExhaustive hfaithful.wellFormed hfinite h hi
  have hinfinite : ∀ {i n}, gen.graph.get? i = some n → Refuted setup.search p.history gen i →
      gen'.distance i = .ok .infinite :=
    fun hn hi => infinite_of_refuted hrefutes hp hgen hclosed hfinite h hn hi
  have hdead : ∀ {i n}, gen.graph.get? i = some n → Refuted setup.search p.history gen i →
      n.isTarget = false ∧ dead n.state := fun hn hi => by
    have hdead := dead_of_refuted hrefutes hp hgen hi hn
    exact ⟨(hfaithful.isTarget hn).trans (hrefutes.not_isTarget hdead), hdead⟩
  constructor
  · refine Progress.sound_put hp hgen
      ⟨Progress.faithful_put hp.faithful hgen (hwrites.graph ▸ hfaithful) hwrites.prec,
        Progress.keeps_put hgen (.of_distanceWrites hwrites)⟩
      (hsound.of_distanceWrites hwrites (fun hi hn => hfaithful.dead_of_region hlaws hrefutes
        (fun i => gen'.distance i = .ok .infinite) (fun {i n} hi hn => ?_) hi hn)
        fun hi => ?_)
    · obtain hold | ⟨n', hn', htarget, hsuccs, hcoverer⟩ := hlinks hi
      · exact (hdead hn (.inl (.inr hold))).imp_right .inl
      · obtain rfl := Option.some.inj (hn.symm.trans hn')
        refine ⟨htarget, ?_⟩
        obtain ⟨n', hn', hrest⟩ | hrefuted := handled_or_refuted hfaithful hclosed hexhausted hn
        · obtain rfl := Option.some.inj (hn.symm.trans hn')
          obtain ⟨c, hc, -⟩ | ⟨hfree, hempty | ⟨hexp, -⟩⟩ := hrest
          · exact .inr (.inl ⟨c, hc, hcoverer c hc⟩)
          · exact .inr (.inr ⟨hfree, .inl hempty⟩)
          · exact .inr (.inr ⟨hfree, .inr ⟨hexp, hsuccs⟩⟩)
        · exact .inl (hdead hn hrefuted).2
    · obtain ⟨j, d, hj⟩ | htarget := Generation.settleExhaustive_seesTarget h (.inl ⟨_, _, hi⟩)
      · exact hsound.finite hj
      · exact htarget
  · refine ⟨fun {i n parent} hn hparent hi => ?_, fun {i n c} hn hcov hi => ?_, fun {i n} hn hi => ?_⟩
    · rw [hwrites.graph] at hn
      obtain ⟨m, hm, hsucc⟩ := hfaithful.wellFormed.exists_parent hn hparent
      obtain hold | ⟨m', hm', -, hsuccs, -⟩ := hlinks hi
      · exact hinfinite hn (hclosed.child hn hparent (.inl (.inr hold)))
      · obtain rfl := Option.some.inj (hm.symm.trans hm')
        exact hsuccs i hsucc
    · rw [hwrites.graph] at hn
      obtain ⟨-, m, hm, -⟩ := hfaithful.wellFormed.covering_link hn hcov
      obtain hold | ⟨n', hn', -, -, hcoverer⟩ := hlinks hi
      · exact hinfinite hm (hclosed.coverer hn hcov (.inl (.inr hold)))
      · obtain rfl := Option.some.inj (hn.symm.trans hn')
        exact hcoverer c hcov
    · rw [hwrites.graph] at hn
      refine hclosed.fresh hn (.inl ?_)
      obtain ⟨hnone, -⟩ | ⟨k, d, -, hd, -⟩ := hwrites.searchNode i
      · exact hnone
      · simp [hd] at hi

/-! ## Solving -/

/-- **Solving a generation keeps its values sound.** -/
theorem solve_solved (hp : SoundAt setup.analysis setup.search allowed dead index p.history)
    (hgen : p.history.get? index = some gen) (holder : older.Lawful setup allowed index)
    (hunknown : ∀ i d, gen.distance i = .ok d → d = .unknown)
    (hinitialized : gen.graph.isInitialized = true)
    (hstop : setup.search = .full → stop = .fullExploration)
    (h : (solve setup older index gen.graph.initNodes stop).run p = .ok ((), q)) :
    Solved setup.analysis setup.search allowed dead index q.history := by
  obtain ⟨-, ⟨hupto, hnew⟩ | ⟨hfull, mid, gen₁, run, gen', hupto, hgen₁, hfinite, hexhausted, hsettle,
    rfl⟩⟩ := solve_ok hlaws hp.sound.faithful hgen holder h
  · have hq := hupto.soundAt hlaws hrefutes hp
    refine ⟨hq.sound, fun hdecreasing => hq.closed (by simp [hdecreasing]), fun hfull gen' hgen' => ?_⟩
    -- without a finished search nothing became infinitely far away
    have hnone : ∀ {i}, gen'.distance i ≠ .ok .infinite := fun {i} hi => by
      rcases (hnew hfull gen' hgen').1 i _ hi rfl with hold | ⟨hzero, -⟩
      · simpa using hunknown i _ hold
      · cases hzero
    exact ⟨fun _ _ hi => absurd hi hnone, fun _ _ hi => absurd hi hnone,
      fun hn hi => (hq.closed (by simp [hfull]) gen' hgen').fresh hn (.inl hi)⟩
  · have hmid := hupto.soundAt hlaws hrefutes hp
    obtain ⟨gen₁', hgen₁', hkept⟩ := (hupto.keeps hlaws hp.sound.faithful).2 index gen hgen
    obtain rfl := Option.some.inj (hgen₁.symm.trans hgen₁')
    obtain ⟨-, hinit⟩ := hkept.grows.isInitialized hinitialized
    obtain ⟨hsound, hsealed⟩ := settleExhaustive_sound hlaws hrefutes hmid.sound hgen₁
      (hmid.closed (by simp [hfull]) gen₁ hgen₁)
      (fun i d hd => by simpa using hunknown i _ (hfinite i d hd))
      (hinit ▸ hexhausted (hstop hfull)) hsettle
    refine ⟨hsound, fun hdecreasing => by simp [hfull] at hdecreasing, fun _ gen'' hgen'' => ?_⟩
    rw [Progress.get?_put_self hgen₁] at hgen''
    exact Option.some.inj hgen'' ▸ hsealed

/-- **Solving the live generation keeps its values sound**, and if there is no target afterwards, none
can be reached. -/
theorem solveLive_solved (hp : SoundAt setup.analysis setup.search allowed dead index p.history)
    (hgen : p.history.get? index = some gen)
    (hunknown : ∀ i d, gen.distance i = .ok d → d = .unknown)
    (hstop : setup.search = .full → stop = .fullExploration)
    (h : (solveLive setup index [] stop).run p = .ok ((), q)) :
    Solved setup.analysis setup.search allowed dead index q.history ∧
      q.history.length = p.history.length ∧ ∃ gen', q.history.get? index = some gen' ∧
        ((∀ i n, gen'.graph.get? i = some n → n.isTarget = false) →
          ∃ prec, allowed prec ∧ ∀ s ∈ setup.analysis.initStates prec, dead s) := by
  obtain ⟨mid, hinitialize, gen₁, hgen₁, hsolve⟩ := solveLive_ok h
  obtain ⟨hquiet, gen₁', hgen₁', hinitialized⟩ :=
    ensureInitialized_ok hlaws hp.sound.faithful hgen hinitialize
  obtain rfl := Option.some.inj (hgen₁.symm.trans hgen₁')
  have hmid := hquiet.soundAt hlaws hrefutes hp
  have hunknown₁ : ∀ i d, gen₁.distance i = .ok d → d = .unknown :=
    hquiet.unknown hgen hgen₁ hunknown
  have hsolved := solve_solved hlaws hrefutes hmid hgen₁ (below_lawful hlaws index) hunknown₁
    hinitialized hstop hsolve
  obtain ⟨⟨gen', hgen', hdecided⟩, hchanges⟩ :=
    solve_ok hlaws hmid.sound.faithful hgen₁ (below_lawful hlaws index) hsolve
  have hlater : mid.history.Keeps q.history ∧ q.history.length = mid.history.length := by
    obtain ⟨hupto, -⟩ | ⟨-, late, late₁, run, late₂, hupto, hlate, -, -, hsettle, rfl⟩ := hchanges
    · exact ⟨(hupto.keeps hlaws hmid.sound.faithful).2, hupto.length⟩
    · exact ⟨(hupto.keeps hlaws hmid.sound.faithful).2.trans (Progress.keeps_put hlate
        (.of_distanceWrites (Generation.settleExhaustive_writes hsettle))),
        Progress.length_put.trans hupto.length⟩
  refine ⟨hsolved, hlater.2.trans hquiet.length, gen', hgen', fun hnone => ?_⟩
  obtain ⟨gen'', hgen'', hkept⟩ := hlater.1 index gen₁ hgen₁
  obtain rfl := Option.some.inj (hgen'.symm.trans hgen'')
  -- without targets no distance is finite, so all init nodes are infinitely far away
  have hinfinite : ∀ i ∈ gen₁.graph.initNodes, gen'.distance i = .ok .infinite := by
    obtain ⟨i, -, d, hd⟩ | hall := hdecided
    · obtain ⟨j, n, hn, htarget⟩ := (hsolved.sound.generation index gen' hgen').finite hd
      simp [hnone j n hn] at htarget
    · exact hall
  obtain ⟨prec, hprec, hstates⟩ := (hmid.sound.faithful index gen₁ hgen₁).1.initialized hinitialized
  refine ⟨prec, hprec, fun s hs => ?_⟩
  obtain ⟨i, n, hi, hn, rfl⟩ := Graph.mem_statesOf.1 (hstates s hs)
  obtain ⟨n', hn', hgrows⟩ := hkept.grows.node hn
  exact hgrows.state ▸ (hsolved.sound.generation index gen' hgen').distance (hinfinite i hi) hn'

end

end GuidedReach.Exploration
