import GuidedReach.Proofs.Generation.Climbs
import GuidedReach.Proofs.Generation.Unguided

/-!
# The distances of a first search

Whatever search type there is, the distances of the start nodes tell how far the nearest target is. If
nothing was reached, they become infinite with everything below. Otherwise the search path up from the
first target comes to a start node, with the length of a shortest path; and after an exhaustive search
all distances are those of the graph.

* `Generation.Tells` — the least distance of some nodes.
* `Generation.Climbing.exists_settlePath` — one search path is settled.
* `Generation.Settleable.exists_settleGuided_of_reached`,
  `Generation.Settleable.exists_settleGuided_of_exhausted` — a guided search is settled.
* `Generation.Settleable.exists_settleExhaustive_tells` — an exhaustive search is settled.
-/

namespace GuidedReach.Generation

variable {S P K : Type} {gen gen' : Generation S P K} {run : SearchRun} {goals : List NodeId}
variable {pace nearest : Nat} {goal id : NodeId} {n : Node S} {value : Distance}

/-- The least of the finite distances of some nodes; or they are all infinitely far away. -/
def Tells (gen : Generation S P K) (start : List NodeId) : Option Nat → Prop
  | none => ∀ s ∈ start, gen.distance s = .ok .infinite
  | some nearest => IsLeast {d | ∃ s ∈ start, gen.distance s = .ok (.finite d)} nearest

/-! ## Before anything is settled -/

namespace Unguided

variable [DecidableEq K] {analysis : Analysis S P K} {leq : S → S → Bool} {prec : P}

theorem distance_eq_unknown (h : gen.Unguided analysis leq prec []) {d : Distance}
    (hd : gen.distance id = .ok d) : d = .unknown := by
  obtain ⟨k, hk, rfl⟩ := distance_eq_ok.1 hd
  exact h.distance hk

/-- A first exploration leaves everything open that is to be settled. -/
theorem settleable (h : gen.Unguided analysis leq prec []) : gen.Settleable where
  wellFormed := h.faithful.wellFormed
  covered_leaf hn hcovering :=
    ⟨(h.faithful.covering hn hcovering).1, (h.faithful.covering hn hcovering).2.1⟩
  registered hn := h.registered hn List.not_mem_nil
  held hk := (h.held hk).2
  heuristic := h.heuristic
  target _ _ hd := .inl (h.distance_eq_unknown hd)

end Unguided

namespace Settleable

/-- Before anything is settled, all values fit. -/
theorem climbing (h : gen.Settleable) (hsurvey : run.Survey false none gen)
    (hopen : ∀ {i d}, gen.distance i = .ok d → d = .unknown)
    (hlimit : gen.graph.expandedIds.length ≤ Distance.limit) (hnear : nearest ≤ Distance.limit)
    (hgoals : ∀ goal ∈ goals, goal ∈ run.reached ∧
      ∀ far, run.depth? goal = some far → nearest ≤ far) : gen.Climbing run goals nearest where
  toSettleable := h
  survey := hsurvey
  goals_reached := hgoals
  near := hnear
  shallow hd := (hsurvey.depth_le hd).trans hlimit
  fits hd hknown := by
    rw [hopen hd] at hknown
    cases hknown

end Settleable

/-! ## Goals -/

namespace Climbing

/-- **The goals get the distance 0**, by induction on the list. -/
theorem exists_foldlM_setZero {ids : List NodeId} (h : gen.Climbing run goals nearest)
    (hids : ∀ i ∈ ids, i ∈ goals) :
    ∃ gen', ids.foldlM (fun gen id => do
        if (← gen.graph.node id).isTarget then gen.setDistance id .zero else return gen) gen =
          .ok gen' ∧
      gen'.Climbing run goals nearest ∧ DistanceWrites gen gen' ∧
      (∀ i ∈ ids, gen'.distance i = .ok .zero) ∧
      ∀ {i d}, gen'.distance i = .ok d → gen.distance i = .ok d ∨ i ∈ ids := by
  induction ids generalizing gen with
  | nil => exact ⟨gen, rfl, h, .refl gen, by simp, .inl⟩
  | cons id rest ih =>
    obtain ⟨hgoal, hrest⟩ := List.forall_mem_cons.1 hids
    obtain ⟨hreached, hfar⟩ := h.goals_reached id hgoal
    obtain ⟨-, n, hn, htarget⟩ := h.survey.isTarget_of_reached hreached
    obtain ⟨d, hd⟩ := h.furnished.exists_distance hn
    have hopen : gen.distance id = .ok .zero ∨ gen.distance id = .ok .unknown := by
      rcases h.target hn htarget hd with rfl | rfl
      · exact .inr hd
      · exact .inl hd
    have hfits : run.Fits goals nearest id .zero := by
      constructor
      · rintro v e ⟨⟩ he
        exact (hfar e he).trans (by omega)
      · intro goal hmem hpath e far he hgoal'
        by_cases heq : id = goal
        · subst heq
          obtain rfl := Option.some.inj (he.symm.trans hgoal')
          exact ⟨0, rfl, by omega⟩
        · -- no search path goes on below a target
          obtain ⟨c, -, hparent⟩ := hpath.exists_below heq
          rw [h.isTarget_of_parent hparent hn] at htarget
          cases htarget
    obtain ⟨mid, hset, hmid⟩ := h.exists_setDistance hn hopen rfl (fun _ => rfl) hfits
    obtain ⟨gen', hrun, h', hwrites, hzero, hold⟩ := ih hmid hrest
    refine ⟨gen', ?_, h', (DistanceWrites.of_setDistance hset).trans hwrites, ?_, fun hi => ?_⟩
    · simp only [List.foldlM_cons, bind_eq_ok, Graph.node_eq_ok]
      exact ⟨mid, ⟨n, hn, by rw [if_pos htarget]; exact hset⟩, hrun⟩
    · intro i hi
      rcases List.mem_cons.1 hi with rfl | hi
      · exact hwrites.distance_eq_ok (distance_self_of_setDistance hset).1 rfl
      · exact hzero i hi
    · rcases hold hi with hi | hmem
      · rcases distance_of_setDistance hset hi with ⟨rfl, -⟩ | hold'
        · exact .inr List.mem_cons_self
        · exact .inl hold'
      · exact .inr (List.mem_cons_of_mem _ hmem)

/-! ## Search paths -/

/-- **The search path up from a goal can be settled.** If nothing is settled above the first goal, then
its path comes to a start node. -/
theorem exists_settlePath {far : Nat} (h : gen.Climbing run goals nearest) (hgoal : goal ∈ goals)
    (hzero : gen.distance goal = .ok .zero) (hfar : run.depth? goal = some far)
    (hsorted : ∀ goal' ∈ goals, ∀ far', run.depth? goal' = some far' → far ≤ far') :
    ∃ gen', gen.settlePath run goal = .ok gen' ∧ gen'.Climbing run goals nearest ∧
      DistanceWrites gen gen' ∧
      (far = nearest → gen.Unwalked run goal goal 0 (2 * gen.graph.size + 2) →
        ∃ s ∈ run.start, gen'.distance s = .ok (.finite nearest)) := by
  obtain ⟨mid, beside, hclimb, hmid, hwrites, hbeside, hreaches⟩ :=
    h.exists_climb (2 * gen.graph.size + 2) 0 hgoal .refl hfar hfar (Nat.zero_add far) hsorted
      (List.forall_mem_nil _)
  obtain ⟨gen', hderive, h', hwrites'⟩ := hmid.exists_deriveFrom hbeside
  refine ⟨gen', ?_, h', hwrites.trans hwrites', fun hnear hwalk => ?_⟩
  · simp only [settlePath, bind_eq_ok, demand_eq_ok, Prod.exists]
    exact ⟨.zero, hzero, (), rfl, mid, beside, hclimb, hderive⟩
  · obtain ⟨s, hs, hvalue⟩ := hreaches hnear hwalk
    exact ⟨s, hs, hwrites'.distance_eq_ok hvalue rfl⟩

/-- The search paths up from all goals can be settled, by induction on the list of goals. -/
theorem exists_foldlM_settlePath (h : gen.Climbing run goals nearest)
    (hzero : ∀ goal ∈ goals, gen.distance goal = .ok .zero)
    (hfound : ∀ goal ∈ goals, ∃ far, run.depth? goal = some far)
    (hsorted : goals.Pairwise fun i j =>
      ∀ d e, run.depth? i = some d → run.depth? j = some e → d ≤ e) :
    ∃ gen', goals.foldlM (fun gen id => gen.settlePath run id) gen = .ok gen' ∧
      gen'.Climbing run [] nearest ∧ DistanceWrites gen gen' := by
  induction goals generalizing gen with
  | nil => exact ⟨gen, rfl, h, .refl gen⟩
  | cons goal rest ih =>
    obtain ⟨hzero₁, hzero₂⟩ := List.forall_mem_cons.1 hzero
    obtain ⟨⟨far, hfar⟩, hfound'⟩ := List.forall_mem_cons.1 hfound
    obtain ⟨hfirst, hsorted'⟩ := List.pairwise_cons.1 hsorted
    have hleast : ∀ goal' ∈ goal :: rest, ∀ far', run.depth? goal' = some far' → far ≤ far' := by
      intro goal' hgoal' far' hfar'
      rcases List.mem_cons.1 hgoal' with rfl | hmem
      · exact (Option.some.inj (hfar.symm.trans hfar')).le
      · exact hfirst goal' hmem far far' hfar hfar'
    obtain ⟨mid, hpath, hmid, hwrites, -⟩ :=
      h.exists_settlePath List.mem_cons_self hzero₁ hfar hleast
    obtain ⟨gen', hrun, h', hwrites'⟩ := ih (hmid.mono fun i hi => List.mem_cons_of_mem goal hi)
      (fun i hi => hwrites.distance_eq_ok (hzero₂ i hi) rfl) hfound' hsorted'
    refine ⟨gen', ?_, h', hwrites.trans hwrites'⟩
    rw [List.foldlM_cons, bind_eq_ok]
    exact ⟨mid, hpath, hrun⟩

/-- What follows from the dead ends can be derived. -/
theorem exists_deriveFromDeadEnds (h : gen.Climbing run goals nearest) :
    ∃ gen', gen.deriveFromDeadEnds = .ok gen' ∧ gen'.Climbing run goals nearest ∧
      DistanceWrites gen gen' := by
  obtain ⟨dead, hdead⟩ : ∃ dead, (gen.graph.toList.filterM fun entry => do
      if entry.2.isTarget then return false
      if ← gen.isSettled entry.1 then return false
      gen.isDead entry.1 entry.2 : Except Fault (List (NodeId × Node S))) = .ok dead := by
    refine exists_filterM ?_
    rintro ⟨id, n⟩ hmem
    have hn := Graph.mem_toList.1 hmem
    obtain ⟨k, hk⟩ := h.registered hn
    have hd : gen.distance id = .ok k.distance := distance_eq_ok.2 ⟨k, hk, rfl⟩
    have hh : gen.heuristic id = .ok k.heuristic := heuristic_eq_ok.2 ⟨k, hk, rfl⟩
    have hisDead : ∃ b, gen.isDead id n = .ok b := by
      unfold isDead
      split
      · rename_i c hcovering
        obtain ⟨-, b, hb, -⟩ := h.wellFormed.covering_link hn hcovering
        obtain ⟨e, he⟩ := h.furnished.exists_distance hb
        exact ⟨_, by rw [he]; rfl⟩
      · rw [hh]
        simp only [bind, Except.bind, pure, Except.pure]
        split
        · exact ⟨_, rfl⟩
        · split <;> exact ⟨_, rfl⟩
    obtain ⟨b, hb⟩ := hisDead
    dsimp only
    rw [isSettled_of_distance hd, hb]
    simp only [bind, Except.bind, pure, Except.pure]
    split
    · exact ⟨_, rfl⟩
    · split <;> exact ⟨_, rfl⟩
  have hmem : ∀ i ∈ dead.map Prod.fst, ∃ n, gen.graph.get? i = some n := by
    intro i hi
    obtain ⟨⟨i, n⟩, hentry, rfl⟩ := List.mem_map.1 hi
    exact ⟨n, Graph.mem_toList.1 ((mem_filterM hdead _).1 hentry).1⟩
  obtain ⟨gen', hderive, h', hwrites⟩ := h.exists_deriveFrom hmem
  refine ⟨gen', ?_, h', hwrites⟩
  simp only [deriveFromDeadEnds, bind_eq_ok]
  exact ⟨dead, hdead, hderive⟩

end Climbing

/-! ## Guided searches -/

theorem exists_checkReachedOrder {ids : List NodeId}
    (hids : ∀ i ∈ ids, (∃ n, gen.graph.get? i = some n ∧ n.isTarget = true) ∧
      ∃ d, run.depth? i = some d)
    (hsorted : ids.Pairwise fun i j =>
      ∀ d e, run.depth? i = some d → run.depth? j = some e → d ≤ e) :
    gen.checkReachedOrder run ids = .ok () := by
  have hvalue : ∀ i ∈ ids, ∀ d, run.depth? i = some d → run.distanceUntilTarget gen i = .ok d := by
    intro i hi d hd
    obtain ⟨⟨n, hn, htarget⟩, -⟩ := hids i hi
    simp only [SearchRun.distanceUntilTarget, hd, bind_eq_ok, Graph.node_eq_ok]
    exact ⟨n, hn, by rw [if_pos htarget]; rfl⟩
  induction ids with
  | nil => rfl
  | cons first rest ih =>
    cases rest with
    | nil => rfl
    | cons second rest =>
      obtain ⟨hfirst, hrest⟩ := List.pairwise_cons.1 hsorted
      obtain ⟨d, hd⟩ := (hids first List.mem_cons_self).2
      have hmem : second ∈ first :: second :: rest := List.mem_cons_of_mem _ List.mem_cons_self
      obtain ⟨e, he⟩ := (hids second hmem).2
      simp only [checkReachedOrder, bind_eq_ok, demand_eq_ok, decide_eq_true_eq]
      exact ⟨d, hvalue first List.mem_cons_self d hd, e, hvalue second hmem e he, (),
        hfirst second List.mem_cons_self d e hd he,
        ih (fun i hi => hids i (List.mem_cons_of_mem _ hi)) hrest
          fun i hi => hvalue i (List.mem_cons_of_mem _ hi)⟩

namespace Settleable

section

variable (h : gen.Settleable) (hsurvey : run.Survey false none gen) (hlevels : run.Levelled pace)
variable (hopen : ∀ {i d}, gen.distance i = .ok d → d = .unknown)
variable (hlimit : gen.graph.expandedIds.length ≤ Distance.limit)

include h hsurvey hlevels hopen hlimit

/-- **A guided search that has reached something is settled**: the least finite distance of its start
nodes is the depth of the first target. -/
theorem exists_settleGuided_of_reached {rest : List NodeId} (hreached : run.reached = goal :: rest)
    (hgoal : run.depth? goal = some nearest) :
    ∃ gen', gen.settleGuided run = .ok gen' ∧ gen'.Settleable ∧ DistanceWrites gen gen' ∧
      gen'.Tells run.start (some nearest) := by
  have hmem : goal ∈ run.reached := hreached ▸ List.mem_cons_self
  have htargets : ∀ i ∈ run.reached, (∃ n, gen.graph.get? i = some n ∧ n.isTarget = true) ∧
      ∃ d, run.depth? i = some d := by
    intro i hi
    obtain ⟨hfinished, htarget⟩ := hsurvey.isTarget_of_reached hi
    obtain ⟨d, -, hd⟩ := hlevels.finished i hfinished
    exact ⟨htarget, d, hd⟩
  have hsorted := hsurvey.pairwise_reached hlevels
  have hleast : ∀ i ∈ run.reached, ∀ far, run.depth? i = some far → nearest ≤ far := by
    intro i hi far hfar
    obtain ⟨⟨n, hn, htarget⟩, -⟩ := htargets i hi
    exact hsurvey.nearest_le hlevels hreached hgoal hfar hn htarget
  have hclimbing : gen.Climbing run run.reached nearest :=
    h.climbing hsurvey hopen hlimit ((hsurvey.depth_le hgoal).trans hlimit)
      fun i hi => ⟨hi, hleast i hi⟩
  obtain ⟨gen₁, hzeros, h₁, hwrites₁, hzero, hold⟩ := hclimbing.exists_foldlM_setZero fun _ hi => hi
  -- the first path: nothing is settled but the targets
  have hwalk : gen₁.Unwalked run goal goal 0 (2 * gen₁.graph.size + 2) := by
    obtain ⟨⟨n, hn, htarget⟩, -⟩ := htargets goal hmem
    have hfree : n.covering = none := by
      refine (hsurvey.fresh hn fun hvisited => ?_).2.1
      simp [SearchRun.Visited, htarget] at hvisited
    refine ⟨?_, ?_, fun _ => hzero goal hmem, ?_⟩
    · exact (hsurvey.origin hgoal hn).resolve_right (by simp [Node.isCovered, hfree])
    · have hdepth := hsurvey.depth_le hgoal
      have hsize : gen.graph.expandedIds.length ≤ gen.graph.size := List.length_filter_le _ _
      rw [SearchRun.rank, hgoal, hwrites₁.graph]
      simp only [Option.getD_some]
      split <;> omega
    · intro j m e hm hplain he hknown
      rcases hold he with he | hj
      · rw [hopen he] at hknown
        cases hknown
      · obtain ⟨⟨m', hm', htarget'⟩, -⟩ := htargets j hj
        rw [hwrites₁.graph] at hm
        obtain rfl := Option.some.inj (hm.symm.trans hm')
        simp [hplain] at htarget'
  obtain ⟨gen₂, hpath, h₂, hwrites₂, hstart⟩ := h₁.exists_settlePath hmem (hzero goal hmem) hgoal hleast
  obtain ⟨s, hs, hvalue⟩ := hstart rfl hwalk
  -- the other paths, and what follows
  rw [hreached] at hsorted htargets h₂
  obtain ⟨gen₃, hpaths, h₃, hwrites₃⟩ :=
    (h₂.mono fun i hi => List.mem_cons_of_mem goal hi).exists_foldlM_settlePath
      (fun i hi => hwrites₂.distance_eq_ok (hzero i (hreached ▸ List.mem_cons_of_mem goal hi)) rfl)
      (fun i hi => (htargets i (List.mem_cons_of_mem goal hi)).2) (List.pairwise_cons.1 hsorted).2
  obtain ⟨gen', hderive, h', hwrites'⟩ := h₃.exists_deriveFromDeadEnds
  refine ⟨gen', ?_, h'.toSettleable, ((hwrites₁.trans hwrites₂).trans hwrites₃).trans hwrites', ?_, ?_⟩
  · rw [hreached] at hzeros
    simp only [settleGuided, hreached, List.isEmpty_cons]
    rw [if_neg (by simp)]
    simp only [bind_eq_ok]
    refine ⟨(), exists_checkReachedOrder htargets hsorted, gen₁, hzeros, gen₃, ?_, hderive⟩
    rw [List.foldlM_cons, bind_eq_ok]
    exact ⟨gen₂, hpath, hpaths⟩
  · exact ⟨s, hs, (hwrites₃.trans hwrites').distance_eq_ok hvalue rfl⟩
  · rintro d ⟨i, hi, hd⟩
    exact (h'.fits hd rfl).1 d 0 rfl (h'.survey.start i hi)

end

end Settleable

/-! ## Searches that reach nothing -/

section

variable (hlevels : run.Levelled pace) (hreached : run.reached = []) (hwaitlist : run.waitlist = [])

include hlevels hreached hwaitlist

/-- What is right below a found node was found as well. -/
theorem exists_openBelow (h : gen.Climbing run [] 0) {d : Nat} (hd : run.depth? id = some d)
    (hn : gen.graph.get? id = some n) :
    ∃ below, gen.openBelow id n = .ok below ∧ ∀ i ∈ below, ∃ e, run.depth? i = some e := by
  have hheuristic := (h.survey.judged hd).2
  unfold openBelow
  rw [hheuristic]
  simp only [bind, Except.bind, Distance.isInfinite, Distance.zero, Bool.false_eq_true, if_false]
  cases hcovering : n.covering with
  | some c =>
    refine ⟨[c], rfl, fun i hi => ?_⟩
    obtain rfl := List.mem_singleton.1 hi
    obtain ⟨e, -, he⟩ := h.survey.edge (.covering hn hcovering) hd
    exact ⟨e, he⟩
  | none =>
    dsimp only
    split
    · refine ⟨n.succs, rfl, fun i hi => ?_⟩
      obtain ⟨b, hb, hparent⟩ := h.wellFormed.succ_link hn hi
      obtain ⟨e, -, he⟩ := h.survey.edge (.tree hb hparent) hd
      exact ⟨e, he⟩
    · rename_i hopen
      have hempty : n.isFeasible = false := by
        rcases h.survey.handled_of_exhausted hlevels hwaitlist (.inr hreached) hd hn with hc | he | hf
        · simp [Node.isCovered, hcovering] at hc
        · exact absurd he hopen
        · exact hf
      exact ⟨[], by rw [hempty]; rfl, by simp⟩

/-- **Everything below some found nodes can be made infinitely far away**, by induction on the
steps. -/
theorem exists_sinkWithin (steps : Nat) (visited : List NodeId) {queue beside : List NodeId}
    (h : gen.Climbing run [] 0)
    (hvalue : ∀ {i d}, gen.distance i = .ok d → d = .unknown ∨ d = .infinite)
    (hqueue : ∀ i ∈ queue, ∃ d, run.depth? i = some d)
    (hbeside : ∀ i ∈ beside, ∃ n, gen.graph.get? i = some n) :
    ∃ gen' beside', gen.sinkWithin steps visited queue beside = .ok (gen', beside') ∧
      gen'.Climbing run [] 0 ∧ DistanceWrites gen gen' ∧
      ∀ i ∈ beside', ∃ n, gen'.graph.get? i = some n := by
  induction steps generalizing gen visited queue beside with
  | zero => exact ⟨gen, beside, rfl, h, .refl gen, hbeside⟩
  | succ steps ih =>
    cases queue with
    | nil => exact ⟨gen, beside, rfl, h, .refl gen, hbeside⟩
    | cons id rest =>
      obtain ⟨⟨d, hd⟩, hrest⟩ := List.forall_mem_cons.1 hqueue
      unfold sinkWithin
      split
      · exact ih visited h hvalue hrest hbeside
      · obtain ⟨⟨n, hn⟩, -⟩ := h.survey.judged hd
        obtain ⟨known, hknown⟩ := h.furnished.exists_distance hn
        simp only [bind_eq_ok]
        rcases hvalue hknown with rfl | rfl
        · have hplain : n.isTarget = false := by
            by_contra htarget
            have hmem := h.survey.mem_reached
              (SearchRun.Survey.finished_of_exhausted hlevels hwaitlist hd) hn (by simpa using htarget)
            simp [hreached] at hmem
          have hcovered : ∀ i ∈ n.covered, ∃ m, gen.graph.get? i = some m := by
            intro i hi
            obtain ⟨a, ha, -⟩ := h.wellFormed.covered_link hn hi
            exact ⟨a, ha⟩
          obtain ⟨waiting, hwaiting, hsub⟩ := h.furnished.exists_unsettled hcovered
          obtain ⟨mid, hset, hmid⟩ := h.exists_setDistance hn (.inr hknown)
            (rfl : Distance.infinite.isKnown = true) (by simp [hplain]) ⟨by simp, by simp⟩
          have hwrites : DistanceWrites gen mid := .of_setDistance hset
          rw [← hwrites.graph] at hn
          obtain ⟨below, hbelow, hfound⟩ :=
            exists_openBelow hlevels hreached hwaitlist hmid hd hn
          have hvalue' : ∀ {i e}, mid.distance i = .ok e → e = .unknown ∨ e = .infinite := by
            intro i e he
            rcases distance_of_setDistance hset he with ⟨-, rfl⟩ | hold
            · exact .inr rfl
            · exact hvalue hold
          have hqueue' : ∀ i ∈ rest ++ below, ∃ d, run.depth? i = some d := by
            intro i hi
            rcases List.mem_append.1 hi with hi | hi
            · exact hrest i hi
            · exact hfound i hi
          have hbeside' : ∀ i ∈ beside ++ waiting, ∃ m, mid.graph.get? i = some m := by
            intro i hi
            rw [hwrites.graph]
            rcases List.mem_append.1 hi with hi | hi
            · exact hbeside i hi
            · exact hcovered i (hsub i hi)
          obtain ⟨gen', beside', hrun, h', hwrites', hall⟩ :=
            ih (id :: visited) hmid hvalue' hqueue' hbeside'
          refine ⟨gen', beside', ⟨.unknown, hknown, ?_⟩, h', hwrites.trans hwrites', hall⟩
          rw [if_neg (by simp [Distance.isKnown])]
          simp only [bind_eq_ok, Graph.node_eq_ok, demand_eq_ok]
          exact ⟨n, hwrites.graph ▸ hn, (), by simp [hplain], waiting, hwaiting, mid, hset, below, hbelow,
            hrun⟩
        · obtain ⟨gen', beside', hrun, h', hwrites, hall⟩ :=
            ih (id :: visited) h hvalue hrest hbeside
          refine ⟨gen', beside', ⟨.infinite, hknown, ?_⟩, h', hwrites, hall⟩
          rw [if_pos (show Distance.infinite.isKnown = true from rfl)]
          simp only [bind_eq_ok, demand_eq_ok]
          exact ⟨(), rfl, hrun⟩

end

namespace Settleable

/-- **A guided search that has reached nothing is settled**: its start nodes are infinitely far
away. -/
theorem exists_settleGuided_of_exhausted (h : gen.Settleable) (hsurvey : run.Survey false none gen)
    (hlevels : run.Levelled pace) (hopen : ∀ {i d}, gen.distance i = .ok d → d = .unknown)
    (hlimit : gen.graph.expandedIds.length ≤ Distance.limit) (hreached : run.reached = [])
    (hwaitlist : run.waitlist = []) :
    ∃ gen', gen.settleGuided run = .ok gen' ∧ gen'.Settleable ∧ DistanceWrites gen gen' ∧
      gen'.Tells run.start none := by
  have hclimbing : gen.Climbing run [] 0 := h.climbing hsurvey hopen hlimit (Nat.zero_le _) (by simp)
  obtain ⟨mid, beside, hsink, hmid, hwrites, hbeside⟩ :=
    exists_sinkWithin hlevels hreached hwaitlist (run.start.length + gen.graph.linkCount) [] hclimbing
      (fun hd => .inl (hopen hd)) (fun i hi => ⟨0, hsurvey.start i hi⟩) (List.forall_mem_nil _)
  have hinfinite := (sinkWithin_settles (fun i (hi : gen.heuristic i = .ok .infinite) => hi)
    (by rw [Graph.linkCount_eq]; rfl) (by simp) hsink).2
  obtain ⟨gen', hderive, h', hwrites'⟩ := hmid.exists_deriveFrom hbeside
  refine ⟨gen', ?_, h'.toSettleable, hwrites.trans hwrites', fun s hs =>
    hwrites'.distance_eq_ok (hinfinite s hs) rfl⟩
  rw [settleGuided, if_pos (by simp [hreached])]
  simp only [settleUnreachable, bind_eq_ok, Prod.exists]
  exact ⟨mid, beside, hsink, hderive⟩

/-! ## Exhaustive searches -/

/-- **An exhaustive search is settled**: the least finite distance of its start nodes is the length of
a shortest path. -/
theorem exists_settleExhaustive_tells (h : gen.Settleable)
    (hopen : ∀ {i d}, gen.distance i = .ok d → d = .unknown)
    (hreached : ∀ i ∈ run.reached, ∃ n, gen.graph.get? i = some n ∧ n.isTarget = true)
    {start : List NodeId} (hstart : ∀ s ∈ start, ∃ n, gen.graph.get? s = some n)
    {nearest : Option Nat} (hnearest : gen.graph.NearestTarget start nearest) :
    ∃ gen', gen.settleExhaustive run = .ok gen' ∧ gen'.Settleable ∧ DistanceWrites gen gen' ∧
      gen'.Tells start nearest := by
  have hzero : Distance.zero.Drops 0 .zero := .zero rfl
  have hbounded : gen.Bounded fun _ => .zero := by
    refine ⟨⟨h.wellFormed, fun _ => .zero rfl, fun _ _ => rfl⟩, h.registered, fun hk hknown => ?_⟩
    rcases h.heuristic hk with hh | hh
    · simp [hh, Distance.isKnown] at hknown
    · exact hh ▸ hzero
  obtain ⟨gen', hrun, hmeasured, -⟩ :=
    exists_settleExhaustive run hbounded (fun hd => .inl (hopen hd)) hreached
  have hwrites := settleExhaustive_writes hrun
  have hwf : gen'.graph.WellFormed := hwrites.graph ▸ h.wellFormed
  refine ⟨gen', hrun, h.of_distanceWrites hwrites fun hn htarget hd => ?_, hwrites, ?_⟩
  · rw [← hwrites.graph] at hn
    exact .inr (Except.ok.inj (hd.symm.trans (hmeasured.target hn htarget)))
  · rw [← hwrites.graph] at hstart hnearest
    cases nearest with
    | none =>
      intro s hs
      obtain ⟨n, hn⟩ := hstart s hs
      obtain ⟨d, hd, hknown⟩ := hmeasured.known hn
      cases d with
      | unknown => cases hknown
      | infinite => exact hd
      | finite v => exact absurd (hmeasured.reachesTarget hwf hd) (hnearest s hs v)
    | some nearest =>
      constructor
      · obtain ⟨s, hs, hreach⟩ := hnearest.1
        obtain ⟨n, hn⟩ := hstart s hs
        obtain ⟨d, hd, -⟩ := hmeasured.known hn
        obtain ⟨v, rfl, hle⟩ := (hmeasured.drops_zero hreach hd hwf).exists_finite
        have hge : nearest ≤ v := hnearest.2 ⟨s, hs, hmeasured.reachesTarget hwf hd⟩
        obtain rfl : v = nearest := by omega
        exact ⟨s, hs, hd⟩
      · rintro d ⟨s, hs, hd⟩
        exact hnearest.2 ⟨s, hs, hmeasured.reachesTarget hwf hd⟩

end Settleable

end GuidedReach.Generation
