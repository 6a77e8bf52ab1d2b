import GuidedReach.Proofs.Generation.Worklist
import GuidedReach.Proofs.SearchRun.Routes

/-!
# Settling a search without heuristics

After such a search distances are assigned up the search paths, and whatever follows is assigned as
well. No write is refused and no assertion fails, since every value fits the search paths that are
still to be walked: at a node of such a path it is at most the length of the rest. No value is less
than the first target that was reached allows.

* `Generation.Settleable` — heuristics are 0, and targets are at most settled at 0.
* `SearchRun.Fits`, `Generation.Climbing` — values fit the search paths that are left.
* `Generation.Climbing.exists_deriveFrom` — what follows fits as well.
* `Generation.Climbing.exists_climb` — a walk up a search path; the first one comes to a start node.
-/

namespace GuidedReach

variable {S P K : Type} {gen gen' : Generation S P K} {run : SearchRun} {goals : List NodeId}
variable {nearest : Nat} {goal id : NodeId} {n : Node S} {value : Distance}

namespace Generation

/-! ## Writing distances -/

/-- Every node has a search node, heuristics are 0, and so are the distances of targets, as far as they
are known. Covered nodes are open leaves. -/
structure Settleable (gen : Generation S P K) : Prop where
  wellFormed : gen.graph.WellFormed
  covered_leaf : ∀ {i n c}, gen.graph.get? i = some n → n.covering = some c →
    n.succs = [] ∧ n.isExpanded = false
  registered : ∀ {i n}, gen.graph.get? i = some n → ∃ k, gen.searchNodes.get? i = some k
  held : ∀ {i k}, gen.searchNodes.get? i = some k → ∃ n, gen.graph.get? i = some n
  heuristic : ∀ {i k}, gen.searchNodes.get? i = some k →
    k.heuristic = .unknown ∨ k.heuristic = .zero
  target : ∀ {i n d}, gen.graph.get? i = some n → n.isTarget = true → gen.distance i = .ok d →
    d = .unknown ∨ d = .zero

namespace Settleable

section

variable (h : gen.Settleable)

include h

theorem furnished : gen.Furnished := ⟨h.wellFormed, h.registered⟩

/-- What is written keeps the search nodes in order. -/
theorem of_distanceWrites (hwrites : DistanceWrites gen gen')
    (htarget : ∀ {i n d}, gen.graph.get? i = some n → n.isTarget = true → gen'.distance i = .ok d →
      d = .unknown ∨ d = .zero) : gen'.Settleable where
  wellFormed := hwrites.graph ▸ h.wellFormed
  covered_leaf := by
    rw [hwrites.graph]
    exact h.covered_leaf
  registered := by
    intro i n hn
    obtain ⟨k, hk⟩ := h.registered (hwrites.graph ▸ hn)
    rcases hwrites.searchNode i with ⟨hnone, -⟩ | ⟨_, d, -, hk', -⟩
    · simp [hk] at hnone
    · exact ⟨_, hk'⟩
  held := by
    intro i k hk
    rw [hwrites.graph]
    rcases hwrites.searchNode i with ⟨-, hnone⟩ | ⟨l, d, hl, -⟩
    · simp [hk] at hnone
    · exact h.held hl
  heuristic := by
    intro i k hk
    rcases hwrites.searchNode i with ⟨-, hnone⟩ | ⟨l, d, hl, hl', -⟩
    · simp [hk] at hnone
    · obtain rfl := Option.some.inj (hk.symm.trans hl')
      show l.heuristic = .unknown ∨ l.heuristic = .zero
      exact h.heuristic hl
  target := by
    rw [hwrites.graph]
    exact htarget

/-- **An open distance may be written**, at a target only 0. -/
theorem exists_setDistance (hn : gen.graph.get? id = some n)
    (hopen : gen.distance id = .ok value ∨ gen.distance id = .ok .unknown)
    (hvalue : value.isKnown = true) (htarget : n.isTarget = true → value = .zero) :
    ∃ gen', gen.setDistance id value = .ok gen' ∧ gen'.Settleable := by
  obtain ⟨k, hk, hold⟩ : ∃ k, gen.searchNodes.get? id = some k ∧
      (k.distance = value ∨ k.distance = .unknown) := by
    rcases hopen with hopen | hopen
    · obtain ⟨k, hk, hsame⟩ := distance_eq_ok.1 hopen
      exact ⟨k, hk, .inl hsame⟩
    · obtain ⟨k, hk, hunknown⟩ := distance_eq_ok.1 hopen
      exact ⟨k, hk, .inr hunknown⟩
  have hbelow : k.heuristic.isKnown = true → k.heuristic.notAbove value = true := by
    intro hknown
    rcases h.heuristic hk with hh | hh
    · simp [hh, Distance.isKnown] at hknown
    · rw [hh]
      exact (Distance.drops_zero_iff rfl hvalue).1 (.zero hvalue)
  obtain ⟨gen', hset⟩ := Generation.exists_setDistance hn hk hvalue
    (hold.imp_right fun hunknown => ⟨hunknown, htarget, hbelow⟩)
  refine ⟨gen', hset, h.of_distanceWrites (.of_setDistance hset) ?_⟩
  intro i m d hm hm' hd
  rcases distance_of_setDistance hset hd with ⟨rfl, rfl⟩ | hold
  · obtain rfl := Option.some.inj (hn.symm.trans hm)
    exact .inr (htarget hm')
  · exact h.target hm hm' hold

/-- Values fit their nodes. -/
theorem checkFits {k : SearchNode} (hn : gen.graph.get? id = some n)
    (hk : gen.searchNodes.get? id = some k) : k.checkFits n.isTarget = .ok () := by
  refine SearchNode.exists_checkFits ?_ ?_ ?_
  · intro _ hknown
    refine (h.heuristic hk).resolve_left fun hunknown => ?_
    simp [hunknown, Distance.isKnown] at hknown
  · intro htarget hknown
    refine (h.target hn htarget (distance_eq_ok.2 ⟨k, hk, rfl⟩)).resolve_left fun hunknown => ?_
    simp [hunknown, Distance.isKnown] at hknown
  · intro hknown hknown'
    rcases h.heuristic hk with hh | hh
    · simp [hh, Distance.isKnown] at hknown
    · rw [hh]
      exact (Distance.drops_zero_iff rfl hknown').1 (.zero hknown')

end

end Settleable

end Generation

/-! ## Values that fit the search paths -/

/-- A value at a node is not too small for the first target that was reached, and not too large for
the search paths up from some goals. -/
def SearchRun.Fits (run : SearchRun) (goals : List NodeId) (nearest : Nat) (id : NodeId)
    (value : Distance) : Prop :=
  (∀ v d, value = .finite v → run.depth? id = some d → nearest ≤ v + d) ∧
    ∀ goal ∈ goals, run.OnPath goal id → ∀ d far, run.depth? id = some d →
      run.depth? goal = some far → ∃ v, value = .finite v ∧ v + d ≤ far

namespace Generation

/-- Distances are assigned up the search paths from some targets, in a generation that a search
without heuristics has left behind. -/
structure Climbing (run : SearchRun) (goals : List NodeId) (nearest : Nat) (gen : Generation S P K) :
    Prop extends gen.Settleable where
  survey : run.Survey false none gen
  goals_reached : ∀ goal ∈ goals, goal ∈ run.reached ∧
    ∀ far, run.depth? goal = some far → nearest ≤ far
  near : nearest ≤ Distance.limit
  shallow : ∀ {i d}, run.depth? i = some d → d ≤ Distance.limit
  fits : ∀ {i d}, gen.distance i = .ok d → d.isKnown = true → run.Fits goals nearest i d

/-- A child has a finite distance that gives its parent a smaller one than `v`. -/
def shortens (gen : Generation S P K) (v : Nat) (child : NodeId) : Bool :=
  match gen.distance child with
  | .ok (.finite u) => min (u + 1) Distance.limit < v
  | _ => false

/-- The walk up a search path has come to a node, and nothing above it is settled yet. -/
structure Unwalked (run : SearchRun) (goal id : NodeId) (v steps : Nat) (gen : Generation S P K) :
    Prop where
  rooted : run.Rooted id
  steps : run.rank gen.graph id < steps
  goal : id = goal → gen.distance id = .ok (.finite v)
  settled : ∀ {j m e}, gen.graph.get? j = some m → m.isTarget = false → gen.distance j = .ok e →
    e.isKnown = true → run.rank gen.graph id < run.rank gen.graph j

namespace Climbing

section

variable (h : gen.Climbing run goals nearest)

include h

/-- Fewer goals are left. -/
theorem mono {goals' : List NodeId} (hsub : ∀ goal ∈ goals', goal ∈ goals) :
    gen.Climbing run goals' nearest where
  toSettleable := h.toSettleable
  survey := h.survey
  goals_reached goal hgoal := h.goals_reached goal (hsub goal hgoal)
  near := h.near
  shallow := h.shallow
  fits hd hknown := ⟨(h.fits hd hknown).1, fun goal hgoal => (h.fits hd hknown).2 goal (hsub goal hgoal)⟩

/-- **A value that fits may be written.** -/
theorem exists_setDistance (hn : gen.graph.get? id = some n)
    (hopen : gen.distance id = .ok value ∨ gen.distance id = .ok .unknown)
    (hvalue : value.isKnown = true) (htarget : n.isTarget = true → value = .zero)
    (hfits : run.Fits goals nearest id value) :
    ∃ gen', gen.setDistance id value = .ok gen' ∧ gen'.Climbing run goals nearest := by
  obtain ⟨gen', hset, hsettleable⟩ := h.toSettleable.exists_setDistance hn hopen hvalue htarget
  have hwrites : DistanceWrites gen gen' := .of_setDistance hset
  refine ⟨gen', hset, hsettleable, h.survey.keeps (.of_distanceWrites hwrites) hwrites.graph,
    h.goals_reached, h.near, h.shallow, fun hd hknown => ?_⟩
  rcases distance_of_setDistance hset hd with ⟨rfl, rfl⟩ | hold
  · exact hfits
  · exact h.fits hold hknown

/-- A node above a goal has an edge to a node of the search path. -/
theorem exists_below (hgoal : goal ∈ goals) (hpath : run.OnPath goal id)
    (hn : gen.graph.get? id = some n) (hplain : n.isTarget = false) {d : Nat}
    (hd : run.depth? id = some d) :
    ∃ c w, run.OnPath goal c ∧ gen.graph.Edge id c w ∧ run.depth? c = some (d + w) := by
  have hne : id ≠ goal := by
    rintro rfl
    obtain ⟨-, m, hm, htarget⟩ := h.survey.isTarget_of_reached (h.goals_reached id hgoal).1
    obtain rfl := Option.some.inj (hn.symm.trans hm)
    simp [hplain] at htarget
  obtain ⟨c, hc, hparent⟩ := hpath.exists_below hne
  obtain ⟨-, -, w, d', hedge, hd', hdepth⟩ := h.survey.parent hparent
  obtain rfl := Option.some.inj (hd.symm.trans hd')
  exact ⟨c, w, hc, hedge, hdepth⟩

/-- Where an edge of a covered or an expanded node leads to. -/
theorem edge_cases {c w : Nat} (hn : gen.graph.get? id = some n) (hedge : gen.graph.Edge id c w) :
    (n.covering = some c ∧ w = 0) ∨ n.covering = none ∧ c ∈ n.succs ∧ w = 1 := by
  cases hedge with
  | covering ha hcovering =>
    obtain rfl := Option.some.inj (hn.symm.trans ha)
    exact .inl ⟨hcovering, rfl⟩
  | tree hc hparent =>
    obtain ⟨m, hm, hmem⟩ := h.wellFormed.exists_parent hc hparent
    obtain rfl := Option.some.inj (hn.symm.trans hm)
    refine .inr ⟨?_, hmem, rfl⟩
    cases hcovering : n.covering with
    | none => rfl
    | some b => simp [(h.covered_leaf hn hcovering).1] at hmem

/-- **What follows fits**, since what it follows from does. -/
theorem fits_derived (hn : gen.graph.get? id = some n) (hplain : n.isTarget = false)
    (hd : gen.derived id n = .ok value) (hknown : value.isKnown = true) :
    run.Fits goals nearest id value := by
  constructor
  · rintro v d rfl hdepth
    rcases continues_of_derived h.wellFormed hn hd hknown with hinfinite | hcontinues
    · cases hinfinite
    · cases hcontinues with
      | covering ha hcovering hvalue =>
        obtain ⟨e, hle, he⟩ := h.survey.edge (.covering ha hcovering) hdepth
        have := (h.fits hvalue hknown).1 v e rfl he
        omega
      | @tree c m below _ hc hparent hvalue hsucc =>
        obtain ⟨e, hle, he⟩ := h.survey.edge (.tree hc hparent) hdepth
        cases below with
        | unknown => cases hsucc
        | infinite => cases hsucc
        | finite u =>
          have hnear := (h.fits hvalue rfl).1 u e rfl he
          have hsum : min (u + 1) Distance.limit = v := Distance.finite.inj (Except.ok.inj hsucc)
          have := h.near
          omega
  · intro goal hgoal hpath d far hdepth hfar
    obtain ⟨c, w, hc, hedge, hdepth'⟩ := h.exists_below hgoal hpath hn hplain hdepth
    rcases h.edge_cases hn hedge with ⟨hcovering, rfl⟩ | ⟨hfree, hmem, rfl⟩
    · have hvalue : gen.distance c = .ok value := by
        rw [derived, hcovering] at hd
        exact hd
      exact (h.fits hvalue hknown).2 goal hgoal hc _ far hdepth' hfar
    · have hbranch : n.isLeaf = false := by
        cases hleaf : n.isLeaf with
        | false => rfl
        | true =>
          rw [Node.isLeaf, List.isEmpty_iff] at hleaf
          simp [hleaf] at hmem
      rw [derived, hfree] at hd
      simp only [hbranch, Bool.false_eq_true, if_false] at hd
      split at hd
      · cases hd
        cases hknown
      · simp only [bind_eq_ok] at hd
        obtain ⟨below, hbelow, hd⟩ := hd
        split at hd
        · rename_i hall
          obtain ⟨e, hce, hvalue⟩ := (exists_of_mapM_ok hbelow).1 c hmem
          obtain ⟨v, rfl, hle⟩ := (h.fits hvalue (List.all_eq_true.1 hall e hce)).2 goal hgoal hc _
            far hdepth' hfar
          have hnearest := Distance.nearest_notAbove hce
          cases hleast : Distance.nearest below with
          | unknown => simp [hleast, Distance.notAbove] at hnearest
          | infinite => simp [hleast, Distance.notAbove] at hnearest
          | finite u =>
            rw [hleast] at hd hnearest
            have hsum : Distance.finite (min (u + 1) Distance.limit) = value := Except.ok.inj hd
            have hu : u ≤ v := by simpa [Distance.notAbove] using hnearest
            exact ⟨_, hsum.symm, by omega⟩
        · cases hd
          cases hknown

end

/-- **Deriving what follows meets no fault**, since what follows fits. -/
theorem exists_deriveFrom {ids : List NodeId} (h : gen.Climbing run goals nearest)
    (hids : ∀ i ∈ ids, ∃ n, gen.graph.get? i = some n) :
    ∃ gen', gen.deriveFrom ids = .ok gen' ∧ gen'.Climbing run goals nearest ∧
      DistanceWrites gen gen' := by
  obtain ⟨gen', hrun, hwrites, h'⟩ := h.furnished.exists_deriveFrom
    (motive := fun g _ => g.Climbing run goals nearest) (fun hg _ => hg)
    (fun _ hg hn hplain hopen hd hknown => by
      obtain ⟨mid, hset, hmid⟩ := hg.exists_setDistance hn (.inr hopen) hknown (by simp [hplain])
        (hg.fits_derived hn hplain hd hknown)
      exact ⟨mid, hset, fun _ _ => hmid⟩) hids h
  exact ⟨gen', hrun, h', hwrites⟩

/-! ## Walking up a search path -/

section

variable (h : gen.Climbing run goals nearest)

include h

/-- Whether a child gives a node a shorter distance can be told. It does not, if the distance is what
the first target allows. -/
theorem exists_hasShorterPath (hn : gen.graph.get? id = some n) {v : Nat} :
    ∃ shorter, gen.hasShorterPath n (.finite v) = .ok shorter ∧
      ∀ d, run.depth? id = some d → v + d = nearest → shorter = false := by
  unfold hasShorterPath
  split
  · exact ⟨false, rfl, fun _ _ _ => rfl⟩
  · have hall : ∀ c ∈ n.succs, (do
        let below ← gen.distance c
        if below.isFinite then (← below.succ).lt (.finite v) else return false : Except Fault Bool) =
          .ok (gen.shortens v c) := by
      intro c hc
      obtain ⟨b, hb, -⟩ := h.wellFormed.succ_link hn hc
      obtain ⟨d, hd⟩ := h.furnished.exists_distance hb
      cases d with
      | unknown => simp [shortens, hd, Distance.isFinite, bind, Except.bind, pure, Except.pure]
      | infinite => simp [shortens, hd, Distance.isFinite, bind, Except.bind, pure, Except.pure]
      | finite u =>
        have hlt : (Distance.finite (min (u + 1) Distance.limit)).lt (.finite v) =
            .ok (decide (min (u + 1) Distance.limit < v)) := by
          rw [Distance.lt_eq_ok rfl rfl, Distance.notAbove, ← decide_not]
          simp only [Nat.not_le]
        simp only [hd, bind, Except.bind, Distance.isFinite, if_true, Distance.succ, Distance.add,
          hlt, shortens]
    refine ⟨_, anyM_of_forall hall, fun d hd hsum => ?_⟩
    rw [List.any_eq_false]
    intro c hc hshort
    obtain ⟨b, hb, hparent⟩ := h.wellFormed.succ_link hn hc
    simp only [shortens] at hshort
    split at hshort
    · rename_i u hu
      obtain ⟨e, hle, he⟩ := h.survey.edge (.tree hb hparent) hd
      have hnear := (h.fits hu rfl).1 u e rfl he
      have := h.near
      have hlt : min (u + 1) Distance.limit < v := by simpa using hshort
      omega
    · cases hshort

/-- A node with an edge to a node of the search path is no target. -/
theorem isTarget_of_parent {c : NodeId} (hparent : run.parent? c = some id)
    (hn : gen.graph.get? id = some n) : n.isTarget = false := by
  obtain ⟨-, -, w, d, hedge, -⟩ := h.survey.parent hparent
  obtain ⟨m, hm, hvisited⟩ := h.survey.visited_of_edge h.wellFormed hedge
  obtain rfl := Option.some.inj (hn.symm.trans hm)
  simpa using hvisited.2.2

variable {v d far : Nat}

/-- A node above the goal of a search path: the walk ends there, or the distance of the node is
written. -/
theorem exists_assignOnPath (hgoal : goal ∈ goals) (hpath : run.OnPath goal id) (hne : id ≠ goal)
    (hd : run.depth? id = some d) (hfar : run.depth? goal = some far) (hsum : v + d = far)
    (hsorted : ∀ goal' ∈ goals, ∀ far', run.depth? goal' = some far' → far ≤ far') :
    ∃ result, gen.assignOnPath goal id (.finite v) = .ok result ∧
      (∀ mid, result = some mid → mid.Climbing run goals nearest ∧
        gen.setDistance id (.finite v) = .ok mid) ∧
      (gen.distance id = .ok .unknown → far = nearest → result.isSome = true) := by
  obtain ⟨⟨n, hn⟩, -⟩ := h.survey.judged hd
  obtain ⟨c, hc, hparent⟩ := hpath.exists_below hne
  have hplain := h.isTarget_of_parent hparent hn
  obtain ⟨e, he⟩ := h.furnished.exists_distance hn
  obtain ⟨shorter, hshorter, hexact⟩ := h.exists_hasShorterPath hn (v := v)
  simp only [assignOnPath, bind_eq_ok, Graph.node_eq_ok, demand_eq_ok]
  by_cases hknown : e.isKnown = true
  · obtain ⟨u, rfl, hle⟩ := (h.fits he hknown).2 goal hgoal hpath d far hd hfar
    refine ⟨none, ⟨n, hn, (), by simp [hplain], .finite u, he, ?_⟩, by simp, fun hopen => ?_⟩
    · rw [if_pos hknown]
      simp only [bind_eq_ok, demand_eq_ok]
      refine ⟨true, ?_, (), rfl, rfl⟩
      rw [Distance.le_eq_ok rfl rfl]
      simp only [Distance.notAbove, Except.ok.injEq, decide_eq_true_eq]
      omega
    · rw [he] at hopen
      cases hopen
  · obtain rfl := Distance.eq_unknown_of_not_isKnown (by simpa using hknown)
    cases hshort : shorter with
    | true =>
      refine ⟨none, ⟨n, hn, (), by simp [hplain], .unknown, he, ?_⟩, by simp, fun _ hnear => ?_⟩
      · rw [if_neg hknown]
        simp only [bind_eq_ok]
        exact ⟨true, hshort ▸ hshorter, rfl⟩
      · have := hexact d hd (hsum.trans hnear)
        simp [hshort] at this
    | false =>
      have hfits : run.Fits goals nearest id (.finite v) := by
        constructor
        · rintro v' d' ⟨⟩ hd'
          obtain rfl := Option.some.inj (hd.symm.trans hd')
          exact hsum ▸ (h.goals_reached goal hgoal).2 far hfar
        · intro goal' hgoal' hpath' d' far' hd' hfar'
          obtain rfl := Option.some.inj (hd.symm.trans hd')
          exact ⟨v, rfl, hsum ▸ hsorted goal' hgoal' far' hfar'⟩
      obtain ⟨mid, hset, hmid⟩ := h.exists_setDistance hn (.inr he) rfl (by simp [hplain]) hfits
      refine ⟨some mid, ⟨n, hn, (), by simp [hplain], .unknown, he, ?_⟩, ?_, fun _ _ => rfl⟩
      · rw [if_neg hknown]
        simp only [bind_eq_ok]
        refine ⟨false, hshort ▸ hshorter, ?_⟩
        rw [if_neg (by simp), bind_eq_ok]
        exact ⟨mid, hset, rfl⟩
      · rintro _ ⟨⟩
        exact ⟨hmid, hset⟩

end

/-- A step of a walk, and what comes after it. -/
theorem climb_succ {steps : Nat} {beside : List NodeId} :
    gen.climb run goal (steps + 1) id value beside =
      ((if id = goal then .ok (some gen) else gen.assignOnPath goal id value) >>= fun
        | none => .ok (gen, beside)
        | some gen => do
          let node ← gen.graph.node id
          let above := run.parent? id
          let beside := beside ++ offPath node above
          if run.start.contains id then return (gen, beside)
          let some parent := above | return (gen, beside)
          if (← gen.graph.node parent).covering = some id then
            demand (node.covered.contains parent) (.oneSidedCovering parent id)
            gen.climb run goal steps parent value beside
          else
            demand (node.parent == some parent) (.strayPathParent id)
            gen.climb run goal steps parent (← value.succ) beside) := by
  rw [climb]
  split
  · rfl
  · cases gen.assignOnPath goal id value with
    | error => rfl
    | ok result => cases result <;> rfl

section

variable (h : gen.Climbing run goals nearest)

include h

/-- Nodes beside a search path are in the graph. -/
theorem exists_of_mem_offPath (hn : gen.graph.get? id = some n) {above : Option NodeId} {i : NodeId}
    (hi : i ∈ offPath n above) : ∃ m, gen.graph.get? i = some m := by
  rw [offPath, List.mem_append, List.mem_filter, List.mem_filter] at hi
  rcases hi with ⟨hi, -⟩ | ⟨hi, -⟩
  · obtain ⟨a, ha, -⟩ := h.wellFormed.covered_link hn hi
    exact ⟨a, ha⟩
  · obtain ⟨m, hm, -⟩ := h.wellFormed.exists_parent hn (Option.mem_toList.1 hi)
    exact ⟨m, hm⟩

variable {v d far steps : Nat}

/-- At each node the walk ends, or goes on with the distance of the node: that of the goal is known,
and that of another node is written. -/
theorem exists_assigned (hgoal : goal ∈ goals) (hpath : run.OnPath goal id)
    (hd : run.depth? id = some d) (hfar : run.depth? goal = some far) (hsum : v + d = far)
    (hsorted : ∀ goal' ∈ goals, ∀ far', run.depth? goal' = some far' → far ≤ far') :
    ∃ result,
      (if id = goal then .ok (some gen) else gen.assignOnPath goal id (.finite v)) = .ok result ∧
      (∀ mid, result = some mid → mid.Climbing run goals nearest ∧ DistanceWrites gen mid ∧
        ∀ {j e}, mid.distance j = .ok e → gen.distance j = .ok e ∨ j = id) ∧
      (far = nearest → gen.Unwalked run goal id v steps →
        ∃ mid, result = some mid ∧ mid.distance id = .ok (.finite v)) := by
  by_cases heq : id = goal
  · refine ⟨some gen, if_pos heq, ?_, fun _ hwalk => ⟨gen, rfl, hwalk.goal heq⟩⟩
    rintro _ ⟨⟩
    exact ⟨h, .refl gen, fun he => .inl he⟩
  · obtain ⟨result, hresult, hmid, hopen⟩ :=
      h.exists_assignOnPath hgoal hpath heq hd hfar hsum hsorted
    refine ⟨result, by rw [if_neg heq]; exact hresult, fun mid hsome => ?_, fun hnear hwalk => ?_⟩
    · obtain ⟨hclimbing, hset⟩ := hmid mid hsome
      exact ⟨hclimbing, .of_setDistance hset,
        fun he => (distance_of_setDistance hset he).symm.imp_right (·.1)⟩
    · obtain ⟨⟨n, hn⟩, -⟩ := h.survey.judged hd
      obtain ⟨c, -, hparent⟩ := hpath.exists_below heq
      obtain ⟨e, he⟩ := h.furnished.exists_distance hn
      have hunknown : e.isKnown = false := by
        by_contra hknown
        exact absurd (hwalk.settled hn (h.isTarget_of_parent hparent hn) he (by simpa using hknown))
          (Nat.lt_irrefl _)
      obtain rfl := Distance.eq_unknown_of_not_isKnown hunknown
      obtain ⟨mid, hsome⟩ := Option.isSome_iff_exists.1 (hopen he hnear)
      exact ⟨mid, hsome, (distance_self_of_setDistance (hmid mid hsome).2).1⟩

/-- Once a node has its distance, nothing above its search parent is settled. -/
theorem unwalked_parent {before : Generation S P K} {parent : NodeId} {v' : Nat} (hgoal : goal ∈ goals)
    (hwrites : DistanceWrites before gen)
    (hcases : ∀ {j e}, gen.distance j = .ok e → before.distance j = .ok e ∨ j = id)
    (hparent : run.parent? id = some parent) (hwalk : before.Unwalked run goal id v (steps + 1)) :
    gen.Unwalked run goal parent v' steps := by
  obtain ⟨-, hroot, w, d', hedge, hd', -⟩ := h.survey.parent hparent
  obtain ⟨⟨m, hm⟩, -⟩ := h.survey.judged hd'
  have hlt := h.survey.rank_lt h.wellFormed hparent
  have hsteps := hwalk.steps
  rw [← hwrites.graph] at hsteps
  refine ⟨hroot, by omega, ?_, fun {j m' e} hj hj' he hknown => ?_⟩
  · -- the parent has an edge to a node, so it is no target
    rintro rfl
    obtain ⟨-, a, ha, htarget⟩ := h.survey.isTarget_of_reached (h.goals_reached parent hgoal).1
    obtain rfl := Option.some.inj (hm.symm.trans ha)
    simp [h.isTarget_of_parent hparent hm] at htarget
  · rcases hcases he with hold | rfl
    · have hsettled := hwalk.settled (hwrites.graph ▸ hj) hj' hold hknown
      rw [← hwrites.graph] at hsettled
      omega
    · exact hlt

/-- The walk goes on from the search parent of a node, with the weight of the edge between them. -/
theorem climb_parent {beside : List NodeId} {parent w : Nat} {m : Node S}
    (hn : gen.graph.get? id = some n) (hm : gen.graph.get? parent = some m)
    (hedge : gen.graph.Edge parent id w) (hlimit : v + w ≤ Distance.limit) :
    (do
      if (← gen.graph.node parent).covering = some id then
        demand (n.covered.contains parent) (.oneSidedCovering parent id)
        gen.climb run goal steps parent (.finite v) beside
      else
        demand (n.parent == some parent) (.strayPathParent id)
        gen.climb run goal steps parent (← (Distance.finite v).succ) beside) =
      gen.climb run goal steps parent (.finite (v + w)) beside := by
  rw [Graph.node_eq_ok.2 hm, ok_bind]
  rcases h.edge_cases hm hedge with ⟨hcovering, rfl⟩ | ⟨hfree, hchild, rfl⟩
  · obtain ⟨-, b, hb, -, hcount⟩ := h.wellFormed.covering_link hm hcovering
    obtain rfl := Option.some.inj (hn.symm.trans hb)
    have hlisted : demand (n.covered.contains parent) (.oneSidedCovering parent id) = .ok () := by
      rw [demand_eq_ok, List.contains_iff_mem]
      exact List.count_pos_iff.1 (by omega)
    rw [if_pos hcovering, hlisted, ok_bind, Nat.add_zero]
  · obtain ⟨b, hb, hlink⟩ := h.wellFormed.succ_link hm hchild
    obtain rfl := Option.some.inj (hn.symm.trans hb)
    have hup : demand (n.parent == some parent) (.strayPathParent id) = .ok () :=
      demand_eq_ok.2 (by simp [hlink])
    have hsucc : (Distance.finite v).succ = .ok (.finite (v + 1)) := by
      show Except.ok (Distance.finite (min (v + 1) Distance.limit)) = _
      rw [Nat.min_eq_left hlimit]
    rw [if_neg (by simp [hfree]), hup, ok_bind, hsucc, ok_bind]

end

/-- **Walking up a search path meets no fault**, and the walk from the first target comes to a start
node. The induction is on the steps. -/
theorem exists_climb {d far : Nat} {beside : List NodeId} (h : gen.Climbing run goals nearest)
    (steps v : Nat)
    (hgoal : goal ∈ goals) (hpath : run.OnPath goal id) (hd : run.depth? id = some d)
    (hfar : run.depth? goal = some far) (hsum : v + d = far)
    (hsorted : ∀ goal' ∈ goals, ∀ far', run.depth? goal' = some far' → far ≤ far')
    (hbeside : ∀ i ∈ beside, ∃ n, gen.graph.get? i = some n) :
    ∃ gen' beside', gen.climb run goal steps id (.finite v) beside = .ok (gen', beside') ∧
      gen'.Climbing run goals nearest ∧ DistanceWrites gen gen' ∧
      (∀ i ∈ beside', ∃ n, gen'.graph.get? i = some n) ∧
      (far = nearest → gen.Unwalked run goal id v steps →
        ∃ s ∈ run.start, gen'.distance s = .ok (.finite nearest)) := by
  induction steps generalizing gen id v d beside with
  | zero =>
    exact ⟨gen, beside, rfl, h, .refl gen, hbeside, fun _ hwalk => absurd hwalk.steps (Nat.not_lt_zero _)⟩
  | succ steps ih =>
    obtain ⟨result, hresult, hmid, hopen⟩ := h.exists_assigned hgoal hpath hd hfar hsum hsorted
    rw [climb_succ, hresult, ok_bind]
    cases result with
    | none =>
      refine ⟨gen, beside, rfl, h, .refl gen, hbeside, fun hnear hwalk => ?_⟩
      obtain ⟨mid, hsome, -⟩ := hopen hnear hwalk
      cases hsome
    | some mid =>
      obtain ⟨hclimbing, hwrites, hcases⟩ := hmid mid rfl
      obtain ⟨⟨n, hn⟩, -⟩ := hclimbing.survey.judged hd
      have hoff : ∀ i ∈ beside ++ offPath n (run.parent? id), ∃ m, mid.graph.get? i = some m := by
        intro i hi
        rcases List.mem_append.1 hi with hi | hi
        · exact hwrites.graph ▸ hbeside i hi
        · exact hclimbing.exists_of_mem_offPath hn hi
      dsimp only
      rw [Graph.node_eq_ok.2 hn, ok_bind]
      split
      · -- the walk has come to a start node
        rename_i hstart
        have hmem : id ∈ run.start := by simpa using hstart
        refine ⟨mid, _, rfl, hclimbing, hwrites, hoff, fun hnear hwalk => ?_⟩
        obtain ⟨mid', hsome, hvalue⟩ := hopen hnear hwalk
        cases hsome
        obtain rfl := Option.some.inj (hd.symm.trans (hclimbing.survey.start id hmem))
        exact ⟨id, hmem, by rw [hvalue, ← hnear, ← hsum, Nat.add_zero]⟩
      · rename_i hstart
        have hmem : id ∉ run.start := by simpa using hstart
        cases hparent : run.parent? id with
        | none =>
          refine ⟨mid, _, rfl, hclimbing, hwrites, hparent ▸ hoff, fun _ hwalk => ?_⟩
          rcases hwalk.rooted with hroot | ⟨p, hp⟩
          · exact absurd hroot hmem
          · rw [hparent] at hp
            cases hp
        | some parent =>
          obtain ⟨-, -, w, d', hedge, hd', hdepth⟩ := hclimbing.survey.parent hparent
          obtain rfl := Option.some.inj (hd.symm.trans hdepth)
          obtain ⟨⟨m, hm⟩, -⟩ := hclimbing.survey.judged hd'
          have hlimit := h.shallow hfar
          obtain ⟨gen', beside', hrun, h', hwrites', hbeside', hreaches⟩ :=
            ih hclimbing (v + w) (hpath.tail hparent) hd' (by omega) (hparent ▸ hoff)
          refine ⟨gen', beside', ?_, h', hwrites.trans hwrites', hbeside', fun hnear hwalk =>
            hreaches hnear (hclimbing.unwalked_parent hgoal hwrites hcases hparent hwalk)⟩
          exact (hclimbing.climb_parent hn hm hedge (by omega)).trans hrun

end Climbing

end Generation

end GuidedReach
