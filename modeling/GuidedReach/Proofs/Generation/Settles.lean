import GuidedReach.Proofs.Generation.Writes
import GuidedReach.Proofs.Graph.WellFormed
import GuidedReach.Settle.Guided

/-!
# What a guided search settles

Turning a finished search into distances only writes distances that were unknown. The one thing to
know about them here is where an infinite distance comes from: below such a node nothing is left but
nodes that are at an infinite distance as well, or that were refuted before.

* `Generation.Blocked` — nothing is left below a node.
* `Generation.Settles` — distances were written in that manner.
* `Generation.deriveWithin_induct`, `Generation.sinkWithin_induct` — what the loops preserve, write by
  write.
* `Generation.settleGuided_settles` — a guided search settles.
-/

namespace GuidedReach

/-! ## Known distances -/

namespace Distance

theorem eq_unknown_of_not_isKnown {d : Distance} (h : d.isKnown = false) : d = .unknown := by
  cases d <;> simp_all [isKnown]

theorem eq_infinite_of_notAbove {d : Distance} (hd : d.isKnown = true)
    (h : infinite.notAbove d = true) : d = .infinite := by
  cases d <;> simp_all [isKnown, notAbove]

theorem smaller_eq_infinite {a b : Distance} (ha : a.isKnown = true) (hb : b.isKnown = true) :
    a.smaller b = .infinite ↔ a = .infinite ∧ b = .infinite := by
  cases a <;> cases b <;> simp_all [smaller, notAbove, isKnown]
  split <;> simp

theorem isKnown_smaller {a b : Distance} (ha : a.isKnown = true) (hb : b.isKnown = true) :
    (a.smaller b).isKnown = true := by
  unfold smaller
  split <;> assumption

theorem foldl_smaller {ds : List Distance} {d : Distance} (hd : d.isKnown = true)
    (hds : ∀ e ∈ ds, e.isKnown = true) :
    (ds.foldl smaller d).isKnown = true ∧
      (ds.foldl smaller d = .infinite ↔ d = .infinite ∧ ∀ e ∈ ds, e = .infinite) := by
  induction ds generalizing d with
  | nil => simp [hd]
  | cons e ds ih =>
    obtain ⟨he, hds⟩ := List.forall_mem_cons.1 hds
    obtain ⟨hknown, hiff⟩ := ih (isKnown_smaller hd he) hds
    refine ⟨hknown, hiff.trans ?_⟩
    rw [smaller_eq_infinite hd he, List.forall_mem_cons, and_assoc]

/-- The least of some known distances is infinite when all of them are. -/
theorem nearest_eq_infinite {ds : List Distance} (hds : ∀ e ∈ ds, e.isKnown = true) :
    nearest ds = .infinite ↔ ∀ e ∈ ds, e = .infinite := by
  simpa [nearest] using (foldl_smaller (d := .infinite) rfl hds).2

theorem succ_eq_ok {d e : Distance} (h : d.succ = .ok e) :
    d.isKnown = true ∧ e.isKnown = true ∧ (e = .infinite ↔ d = .infinite) := by
  cases d <;> simp_all [succ, add, isKnown] <;> subst h <;> simp

end Distance

namespace Generation

variable {S P K : Type} {gen gen' gen'' : Generation S P K} {refuted : NodeId → Prop}

/-- Nothing is left below a node: it was refuted, or its coverer or all its successors are infinitely
far away, or it is empty. -/
def Blocked (refuted : NodeId → Prop) (gen : Generation S P K) (id : NodeId) (n : Node S) : Prop :=
  refuted id ∨ (∃ c, n.covering = some c ∧ gen.distance c = .ok .infinite) ∨
    n.covering = none ∧ (n.isFeasible = false ∨
      n.isExpanded = true ∧ ∀ c ∈ n.succs, gen.distance c = .ok .infinite)

/-- Only distances were written, and only unknown ones. -/
structure DistanceWrites (gen gen' : Generation S P K) : Prop where
  graph : gen'.graph = gen.graph
  prec : gen'.prec = gen.prec
  provider : gen'.provider = gen.provider
  attached : gen'.attached = gen.attached
  buckets : gen'.buckets = gen.buckets
  searchNode : ∀ i, (gen.searchNodes.get? i = none ∧ gen'.searchNodes.get? i = none) ∨
    ∃ k d, gen.searchNodes.get? i = some k ∧
      gen'.searchNodes.get? i = some { k with distance := d } ∧
      (d = k.distance ∨ k.distance = .unknown ∧ SearchNode.Admissible { k with distance := d })

namespace DistanceWrites

theorem refl (gen : Generation S P K) : DistanceWrites gen gen where
  graph := rfl
  prec := rfl
  provider := rfl
  attached := rfl
  buckets := rfl
  searchNode i := by
    cases h : gen.searchNodes.get? i with
    | none => exact .inl ⟨rfl, rfl⟩
    | some k => exact .inr ⟨k, k.distance, rfl, rfl, .inl rfl⟩

theorem trans (h : DistanceWrites gen gen') (h' : DistanceWrites gen' gen'') :
    DistanceWrites gen gen'' where
  graph := h'.graph.trans h.graph
  prec := h'.prec.trans h.prec
  provider := h'.provider.trans h.provider
  attached := h'.attached.trans h.attached
  buckets := h'.buckets.trans h.buckets
  searchNode i := by
    obtain ⟨hnone, hnone'⟩ | ⟨k, d, hk, hd, hold⟩ := h.searchNode i
    · obtain ⟨-, hnone''⟩ | ⟨k', -, hk', -⟩ := h'.searchNode i
      · exact .inl ⟨hnone, hnone''⟩
      · simp [hnone'] at hk'
    · obtain ⟨hnone, -⟩ | ⟨k', e, hk', he, hold'⟩ := h'.searchNode i
      · simp [hd] at hnone
      · obtain rfl := Option.some.inj (hd.symm.trans hk')
        refine .inr ⟨k, e, hk, he, ?_⟩
        obtain rfl | ⟨hunknown, hadm⟩ := hold'
        · exact hold
        · obtain rfl | ⟨hunknown', -⟩ := hold
          · exact .inr ⟨hunknown, hadm⟩
          · exact .inr ⟨hunknown', hadm⟩

theorem of_setDistance {id : NodeId} {d : Distance} (h : gen.setDistance id d = .ok gen') :
    DistanceWrites gen gen' := by
  obtain ⟨-, k, -, hk, -, hwrite, hold⟩ := setDistance_ok h
  refine ⟨hwrite.graph, hwrite.prec, hwrite.provider, attached_of_setDistance h,
    buckets_of_setDistance h, fun i => ?_⟩
  rw [hwrite.get?]
  rcases eq_or_ne i id with rfl | hne
  · exact .inr ⟨k, d, hk, by simp, hold.imp (fun h => h.symm) (fun h => h)⟩
  · rw [if_neg hne]
    cases hi : gen.searchNodes.get? i with
    | none => exact .inl ⟨rfl, rfl⟩
    | some k => exact .inr ⟨k, k.distance, rfl, rfl, .inl rfl⟩

/-- A known distance stays as it is. -/
theorem distance_eq_ok (h : DistanceWrites gen gen') {i : NodeId} {d : Distance}
    (hi : gen.distance i = .ok d) (hd : d.isKnown = true) : gen'.distance i = .ok d := by
  obtain ⟨k, hk, rfl⟩ := Generation.distance_eq_ok.1 hi
  obtain ⟨hnone, -⟩ | ⟨k', e, hk', he, hold⟩ := h.searchNode i
  · simp [hk] at hnone
  · obtain rfl := Option.some.inj (hk.symm.trans hk')
    refine Generation.distance_eq_ok.2 ⟨_, he, ?_⟩
    obtain rfl | ⟨hunknown, -⟩ := hold
    · rfl
    · simp [hunknown, Distance.isKnown] at hd

/-- The heuristics stay as they are. -/
theorem heuristic_eq_ok (h : DistanceWrites gen gen') {i : NodeId} {d : Distance} :
    gen'.heuristic i = .ok d ↔ gen.heuristic i = .ok d := by
  simp only [Generation.heuristic_eq_ok]
  obtain ⟨hnone, hnone'⟩ | ⟨k, e, hk, he, -⟩ := h.searchNode i
  · simp [hnone, hnone']
  · simp [hk, he]

end DistanceWrites

/-- A single write leaves the other distances alone. -/
theorem distance_of_setDistance {id i : NodeId} {d e : Distance}
    (h : gen.setDistance id d = .ok gen') (hi : gen'.distance i = .ok e) :
    i = id ∧ e = d ∨ gen.distance i = .ok e := by
  obtain ⟨-, k, -, hk, -, hwrite, -⟩ := setDistance_ok h
  obtain ⟨k', hk', rfl⟩ := distance_eq_ok.1 hi
  rw [hwrite.get?] at hk'
  split at hk'
  · obtain rfl := Option.some.inj hk'
    exact .inl ⟨by assumption, rfl⟩
  · exact .inr (distance_eq_ok.2 ⟨k', hk', rfl⟩)

theorem distance_self_of_setDistance {id : NodeId} {d : Distance}
    (h : gen.setDistance id d = .ok gen') : gen'.distance id = .ok d ∧ d.isKnown = true := by
  obtain ⟨-, k, -, -, hknown, hwrite, -⟩ := setDistance_ok h
  exact ⟨distance_eq_ok.2 ⟨_, by rw [hwrite.get?, if_pos rfl], rfl⟩, hknown⟩

/-- A node has a finite distance, or there is a target. -/
def SeesTarget (gen : Generation S P K) : Prop :=
  (∃ i d, gen.distance i = .ok (.finite d)) ∨ ∃ i n, gen.graph.get? i = some n ∧ n.isTarget = true

/-- Distances that were unknown were written, and infinite ones only where nothing is left below. -/
structure Settles (refuted : NodeId → Prop) (gen gen' : Generation S P K) : Prop extends
    DistanceWrites gen gen' where
  infinite : ∀ {i}, gen'.distance i = .ok .infinite → gen.distance i = .ok .infinite ∨
    ∃ n, gen.graph.get? i = some n ∧ n.isTarget = false ∧ Blocked refuted gen' i n
  finite : gen'.SeesTarget → gen.SeesTarget

theorem Blocked.mono (hknown : ∀ i, gen.distance i = .ok .infinite → gen'.distance i = .ok .infinite)
    {id : NodeId} {n : Node S} (h : Blocked refuted gen id n) : Blocked refuted gen' id n := by
  obtain h | ⟨c, hc, hd⟩ | ⟨hfree, h | ⟨hexp, hall⟩⟩ := h
  · exact .inl h
  · exact .inr (.inl ⟨c, hc, hknown c hd⟩)
  · exact .inr (.inr ⟨hfree, .inl h⟩)
  · exact .inr (.inr ⟨hfree, .inr ⟨hexp, fun c hc => hknown c (hall c hc)⟩⟩)

namespace Settles

theorem refl (refuted : NodeId → Prop) (gen : Generation S P K) : Settles refuted gen gen :=
  ⟨.refl gen, fun h => .inl h, id⟩

theorem blocked (h : Settles refuted gen gen') {id : NodeId} {n : Node S}
    (hn : Blocked refuted gen id n) : Blocked refuted gen' id n :=
  hn.mono fun _ hi => h.distance_eq_ok hi rfl

theorem trans (h : Settles refuted gen gen') (h' : Settles refuted gen' gen'') :
    Settles refuted gen gen'' := by
  refine ⟨h.toDistanceWrites.trans h'.toDistanceWrites, fun hi => ?_, fun ht => h.finite (h'.finite ht)⟩
  obtain hi | ⟨n, hn, hrest⟩ := h'.infinite hi
  · obtain hi | ⟨n, hn, htarget, hblocked⟩ := h.infinite hi
    · exact .inl hi
    · exact .inr ⟨n, hn, htarget, h'.blocked hblocked⟩
  · exact .inr ⟨n, h.graph ▸ hn, hrest⟩

/-- A single write, followed by what makes sure that an infinite distance was justified. -/
theorem of_setDistance {id : NodeId} {d : Distance} {n : Node S}
    (hset : gen.setDistance id d = .ok gen') (h : Settles refuted gen' gen'')
    (hn : gen.graph.get? id = some n)
    (hinfinite : d = .infinite → n.isTarget = false ∧ Blocked refuted gen'' id n)
    (hfinite : d.isFinite = true → gen.SeesTarget) : Settles refuted gen gen'' := by
  have hwrite := DistanceWrites.of_setDistance hset
  refine ⟨hwrite.trans h.toDistanceWrites, fun {i} hi => ?_, fun ht => ?_⟩
  · obtain hi | ⟨m, hm, hrest⟩ := h.infinite hi
    · obtain ⟨rfl, hd⟩ | hi := distance_of_setDistance hset hi
      · exact .inr ⟨n, hn, hinfinite hd.symm⟩
      · exact .inl hi
    · exact .inr ⟨m, hwrite.graph ▸ hm, hrest⟩
  · obtain ⟨j, e, hj⟩ | htarget := h.finite ht
    · obtain ⟨-, rfl⟩ | hj := distance_of_setDistance hset hj
      · exact hfinite rfl
      · exact .inl ⟨j, e, hj⟩
    · exact .inr (hwrite.graph ▸ htarget)

end Settles

/-! ## What follows from known distances -/

/-- What holds at the end of a derivation, and can be carried back over each of its writes, holds at its
beginning. -/
theorem deriveWithin_induct {motive : Generation S P K → Prop} {steps : Nat} {ids : List NodeId}
    (hwrite : ∀ {gen mid : Generation S P K} {id : NodeId} {n : Node S} {d : Distance},
      gen.graph.get? id = some n → n.isTarget = false → gen.derived id n = .ok d →
        d.isKnown = true → gen.setDistance id d = .ok mid → motive mid → motive gen)
    (h : gen.deriveWithin steps ids = .ok gen') (hend : motive gen') : motive gen := by
  induction steps generalizing gen ids with
  | zero =>
    obtain rfl : gen = gen' := by simpa [deriveWithin] using h
    exact hend
  | succ steps ih =>
    cases ids with
    | nil =>
      obtain rfl : gen = gen' := by simpa [deriveWithin] using h
      exact hend
    | cons id rest =>
      simp only [deriveWithin, bind_eq_ok, Graph.node_eq_ok] at h
      obtain ⟨n, hn, h⟩ := h
      split at h
      · exact ih h
      · rename_i htarget
        simp only [bind_eq_ok] at h
        obtain ⟨settled, -, h⟩ := h
        split at h
        · exact ih h
        · simp only [bind_eq_ok] at h
          obtain ⟨d, hd, h⟩ := h
          split at h
          · rename_i hknown
            simp only [bind_eq_ok] at h
            obtain ⟨mid, hset, waiting, -, h⟩ := h
            exact hwrite hn (by simpa using htarget) hd hknown hset (ih h)
          · exact ih h

section Derive

variable (hrefuted : ∀ i, gen.heuristic i = .ok .infinite → refuted i)

include hrefuted

/-- A distance that follows is infinite only where nothing is left below. -/
theorem derived_blocked {id : NodeId} {n : Node S} (h : gen.derived id n = .ok .infinite) :
    Blocked refuted gen id n := by
  unfold derived at h
  split at h
  · rename_i c hc
    exact .inr (.inl ⟨c, hc, h⟩)
  · rename_i hfree
    split at h
    · rename_i hleaf
      simp only [bind_eq_ok, pure_eq_ok] at h
      obtain ⟨dead, hdead, h⟩ := h
      have hdead : gen.isDeadEnd id n = .ok true := by
        cases dead <;> simp_all
      simp only [isDeadEnd] at hdead
      split at hdead
      · rename_i hcase
        rcases Bool.or_eq_true_iff.1 hcase with hexp | hempty
        · refine .inr (.inr ⟨hfree, .inr ⟨hexp, fun c hc => ?_⟩⟩)
          rw [Node.isLeaf, List.isEmpty_iff] at hleaf
          simp [hleaf] at hc
        · exact .inr (.inr ⟨hfree, .inl (by simpa using hempty)⟩)
      · simp only [bind_eq_ok, pure_eq_ok] at hdead
        obtain ⟨d, hd, hinf⟩ := hdead
        cases d <;> simp [Distance.isInfinite] at hinf
        exact .inl (hrefuted id hd)
    · split at h
      · simp at h
      · rename_i hexp
        simp only [bind_eq_ok] at h
        obtain ⟨below, hbelow, h⟩ := h
        split at h
        · rename_i hknown
          rw [List.all_eq_true] at hknown
          obtain ⟨-, -, hiff⟩ := Distance.succ_eq_ok h
          have hall := (Distance.nearest_eq_infinite hknown).1 (hiff.1 rfl)
          refine .inr (.inr ⟨hfree, .inr ⟨by simpa using hexp, fun c hc => ?_⟩⟩)
          obtain ⟨d, hd, hcd⟩ := (exists_of_mapM_ok hbelow).1 c hc
          exact hall d hd ▸ hcd
        · simp at h

omit hrefuted in
/-- A finite distance only follows from a finite one. -/
theorem seesTarget_of_derived {id : NodeId} {n : Node S} {d : Distance}
    (h : gen.derived id n = .ok d) (hd : d.isFinite = true) : gen.SeesTarget := by
  unfold derived at h
  split at h
  · cases d <;> simp [Distance.isFinite] at hd
    exact .inl ⟨_, _, h⟩
  · split at h
    · simp only [bind_eq_ok, pure_eq_ok] at h
      obtain ⟨dead, -, rfl⟩ := h
      cases dead <;> simp [Distance.isFinite] at hd
    · split at h
      · simp only [pure_eq_ok] at h
        subst h
        simp [Distance.isFinite] at hd
      · simp only [bind_eq_ok] at h
        obtain ⟨below, hbelow, h⟩ := h
        split at h
        · rename_i hknown
          rw [List.all_eq_true] at hknown
          obtain ⟨-, -, hiff⟩ := Distance.succ_eq_ok h
          -- one of the successors is at a finite distance
          by_contra hnone
          have hall : ∀ e ∈ below, e = .infinite := by
            intro e he
            obtain ⟨c, -, hc⟩ := (exists_of_mapM_ok hbelow).2 e he
            have := hknown e he
            cases e with
            | unknown => simp [Distance.isKnown] at this
            | finite d => exact absurd (.inl ⟨c, d, hc⟩) hnone
            | infinite => rfl
          have := hiff.2 ((Distance.nearest_eq_infinite hknown).2 hall)
          simp [this, Distance.isFinite] at hd
        · simp only [pure_eq_ok] at h
          subst h
          simp [Distance.isFinite] at hd

theorem deriveWithin_settles {steps : Nat} {ids : List NodeId}
    (h : gen.deriveWithin steps ids = .ok gen') : Settles refuted gen gen' := by
  refine deriveWithin_induct (motive := fun gen =>
    (∀ i, gen.heuristic i = .ok .infinite → refuted i) → Settles refuted gen gen')
    (fun {gen mid id n d} hn hplain hd _ hset ih hrefuted => ?_) h (fun _ => .refl _ _) hrefuted
  have hwrite := DistanceWrites.of_setDistance hset
  have hrest := ih fun i hi => hrefuted i (hwrite.heuristic_eq_ok.1 hi)
  refine .of_setDistance hset hrest hn (fun hinf => ⟨hplain, ?_⟩) fun hfin =>
    seesTarget_of_derived hd hfin
  exact (derived_blocked hrefuted (hinf ▸ hd)).mono fun i hi =>
    (hwrite.trans hrest.toDistanceWrites).distance_eq_ok hi rfl

theorem deriveFrom_settles {ids : List NodeId} (h : gen.deriveFrom ids = .ok gen') :
    Settles refuted gen gen' :=
  deriveWithin_settles hrefuted h

theorem deriveFromDeadEnds_settles (h : gen.deriveFromDeadEnds = .ok gen') :
    Settles refuted gen gen' := by
  simp only [deriveFromDeadEnds, bind_eq_ok] at h
  obtain ⟨dead, -, h⟩ := h
  exact deriveFrom_settles hrefuted h

/-! ## Search paths -/

omit hrefuted in
theorem assignOnPath_ok {goal id : NodeId} {d : Distance} {result : Option (Generation S P K)}
    (h : gen.assignOnPath goal id d = .ok result) :
    result = none ∨ ∃ mid, result = some mid ∧ gen.setDistance id d = .ok mid := by
  simp only [assignOnPath, bind_eq_ok] at h
  obtain ⟨n, -, _, -, e, -, h⟩ := h
  split at h
  · simp only [bind_eq_ok, pure_eq_ok] at h
    obtain ⟨_, -, _, -, rfl⟩ := h
    exact .inl rfl
  · simp only [bind_eq_ok] at h
    obtain ⟨shorter, -, h⟩ := h
    split at h
    · exact .inl (pure_eq_ok.1 h).symm
    · simp only [bind_eq_ok, pure_eq_ok] at h
      obtain ⟨mid, hset, rfl⟩ := h
      exact .inr ⟨mid, rfl, hset⟩

/-- What becomes of a generation at a node of a search path: nothing at the goal, and above it the node
gets a distance. -/
def Climbed (gen : Generation S P K) (goal id : NodeId) (d : Distance) (mid : Generation S P K) : Prop :=
  id = goal ∧ mid = gen ∨ id ≠ goal ∧ gen.assignOnPath goal id d = .ok (some mid)

omit hrefuted in
/-- One step of a walk up, with what it collects. -/
theorem climb_cases {run : SearchRun} {goal id : NodeId} {steps : Nat} {d : Distance}
    {beside beside' : List NodeId}
    (h : gen.climb run goal (steps + 1) id d beside = .ok (gen', beside')) :
    (gen' = gen ∧ beside' = beside ∧ id ≠ goal ∧ gen.assignOnPath goal id d = .ok none) ∨
      ∃ mid n, gen.Climbed goal id d mid ∧ mid.graph.get? id = some n ∧
        (gen' = mid ∧ beside' = beside ++ offPath n (run.parent? id) ∧
            (id ∈ run.start ∨ run.parent? id = none) ∨
          ∃ parent e, run.parent? id = some parent ∧
            ((∃ m, mid.graph.get? parent = some m ∧ m.covering = some id ∧ e = d) ∨
              n.parent = some parent ∧ d.succ = .ok e) ∧
            mid.climb run goal steps parent e (beside ++ offPath n (some parent)) =
              .ok (gen', beside')) := by
  rw [climb, ← apply_ite fun result : Except Fault (Option (Generation S P K)) => result >>= _] at h
  obtain ⟨result, hresult, h⟩ := bind_eq_ok.1 h
  cases result with
  | none =>
    simp only [pure_eq_ok, Prod.mk.injEq] at h
    split at hresult
    · cases hresult
    · exact .inl ⟨h.1.symm, h.2.symm, by assumption, hresult⟩
  | some mid =>
    simp only [bind_eq_ok, Graph.node_eq_ok] at h
    obtain ⟨n, hn, h⟩ := h
    refine .inr ⟨mid, n, ?_, hn, ?_⟩
    · split at hresult
      · exact .inl ⟨by assumption, (Option.some.inj (pure_eq_ok.1 hresult)).symm⟩
      · exact .inr ⟨by assumption, hresult⟩
    split at h
    · rename_i hstart
      simp only [pure_eq_ok, Prod.mk.injEq] at h
      exact .inl ⟨h.1.symm, h.2.symm, .inl (List.contains_iff_mem.1 hstart)⟩
    · split at h
      · rename_i parent hparent
        simp only [bind_eq_ok, Graph.node_eq_ok] at h
        obtain ⟨m, hm, h⟩ := h
        rw [hparent] at h
        split at h
        · rename_i hcovering
          simp only [bind_eq_ok] at h
          obtain ⟨_, -, h⟩ := h
          exact .inr ⟨parent, d, hparent, .inl ⟨m, hm, hcovering, rfl⟩, h⟩
        · simp only [bind_eq_ok, demand_eq_ok] at h
          obtain ⟨_, habove, e, he, h⟩ := h
          exact .inr ⟨parent, e, hparent, .inr ⟨by simpa using habove, he⟩, h⟩
      · rename_i hnone
        simp only [pure_eq_ok, Prod.mk.injEq] at h
        exact .inl ⟨h.1.symm, h.2.symm, .inr (Option.eq_none_iff_forall_ne_some.2 hnone)⟩

omit hrefuted in
/-- One step of a walk up: it writes at most the distance of the node it is at, and goes on to the
search parent, from which an edge leads to that node, with the distance of a path through it. -/
theorem climb_succ_ok {run : SearchRun} {goal id : NodeId} {steps : Nat} {d : Distance}
    {beside beside' : List NodeId}
    (h : gen.climb run goal (steps + 1) id d beside = .ok (gen', beside')) :
    gen' = gen ∨ ∃ mid, (id = goal ∧ mid = gen ∨ gen.assignOnPath goal id d = .ok (some mid)) ∧
      (gen' = mid ∨ ∃ parent e beside'', run.parent? id = some parent ∧
        ((∃ m, mid.graph.get? parent = some m ∧ m.covering = some id ∧ e = d) ∨
          ∃ n, mid.graph.get? id = some n ∧ n.parent = some parent ∧ d.succ = .ok e) ∧
        mid.climb run goal steps parent e beside'' = .ok (gen', beside')) := by
  obtain ⟨hsame, -⟩ | ⟨mid, n, hmid, hn, hrest⟩ := climb_cases h
  · exact .inl hsame
  · refine .inr ⟨mid, Or.imp_right And.right hmid, hrest.imp And.left ?_⟩
    rintro ⟨parent, e, hparent, hlink, hclimb⟩
    exact ⟨parent, e, _, hparent, hlink.imp_right fun ⟨habove, he⟩ => ⟨n, hn, habove, he⟩, hclimb⟩

omit hrefuted in
/-- The distance that a walk up goes on with is finite as well. -/
theorem isFinite_of_climb {id parent : NodeId} {d e : Distance} (hd : d.isFinite = true)
    (h : (∃ m, gen.graph.get? parent = some m ∧ m.covering = some id ∧ e = d) ∨
      ∃ n, gen.graph.get? id = some n ∧ n.parent = some parent ∧ d.succ = .ok e) :
    e.isFinite = true := by
  rcases h with ⟨_, -, -, rfl⟩ | ⟨_, -, -, hsucc⟩
  · exact hd
  · obtain ⟨-, hknown, hiff⟩ := Distance.succ_eq_ok hsucc
    cases d <;> cases e <;> simp_all [Distance.isFinite, Distance.isKnown]

theorem climb_settles {run : SearchRun} {goal id : NodeId} {steps : Nat} {d : Distance}
    {beside beside' : List NodeId} (hd : d.isFinite = true) (hsees : gen.SeesTarget)
    (h : gen.climb run goal steps id d beside = .ok (gen', beside')) : Settles refuted gen gen' := by
  induction steps generalizing gen id d beside with
  | zero =>
    obtain ⟨rfl, -⟩ : gen = gen' ∧ beside = beside' := by simpa [climb] using h
    exact .refl _ _
  | succ steps ih =>
    obtain rfl | ⟨mid, hmid, hrest⟩ := climb_succ_ok h
    · exact .refl _ _
    have hwrite : Settles refuted gen mid := by
      obtain ⟨-, rfl⟩ | hassign := hmid
      · exact .refl _ _
      · obtain hnone | ⟨mid', hmid', hset⟩ := assignOnPath_ok hassign
        · cases hnone
        obtain rfl := Option.some.inj hmid'
        obtain ⟨n, -, hn, -⟩ := setDistance_ok hset
        refine .of_setDistance hset (.refl _ _) hn (fun hinf => ?_) fun _ => hsees
        simp [hinf, Distance.isFinite] at hd
    refine hwrite.trans ?_
    obtain rfl | ⟨parent, e, beside'', -, hnext, hclimb⟩ := hrest
    · exact .refl _ _
    · refine ih (fun i hi => hrefuted i (hwrite.heuristic_eq_ok.1 hi)) (isFinite_of_climb hd hnext) ?_
        hclimb
      obtain ⟨i, d, hi⟩ | htarget := hsees
      · exact .inl ⟨i, d, hwrite.distance_eq_ok hi rfl⟩
      · exact .inr (hwrite.graph ▸ htarget)

theorem settlePath_settles {run : SearchRun} {goal : NodeId}
    (h : gen.settlePath run goal = .ok gen') : Settles refuted gen gen' := by
  simp only [settlePath, bind_eq_ok] at h
  obtain ⟨d, hd, _, hfinite, ⟨mid, beside⟩, hclimb, hderive⟩ := h
  have hfinite := demand_eq_ok.1 hfinite
  have hsees : gen.SeesTarget := by
    cases d <;> simp [Distance.isFinite] at hfinite
    exact .inl ⟨_, _, hd⟩
  have hmid := climb_settles hrefuted hfinite hsees hclimb
  exact hmid.trans (deriveFrom_settles (fun i hi => hrefuted i (hmid.heuristic_eq_ok.1 hi)) hderive)

end Derive

end Generation

/-! ## Steps for a walk -/

namespace Graph

variable {S : Type} {g : Graph S}

/-- What entering a node once adds to the steps of a walk, at most. -/
def linkWeight (node : Node S) : Nat := 1 + node.succs.length + node.covered.length

/-- What a walk against the links adds is paid for as well. -/
theorem length_above_le (n : Node S) :
    n.parent.toList.length + n.covered.length ≤ linkWeight n := by
  have hparent : n.parent.toList.length ≤ 1 := by cases n.parent <;> simp
  unfold linkWeight
  omega

/-- The steps that the nodes outside `visited` still may need. -/
def weightOutside (g : Graph S) (visited : NodeId → Bool) : Nat :=
  ((g.toList.filter fun entry => !visited entry.1).map fun entry => linkWeight entry.2).sum

theorem linkCount_eq (g : Graph S) : g.linkCount = g.weightOutside fun _ => false := by
  have hsum : ∀ (l : List (NodeId × Node S)) (total : Nat),
      l.foldl (fun total entry => total + 1 + entry.2.succs.length + entry.2.covered.length) total =
        total + (l.map fun entry => linkWeight entry.2).sum := by
    intro l
    induction l with
    | nil => simp
    | cons entry l ih =>
      intro total
      rw [List.foldl_cons, ih, List.map_cons, List.sum_cons, linkWeight]
      omega
  have hcount : g.linkCount = 0 + _ := hsum g.toList 0
  simpa [weightOutside] using hcount

theorem sum_filter_le {α : Type} {l : List α} {p q : α → Bool} {w : α → Nat}
    (hpq : ∀ a ∈ l, q a = true → p a = true) :
    ((l.filter q).map w).sum ≤ ((l.filter p).map w).sum := by
  induction l with
  | nil => simp
  | cons a l ih =>
    obtain ⟨ha, hl⟩ := List.forall_mem_cons.1 hpq
    have := ih hl
    cases hq : q a <;> cases hp : p a <;> simp_all
    omega

theorem sum_filter_add_le {α : Type} {l : List α} {p q : α → Bool} {w : α → Nat} {a : α}
    (ha : a ∈ l) (hpa : p a = true) (hqa : q a = false) (hpq : ∀ b ∈ l, q b = true → p b = true) :
    ((l.filter q).map w).sum + w a ≤ ((l.filter p).map w).sum := by
  induction l with
  | nil => simp at ha
  | cons b l ih =>
    obtain ⟨hb, hl⟩ := List.forall_mem_cons.1 hpq
    rcases List.mem_cons.1 ha with rfl | ha
    · have := sum_filter_le (w := w) hl
      simp [hpa, hqa]
      omega
    · have := ih ha hl
      cases hq : q b <;> cases hp : p b <;> simp_all <;> omega

/-- Visiting more nodes leaves fewer steps. -/
theorem weightOutside_mono {visited visited' : NodeId → Bool}
    (h : ∀ i, visited i = true → visited' i = true) :
    g.weightOutside visited' ≤ g.weightOutside visited :=
  sum_filter_le fun entry _ hentry => by
    cases hv : visited entry.1 <;> simp_all

/-- The number of links is enough for a walk. -/
theorem weightOutside_le_linkCount (g : Graph S) (visited : NodeId → Bool) :
    g.weightOutside visited ≤ g.linkCount :=
  g.linkCount_eq ▸ weightOutside_mono fun _ h => by simp at h

/-- Visiting a node pays for what it adds. -/
theorem weightOutside_add_le {visited visited' : NodeId → Bool} {id : NodeId} {n : Node S}
    (hn : g.get? id = some n) (hold : visited id = false) (hnew : visited' id = true)
    (h : ∀ i, visited i = true → visited' i = true) :
    g.weightOutside visited' + linkWeight n ≤ g.weightOutside visited :=
  sum_filter_add_le (w := fun entry : NodeId × Node S => linkWeight entry.2) (mem_toList.2 hn)
    (by simp [hold]) (by simp [hnew]) fun entry _ hentry => by
      cases hv : visited entry.1 <;> simp_all

end Graph

namespace Generation

variable {S P K : Type} {gen gen' : Generation S P K} {refuted : NodeId → Prop}

/-! ## Unreachable targets -/

theorem length_openBelow_le {id : NodeId} {n : Node S} {below : List NodeId}
    (h : gen.openBelow id n = .ok below) : below.length ≤ Graph.linkWeight n := by
  simp only [openBelow, bind_eq_ok] at h
  obtain ⟨d, -, h⟩ := h
  unfold Graph.linkWeight
  split at h
  · obtain rfl := pure_eq_ok.1 h
    simp
  · split at h
    · obtain rfl := pure_eq_ok.1 h
      simp only [List.length_singleton]
      omega
    · split at h
      · obtain rfl := pure_eq_ok.1 h
        omega
      · simp only [bind_eq_ok, pure_eq_ok] at h
        obtain ⟨_, -, rfl⟩ := h
        simp

/-- If all that still has to be explored below a node is infinitely far away, the node is blocked. -/
theorem blocked_of_openBelow (hrefuted : ∀ i, gen.heuristic i = .ok .infinite → refuted i)
    {id : NodeId} {n : Node S} {below : List NodeId} (h : gen.openBelow id n = .ok below)
    (hbelow : ∀ c ∈ below, gen'.distance c = .ok .infinite) : Blocked refuted gen' id n := by
  simp only [openBelow, bind_eq_ok] at h
  obtain ⟨d, hd, h⟩ := h
  split at h
  · rename_i hinf
    cases d <;> simp [Distance.isInfinite] at hinf
    exact .inl (hrefuted id hd)
  · split at h
    · rename_i c hc
      obtain rfl := pure_eq_ok.1 h
      exact .inr (.inl ⟨c, hc, hbelow c (by simp)⟩)
    · rename_i hfree
      split at h
      · rename_i hexp
        obtain rfl := pure_eq_ok.1 h
        exact .inr (.inr ⟨hfree, .inr ⟨hexp, hbelow⟩⟩)
      · simp only [bind_eq_ok, demand_eq_ok] at h
        obtain ⟨_, hempty, -⟩ := h
        exact .inr (.inr ⟨hfree, .inl (by simpa using hempty)⟩)

/-- What holds once all is made infinitely far away, and can be carried back over each write, holds
before. -/
theorem sinkWithin_induct {motive : Generation S P K → Prop} {steps : Nat}
    {visited queue beside beside' : List NodeId}
    (hwrite : ∀ {gen mid : Generation S P K} {id : NodeId} {n : Node S},
      gen.graph.get? id = some n → n.isTarget = false → gen.setDistance id .infinite = .ok mid →
        motive mid → motive gen)
    (h : gen.sinkWithin steps visited queue beside = .ok (gen', beside')) (hend : motive gen') :
    motive gen := by
  induction steps generalizing gen visited queue beside with
  | zero =>
    obtain ⟨rfl, -⟩ : gen = gen' ∧ beside = beside' := by simpa [sinkWithin] using h
    exact hend
  | succ steps ih =>
    cases queue with
    | nil =>
      obtain ⟨rfl, -⟩ : gen = gen' ∧ beside = beside' := by simpa [sinkWithin] using h
      exact hend
    | cons id rest =>
      unfold sinkWithin at h
      split at h
      · exact ih h
      · simp only [bind_eq_ok] at h
        obtain ⟨known, -, h⟩ := h
        split at h
        · simp only [bind_eq_ok] at h
          obtain ⟨_, -, h⟩ := h
          exact ih h
        · simp only [bind_eq_ok, Graph.node_eq_ok, demand_eq_ok] at h
          obtain ⟨n, hn, _, htarget, waiting, -, mid, hset, below, -, h⟩ := h
          exact hwrite hn (by simpa using htarget) hset (ih h)

/-- Everything that was to be made infinitely far away is so in the end, and what lies below it. -/
theorem sinkWithin_settles {steps : Nat} {visited queue beside beside' : List NodeId}
    (hrefuted : ∀ i, gen.heuristic i = .ok .infinite → refuted i)
    (hsteps : queue.length + gen.graph.weightOutside visited.contains ≤ steps)
    (hvisited : ∀ i ∈ visited, gen.distance i = .ok .infinite)
    (h : gen.sinkWithin steps visited queue beside = .ok (gen', beside')) :
    Settles refuted gen gen' ∧ ∀ i ∈ queue, gen'.distance i = .ok .infinite := by
  induction steps generalizing gen visited queue beside with
  | zero =>
    obtain rfl : queue = [] := List.length_eq_zero_iff.1 (by omega)
    obtain ⟨rfl, -⟩ : gen = gen' ∧ beside = beside' := by simpa [sinkWithin] using h
    exact ⟨.refl _ _, by simp⟩
  | succ steps ih =>
    cases queue with
    | nil =>
      obtain ⟨rfl, -⟩ : gen = gen' ∧ beside = beside' := by simpa [sinkWithin] using h
      exact ⟨.refl _ _, by simp⟩
    | cons id rest =>
      rw [List.length_cons] at hsteps
      unfold sinkWithin at h
      split at h
      · rename_i hmem
        obtain ⟨hsettles, hall⟩ := ih hrefuted (by omega) hvisited h
        exact ⟨hsettles, List.forall_mem_cons.2
          ⟨hsettles.distance_eq_ok (hvisited id (by simpa using hmem)) rfl, hall⟩⟩
      · rename_i hnew
        have hgrow : ∀ i, visited.contains i = true → (id :: visited).contains i = true := fun i hi =>
          List.contains_iff_mem.2 (List.mem_cons_of_mem _ (List.contains_iff_mem.1 hi))
        simp only [bind_eq_ok] at h
        obtain ⟨known, hknown, h⟩ := h
        split at h
        · simp only [bind_eq_ok, demand_eq_ok] at h
          obtain ⟨_, hinf, h⟩ := h
          have hid : gen.distance id = .ok .infinite := Distance.isInfinite_iff.1 hinf ▸ hknown
          have hmono := gen.graph.weightOutside_mono hgrow
          obtain ⟨hsettles, hall⟩ := ih hrefuted (by omega) (List.forall_mem_cons.2 ⟨hid, hvisited⟩) h
          exact ⟨hsettles, List.forall_mem_cons.2 ⟨hsettles.distance_eq_ok hid rfl, hall⟩⟩
        · simp only [bind_eq_ok, Graph.node_eq_ok, demand_eq_ok] at h
          obtain ⟨n, hn, _, htarget, waiting, -, mid, hset, below, hbelow, h⟩ := h
          have hwrite := DistanceWrites.of_setDistance hset
          have hid : mid.distance id = .ok .infinite := by
            obtain ⟨-, k, -, -, -, hwrite, -⟩ := setDistance_ok hset
            exact Generation.distance_eq_ok.2 ⟨_, by rw [hwrite.get?, if_pos rfl], rfl⟩
          have hrefuted' : ∀ i, mid.heuristic i = .ok .infinite → refuted i := fun i hi =>
            hrefuted i (hwrite.heuristic_eq_ok.1 hi)
          have hpaid := gen.graph.weightOutside_add_le hn (by simpa using hnew)
            (by simp : (id :: visited).contains id = true) hgrow
          have hlength := length_openBelow_le hbelow
          have hvisited' : ∀ i ∈ id :: visited, mid.distance i = .ok .infinite :=
            List.forall_mem_cons.2 ⟨hid, fun i hi => hwrite.distance_eq_ok (hvisited i hi) rfl⟩
          obtain ⟨hsettles, hall⟩ := ih hrefuted' (by
              rw [List.length_append, hwrite.graph]
              omega) hvisited' h
          refine ⟨.of_setDistance hset hsettles hn (fun _ => ⟨by simpa using htarget, ?_⟩)
            (by simp [Distance.isFinite]), List.forall_mem_cons.2
              ⟨hsettles.distance_eq_ok hid rfl, fun i hi => hall i (by simp [hi])⟩⟩
          exact blocked_of_openBelow hrefuted' hbelow fun c hc => hall c (by simp [hc])

section

variable (hrefuted : ∀ i, gen.heuristic i = .ok .infinite → refuted i)

include hrefuted

theorem settleUnreachable_settles {start : List NodeId}
    (h : gen.settleUnreachable start = .ok gen') : Settles refuted gen gen' := by
  simp only [settleUnreachable, bind_eq_ok] at h
  obtain ⟨⟨mid, beside⟩, hsink, hderive⟩ := h
  obtain ⟨hmid, -⟩ := sinkWithin_settles hrefuted
    (Nat.add_le_add_left (gen.graph.weightOutside_le_linkCount _) _) (by simp) hsink
  exact hmid.trans (deriveFrom_settles (fun i hi => hrefuted i (hmid.heuristic_eq_ok.1 hi)) hderive)

/-- **A guided search settles**: its infinite distances are where nothing is left below. -/
theorem settleGuided_settles {run : SearchRun} (h : gen.settleGuided run = .ok gen') :
    Settles refuted gen gen' := by
  unfold settleGuided at h
  split at h
  · exact settleUnreachable_settles hrefuted h
  · simp only [bind_eq_ok] at h
    obtain ⟨_, -, g₁, h₁, g₂, h₂, h₃⟩ := h
    have hzero : Settles refuted gen g₁ := by
      refine foldlM_induct (motive := Settles refuted gen) (fun c id c' _ hc hstep => ?_)
        (.refl _ _) h₁
      simp only [bind_eq_ok, Graph.node_eq_ok] at hstep
      obtain ⟨n, hn, hstep⟩ := hstep
      split at hstep
      · rename_i htarget
        exact hc.trans (.of_setDistance hstep (.refl _ _) hn (by simp [Distance.zero])
          fun _ => .inr ⟨id, n, hn, htarget⟩)
      · exact pure_eq_ok.1 hstep ▸ hc
    have hpaths : Settles refuted gen g₂ :=
      foldlM_induct (motive := Settles refuted gen) (fun c id c' _ hc hstep => hc.trans
        (settlePath_settles (fun i hi => hrefuted i (hc.heuristic_eq_ok.1 hi)) hstep)) hzero h₂
    exact hpaths.trans (deriveFromDeadEnds_settles
      (fun i hi => hrefuted i (hpaths.heuristic_eq_ok.1 hi)) h₃)

end

end Generation

end GuidedReach
