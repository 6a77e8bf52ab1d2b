import GuidedReach.Proofs.Generation.Steps

/-!
# The writes of a guided settling

A finished guided search is turned into distances by single writes: targets get 0, a node above an
edge continues the distance at its end, and the rest becomes infinitely far away. What a guided
settling keeps true is shown write by write.

* `Generation.Continues` — a distance that continues that of a coverer or of a child.
* `Generation.Deduction`, `Generation.Deductions` — a justified write; any number of them.
* `Generation.climb_deductions` — the walk up a search path. It may pass its goal again on a cycle of
  search parents, and then ends at the next node.
* `Generation.settleGuided_deductions` — a guided settling consists of justified writes.
-/

namespace GuidedReach

/-! ## The nearest distance -/

theorem Distance.foldl_smaller_mem (ds : List Distance) (d : Distance) :
    ds.foldl smaller d = d ∨ ds.foldl smaller d ∈ ds := by
  induction ds generalizing d with
  | nil => exact .inl rfl
  | cons e ds ih =>
    rw [List.foldl_cons]
    rcases ih (d.smaller e) with h | h
    · rw [h]
      unfold smaller
      split
      · exact .inl rfl
      · exact .inr List.mem_cons_self
    · exact .inr (List.mem_cons_of_mem _ h)

/-- The least of some distances is one of them, unless it is infinite. -/
theorem Distance.nearest_mem {ds : List Distance} (h : nearest ds ≠ .infinite) : nearest ds ∈ ds :=
  (foldl_smaller_mem ds .infinite).resolve_left h

theorem Distance.foldl_smaller_notAbove (ds : List Distance) (d : Distance) :
    (ds.foldl smaller d).notAbove d = true ∧ ∀ e ∈ ds, (ds.foldl smaller d).notAbove e = true := by
  induction ds generalizing d with
  | nil => exact ⟨notAbove_refl d, by simp⟩
  | cons e ds ih =>
    obtain ⟨hfirst, hrest⟩ := ih (d.smaller e)
    have hboth : (d.smaller e).notAbove d = true ∧ (d.smaller e).notAbove e = true := by
      unfold smaller
      split
      · exact ⟨notAbove_refl d, ‹_›⟩
      · rename_i hnot
        have htotal := notAbove_total d e
        rw [Bool.or_eq_true] at htotal
        exact ⟨htotal.resolve_left hnot, notAbove_refl e⟩
    exact ⟨notAbove_trans hfirst hboth.1,
      List.forall_mem_cons.2 ⟨notAbove_trans hfirst hboth.2, hrest⟩⟩

/-- The least of some distances is not above any of them. -/
theorem Distance.nearest_notAbove {ds : List Distance} {e : Distance} (he : e ∈ ds) :
    (nearest ds).notAbove e = true :=
  (foldl_smaller_notAbove ds .infinite).2 e he

namespace Generation

variable {S P K : Type} {gen gen' gen'' : Generation S P K} {run : SearchRun}
variable {goal id : NodeId} {d : Distance} {n : Node S}

/-! ## Justified writes -/

/-- The distance is that of the node's coverer, or one more than that of a child. -/
inductive Continues (gen : Generation S P K) (id : NodeId) : Distance → Prop where
  | covering {next : NodeId} {n : Node S} {d : Distance} : gen.graph.get? id = some n →
    n.covering = some next → gen.distance next = .ok d → Continues gen id d
  | tree {next : NodeId} {n : Node S} {d e : Distance} : gen.graph.get? next = some n →
    n.parent = some id → gen.distance next = .ok d → d.succ = .ok e → Continues gen id e

/-- A write of a distance, with what justifies it. -/
inductive Deduction (gen gen' : Generation S P K) : Prop where
  | target {id : NodeId} {n : Node S} : gen.graph.get? id = some n → n.isTarget = true →
    gen.setDistance id .zero = .ok gen' → Deduction gen gen'
  | onward {id : NodeId} {n : Node S} {d : Distance} : gen.graph.get? id = some n →
    n.isTarget = false → gen.Continues id d → gen.setDistance id d = .ok gen' → Deduction gen gen'
  | infinite {id : NodeId} {n : Node S} : gen.graph.get? id = some n → n.isTarget = false →
    gen.setDistance id .infinite = .ok gen' → Deduction gen gen'

/-- Any number of justified writes. -/
def Deductions : Generation S P K → Generation S P K → Prop := Relation.ReflTransGen Deduction

theorem Deduction.writes (h : gen.Deduction gen') : DistanceWrites gen gen' := by
  cases h with
  | target _ _ hset => exact .of_setDistance hset
  | onward _ _ _ hset => exact .of_setDistance hset
  | infinite _ _ hset => exact .of_setDistance hset

namespace Deductions

theorem refl (gen : Generation S P K) : gen.Deductions gen := Relation.ReflTransGen.refl

theorem trans (h : gen.Deductions gen') (h' : gen'.Deductions gen'') : gen.Deductions gen'' :=
  Relation.ReflTransGen.trans h h'

theorem cons (h : gen.Deduction gen') (h' : gen'.Deductions gen'') : gen.Deductions gen'' :=
  Relation.ReflTransGen.head h h'

theorem writes (h : gen.Deductions gen') : DistanceWrites gen gen' := by
  induction h with
  | refl => exact .refl gen
  | tail _ hlast ih => exact ih.trans hlast.writes

end Deductions

/-! ## What follows from known distances -/

/-- A distance that follows continues another one, unless it is infinite. -/
theorem continues_of_derived (hwf : gen.graph.WellFormed) (hn : gen.graph.get? id = some n)
    (hd : gen.derived id n = .ok d) (hknown : d.isKnown = true) :
    d = .infinite ∨ gen.Continues id d := by
  unfold derived at hd
  split at hd
  · rename_i c hcovering
    exact .inr (.covering hn hcovering hd)
  · split at hd
    · simp only [bind_eq_ok, pure_eq_ok] at hd
      obtain ⟨dead, -, rfl⟩ := hd
      cases dead with
      | false => simp [Distance.isKnown] at hknown
      | true => exact .inl rfl
    · split at hd
      · obtain rfl := pure_eq_ok.1 hd
        simp [Distance.isKnown] at hknown
      · simp only [bind_eq_ok] at hd
        obtain ⟨below, hbelow, hd⟩ := hd
        split at hd
        · obtain ⟨-, -, hiff⟩ := Distance.succ_eq_ok hd
          by_cases hinfinite : Distance.nearest below = .infinite
          · exact .inl (hiff.2 hinfinite)
          · obtain ⟨c, hc, hdistance⟩ :=
              (exists_of_mapM_ok hbelow).2 _ (Distance.nearest_mem hinfinite)
            obtain ⟨m, hm, hparent⟩ := hwf.succ_link hn hc
            exact .inr (.tree hm hparent hdistance hd)
        · obtain rfl := pure_eq_ok.1 hd
          simp [Distance.isKnown] at hknown

theorem deriveWithin_deductions (hwf : gen.graph.WellFormed) {steps : Nat} {ids : List NodeId}
    (h : gen.deriveWithin steps ids = .ok gen') : gen.Deductions gen' := by
  refine deriveWithin_induct (motive := fun gen => gen.graph.WellFormed → gen.Deductions gen')
    (fun {gen mid id n d} hn hplain hd hknown hset ih hwf => ?_) h (fun _ => .refl _) hwf
  have hstep : gen.Deduction mid := by
    rcases continues_of_derived hwf hn hd hknown with rfl | hcontinues
    · exact .infinite hn hplain hset
    · exact .onward hn hplain hcontinues hset
  exact .cons hstep (ih (hstep.writes.graph ▸ hwf))

theorem deriveFromDeadEnds_deductions (hwf : gen.graph.WellFormed)
    (h : gen.deriveFromDeadEnds = .ok gen') : gen.Deductions gen' := by
  simp only [deriveFromDeadEnds, bind_eq_ok] at h
  obtain ⟨dead, -, h⟩ := h
  exact deriveWithin_deductions hwf h

/-! ## Search paths -/

/-- Above the goal, a walk ends at a node that is settled. -/
theorem climb_of_settled {steps : Nat} {beside beside' : List NodeId} (hne : id ≠ goal)
    (hsettled : gen.settled id = true)
    (h : gen.climb run goal steps id d beside = .ok (gen', beside')) : gen' = gen := by
  cases steps with
  | zero =>
    obtain ⟨rfl, -⟩ : gen = gen' ∧ beside = beside' := by simpa [climb] using h
    rfl
  | succ steps =>
    rcases climb_succ_ok h with rfl | ⟨mid, ⟨hgoal, -⟩ | hassign, -⟩
    · rfl
    · exact absurd hgoal hne
    · simp [(open_of_assignOnPath hassign).2.1] at hsettled

/-- A node above an edge continues the distance that the walk up goes on with. -/
theorem continues_of_climb {parent : NodeId} {e : Distance} (hid : gen.distance id = .ok d)
    (hnext : (∃ m, gen.graph.get? parent = some m ∧ m.covering = some id ∧ e = d) ∨
      ∃ n, gen.graph.get? id = some n ∧ n.parent = some parent ∧ d.succ = .ok e) :
    gen.Continues parent e := by
  rcases hnext with ⟨m, hm, hcovering, rfl⟩ | ⟨n, hn, hparent, hsucc⟩
  · exact .covering hm hcovering hid
  · exact .tree hn hparent hid hsucc

/-- **The walk up a search path writes what continues the distance of its goal.** It starts there; later
it is at a node that continues a distance, and the node right above the goal is settled or is that
node. -/
theorem climb_deductions (hwf : gen.graph.WellFormed) {steps : Nat} {beside beside' : List NodeId}
    (hstart : id = goal ∧ gen.distance id = .ok d ∨ gen.Continues id d ∧
      ∀ above, run.parent? goal = some above → above = id ∨ gen.settled above = true)
    (h : gen.climb run goal steps id d beside = .ok (gen', beside')) : gen.Deductions gen' := by
  induction steps generalizing gen id d beside with
  | zero =>
    obtain ⟨rfl, -⟩ : gen = gen' ∧ beside = beside' := by simpa [climb] using h
    exact .refl _
  | succ steps ih =>
    rcases climb_succ_ok h with rfl | ⟨mid, hmid, hrest⟩
    · exact .refl _
    rcases hmid with ⟨rfl, rfl⟩ | hassign
    · -- at the goal nothing is written
      rcases hrest with rfl | ⟨parent, e, beside'', hparent, hnext, hclimb⟩
      · exact .refl _
      have hne : parent ≠ id := by
        rcases hnext with ⟨m, hm, hcovering, -⟩ | ⟨n, hn, habove, -⟩
        · exact (hwf.covering_link hm hcovering).1
        · exact Nat.ne_of_lt (hwf.parent_link hn habove).1
      rcases hstart with ⟨-, hid⟩ | ⟨-, habove⟩
      · refine ih hwf (.inr ⟨continues_of_climb hid hnext, fun above ha => .inl ?_⟩) hclimb
        exact Option.some.inj (ha.symm.trans hparent)
      · -- the walk came back to its goal, and what is right above is settled
        rcases habove parent hparent with heq | hsettled
        · exact absurd heq hne
        · obtain rfl := climb_of_settled hne hsettled hclimb
          exact .refl _
    · obtain ⟨⟨n, hn⟩, hopen, hset⟩ := open_of_assignOnPath hassign
      have htarget : n.isTarget = false := by
        simp only [assignOnPath, bind_eq_ok, Graph.node_eq_ok, demand_eq_ok] at hassign
        obtain ⟨n', hn', _, htarget, -⟩ := hassign
        obtain rfl := Option.some.inj (hn.symm.trans hn')
        simpa using htarget
      obtain ⟨hid, hknown⟩ := distance_self_of_setDistance hset
      have hcontinues : gen.Continues id d := by
        rcases hstart with ⟨-, hold⟩ | ⟨hcontinues, -⟩
        · simp [settled_iff.2 ⟨d, hold, hknown⟩] at hopen
        · exact hcontinues
      have hstep : gen.Deduction mid := .onward hn htarget hcontinues hset
      refine .cons hstep ?_
      rcases hrest with rfl | ⟨parent, e, beside'', hparent, hnext, hclimb⟩
      · exact .refl _
      refine ih (hstep.writes.graph ▸ hwf) (.inr ⟨continues_of_climb hid hnext, ?_⟩) hclimb
      intro above ha
      refine .inr ?_
      rcases hstart with ⟨-, hold⟩ | ⟨-, habove⟩
      · simp [settled_iff.2 ⟨d, hold, hknown⟩] at hopen
      · rcases habove above ha with rfl | hsettled
        · exact settled_iff.2 ⟨d, hid, hknown⟩
        · exact hstep.writes.settled hsettled

theorem settlePath_deductions (hwf : gen.graph.WellFormed)
    (h : gen.settlePath run goal = .ok gen') : gen.Deductions gen' := by
  simp only [settlePath, bind_eq_ok] at h
  obtain ⟨d, hd, _, -, ⟨mid, beside⟩, hclimb, hderive⟩ := h
  have hmid := climb_deductions hwf (.inl ⟨rfl, hd⟩) hclimb
  exact hmid.trans (deriveWithin_deductions (hmid.writes.graph ▸ hwf) hderive)

/-! ## Unreachable targets -/

theorem sinkWithin_deductions {steps : Nat} {visited queue beside beside' : List NodeId}
    (h : gen.sinkWithin steps visited queue beside = .ok (gen', beside')) :
    gen.Deductions gen' :=
  sinkWithin_induct (motive := (·.Deductions gen'))
    (fun hn hplain hset ih => .cons (.infinite hn hplain hset) ih) h (.refl _)

/-- **A guided settling consists of justified writes.** -/
theorem settleGuided_deductions (hwf : gen.graph.WellFormed)
    (h : gen.settleGuided run = .ok gen') : gen.Deductions gen' := by
  unfold settleGuided at h
  split at h
  · simp only [settleUnreachable, bind_eq_ok] at h
    obtain ⟨⟨mid, beside⟩, hsink, hderive⟩ := h
    have hmid := sinkWithin_deductions hsink
    exact hmid.trans (deriveWithin_deductions (hmid.writes.graph ▸ hwf) hderive)
  · simp only [bind_eq_ok] at h
    obtain ⟨_, -, first, hzero, second, hpaths, hends⟩ := h
    have hfirst : gen.Deductions first := by
      refine foldlM_induct (motive := gen.Deductions) (fun c id c' _ hc hstep => ?_) (.refl _) hzero
      simp only [bind_eq_ok, Graph.node_eq_ok] at hstep
      obtain ⟨n, hn, hstep⟩ := hstep
      split at hstep
      · rename_i htarget
        exact hc.trans (.cons (.target hn htarget hstep) (.refl _))
      · exact pure_eq_ok.1 hstep ▸ hc
    have hsecond : gen.Deductions second :=
      foldlM_induct (motive := gen.Deductions) (fun c id c' _ hc hstep => hc.trans
        (settlePath_deductions (hc.writes.graph ▸ hwf) hstep)) hfirst hpaths
    exact hsecond.trans (deriveFromDeadEnds_deductions (hsecond.writes.graph ▸ hwf) hends)

end Generation

end GuidedReach
