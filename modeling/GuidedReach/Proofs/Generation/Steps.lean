import GuidedReach.Proofs.Generation.Exhaustive

/-!
# The loops that settle distances are never cut short

Four loops turn a finished search into distances, and each is given a number of steps. That number
always suffices: with more steps the loops arrive at the same.

* `Generation.deriveWithin_add`, `Generation.sinkWithin_add`, `Generation.spreadWithin_add` — each
  step takes one node from the queue, and each node pays once for what it adds to it.
* `Generation.climb_add` — each step up a search path settles one more node.
* `Generation.deriveWithin_linkCount`, `Generation.sinkWithin_linkCount`,
  `Generation.spreadWithin_linkCount`, `Generation.climb_size` — so the steps that the loops are given
  suffice.
-/

namespace GuidedReach

section Plain

variable {ε α β : Type}

/-- What follows a computation only matters where it ends in a result. -/
theorem bind_congr_ok {x : Except ε α} {f g : α → Except ε β} (h : ∀ a, x = .ok a → f a = g a) :
    (x >>= f) = (x >>= g) := by
  cases x with
  | error e => rfl
  | ok a => exact h a rfl

theorem length_filterAuxM_le {f : α → Except ε Bool} {l acc r : List α}
    (h : l.filterAuxM f acc = .ok r) : r.length ≤ l.length + acc.length := by
  induction l generalizing acc with
  | nil =>
    obtain rfl : acc = r := pure_eq_ok.1 h
    simp
  | cons a l ih =>
    simp only [List.filterAuxM, bind_eq_ok] at h
    obtain ⟨keep, -, h⟩ := h
    have hle := ih h
    cases keep <;> simp at hle ⊢ <;> omega

theorem length_filterM_le {f : α → Except ε Bool} {l r : List α} (h : l.filterM f = .ok r) :
    r.length ≤ l.length := by
  simp only [List.filterM, bind_eq_ok, pure_eq_ok] at h
  obtain ⟨kept, hkept, rfl⟩ := h
  simpa using length_filterAuxM_le hkept

end Plain

namespace Generation

variable {S P K : Type} {gen : Generation S P K}

/-! ## Queues -/

/-- Deriving what follows comes to its end. -/
theorem deriveWithin_add {steps : Nat} {ids : List NodeId}
    (hsteps : ids.length + gen.graph.weightOutside gen.settled ≤ steps) (extra : Nat) :
    gen.deriveWithin (steps + extra) ids = gen.deriveWithin steps ids := by
  induction steps generalizing gen ids with
  | zero =>
    obtain rfl : ids = [] := List.length_eq_zero_iff.1 (by omega)
    cases extra <;> rfl
  | succ steps ih =>
    rw [Nat.add_right_comm]
    cases ids with
    | nil => rfl
    | cons id rest =>
      rw [List.length_cons] at hsteps
      unfold deriveWithin
      refine bind_congr_ok fun n hn => ?_
      split
      · exact ih (by omega)
      · refine bind_congr_ok fun settled hsettled => ?_
        split
        · exact ih (by omega)
        · rename_i hopen
          refine bind_congr_ok fun d _ => ?_
          split
          · refine bind_congr_ok fun mid hset => bind_congr_ok fun waiting hwaiting => ih ?_
            have hpaid := weightOutside_of_setDistance (Graph.node_eq_ok.1 hn)
              (by simp [isSettled_eq_ok hsettled, hopen]) hset
            have habove := Graph.length_above_le n
            have hwaiting := length_filterM_le hwaiting
            simp only [List.length_append]
            omega
          · exact ih (by omega)

/-- Making everything below some nodes infinitely far away comes to its end. -/
theorem sinkWithin_add {steps : Nat} {visited queue beside : List NodeId}
    (hsteps : queue.length + gen.graph.weightOutside visited.contains ≤ steps) (extra : Nat) :
    gen.sinkWithin (steps + extra) visited queue beside = gen.sinkWithin steps visited queue beside := by
  induction steps generalizing gen visited queue beside with
  | zero =>
    obtain rfl : queue = [] := List.length_eq_zero_iff.1 (by omega)
    cases extra <;> rfl
  | succ steps ih =>
    rw [Nat.add_right_comm]
    cases queue with
    | nil => rfl
    | cons id rest =>
      rw [List.length_cons] at hsteps
      have hgrow : ∀ i, visited.contains i = true → (id :: visited).contains i = true := fun i hi =>
        List.contains_iff_mem.2 (List.mem_cons_of_mem _ (List.contains_iff_mem.1 hi))
      unfold sinkWithin
      split
      · exact ih (by omega)
      · rename_i hnew
        refine bind_congr_ok fun known _ => ?_
        split
        · have hmono := gen.graph.weightOutside_mono hgrow
          exact bind_congr_ok fun _ _ => ih (by omega)
        · refine bind_congr_ok fun n hn => bind_congr_ok fun _ _ => bind_congr_ok fun waiting _ =>
            bind_congr_ok fun mid hset => bind_congr_ok fun below hbelow => ih ?_
          have hpaid := gen.graph.weightOutside_add_le (Graph.node_eq_ok.1 hn) (by simpa using hnew)
            (by simp : (id :: visited).contains id = true) hgrow
          have hlength := length_openBelow_le hbelow
          rw [List.length_append, (DistanceWrites.of_setDistance hset).graph]
          omega

/-- Spreading distances from the targets comes to its end. -/
theorem spreadWithin_add {steps : Nat} {queue : List (NodeId × Nat)}
    (hsteps : queue.length + gen.graph.weightOutside gen.settled ≤ steps) (extra : Nat) :
    gen.spreadWithin (steps + extra) queue = gen.spreadWithin steps queue := by
  induction steps generalizing gen queue with
  | zero =>
    obtain rfl : queue = [] := List.length_eq_zero_iff.1 (by omega)
    cases extra <;> rfl
  | succ steps ih =>
    rw [Nat.add_right_comm]
    cases queue with
    | nil => rfl
    | cons entry rest =>
      obtain ⟨id, distance⟩ := entry
      rw [List.length_cons] at hsteps
      unfold spreadWithin
      refine bind_congr_ok fun settled hsettled => ?_
      split
      · exact ih (by omega)
      · rename_i hopen
        refine bind_congr_ok fun mid hset => bind_congr_ok fun n hn => ih ?_
        rw [(DistanceWrites.of_setDistance hset).graph] at hn
        have hpaid := weightOutside_of_setDistance (Graph.node_eq_ok.1 hn)
          (by simp [isSettled_eq_ok hsettled, hopen]) hset
        have habove := Graph.length_above_le n
        simp only [List.length_append, List.length_map, List.length_reverse]
        omega

/-! ## Search paths -/

/-- The number of nodes whose distances are not known. -/
def openCount (gen : Generation S P K) : Nat :=
  (gen.graph.ids.filter fun id => !gen.settled id).length

theorem openCount_le (gen : Generation S P K) : gen.openCount ≤ gen.graph.size :=
  List.length_filter_le _ _

theorem openCount_of_setDistance {mid : Generation S P K} {id : NodeId} {n : Node S} {d : Distance}
    (hn : gen.graph.get? id = some n) (hopen : gen.settled id = false)
    (hset : gen.setDistance id d = .ok mid) : mid.openCount < gen.openCount := by
  have hwrite := DistanceWrites.of_setDistance hset
  obtain ⟨hid, hknown⟩ := distance_self_of_setDistance hset
  have hself : mid.settled id = true := settled_iff.2 ⟨d, hid, hknown⟩
  have hless := Graph.sum_filter_add_le (l := gen.graph.ids) (p := fun i => !gen.settled i)
    (q := fun i => !mid.settled i) (w := fun _ => 1) (Graph.mem_ids.2 ⟨n, hn⟩) (by simp [hopen])
    (by simp [hself]) fun i _ hi => by
      cases hold : gen.settled i with
      | false => rfl
      | true => simp [hwrite.settled hold] at hi
  simp only [List.map_const', List.sum_replicate, smul_eq_mul, mul_one] at hless
  unfold openCount
  rw [hwrite.graph]
  omega

/-- Above the goal of a search path only open nodes get a distance. -/
theorem open_of_assignOnPath {mid : Generation S P K} {goal id : NodeId} {d : Distance}
    (h : gen.assignOnPath goal id d = .ok (some mid)) :
    (∃ n, gen.graph.get? id = some n) ∧ gen.settled id = false ∧ gen.setDistance id d = .ok mid := by
  simp only [assignOnPath, bind_eq_ok, Graph.node_eq_ok] at h
  obtain ⟨n, hn, _, -, e, he, h⟩ := h
  split at h
  · simp only [bind_eq_ok, pure_eq_ok, reduceCtorEq, and_false, exists_false] at h
  · rename_i hunknown
    simp only [bind_eq_ok] at h
    obtain ⟨shorter, -, h⟩ := h
    split at h
    · simp only [pure_eq_ok, reduceCtorEq] at h
    · simp only [bind_eq_ok, pure_eq_ok, Option.some.injEq] at h
      obtain ⟨mid', hset, rfl⟩ := h
      refine ⟨⟨n, hn⟩, ?_, hset⟩
      rw [← Bool.not_eq_true, settled_iff]
      rintro ⟨e', he', hknown⟩
      exact hunknown (Except.ok.inj (he.symm.trans he') ▸ hknown)

theorem Climbed.graph {mid : Generation S P K} {goal id : NodeId} {d : Distance}
    (h : gen.Climbed goal id d mid) : mid.graph = gen.graph := by
  obtain ⟨-, rfl⟩ | ⟨-, hassign⟩ := h
  · rfl
  · exact (DistanceWrites.of_setDistance (open_of_assignOnPath hassign).2.2).graph

/-- Each step up settles one more node, save one that is taken at the goal, and the next one is not. -/
theorem Climbed.openCount_lt {mid : Generation S P K} {goal id above : NodeId} {d : Distance}
    {steps : Nat} (h : gen.Climbed goal id d mid) (hne : above ≠ id)
    (hsteps : 2 * gen.openCount + (if id = goal then 1 else 0) < steps + 1) :
    2 * mid.openCount + (if above = goal then 1 else 0) < steps := by
  obtain ⟨rfl, rfl⟩ | ⟨hgoal, hassign⟩ := h
  · rw [if_pos rfl] at hsteps
    rw [if_neg hne]
    omega
  · obtain ⟨⟨n, hn⟩, hopen, hset⟩ := open_of_assignOnPath hassign
    have hcount := openCount_of_setDistance hn hopen hset
    rw [if_neg hgoal] at hsteps
    split <;> omega

/-- **Climbing a search path comes to its end**, since each step settles one more node. -/
theorem climb_add (hwf : gen.graph.WellFormed) {run : SearchRun} {goal id : NodeId} {steps : Nat}
    {d : Distance} {beside : List NodeId}
    (hsteps : 2 * gen.openCount + (if id = goal then 1 else 0) < steps) (extra : Nat) :
    gen.climb run goal (steps + extra) id d beside = gen.climb run goal steps id d beside := by
  induction steps generalizing gen id d beside with
  | zero => omega
  | succ steps ih =>
    rw [Nat.add_right_comm, climb, climb,
      ← apply_ite fun result : Except Fault (Option (Generation S P K)) => result >>= _,
      ← apply_ite fun result : Except Fault (Option (Generation S P K)) => result >>= _]
    refine bind_congr_ok fun result hresult => ?_
    cases result with
    | none => rfl
    | some mid =>
      have hmid : gen.Climbed goal id d mid := by
        split at hresult
        · exact .inl ⟨by assumption, (Option.some.inj (pure_eq_ok.1 hresult)).symm⟩
        · exact .inr ⟨by assumption, hresult⟩
      have hgraph := hmid.graph
      have hnext : ∀ {parent e beside}, parent ≠ id →
          mid.climb run goal (steps + extra) parent e beside =
            mid.climb run goal steps parent e beside :=
        fun hne => ih (hgraph ▸ hwf) (hmid.openCount_lt hne hsteps)
      refine bind_congr_ok fun n hn => ?_
      split
      · rfl
      · dsimp only
        split
        · rename_i parent _
          refine bind_congr_ok fun m hm => ?_
          rw [Graph.node_eq_ok, hgraph] at hn hm
          split
          · rename_i hcovering
            exact bind_congr_ok fun _ _ => hnext (hwf.covering_link hm hcovering).1
          · refine bind_congr_ok fun _ hparent => bind_congr_ok fun _ _ => hnext ?_
            exact Nat.ne_of_lt (hwf.parent_link hn (by simpa using demand_eq_ok.1 hparent)).1
        · rfl

/-! ## The steps that the loops are given -/

/-- With more steps, the same follows. -/
theorem deriveWithin_linkCount (gen : Generation S P K) (ids : List NodeId) (extra : Nat) :
    gen.deriveWithin (ids.length + gen.graph.linkCount + extra) ids = gen.deriveFrom ids :=
  deriveWithin_add (Nat.add_le_add_left (gen.graph.weightOutside_le_linkCount _) _) extra

/-- With more steps, the same becomes infinitely far away. -/
theorem sinkWithin_linkCount (gen : Generation S P K) (start : List NodeId) (extra : Nat) :
    gen.sinkWithin (start.length + gen.graph.linkCount + extra) [] start [] =
      gen.sinkWithin (start.length + gen.graph.linkCount) [] start [] :=
  sinkWithin_add (Nat.add_le_add_left (gen.graph.weightOutside_le_linkCount _) _) extra

/-- With more steps, the same is reached backwards from the targets. -/
theorem spreadWithin_linkCount (gen : Generation S P K) (queue : List (NodeId × Nat)) (extra : Nat) :
    gen.spreadWithin (queue.length + gen.graph.linkCount + extra) queue =
      gen.spreadWithin (queue.length + gen.graph.linkCount) queue :=
  spreadWithin_add (Nat.add_le_add_left (gen.graph.weightOutside_le_linkCount _) _) extra

/-- With more steps, the walk up a search path ends at the same node. -/
theorem climb_size (hwf : gen.graph.WellFormed) (run : SearchRun) (goal : NodeId) (d : Distance)
    (extra : Nat) :
    gen.climb run goal (2 * gen.graph.size + 2 + extra) goal d [] =
      gen.climb run goal (2 * gen.graph.size + 2) goal d [] := by
  refine climb_add hwf ?_ extra
  have hle := gen.openCount_le
  rw [if_pos rfl]
  omega

end Generation

end GuidedReach
