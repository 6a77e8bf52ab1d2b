import GuidedReach.Proofs.Generation.Deductions

/-!
# What a guided settling leaves open

A distance is due if it is open although it follows from the neighbours of its node. Single writes make
distances due, and most of them are then written in turn. What may be left due in the end is an expanded
node all successors of which have distances.

* `Generation.Follows`, `Generation.Due` — a distance follows; it is due.
* `Generation.Due.of_setDistance` — what a single write makes due.
* `Generation.deriveFrom_due` — deriving leaves nothing due that it started from or made due.
* `Generation.settlePath_due` — a walk up a search path only leaves due where it broke off.
* `Generation.settleGuided_due` — so does a guided settling, if nothing was due before.
-/

namespace GuidedReach

namespace Generation

variable {S P K : Type} {gen gen' : Generation S P K} {run : SearchRun} {goal id i : NodeId}
variable {n m : Node S} {d : Distance} {ids : List NodeId} (excused : NodeId → Prop)

/-- The distance of a node follows: its coverer has one, the node is a dead end, or it is expanded and
all its successors have one. -/
inductive Follows (gen : Generation S P K) (id : NodeId) (n : Node S) : Prop
  | covering {c : NodeId} : n.covering = some c → gen.settled c = true → Follows gen id n
  | deadEnd : n.covering = none → n.succs = [] → gen.isDeadEnd id n = .ok true → Follows gen id n
  | expanded : n.covering = none → n.succs ≠ [] → n.isExpanded = true →
    (∀ c ∈ n.succs, gen.settled c = true) → Follows gen id n

/-- The distance of a node is open, although it follows. -/
structure Due (gen : Generation S P K) (id : NodeId) (n : Node S) : Prop where
  node : gen.graph.get? id = some n
  plain : n.isTarget = false
  unknown : gen.distance id = .ok .unknown
  follows : gen.Follows id n

/-! ## Single writes -/

theorem settled_eq_false (h : gen.distance id = .ok .unknown) : gen.settled id = false := by
  rw [← Bool.not_eq_true, settled_iff]
  rintro ⟨d, hd, hknown⟩
  obtain rfl := Except.ok.inj (h.symm.trans hd)
  cases hknown

theorem settled_of_setDistance (hset : gen.setDistance id d = .ok gen') (hi : gen'.settled i = true) :
    i = id ∨ gen.settled i = true := by
  obtain ⟨e, he, hknown⟩ := settled_iff.1 hi
  obtain ⟨hid, -⟩ | he := distance_of_setDistance hset he
  · exact .inl hid
  · exact .inr (settled_iff.2 ⟨e, he, hknown⟩)

/-- What is open was open before. -/
theorem DistanceWrites.unknown (h : DistanceWrites gen gen') (hi : gen'.distance i = .ok .unknown) :
    gen.distance i = .ok .unknown := by
  obtain ⟨k, hk, hunknown⟩ := Generation.distance_eq_ok.1 hi
  obtain ⟨-, hnone⟩ | ⟨k', e, hk', he, hold⟩ := h.searchNode i
  · simp [hk] at hnone
  · obtain rfl := Option.some.inj (hk.symm.trans he)
    refine Generation.distance_eq_ok.2 ⟨k', hk', ?_⟩
    obtain rfl | ⟨hold, -⟩ := hold
    · exact hunknown
    · exact hold

theorem DistanceWrites.isDeadEnd (h : DistanceWrites gen gen') (hdead : gen'.isDeadEnd i m = .ok true) :
    gen.isDeadEnd i m = .ok true := by
  simp only [Generation.isDeadEnd] at hdead ⊢
  split
  · rfl
  · rename_i hopen
    rw [if_neg hopen] at hdead
    obtain ⟨e, he, hinfinite⟩ := bind_eq_ok.1 hdead
    exact bind_eq_ok.2 ⟨e, h.heuristic_eq_ok.1 he, hinfinite⟩

/-- What follows gets a known distance. -/
theorem Follows.isKnown (h : gen.Follows id n) (hd : gen.derived id n = .ok d) : d.isKnown = true := by
  cases h with
  | covering hcovering hsettled =>
    simp only [derived, hcovering] at hd
    obtain ⟨e, he, hknown⟩ := settled_iff.1 hsettled
    exact Except.ok.inj (he.symm.trans hd) ▸ hknown
  | deadEnd hfree hleaf hdead =>
    simp only [derived, hfree, Node.isLeaf, hleaf, List.isEmpty_nil, if_true, hdead] at hd
    obtain rfl := pure_eq_ok.1 hd
    rfl
  | expanded hfree hleaf hexpanded hall =>
    have hleaf : n.isLeaf = false := by simpa [Node.isLeaf] using hleaf
    simp only [derived, hfree, hleaf, hexpanded, Bool.not_true, Bool.false_eq_true, if_false,
      bind_eq_ok] at hd
    obtain ⟨below, hbelow, hd⟩ := hd
    have hknown : below.all Distance.isKnown = true := by
      refine List.all_eq_true.2 fun e he => ?_
      obtain ⟨c, hc, hce⟩ := (exists_of_mapM_ok hbelow).2 e he
      obtain ⟨e', he', hknown⟩ := settled_iff.1 (hall c hc)
      exact Except.ok.inj (he'.symm.trans hce) ▸ hknown
    rw [if_pos hknown] at hd
    exact (Distance.succ_eq_ok hd).2.1

/-- **What a single write makes due** is covered by the node or is its parent, which then waited for it
only. -/
theorem Due.of_setDistance (hwf : gen.graph.WellFormed) (hn : gen.graph.get? id = some n)
    (hset : gen.setDistance id d = .ok gen') (h : gen'.Due i m) :
    gen.Due i m ∨ i ∈ n.covered ∨
      n.parent = some i ∧ m.covering = none ∧ m.isExpanded = true ∧ id ∈ m.succs := by
  have hwrites := DistanceWrites.of_setDistance hset
  have hm : gen.graph.get? i = some m := hwrites.graph ▸ h.node
  have hdue : gen.Follows i m → gen.Due i m := fun hfollows =>
    ⟨hm, h.plain, hwrites.unknown h.unknown, hfollows⟩
  cases h.follows with
  | @covering c hcovering hsettled =>
    rcases settled_of_setDistance hset hsettled with rfl | hsettled
    · obtain ⟨-, b, hb, -, hcount⟩ := hwf.covering_link hm hcovering
      obtain rfl := Option.some.inj (hn.symm.trans hb)
      exact .inr (.inl (List.count_pos_iff.1 (by omega)))
    · exact .inl (hdue (.covering hcovering hsettled))
  | deadEnd hfree hleaf hdead => exact .inl (hdue (.deadEnd hfree hleaf (hwrites.isDeadEnd hdead)))
  | expanded hfree hleaf hexpanded hall =>
    by_cases hmem : id ∈ m.succs
    · obtain ⟨n', hn', hparent⟩ := hwf.succ_link hm hmem
      obtain rfl := Option.some.inj (hn.symm.trans hn')
      exact .inr (.inr ⟨hparent, hfree, hexpanded, hmem⟩)
    · refine .inl (hdue (.expanded hfree hleaf hexpanded fun c hc => ?_))
      exact (settled_of_setDistance hset (hall c hc)).resolve_left fun hid => hmem (hid ▸ hc)

/-- The node that was written is not due. -/
theorem Due.ne_of_setDistance (hset : gen.setDistance id d = .ok gen') (h : gen'.Due i m) : i ≠ id := by
  rintro rfl
  obtain ⟨hd, hknown⟩ := distance_self_of_setDistance hset
  obtain rfl := Except.ok.inj (hd.symm.trans h.unknown)
  cases hknown

theorem Due.not_settled (h : gen.Due i m) : gen.settled i = false := settled_eq_false h.unknown

/-- What is open is among the unsettled nodes of a list. -/
theorem mem_unsettled {waiting : List NodeId} (h : gen.unsettled ids = .ok waiting) (hi : i ∈ ids)
    (hunknown : gen.distance i = .ok .unknown) : i ∈ waiting := by
  refine (mem_filterM h i).2 ⟨hi, bind_eq_ok.2 ⟨false, ?_, rfl⟩⟩
  exact bind_eq_ok.2 ⟨.unknown, hunknown, rfl⟩

/-! ## What follows from known distances -/

/-- **Deriving leaves nothing due**, save what was due before and is not on the worklist. -/
theorem deriveWithin_due (hwf : gen.graph.WellFormed) {steps : Nat}
    (hsteps : ids.length + gen.graph.weightOutside gen.settled ≤ steps)
    (h : gen.deriveWithin steps ids = .ok gen')
    (hdue : ∀ {i m}, gen.Due i m → excused i ∨ i ∈ ids) (hi : gen'.Due i m) : excused i := by
  induction steps generalizing gen ids with
  | zero =>
    obtain rfl : ids = [] := List.length_eq_zero_iff.1 (by omega)
    obtain rfl : gen = gen' := by simpa [deriveWithin] using h
    exact (hdue hi).resolve_right List.not_mem_nil
  | succ steps ih =>
    cases ids with
    | nil =>
      obtain rfl : gen = gen' := by simpa [deriveWithin] using h
      exact (hdue hi).resolve_right List.not_mem_nil
    | cons id rest =>
      simp only [deriveWithin, bind_eq_ok, Graph.node_eq_ok] at h
      rw [List.length_cons] at hsteps
      obtain ⟨n, hn, h⟩ := h
      -- a node that is not due can be taken from the worklist
      have hskip : (∀ m, ¬ gen.Due id m) → ∀ {i m}, gen.Due i m → excused i ∨ i ∈ rest := by
        intro hnot i m hi
        rcases hdue hi with hexcused | hmem
        · exact .inl hexcused
        · rcases List.mem_cons.1 hmem with rfl | hmem
          · exact absurd hi (hnot m)
          · exact .inr hmem
      split at h
      · rename_i htarget
        refine ih hwf (by omega) h (hskip fun m hm => ?_)
        obtain rfl := Option.some.inj (hn.symm.trans hm.node)
        exact absurd hm.plain (by simp [htarget])
      · simp only [bind_eq_ok] at h
        obtain ⟨settled, hsettled, h⟩ := h
        have hsettled := isSettled_eq_ok hsettled
        split at h
        · rename_i hknown
          exact ih hwf (by omega) h (hskip fun m hm => by simp [hm.not_settled, hknown] at hsettled)
        · rename_i hopen
          simp only [bind_eq_ok] at h
          obtain ⟨e, he, h⟩ := h
          split at h
          · simp only [bind_eq_ok] at h
            obtain ⟨mid, hset, waiting, hwaiting, h⟩ := h
            have hgraph := (DistanceWrites.of_setDistance hset).graph
            have hpaid := weightOutside_of_setDistance hn (by simp [hsettled, hopen]) hset
            have habove := Graph.length_above_le n
            have hlength := length_filterM_le hwaiting
            refine ih (hgraph ▸ hwf) (by simp only [List.length_append]; omega) h fun {j m} hj => ?_
            have hne := hj.ne_of_setDistance hset
            obtain hold | hcovered | ⟨hparent, -⟩ := hj.of_setDistance hwf hn hset
            · rcases hdue hold with hexcused | hmem
              · exact .inl hexcused
              · exact .inr (by simp [(List.mem_cons.1 hmem).resolve_left hne])
            · exact .inr (by simp [mem_unsettled hwaiting hcovered hj.unknown])
            · exact .inr (by simp [hparent])
          · rename_i hunknown
            refine ih hwf (by omega) h (hskip fun m hm => ?_)
            obtain rfl := Option.some.inj (hn.symm.trans hm.node)
            exact hunknown (hm.follows.isKnown he)

theorem deriveFrom_due (hwf : gen.graph.WellFormed) (h : gen.deriveFrom ids = .ok gen')
    (hdue : ∀ {i m}, gen.Due i m → excused i ∨ i ∈ ids) (hi : gen'.Due i m) : excused i :=
  deriveWithin_due excused hwf (Nat.add_le_add_left (gen.graph.weightOutside_le_linkCount _) _) h hdue hi

/-- A due node that is not dead stays so. -/
theorem Due.isDead_of_writes (h : gen.Due i m) (hwrites : DistanceWrites gen gen')
    (hdead : gen.isDead i m = .ok false) : gen'.isDead i m = .ok false := by
  unfold isDead at hdead ⊢
  cases h.follows with
  | covering hcovering hsettled =>
    obtain ⟨e, he, hknown⟩ := settled_iff.1 hsettled
    simp only [hcovering, he] at hdead
    simp only [hcovering, hwrites.distance_eq_ok he hknown]
    exact hdead
  | deadEnd hfree hleaf hend =>
    simp only [hfree] at hdead ⊢
    split
    · rename_i hexpanded
      rwa [if_pos hexpanded] at hdead
    · rename_i hopen
      rw [if_neg hopen] at hdead
      obtain ⟨e, he, hdead⟩ := bind_eq_ok.1 hdead
      exact bind_eq_ok.2 ⟨e, hwrites.heuristic_eq_ok.2 he, hdead⟩
  | expanded hfree hleaf hexpanded _ => simpa [hfree, hexpanded, Node.isLeaf] using hdead

/-- **What is due after the dead ends were dealt with was so before, and is not dead.** -/
theorem deriveFromDeadEnds_due (hwf : gen.graph.WellFormed) (h : gen.deriveFromDeadEnds = .ok gen')
    (hi : gen'.Due i m) : gen.Due i m ∧ gen'.isDead i m = .ok false := by
  simp only [deriveFromDeadEnds, bind_eq_ok] at h
  obtain ⟨dead, hfilter, h⟩ := h
  have hwrites := (deriveWithin_deductions hwf h).writes
  obtain ⟨m', hbefore, hmem⟩ : ∃ m, gen.Due i m ∧ i ∉ dead.map Prod.fst := by
    refine deriveFrom_due (fun i => ∃ m, gen.Due i m ∧ i ∉ dead.map Prod.fst) hwf h
      (fun {j m} hj => ?_) hi
    by_cases hmem : j ∈ dead.map Prod.fst
    · exact .inr hmem
    · exact .inl ⟨m, hj, hmem⟩
  obtain rfl : m' = m := Option.some.inj (hbefore.node.symm.trans (hwrites.graph ▸ hi.node))
  refine ⟨hbefore, hbefore.isDead_of_writes hwrites ?_⟩
  have hentry : (i, m') ∈ gen.graph.toList := Graph.mem_toList.2 hbefore.node
  obtain ⟨b, hb⟩ := exists_of_filterM_ok hfilter _ hentry
  have hkept : b = false := by
    rw [← Bool.not_eq_true]
    rintro rfl
    exact hmem (List.mem_map.2 ⟨_, (mem_filterM hfilter _).2 ⟨hentry, hb⟩, rfl⟩)
  simp only [hbefore.plain, Bool.false_eq_true, if_false, bind_eq_ok] at hb
  obtain ⟨settled, hsettled, hb⟩ := hb
  obtain rfl : settled = false := (isSettled_eq_ok hsettled).symm.trans hbefore.not_settled
  exact hkept ▸ hb

/-! ## Search paths -/

/-- The node is expanded, and from one of its successors a target is reached. -/
def AboveFinite (gen : Generation S P K) (id : NodeId) : Prop :=
  ∃ n c v, gen.graph.get? id = some n ∧ n.isExpanded = true ∧ c ∈ n.succs ∧
    gen.distance c = .ok (.finite v)

theorem AboveFinite.of_writes (h : gen.AboveFinite id) (hwrites : DistanceWrites gen gen') :
    gen'.AboveFinite id := by
  obtain ⟨n, c, v, hn, hexpanded, hc, hd⟩ := h
  exact ⟨n, c, v, hwrites.graph ▸ hn, hexpanded, hc, hwrites.distance_eq_ok hd rfl⟩

/-- A walk up breaks off at a node that has a distance, or that has a shorter path. -/
theorem assignOnPath_none (h : gen.assignOnPath goal id d = .ok none) :
    gen.settled id = true ∨ gen.AboveFinite id := by
  simp only [assignOnPath, bind_eq_ok, Graph.node_eq_ok] at h
  obtain ⟨n, hn, _, -, e, he, h⟩ := h
  split at h
  · rename_i hknown
    exact .inl (settled_iff.2 ⟨e, he, hknown⟩)
  · simp only [bind_eq_ok] at h
    obtain ⟨shorter, hshorter, h⟩ := h
    split at h
    · rename_i htrue
      subst htrue
      unfold hasShorterPath at hshorter
      split at hshorter
      · cases hshorter
      · rename_i hexpanded
        obtain ⟨c, hc, hbelow⟩ := exists_of_anyM_ok hshorter
        obtain ⟨e, he, hbelow⟩ := bind_eq_ok.1 hbelow
        cases e with
        | finite v => exact .inr ⟨n, c, v, hn, by simpa using hexpanded, hc, he⟩
        | unknown => cases hbelow
        | infinite => cases hbelow
    · simp only [bind_eq_ok, pure_eq_ok, reduceCtorEq, and_false, exists_false] at h

/-- The nodes whose distances may follow from that of a node. -/
def NextTo (gen : Generation S P K) (id i : NodeId) : Prop :=
  ∃ n, gen.graph.get? id = some n ∧ (i ∈ n.covered ∨ n.parent = some i)

theorem mem_offPath {above : Option NodeId} (h : i ∈ n.covered ∨ n.parent = some i) :
    i ∈ offPath n above ∨ above = some i := by
  by_cases habove : above = some i
  · exact .inr habove
  · refine .inl ?_
    rw [offPath, List.mem_append, List.mem_filter, List.mem_filter, Option.mem_toList]
    have hne : (some i != above) = true := by simpa using Ne.symm habove
    exact h.imp (fun h => ⟨h, hne⟩) fun h => ⟨h, hne⟩

/-- **What may become due at a node of a search path** is next to it; the node itself is not due. -/
theorem Climbed.due {mid : Generation S P K} (h : gen.Climbed goal id d mid)
    (hwf : gen.graph.WellFormed) (hgoal : gen.settled goal = true)
    (hn : mid.graph.get? id = some n) (hi : mid.Due i m) :
    i ≠ id ∧ (gen.Due i m ∨ id ≠ goal ∧ (i ∈ n.covered ∨ n.parent = some i)) := by
  obtain ⟨rfl, rfl⟩ | ⟨hne, hassign⟩ := h
  · refine ⟨?_, .inl hi⟩
    rintro rfl
    simp [hi.not_settled] at hgoal
  · obtain ⟨-, -, hset⟩ := open_of_assignOnPath hassign
    have hn' : gen.graph.get? id = some n := (DistanceWrites.of_setDistance hset).graph ▸ hn
    refine ⟨hi.ne_of_setDistance hset, (hi.of_setDistance hwf hn' hset).imp_right fun hnext => ⟨hne, ?_⟩⟩
    exact hnext.imp_right And.left

/-- **A walk up only leaves due what it collects**, and the node at which it breaks off. -/
theorem climb_due (hwf : gen.graph.WellFormed) (hstart : ∀ s ∈ run.start, run.parent? s = none)
    {steps : Nat} (hsteps : 2 * gen.openCount + (if id = goal then 1 else 0) < steps)
    (hgoal : gen.settled goal = true) {beside beside' : List NodeId}
    (h : gen.climb run goal steps id d beside = .ok (gen', beside'))
    (hdue : ∀ {i m}, gen.Due i m →
      excused i ∨ i ∈ beside ∨ i = id ∨ id = goal ∧ gen.NextTo goal i) (hi : gen'.Due i m) :
    excused i ∨ i ∈ beside' ∨ gen'.AboveFinite i := by
  induction steps generalizing gen id d beside with
  | zero => omega
  | succ steps ih =>
    obtain ⟨rfl, rfl, hne, hnone⟩ | ⟨mid, n, hmid, hn, hrest⟩ := climb_cases h
    · rcases hdue hi with hexcused | hmem | rfl | ⟨hid, -⟩
      · exact .inl hexcused
      · exact .inr (.inl hmem)
      · rcases assignOnPath_none hnone with hsettled | hfinite
        · simp [hi.not_settled] at hsettled
        · exact .inr (.inr hfinite)
      · exact absurd hid hne
    have hgraph := hmid.graph
    -- what is due now was collected, or is the node above
    have hoff : ∀ {i m} (above), mid.Due i m →
        excused i ∨ i ∈ beside ++ offPath n above ∨ above = some i := by
      intro i m above hi
      have hbeside : i ∈ n.covered ∨ n.parent = some i →
          i ∈ beside ++ offPath n above ∨ above = some i := fun hnext =>
        (mem_offPath hnext).imp_left (List.mem_append_right _)
      obtain ⟨hne, hold | ⟨-, hnext⟩⟩ := hmid.due hwf hgoal hn hi
      · rcases hdue hold with hexcused | hmem | hid | ⟨rfl, n', hn', hnext⟩
        · exact .inl hexcused
        · exact .inr (.inl (List.mem_append_left _ hmem))
        · exact absurd hid hne
        · obtain rfl := Option.some.inj (hn'.symm.trans (hgraph ▸ hn))
          exact .inr (hbeside hnext)
      · exact .inr (hbeside hnext)
    rcases hrest with ⟨rfl, rfl, hlast⟩ | ⟨parent, e, hparent, hlink, hclimb⟩
    · have habove : run.parent? id = none := hlast.elim (hstart id) fun h => h
      rcases hoff (run.parent? id) hi with hexcused | hmem | hid
      · exact .inl hexcused
      · exact .inr (.inl hmem)
      · simp [habove] at hid
    · have hne : parent ≠ id := by
        rcases hlink with ⟨m, hm, hcovering, -⟩ | ⟨hlink, -⟩
        · exact (hwf.covering_link (hgraph ▸ hm) hcovering).1
        · exact Nat.ne_of_lt (hwf.parent_link (hgraph ▸ hn) hlink).1
      have hgoal' : mid.settled goal = true := by
        obtain ⟨-, rfl⟩ | ⟨-, hassign⟩ := hmid
        · exact hgoal
        · exact (DistanceWrites.of_setDistance (open_of_assignOnPath hassign).2.2).settled hgoal
      refine ih (hgraph ▸ hwf) (hmid.openCount_lt hne hsteps) hgoal' hclimb fun {i m} hi => ?_
      rcases hoff (some parent) hi with hexcused | hmem | hid
      · exact .inl hexcused
      · exact .inr (.inl hmem)
      · exact .inr (.inr (.inl (Option.some.inj hid).symm))

/-- **A walk up a search path only leaves due where it broke off**, next to a node at a finite
distance. -/
theorem settlePath_due (hwf : gen.graph.WellFormed) (hstart : ∀ s ∈ run.start, run.parent? s = none)
    (h : gen.settlePath run goal = .ok gen')
    (hdue : ∀ {i m}, gen.Due i m → excused i ∨ gen.NextTo goal i) (hi : gen'.Due i m) :
    excused i ∨ gen'.AboveFinite i := by
  simp only [settlePath, bind_eq_ok] at h
  obtain ⟨d, hd, _, hfinite, ⟨mid, beside⟩, hclimb, hderive⟩ := h
  have hfinite := demand_eq_ok.1 hfinite
  have hsettled : gen.settled goal = true :=
    settled_iff.2 ⟨d, hd, by cases d <;> simp_all [Distance.isFinite, Distance.isKnown]⟩
  have hmid := (climb_deductions hwf (.inl ⟨rfl, hd⟩) hclimb).writes
  have hwf' : mid.graph.WellFormed := hmid.graph ▸ hwf
  have hwrites := (deriveWithin_deductions hwf' hderive).writes
  have hle := gen.openCount_le
  refine deriveFrom_due (fun i => excused i ∨ gen'.AboveFinite i) hwf' hderive
    (fun {i m} hi => ?_) hi
  have hcollected := climb_due excused hwf hstart (by rw [if_pos rfl]; omega) hsettled hclimb
    (fun hi => (hdue hi).imp_right fun hnext => .inr (.inr ⟨rfl, hnext⟩)) hi
  rcases hcollected with hexcused | hmem | hfinite
  · exact .inl (.inl hexcused)
  · exact .inr hmem
  · exact .inl (.inr (hfinite.of_writes hwrites))

/-- All search paths are walked up in turn. -/
theorem foldlM_settlePath_due (hwf : gen.graph.WellFormed)
    (hstart : ∀ s ∈ run.start, run.parent? s = none) {goals : List NodeId}
    (h : goals.foldlM (fun gen id => gen.settlePath run id) gen = .ok gen')
    (hdue : ∀ {i m}, gen.Due i m → excused i ∨ ∃ goal ∈ goals, gen.NextTo goal i) :
    DistanceWrites gen gen' ∧ ∀ {i m}, gen'.Due i m → excused i ∨ gen'.AboveFinite i := by
  induction goals generalizing gen excused with
  | nil =>
    obtain rfl : gen = gen' := pure_eq_ok.1 h
    exact ⟨.refl _, fun hi => .inl ((hdue hi).resolve_right (by simp))⟩
  | cons goal rest ih =>
    simp only [List.foldlM_cons, bind_eq_ok] at h
    obtain ⟨mid, hpath, h⟩ := h
    have hmid := (settlePath_deductions hwf hpath).writes
    have hnext : ∀ {j i}, gen.NextTo j i → mid.NextTo j i := fun ⟨n, hn, hlink⟩ =>
      ⟨n, hmid.graph ▸ hn, hlink⟩
    -- what is next to the other goals may still be due
    have hafter : ∀ {i m}, mid.Due i m →
        (excused i ∨ ∃ goal ∈ rest, gen.NextTo goal i) ∨ mid.AboveFinite i := fun hi => by
      refine settlePath_due (fun i => excused i ∨ ∃ goal ∈ rest, gen.NextTo goal i) hwf hstart hpath
        (fun hi => ?_) hi
      rcases hdue hi with hexcused | ⟨j, hj, hnext⟩
      · exact .inl (.inl hexcused)
      · rcases List.mem_cons.1 hj with rfl | hj
        · exact .inr hnext
        · exact .inl (.inr ⟨j, hj, hnext⟩)
    obtain ⟨hwrites, hlast⟩ := ih (fun i => excused i ∨ mid.AboveFinite i) (hmid.graph ▸ hwf) h
      fun hi => by
        rcases hafter hi with (hexcused | ⟨j, hj, hbeside⟩) | hfinite
        · exact .inl (.inl hexcused)
        · exact .inr ⟨j, hj, hnext hbeside⟩
        · exact .inl (.inr hfinite)
    refine ⟨hmid.trans hwrites, fun hi => ?_⟩
    rcases hlast hi with (hexcused | hfinite) | hfinite
    · exact .inl hexcused
    · exact .inr (hfinite.of_writes hwrites)
    · exact .inr hfinite

/-- **What a guided settling leaves due**, once something was reached, was due before, or is an expanded
node next to one at a finite distance, where a walk up broke off. It is not dead. -/
theorem settleGuided_due (hwf : gen.graph.WellFormed) (hstart : ∀ s ∈ run.start, run.parent? s = none)
    (hreached : run.reached ≠ []) (h : gen.settleGuided run = .ok gen') (hi : gen'.Due i m) :
    (gen.Due i m ∨ gen'.AboveFinite i) ∧ gen'.isDead i m = .ok false := by
  have hsome : run.reached.isEmpty = false := by simpa using hreached
  simp only [settleGuided, hsome, Bool.false_eq_true, if_false, bind_eq_ok] at h
  obtain ⟨_, -, first, hzero, second, hpaths, h⟩ := h
  have hfirst : DistanceWrites gen first ∧ ∀ {i m}, first.Due i m →
      gen.Due i m ∨ ∃ goal ∈ run.reached, gen.NextTo goal i := by
    refine foldlM_induct (motive := fun mid => DistanceWrites gen mid ∧ ∀ {i m}, mid.Due i m →
      gen.Due i m ∨ ∃ goal ∈ run.reached, gen.NextTo goal i)
      (fun mid goal mid' hgoal ⟨hmid, hdue⟩ hstep => ?_) ⟨.refl _, .inl⟩ hzero
    obtain ⟨n, hn, hstep⟩ := bind_eq_ok.1 hstep
    rw [Graph.node_eq_ok] at hn
    split at hstep
    · refine ⟨hmid.trans (.of_setDistance hstep), fun {i m} hi => ?_⟩
      have hn' : gen.graph.get? goal = some n := hmid.graph ▸ hn
      obtain hold | hcovered | ⟨hparent, -⟩ := hi.of_setDistance (hmid.graph ▸ hwf) hn hstep
      · exact hdue hold
      · exact .inr ⟨goal, hgoal, n, hn', .inl hcovered⟩
      · exact .inr ⟨goal, hgoal, n, hn', .inr hparent⟩
    · obtain rfl := pure_eq_ok.1 hstep
      exact ⟨hmid, hdue⟩
  have hsame : ∀ {j i}, gen.NextTo j i → first.NextTo j i := fun ⟨n, hn, hlink⟩ =>
    ⟨n, hfirst.1.graph ▸ hn, hlink⟩
  obtain ⟨hsecond, hdue⟩ := foldlM_settlePath_due (fun i => ∃ m, gen.Due i m)
    (hfirst.1.graph ▸ hwf) hstart hpaths fun hi => (hfirst.2 hi).imp (fun hold => ⟨_, hold⟩)
      fun ⟨goal, hgoal, hnext⟩ => ⟨goal, hgoal, hsame hnext⟩
  have hwf' : second.graph.WellFormed := hsecond.graph ▸ hfirst.1.graph ▸ hwf
  have hthird := (deriveFromDeadEnds_deductions hwf' h).writes
  obtain ⟨hlast, halive⟩ := deriveFromDeadEnds_due hwf' h hi
  refine ⟨(hdue hlast).imp (fun ⟨m', hm'⟩ => ?_) fun hfinite => hfinite.of_writes hthird, halive⟩
  have hgraph := (hfirst.1.trans (hsecond.trans hthird)).graph
  exact Option.some.inj (hm'.node.symm.trans (hgraph ▸ hi.node)) ▸ hm'

/-! ## Unreachable targets -/

/-- What the sweep leaves due is collected, or is an expanded node with successors. -/
theorem sinkWithin_due (hwf : gen.graph.WellFormed) {steps : Nat}
    {visited queue beside beside' : List NodeId}
    (h : gen.sinkWithin steps visited queue beside = .ok (gen', beside'))
    (hexcused : ∀ {i m}, gen.graph.get? i = some m → m.isExpanded = true → m.succs ≠ [] → excused i)
    (hdue : ∀ {i m}, gen.Due i m → excused i ∨ i ∈ beside) (hi : gen'.Due i m) :
    excused i ∨ i ∈ beside' := by
  induction steps generalizing gen visited queue beside with
  | zero =>
    simp only [sinkWithin, pure_eq_ok, Prod.mk.injEq] at h
    obtain ⟨rfl, rfl⟩ := h
    exact hdue hi
  | succ steps ih =>
    cases queue with
    | nil =>
      simp only [sinkWithin, pure_eq_ok, Prod.mk.injEq] at h
      obtain ⟨rfl, rfl⟩ := h
      exact hdue hi
    | cons id rest =>
      simp only [sinkWithin] at h
      split at h
      · exact ih hwf h hexcused hdue
      · obtain ⟨known, -, h⟩ := bind_eq_ok.1 h
        split at h
        · obtain ⟨_, -, h⟩ := bind_eq_ok.1 h
          exact ih hwf h hexcused hdue
        · simp only [bind_eq_ok, Graph.node_eq_ok] at h
          obtain ⟨n, hn, _, -, waiting, hwaiting, mid, hset, below, -, h⟩ := h
          have hwrites := DistanceWrites.of_setDistance hset
          refine ih (hwrites.graph ▸ hwf) h (fun hm => hexcused (hwrites.graph ▸ hm)) fun {j m} hj => ?_
          obtain hold | hcovered | ⟨-, -, hexpanded, hmem⟩ := hj.of_setDistance hwf hn hset
          · exact (hdue hold).imp_right fun hmem => List.mem_append_left _ hmem
          · have hmem := mem_unsettled hwaiting hcovered (hwrites.unknown hj.unknown)
            exact .inr (List.mem_append_right _ hmem)
          · exact .inl (hexcused (hwrites.graph ▸ hj.node) hexpanded (List.ne_nil_of_mem hmem))

/-- **What is left due below start nodes from which no target is reached** was due before, or is an
expanded node with successors. -/
theorem settleUnreachable_due (hwf : gen.graph.WellFormed) {start : List NodeId}
    (h : gen.settleUnreachable start = .ok gen') (hi : gen'.Due i m) :
    gen.Due i m ∨ m.isExpanded = true ∧ m.succs ≠ [] := by
  simp only [settleUnreachable, bind_eq_ok] at h
  obtain ⟨⟨mid, beside⟩, hsink, hderive⟩ := h
  have hmid := (sinkWithin_deductions hsink).writes
  have hwf' : mid.graph.WellFormed := hmid.graph ▸ hwf
  have hwrites := (deriveWithin_deductions hwf' hderive).writes
  let excused := fun i => ∃ m, gen.graph.get? i = some m ∧
    (gen.Due i m ∨ m.isExpanded = true ∧ m.succs ≠ [])
  have hswept : ∀ {i m}, mid.Due i m → excused i ∨ i ∈ beside := fun hi =>
    sinkWithin_due excused hwf hsink (fun hm hexpanded hsuccs => ⟨_, hm, .inr ⟨hexpanded, hsuccs⟩⟩)
      (fun hi => .inl ⟨_, hi.node, .inl hi⟩) hi
  obtain ⟨m', hm', hcase⟩ := deriveFrom_due excused hwf' hderive hswept hi
  obtain rfl : m' = m := Option.some.inj (hm'.symm.trans (hmid.graph ▸ hwrites.graph ▸ hi.node))
  exact hcase

end Generation

end GuidedReach
