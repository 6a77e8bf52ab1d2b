import GuidedReach.Proofs.Exploration.Staged
import GuidedReach.Proofs.SearchRun.Ordered

/-!
# Searches go best-first

What a search keeps true from one small step to the next: entries are taken in the order of their
weights, the depth at which a node was found is the length of a way along the legs that were followed,
and no such way to a finished node is shorter. Nodes may be covered, covered again and handed on
meanwhile; a leg that is still to be followed is on time, whatever becomes known until then.

* `Generation.Departs` — legs that leave a finished node, and their length.
* `Leg.Due` — a leg that is still to be followed weighs no less than what was taken.
* `Stage.Valid` — what a search keeps true.
* `Exploration.firstStage_valid`, `Exploration.advance_valid` — the first stage, and one small step.
* `Exploration.stageAfter_valid` — any number of steps.
* `Stage.BestFirst`, `Exploration.search_bestFirst` — hence searches go best-first.
-/

namespace GuidedReach

variable {S P K : Type}

/-! ## Edges -/

namespace Generation

variable {gen gen' : Generation S P K} {run run' : SearchRun} {id child : NodeId}
variable {depth length above below : Nat} {n : Node S} {u : Unit}

/-- Along an edge that was checked, a finite heuristic drops by no more than the edge's weight. -/
theorem le_of_checkConsistent (h : gen.checkConsistent id child = .ok u)
    (hn : gen.graph.get? id = some n) (habove : gen.heuristic id = .ok (.finite above))
    (hbelow : gen.heuristic child = .ok (.finite below)) :
    above ≤ below + if n.isCovered then 0 else 1 := by
  simp only [checkConsistent, habove, hbelow, ok_bind, bind_eq_ok, demand_eq_ok,
    Distance.isInfinite, Bool.and_self, Bool.false_eq_true, if_false, Graph.node_eq_ok] at h
  obtain ⟨-, -, -, -, m, hm, sum, hsum, less, hless, hle⟩ := h
  obtain rfl := Option.some.inj (hn.symm.trans hm)
  obtain rfl := Except.ok.inj hsum
  rw [Distance.le_eq_ok rfl rfl] at hless
  obtain rfl := Except.ok.inj hless
  have := of_decide_eq_true hle
  omega

theorem Proceeds.hopeless (h : gen.Proceeds gen') (hid : gen.Hopeless id) : gen'.Hopeless id :=
  hid.imp (fun hid => h.keeps.heuristic hid rfl) h.distance

/-- A node was finished at a depth, and legs that leave it have a length. -/
structure Departs (gen : Generation S P K) (run : SearchRun) (id : NodeId) (depth length : Nat) :
    Prop where
  finished : id ∈ run.finished
  found : run.depth? id = some depth
  edge : ∃ n, gen.graph.get? id = some n ∧
    (n.isCovered = true ∧ length = 0 ∨ n.covering = none ∧ n.isExpanded = true ∧ length = 1)

namespace Departs

theorem mono (h : gen.Departs run id depth length) (hproceeds : gen.Proceeds gen')
    (hfinished : ∀ i ∈ run.finished, i ∈ run'.finished)
    (hfound : run'.depth? id = run.depth? id) : gen'.Departs run' id depth length := by
  obtain ⟨n, hn, hedge⟩ := h.edge
  obtain ⟨n', hn', hgrows⟩ := hproceeds.keeps.grows.node hn
  refine ⟨hfinished id h.finished, hfound.trans h.found, n', hn', hedge.imp ?_ ?_⟩
  · exact fun ⟨hcovered, hlength⟩ => ⟨hgrows.isCovered hcovered, hlength⟩
  · exact fun ⟨hfree, hexpanded, hlength⟩ =>
      ⟨hproceeds.uncovered hn hexpanded hfree hn', (hgrows.isExpanded hexpanded).1, hlength⟩

/-- The length of a leg is the weight of an edge. -/
theorem length_eq (h : gen.Departs run id depth length) (hn : gen.graph.get? id = some n) :
    length = if n.isCovered then 0 else 1 := by
  obtain ⟨m, hm, ⟨hcovered, rfl⟩ | ⟨hfree, -, rfl⟩⟩ := h.edge <;>
    obtain rfl := Option.some.inj (hn.symm.trans hm)
  · simp [hcovered]
  · simp [Node.isCovered, hfree]

end Departs

/-- A search that visits what it reaches knows finite distances of targets only. -/
def Plain (gen : Generation S P K) (visitsReached : Bool) : Prop :=
  visitsReached = true → ∀ {id edges}, gen.distance id = .ok (.finite edges) →
    gen.graph.test (·.isTarget) id = true

theorem Plain.proceeds {visitsReached : Bool} (h : gen.Plain visitsReached)
    (hproceeds : gen.Proceeds gen') : gen'.Plain visitsReached := by
  intro hvisits id edges hd
  have htest := h hvisits (hproceeds.known hd rfl)
  rw [Graph.test, Option.any_eq_true] at htest ⊢
  obtain ⟨n, hn, htarget⟩ := htest
  obtain ⟨n', hn', hgrows⟩ := hproceeds.keeps.grows.node hn
  exact ⟨n', hn', hgrows.isTarget.trans htarget⟩

/-- What is expected of a node that is visited is its heuristic. -/
theorem Plain.edges_eq {visitsReached : Bool} {low edges : Nat} (h : gen.Plain visitsReached)
    (hproper : gen.Proper) (hexpects : gen.Expects id low edges)
    (hvisits : gen.reachesTarget id = .ok true → visitsReached = true) : edges = low := by
  obtain ⟨k, hk, hlow, hd | ⟨-, rfl⟩⟩ := hexpects.exists_node
  · obtain ⟨n, hn, hfits⟩ := hproper.fits hk
    have hreaches : gen.reachesTarget id = .ok true := by
      simp [reachesTarget_eq hn hk, hd, Distance.isFinite]
    have htest := h (hvisits hreaches) (distance_eq_ok.2 ⟨k, hk, hd⟩)
    have htarget : n.isTarget = true := by simpa [Graph.test, hn] using htest
    have hzero := hfits.heuristic htarget (by rw [hlow]; rfl)
    have hzero' := hfits.distance htarget (by rw [hd]; rfl)
    exact (Distance.finite.inj (hd.symm.trans hzero')).trans
      (Distance.finite.inj (hlow.symm.trans hzero)).symm
  · rfl

end Generation

theorem Leg.Leads.mono {start : List NodeId} {legs more : List Leg} {id : NodeId} {length : Nat}
    (h : Leads start legs id length) : Leads start (legs ++ more) id length := by
  induction h with
  | start hid => exact .start hid
  | step _ hleg ih => exact .step ih (List.mem_append_left _ hleg)

/-! ## What a search keeps true -/

/-- A leg leaves a finished node, and once the heuristics along it are known and pass their check,
what it leads to weighs no less than what was taken. -/
structure Leg.Due (gen : Generation S P K) (taken : List Entry) (run : SearchRun) (leg : Leg) :
    Prop where
  departs : ∃ depth, gen.Departs run leg.source depth leg.length ∧ leg.depth = depth + leg.length
  onTime : ∀ {gen' : Generation S P K}, gen.Proceeds gen' →
    gen'.checkConsistent leg.source leg.dest = .ok () →
    ∀ {low edges}, gen'.Expects leg.dest low edges → ∀ e ∈ taken, e.weight ≤ low + leg.depth

/-- What a search keeps true from one small step to the next. -/
structure Stage.Valid (stage : Stage) (gen : Generation S P K) (visitsReached : Bool) : Prop where
  proper : gen.Proper
  plain : gen.Plain visitsReached
  ordered : stage.run.Ordered gen stage.taken
  start : ∀ id ∈ stage.run.start, stage.run.depth? id = some 0
  leads : ∀ {id depth}, stage.run.depth? id = some depth →
    Leg.Leads stage.run.start stage.followed id depth
  /-- What a leg leads to was found, unless no target can be reached from there. -/
  finds : ∀ leg ∈ stage.followed, ∃ depth, leg.source ∈ stage.run.finished ∧
    stage.run.depth? leg.source = some depth ∧
      (gen.Hopeless leg.dest ∨ ∃ d ≤ depth + leg.length, stage.run.depth? leg.dest = some d)
  parents : ∀ {id parent}, stage.run.parent? id = some parent → ∃ depth length,
    gen.Departs stage.run parent depth length ∧ stage.run.depth? id = some (depth + length)
  due : ∀ leg ∈ stage.pending, leg.Due gen stage.taken stage.run

namespace Leg.Due

variable {gen gen' : Generation S P K} {taken : List Entry} {run run' : SearchRun} {leg : Leg}

theorem mono (h : leg.Due gen taken run) (hproceeds : gen.Proceeds gen')
    (hfinished : ∀ i ∈ run.finished, i ∈ run'.finished)
    (hfound : ∀ i ∈ run.finished, run'.depth? i = run.depth? i) : leg.Due gen' taken run' where
  departs := by
    obtain ⟨depth, hdeparts, hdepth⟩ := h.departs
    exact ⟨depth, hdeparts.mono hproceeds hfinished (hfound _ hdeparts.finished), hdepth⟩
  onTime hproceeds' hcheck := h.onTime (hproceeds.trans hproceeds') hcheck

/-- The source was handed out last, so that what was taken weighs no more than it does. -/
theorem of_source {depth above : Nat} (hdeparts : gen.Departs run leg.source depth leg.length)
    (hdepth : leg.depth = depth + leg.length) (habove : gen.heuristic leg.source = .ok (.finite above))
    (hpast : ∀ e ∈ taken, e.weight ≤ above + depth) : leg.Due gen taken run where
  departs := ⟨depth, hdeparts, hdepth⟩
  onTime {gen'} hproceeds hcheck {low edges} hexpects e he := by
    have hdeparts' := hdeparts.mono hproceeds (fun _ => id) rfl
    obtain ⟨n, hn, -⟩ := hdeparts'.edge
    have hdrop := Generation.le_of_checkConsistent hcheck hn (hproceeds.keeps.heuristic habove rfl)
      hexpects.heuristic
    have := hdeparts'.length_eq hn
    have := hpast e he
    omega

/-- The leg leads to the coverer of the node that was handed out last. -/
theorem of_coverer {depth above : Nat} {below : Distance}
    (hdeparts : gen.Departs run leg.source depth leg.length) (hdepth : leg.depth = depth + leg.length)
    (hlength : leg.length = 0) (hbelow : gen.heuristic leg.dest = .ok below)
    (hknown : below.isKnown = true) (hle : (Distance.finite above).notAbove below = true)
    (hpast : ∀ e ∈ taken, e.weight ≤ above + depth) : leg.Due gen taken run where
  departs := ⟨depth, hdeparts, hdepth⟩
  onTime {gen'} hproceeds _ {low edges} hexpects e he := by
    have hbelow' := hproceeds.keeps.heuristic hbelow hknown
    obtain rfl := Except.ok.inj (hbelow'.symm.trans hexpects.heuristic)
    have hle : above ≤ low := of_decide_eq_true hle
    have := hpast e he
    omega

/-- **What was finished was not finished deeper** than a leg that is due leads to it. -/
theorem exists_depth_le (h : leg.Due gen taken run) (hordered : run.Ordered gen' taken)
    (hproceeds : gen.Proceeds gen') (hsmall : ∀ e ∈ taken, e.weight < Distance.limit)
    (hcheck : gen'.checkConsistent leg.source leg.dest = .ok ())
    (hfinished : leg.dest ∈ run.finished) :
    ∃ d ≤ leg.depth, run.depth? leg.dest = some d := by
  obtain ⟨e, he, hd⟩ := hordered.first _ hfinished
  have hmem : e ∈ taken := List.mem_of_find?_eq_some he
  have hnode : e.node = leg.dest := by simpa using List.find?_some he
  obtain ⟨low, edges, hexpects, hweight⟩ := hordered.weighs e (List.mem_append_left _ hmem)
  have hle := h.onTime hproceeds hcheck (hnode ▸ hexpects) e hmem
  have hlow := hexpects.low_le hproceeds.proper
  have hlt := hsmall e hmem
  exact ⟨e.depth, by omega, hd⟩

end Leg.Due

namespace Stage.Valid

variable {gen gen' : Generation S P K} {visitsReached : Bool} {run run' : SearchRun}
variable {taken popped : List Entry} {followed pending : List Leg} {leg : Leg}

/-- The next leg was followed, and the node that it leads to let wait. -/
theorem followed_leg (h : Valid { run, taken, followed, pending := leg :: pending } gen visitsReached)
    (hproceeds : gen.Proceeds gen') (hsmall : ∀ e ∈ taken, e.weight < Distance.limit)
    (hcheck : gen'.checkConsistent leg.source leg.dest = .ok ())
    (hrun : SearchRun.Enqueued gen' leg.dest (some leg.source) leg.depth run run') :
    Valid { run := run', taken, followed := followed ++ [leg], pending } gen' visitsReached := by
  obtain ⟨hleg, hdue⟩ := List.forall_mem_cons.1 h.due
  have hordered := h.ordered.proceeds hproceeds
  have hordered' : run'.Ordered gen' taken := by
    refine hordered.enqueued hrun hsmall fun low edges hexpects e he => ?_
    have := hleg.onTime hproceeds hcheck hexpects e he
    have := hexpects.low_le hproceeds.proper
    omega
  obtain ⟨depth, hdeparts, hdepth⟩ := hleg.departs
  rcases hrun.hopeless_or_notes with ⟨hhopeless, rfl⟩ | hnotes
  · exact {
      proper := hproceeds.proper
      plain := h.plain.proceeds hproceeds
      ordered := hordered'
      start := h.start
      leads := fun hd => (h.leads hd).mono
      finds := by
        intro leg' hleg'
        rcases List.mem_append.1 hleg' with hleg' | hleg'
        · obtain ⟨d, hfinished, hd, hfound⟩ := h.finds leg' hleg'
          exact ⟨d, hfinished, hd, hfound.imp_left hproceeds.hopeless⟩
        · obtain rfl := List.mem_singleton.1 hleg'
          exact ⟨depth, hdeparts.finished, hdeparts.found, .inl hhopeless⟩
      parents := by
        intro i j hi
        obtain ⟨d, length, hj, hd⟩ := h.parents hi
        exact ⟨d, length, hj.mono hproceeds (fun _ => id) rfl, hd⟩
      due := fun leg' hleg' => (hdue leg' hleg').mono hproceeds (fun _ => id) fun _ _ => rfl }
  · have hsame : ∀ i ∈ run.finished, run'.depth? i = run.depth? i :=
      fun i hi => (hnotes.of_finished hi).1
    have hkeep : ∀ i ∈ run.finished, i ∈ run'.finished := fun i hi => hnotes.finished ▸ hi
    exact {
      proper := hproceeds.proper
      plain := h.plain.proceeds hproceeds
      ordered := hordered'
      start := by
        intro i hi
        obtain ⟨d, hle, hd⟩ := hnotes.exists_depth (h.start i (hnotes.start ▸ hi))
        exact Nat.le_zero.1 hle ▸ hd
      leads := by
        intro i d hd
        change Leg.Leads run'.start (followed ++ [leg]) i d
        rw [hnotes.start]
        rcases hnotes.cases i with ⟨hold, -⟩ | ⟨hi, -, -, hnew, -⟩
        · exact (h.leads (hold ▸ hd)).mono
        · obtain rfl := List.mem_singleton.1 hi
          obtain rfl := Option.some.inj (hnew.symm.trans hd)
          exact hdepth ▸ .step (h.leads hdeparts.found).mono (by simp)
      finds := by
        intro leg' hleg'
        rcases List.mem_append.1 hleg' with hleg' | hleg'
        · obtain ⟨d, hfinished, hd, hfound⟩ := h.finds leg' hleg'
          refine ⟨d, hkeep _ hfinished, (hsame _ hfinished).trans hd,
            hfound.imp hproceeds.hopeless ?_⟩
          rintro ⟨e, hle, he⟩
          obtain ⟨e', hle', he'⟩ := hnotes.exists_depth he
          exact ⟨e', hle'.trans hle, he'⟩
        · obtain rfl := List.mem_singleton.1 hleg'
          exact ⟨depth, hkeep _ hdeparts.finished, (hsame _ hdeparts.finished).trans hdeparts.found,
            .inr (hdepth ▸ hnotes.found _ List.mem_cons_self)⟩
      parents := by
        intro i j hj
        rcases hnotes.cases i with ⟨hd, hold⟩ | ⟨hi, -, -, hd, hnew⟩
        · obtain ⟨d, length, hdeparts', hd'⟩ := h.parents (hold.symm.trans hj)
          exact ⟨d, length, hdeparts'.mono hproceeds hkeep (hsame _ hdeparts'.finished),
            hd.trans hd'⟩
        · obtain rfl := Option.some.inj (hnew.symm.trans hj)
          exact ⟨depth, leg.length, hdeparts.mono hproceeds hkeep (hsame _ hdeparts.finished),
            hdepth ▸ hd⟩
      due := fun leg' hleg' => (hdue leg' hleg').mono hproceeds hkeep hsame }

/-- The next node was handed out, or there is none. -/
theorem took {next : Option (NodeId × Nat)} (h : Valid { run, taken, followed } gen visitsReached)
    (htakes : SearchRun.Takes gen visitsReached run popped next run')
    (hsmall : ∀ e ∈ popped, e.weight < Distance.limit) :
    Valid { run := run', taken := taken ++ popped, followed } gen visitsReached := by
  obtain ⟨hstart, hdepths, hparents, hfinished⟩ := htakes.same
  have hdepth : ∀ i, run'.depth? i = run.depth? i := fun i => by
    rw [SearchRun.depth?, hdepths]
    rfl
  have hparent : ∀ i, run'.parent? i = run.parent? i := fun i => by
    rw [SearchRun.parent?, hparents]
    rfl
  exact {
    proper := h.proper
    plain := h.plain
    ordered := h.ordered.takes htakes hsmall
    start := fun i hi => (hdepth i).trans (h.start i (hstart ▸ hi))
    leads := by
      intro i d hd
      change Leg.Leads run'.start followed i d
      exact hstart ▸ h.leads ((hdepth i).symm.trans hd)
    finds := by
      intro leg hleg
      obtain ⟨d, hsource, hd, hfound⟩ := h.finds leg hleg
      refine ⟨d, hfinished.subset hsource, (hdepth _).trans hd, hfound.imp_right ?_⟩
      rintro ⟨e, hle, he⟩
      exact ⟨e, hle, (hdepth _).trans he⟩
    parents := by
      intro i j hj
      obtain ⟨d, length, hdeparts, hd⟩ := h.parents ((hparent i).symm.trans hj)
      exact ⟨d, length, hdeparts.mono (.refl h.proper) (fun _ hk => hfinished.subset hk) (hdepth j),
        (hdepth i).trans hd⟩
    due := by simp }

/-- The search goes on in a later state of the generation, with other legs to follow. -/
theorem proceeds {legs : List Leg} (h : Valid { run, taken, followed } gen visitsReached)
    (hproceeds : gen.Proceeds gen') (hdue : ∀ leg ∈ legs, leg.Due gen' taken run) :
    Valid { run, taken, followed, pending := legs } gen' visitsReached where
  proper := hproceeds.proper
  plain := h.plain.proceeds hproceeds
  ordered := h.ordered.proceeds hproceeds
  start := h.start
  leads := h.leads
  finds leg hleg := by
    obtain ⟨d, hsource, hd, hfound⟩ := h.finds leg hleg
    exact ⟨d, hsource, hd, hfound.imp_left hproceeds.hopeless⟩
  parents hj := by
    obtain ⟨d, length, hdeparts, hd⟩ := h.parents hj
    exact ⟨d, length, hdeparts.mono hproceeds (fun _ => id) rfl, hd⟩
  due := hdue

/-- A search parent is forgotten. -/
theorem forgetParent (h : Valid { run, taken, followed } gen visitsReached) (id : NodeId) :
    Valid { run := run.forgetParent id, taken, followed } gen visitsReached where
  proper := h.proper
  plain := h.plain
  ordered := h.ordered.forgetParent id
  start := h.start
  leads := h.leads
  finds := h.finds
  parents {i j} hj := by
    simp only [SearchRun.parent?, SearchRun.forgetParent, NodeMap.get?_erase] at hj
    split at hj
    · cases hj
    · obtain ⟨d, length, hdeparts, hd⟩ := h.parents hj
      exact ⟨d, length, ⟨hdeparts.finished, hdeparts.found, hdeparts.edge⟩, hd⟩
  due := by simp

end Stage.Valid

namespace Exploration

open Explore

variable [DecidableEq S] [DecidableEq K]
variable {setup : Setup S P K} {older : Older S P K} {top index depth above : Nat}
variable {p q : Progress S P K} {gen : Generation S P K} {run run' : SearchRun} {id id' : NodeId}
variable {taken : List Entry} {followed legs : List Leg} {stage stage' : Stage}
variable {start searched : List NodeId} {stop : StopCriterion}

/-! ## Small steps -/

section

variable (holder : older.Moving setup top index) (hgen : p.history.get? index = some gen)

include holder hgen

section

variable (hproper : gen.Proper)

include hproper

theorem follow_proceeds {next : NodeId}
    (h : (follow setup older index run id next depth).run p = .ok (run', q)) :
    ∃ gen', q.history.get? index = some gen' ∧ gen.Proceeds gen' ∧
      gen'.checkConsistent id next = .ok () ∧
      (SearchRun.enqueue gen' next (some id) depth).run run = .ok () run' := by
  simp only [follow, run_bind_ok, run_generation_ok, run_lift_ok, run_pure_ok, Prod.exists,
    Edit.result_eq_ok] at h
  obtain ⟨d, r, hensure, gen', _, ⟨hgen', rfl⟩, _, _, ⟨hcheck, rfl⟩, _, mid, _, ⟨henqueue, rfl⟩, rfl,
    rfl⟩ := h
  obtain ⟨gen₁, hr, hproceeds, -⟩ := ensureHeuristic_proceeds holder hgen hproper hensure
  obtain rfl := Option.some.inj (hgen'.symm.trans hr)
  exact ⟨gen', hr, hproceeds, hcheck, henqueue⟩

/-- The visit is handed on at most to the search parent, which is covered by the same node then. -/
theorem reroute_proceeds
    (h : (reroute setup older index run id).run p = .ok ((id', run'), q)) :
    ∃ gen', q.history.get? index = some gen' ∧ gen.Proceeds gen' ∧
      (id' = id ∧ run' = run ∨ ∃ n coverer above below, run.parent? id = some id' ∧
        run' = run.forgetParent id ∧ gen'.graph.get? id' = some n ∧ n.covering = some coverer ∧
        gen.heuristic id = .ok above ∧ gen'.heuristic coverer = .ok below ∧
        below.isKnown = true ∧ above.notAbove below = true) := by
  obtain ⟨result, r, hclose, h⟩ := run_bind_ok.1 h
  obtain ⟨gen', hr, hproceeds, -, hcovered⟩ := close_proceeds holder hgen hproper hclose
  have hstay : (pure (id, run) : Explore S P K _).run r = .ok ((id', run'), q) →
      q.history.get? index = some gen' ∧ id' = id ∧ run' = run := by
    intro h
    obtain ⟨heq, rfl⟩ := run_pure_ok.1 h
    obtain ⟨rfl, rfl⟩ := Prod.mk.inj heq
    exact ⟨hr, rfl, rfl⟩
  cases result with
  | none =>
    obtain ⟨hq, hsame⟩ := hstay h
    exact ⟨gen', hq, hproceeds, .inl hsame⟩
  | some coverer =>
    dsimp only at h
    split at h
    · rename_i parent hparent
      simp only [run_bind_ok, run_generation_ok, run_lift_ok, Graph.node_eq_ok] at h
      obtain ⟨gen₁, _, ⟨hgen₁, rfl⟩, n, _, ⟨hn, rfl⟩, h⟩ := h
      obtain rfl := Option.some.inj (hr.symm.trans hgen₁)
      split at h
      · rename_i hcovering
        simp only [run_bind_ok, run_lift_ok, run_pure_ok, Prod.mk.injEq] at h
        obtain ⟨_, _, ⟨-, rfl⟩, ⟨rfl, rfl⟩, rfl⟩ := h
        obtain ⟨-, above, below, habove, -, hbelow, hknown, hle⟩ := hcovered coverer rfl
        exact ⟨gen', hr, hproceeds, .inr ⟨n, coverer, above, below, hparent, rfl, hn, hcovering,
          habove, hbelow, hknown, hle⟩⟩
      · obtain ⟨hq, hsame⟩ := hstay h
        exact ⟨gen', hq, hproceeds, .inl hsame⟩
    · obtain ⟨hq, hsame⟩ := hstay h
      exact ⟨gen', hq, hproceeds, .inl hsame⟩

end

/-- **The legs that a visit has to follow are due.** -/
theorem setOut_valid {visitsReached : Bool}
    (hvalid : Stage.Valid { run, taken, followed } gen visitsReached)
    (hfinished : id ∈ run.finished) (hdepth : run.depth? id = some depth)
    (habove : gen.heuristic id = .ok (.finite above))
    (hpast : ∀ e ∈ taken, e.weight ≤ above + depth)
    (h : (setOut setup older index run id depth).run p = .ok ((legs, run'), q)) :
    ∃ gen', q.history.get? index = some gen' ∧
      Stage.Valid { run := run', taken, followed, pending := legs } gen' visitsReached := by
  simp only [setOut, run_bind_ok, run_node_ok, Graph.node_eq_ok, Prod.exists] at h
  obtain ⟨id', mid, r, hreroute, n, _, ⟨gen', hr, hn, rfl⟩, h⟩ := h
  obtain ⟨gen₁, hgen₁, hproceeds, hcases⟩ := reroute_proceeds holder hgen hvalid.proper hreroute
  obtain rfl := Option.some.inj (hr.symm.trans hgen₁)
  cases hcovering : n.covering with
  | some coverer =>
    simp only [hcovering, run_pure_ok, Prod.mk.injEq] at h
    obtain ⟨⟨rfl, rfl⟩, rfl⟩ := h
    have hcovered : n.isCovered = true := by simp [Node.isCovered, hcovering]
    rcases hcases with ⟨rfl, rfl⟩ | ⟨n', coverer', above', below, hparent, rfl, hn', hcovering',
      habove', hbelow, hknown, hle⟩
    · refine ⟨gen', hr, hvalid.proceeds hproceeds (by
        simpa using .of_source ⟨hfinished, hdepth, n, hn, .inl ⟨hcovered, rfl⟩⟩ rfl
          (hproceeds.keeps.heuristic habove rfl) hpast)⟩
    · obtain rfl := Option.some.inj (hn.symm.trans hn')
      obtain rfl := Option.some.inj (hcovering.symm.trans hcovering')
      obtain rfl := Except.ok.inj (habove.symm.trans habove')
      -- the search parent was found at the same depth, since it is covered
      obtain ⟨d, length, hdeparts, hd⟩ := hvalid.parents hparent
      have hlength := (hdeparts.mono hproceeds (fun _ hi => hi) rfl).length_eq hn
      rw [hcovered] at hlength
      have hsame : depth = d := by
        have := Option.some.inj (hdepth.symm.trans hd)
        simpa [hlength] using this
      subst hsame
      refine ⟨gen', hr, (hvalid.forgetParent id).proceeds hproceeds (by
        simpa using .of_coverer ⟨hdeparts.finished, hdeparts.found, n, hn, .inl ⟨hcovered, rfl⟩⟩ rfl
          rfl hbelow hknown hle hpast)⟩
  | none =>
    simp only [hcovering] at h
    obtain ⟨rfl, rfl⟩ : id' = id ∧ mid = run := by
      refine hcases.resolve_right ?_
      rintro ⟨n', coverer', -, -, -, -, hn', hcovering', -⟩
      obtain rfl := Option.some.inj (hn.symm.trans hn')
      simp [hcovering] at hcovering'
    split at h
    · simp only [run_pure_ok, Prod.mk.injEq] at h
      obtain ⟨⟨rfl, rfl⟩, rfl⟩ := h
      exact ⟨gen', hr, hvalid.proceeds hproceeds (by simp)⟩
    · simp only [run_bind_ok, run_node_ok, run_pure_ok, Prod.mk.injEq, Graph.node_eq_ok] at h
      obtain ⟨_, s, hensure, m, _, ⟨gen₂, hs, hm, rfl⟩, ⟨rfl, rfl⟩, rfl⟩ := h
      obtain ⟨gen'', m', hs', hproceeds', hm', hfree, hexpanded⟩ :=
        ensureExpanded_proceeds holder hr hproceeds.proper hn hcovering hensure
      obtain rfl := Option.some.inj (hs.symm.trans hs')
      obtain rfl := Option.some.inj (hm.symm.trans hm')
      refine ⟨gen₂, hs, hvalid.proceeds (hproceeds.trans hproceeds') ?_⟩
      simp only [List.mem_map, forall_exists_index, and_imp, forall_apply_eq_imp_iff₂]
      exact fun succ _ => .of_source ⟨hfinished, hdepth, m, hm, .inr ⟨hfree, hexpanded, rfl⟩⟩ rfl
        ((hproceeds.trans hproceeds').keeps.heuristic habove rfl) hpast

/-- **A small step keeps what a search keeps true**, as long as sums stay below the limit. -/
theorem advance_valid (hvalid : stage.Valid gen setup.search.visitsReached)
    (h : (advance setup older index stage).run p = .ok (stage', q))
    (hsmall : ∀ e ∈ stage'.taken, e.weight < Distance.limit) :
    ∃ gen', q.history.get? index = some gen' ∧ stage'.Valid gen' setup.search.visitsReached := by
  obtain ⟨run, taken, followed, pending⟩ := stage
  cases pending with
  | cons leg pending =>
    simp only [advance, run_bind_ok, run_pure_ok] at h
    obtain ⟨run', r, hfollow, rfl, rfl⟩ := h
    obtain ⟨gen', hr, hproceeds, hcheck, henqueue⟩ :=
      follow_proceeds holder hgen hvalid.proper hfollow
    have hleg := hvalid.due leg List.mem_cons_self
    have hordered := hvalid.ordered.proceeds hproceeds
    refine ⟨gen', hr, hvalid.followed_leg hproceeds hsmall hcheck ?_⟩
    exact SearchRun.enqueue_cases hproceeds.proper
      (fun _ => hleg.exists_depth_le hordered hproceeds hsmall hcheck) henqueue
  | nil =>
    simp only [advance, run_bind_ok, run_generation_ok, run_lift_ok, Prod.exists,
      Edit.result_eq_ok] at h
    obtain ⟨_, _, ⟨hgen', rfl⟩, next, mid, _, ⟨hnext, rfl⟩, h⟩ := h
    obtain rfl := Option.some.inj (hgen.symm.trans hgen')
    obtain ⟨popped, htakes⟩ := SearchRun.next_takes hnext
    have hpopped : run.waitlist.take (run.waitlist.length - mid.waitlist.length) = popped := by
      rw [htakes.waitlist_eq]
      simp
    rw [hpopped] at h
    have htook : (∀ e ∈ popped, e.weight < Distance.limit) → Stage.Valid
        { run := mid, taken := taken ++ popped, followed } gen setup.search.visitsReached :=
      hvalid.took htakes
    cases next with
    | none =>
      obtain ⟨rfl, rfl⟩ := run_pure_ok.1 h
      exact ⟨gen, hgen, htook fun e he => hsmall e (List.mem_append_right _ he)⟩
    | some entry =>
      obtain ⟨id, depth⟩ := entry
      simp only [run_bind_ok, run_pure_ok, Prod.exists] at h
      obtain ⟨legs, run', r, hout, rfl, rfl⟩ := h
      have hpopped' : ∀ e ∈ popped, e.weight < Distance.limit :=
        fun e he => hsmall e (List.mem_append_right _ he)
      have hvalid' := htook hpopped'
      obtain ⟨hfinished, hdepth, hvisits, entry, ⟨low, edges, hexpects, hweight⟩, rfl, rfl, hlast⟩ :=
        hvalid.ordered.handedOut htakes hpopped'
      have hedges : edges = low := hvalid'.plain.edges_eq hvalid'.proper hexpects hvisits
      refine setOut_valid holder hgen hvalid' hfinished hdepth hexpects.heuristic (fun e he => ?_) hout
      have := hlast e he
      omega

omit holder hgen in
theorem taken_prefix_of_advance (h : (advance setup older index stage).run p = .ok (stage', q)) :
    stage.taken <+: stage'.taken := by
  unfold advance at h
  split at h
  · obtain ⟨_, _, -, h⟩ := run_bind_ok.1 h
    obtain ⟨rfl, -⟩ := run_pure_ok.1 h
    exact List.prefix_refl _
  · simp only [run_bind_ok, Prod.exists] at h
    obtain ⟨_, _, -, next, mid, _, -, h⟩ := h
    cases next with
    | none =>
      obtain ⟨rfl, -⟩ := run_pure_ok.1 h
      exact List.prefix_append _ _
    | some entry =>
      simp only [run_bind_ok, run_pure_ok, Prod.exists] at h
      obtain ⟨_, _, _, -, rfl, -⟩ := h
      exact List.prefix_append _ _

omit holder hgen in
theorem taken_prefix_of_advanceBy {steps : Nat}
    (h : (advanceBy setup older index steps stage).run p = .ok (stage', q)) :
    stage.taken <+: stage'.taken := by
  induction steps generalizing stage p with
  | zero => exact (run_pure_ok.1 h).1 ▸ List.prefix_refl _
  | succ steps ih =>
    obtain ⟨mid, r, hfirst, hrest⟩ := run_bind_ok.1 h
    exact (taken_prefix_of_advance hfirst).trans (ih hrest)

theorem advanceBy_valid {steps : Nat} (hvalid : stage.Valid gen setup.search.visitsReached)
    (h : (advanceBy setup older index steps stage).run p = .ok (stage', q))
    (hsmall : ∀ e ∈ stage'.taken, e.weight < Distance.limit) :
    ∃ gen', q.history.get? index = some gen' ∧ stage'.Valid gen' setup.search.visitsReached := by
  induction steps generalizing stage p gen with
  | zero =>
    obtain ⟨rfl, rfl⟩ := run_pure_ok.1 h
    exact ⟨gen, hgen, hvalid⟩
  | succ steps ih =>
    obtain ⟨mid, r, hfirst, hrest⟩ := run_bind_ok.1 h
    have htaken := taken_prefix_of_advanceBy hrest
    obtain ⟨gen₁, hr, hmid⟩ := advance_valid holder hgen hvalid hfirst
      fun e he => hsmall e (htaken.subset he)
    exact ih hr hmid hrest

/-! ## The first stage -/

omit [DecidableEq S] [DecidableEq K] holder in
/-- What may not be searched from is given an infinite distance, and the rest is not hopeless. -/
theorem searchableStart_proper (hproper : gen.Proper)
    (h : (searchableStart index start).run p = .ok (searched, q)) :
    ∃ gen', q.history.get? index = some gen' ∧ gen'.Proper ∧ gen'.graph = gen.graph ∧
      (∀ {i edges}, gen'.distance i = .ok (.finite edges) → gen.distance i = .ok (.finite edges)) ∧
      (∀ {i}, gen'.Hopeless i → gen.Hopeless i) ∧ ∀ i ∈ searched, ¬ gen'.Hopeless i := by
  induction start generalizing p gen searched with
  | nil =>
    obtain ⟨rfl, rfl⟩ := run_pure_ok.1 h
    exact ⟨gen, hgen, hproper, rfl, id, id, by simp⟩
  | cons id start ih =>
    simp only [searchableStart, run_bind_ok, run_generation_ok, run_lift_ok] at h
    obtain ⟨_, _, ⟨hgen', rfl⟩, d, _, ⟨hd, rfl⟩, h⟩ := h
    obtain rfl := Option.some.inj (hgen.symm.trans hgen')
    split at h
    · rename_i hrefuted
      obtain rfl := Distance.isInfinite_iff.1 hrefuted
      simp only [run_bind_ok, run_setDistance_ok] at h
      obtain ⟨_, _, ⟨_, gen₁, hgen', hset, rfl⟩, h⟩ := h
      obtain rfl := Option.some.inj (hgen.symm.trans hgen')
      have hwrites : gen.DistanceWrites gen₁ := .of_setDistance hset
      obtain ⟨gen', hq, hproper', hgraph, hfinite, hhopeless, hall⟩ :=
        ih (Progress.get?_put_self hgen) (hproper.setDistance hset) h
      refine ⟨gen', hq, hproper', hgraph.trans hwrites.graph, fun hi => ?_, fun hi => ?_, hall⟩
      · refine (Generation.distance_of_setDistance hset (hfinite hi)).resolve_left ?_
        simp
      · rcases hhopeless hi with hi | hi
        · exact .inl (hwrites.heuristic_eq_ok.1 hi)
        · rcases Generation.distance_of_setDistance hset hi with ⟨rfl, -⟩ | hi
          · exact .inl hd
          · exact .inr hi
    · rename_i hhope
      simp only [run_bind_ok, run_lift_ok] at h
      obtain ⟨e, _, ⟨he, rfl⟩, h⟩ := h
      split at h
      · exact ih hgen hproper h
      · rename_i hopen
        simp only [run_bind_ok, run_pure_ok] at h
        obtain ⟨rest, _, hrest, rfl, rfl⟩ := h
        obtain ⟨gen', hq, hproper', hgraph, hfinite, hhopeless, hall⟩ := ih hgen hproper hrest
        refine ⟨gen', hq, hproper', hgraph, hfinite, hhopeless, List.forall_mem_cons.2 ⟨?_, hall⟩⟩
        intro hid
        rcases hhopeless hid with hid | hid
        · exact hhope (Distance.isInfinite_iff.2 (Except.ok.inj (hd.symm.trans hid)))
        · exact hopen (Distance.isInfinite_iff.2 (Except.ok.inj (he.symm.trans hid)))

/-- **A search begins** with start nodes that were all found at depth 0. -/
theorem firstStage_valid (hproper : gen.Proper) (hplain : gen.Plain setup.search.visitsReached)
    (h : (firstStage setup older index start stop).run p = .ok (stage, q)) :
    ∃ gen', q.history.get? index = some gen' ∧ stage.Valid gen' setup.search.visitsReached := by
  simp only [firstStage, run_bind_ok, run_generation_ok, run_lift_ok, run_pure_ok, Prod.exists,
    Edit.result_eq_ok] at h
  obtain ⟨_, r, hensure, searched, s, hsearched, gen₂, _, ⟨hs, rfl⟩, _, run, _, ⟨henqueue, rfl⟩, rfl,
    rfl⟩ := h
  have hensured : ∃ gen₁, r.history.get? index = some gen₁ ∧ gen.Proceeds gen₁ := by
    refine run_forM_induct (motive := fun r => ∃ gen₁, r.history.get? index = some gen₁ ∧
      gen.Proceeds gen₁) ?_ ⟨gen, hgen, .refl hproper⟩ hensure
    rintro i r r' - ⟨gen₁, hr, hproceeds⟩ hrun
    obtain ⟨_, _, hone, hpure⟩ := run_bind_ok.1 hrun
    obtain ⟨-, rfl⟩ := run_pure_ok.1 hpure
    obtain ⟨gen₂, hr', hproceeds', -⟩ := ensureHeuristic_proceeds holder hr hproceeds.proper hone
    exact ⟨gen₂, hr', hproceeds.trans hproceeds'⟩
  obtain ⟨gen₁, hr, hproceeds⟩ := hensured
  obtain ⟨gen', hs', hproper', hgraph, hfinite, -, hhope⟩ :=
    searchableStart_proper hr hproceeds.proper hsearched
  obtain rfl := Option.some.inj (hs.symm.trans hs')
  obtain ⟨hordered, hnotes⟩ :=
    SearchRun.forM_enqueue_start hproper' henqueue (.start searched stop) rfl hhope
  have hempty : ∀ i, SearchRun.depth? { start := searched, stop } i = none := fun i => by
    simp [SearchRun.depth?, NodeMap.get?_empty]
  have hstart : run.start = searched := hnotes.start
  have hfound : ∀ {i d}, run.depth? i = some d → i ∈ run.start ∧ d = 0 := by
    intro i d hd
    rcases hnotes.cases i with ⟨hold, -⟩ | ⟨hi, -, -, hnew, -⟩
    · simp [hempty, hd] at hold
    · exact ⟨hstart ▸ hi, Option.some.inj (hd.symm.trans hnew)⟩
  exact ⟨gen₂, hs, {
    proper := hproper'
    plain := fun hvisits _ _ hd => hgraph ▸ hplain.proceeds hproceeds hvisits (hfinite hd)
    ordered := hordered
    start := by
      intro i hi
      obtain ⟨d, hle, hd⟩ := hnotes.found i (hstart ▸ hi)
      exact Nat.le_zero.1 hle ▸ hd
    leads := by
      intro i d hd
      obtain ⟨hi, rfl⟩ := hfound hd
      exact .start hi
    finds := by simp
    parents := by
      intro i j hj
      rcases hnotes.cases i with ⟨-, hold⟩ | ⟨-, -, -, -, hnew⟩
      · rw [show run.parent? i = some j from hj] at hold
        simp [SearchRun.parent?, NodeMap.get?_empty] at hold
      · simp [hnew] at hj
    due := by simp }⟩

/-- **A search keeps true at every stage what it keeps true.** -/
theorem stageAfter_valid {steps : Nat} (hproper : gen.Proper)
    (hplain : gen.Plain setup.search.visitsReached)
    (h : (stageAfter setup older index start stop steps).run p = .ok (stage, q))
    (hsmall : ∀ e ∈ stage.taken, e.weight < Distance.limit) :
    ∃ gen', q.history.get? index = some gen' ∧ stage.Valid gen' setup.search.visitsReached := by
  obtain ⟨first, r, hfirst, hsteps⟩ := run_bind_ok.1 h
  obtain ⟨gen₁, hr, hvalid⟩ := firstStage_valid holder hgen hproper hplain hfirst
  exact advanceBy_valid holder hr hvalid hsteps hsmall

end

end Exploration

/-! ## What follows -/

/-- A search came to a stage best-first: entries were taken in the order of their weights, each the sum
of its depth and what is expected of the way on; each node was finished once, with the first of its
entries that was taken and at the depth of that entry, the least length of a way along the legs that
were followed; and nodes were reached in the order of the distances through them. -/
structure Stage.BestFirst (stage : Stage) (gen : Generation S P K) : Prop where
  weights : ∀ e ∈ stage.taken, ∃ edges,
    gen.estimate e.node = .ok (.finite edges) ∧ e.weight = e.depth + edges
  sorted : stage.taken.Pairwise fun a b => a.weight ≤ b.weight
  once : stage.run.finished.Nodup
  least : ∀ id ∈ stage.run.finished, ∃ e, Entry.first? stage.taken id = some e ∧
    stage.run.depth? id = some e.depth ∧
      IsLeast {length | Leg.Leads stage.run.start stage.followed id length} e.depth
  reached : stage.run.reached.Pairwise fun i j => ∃ m n,
    stage.run.distanceUntilTarget gen i = .ok m ∧ stage.run.distanceUntilTarget gen j = .ok n ∧ m ≤ n

namespace Stage.Valid

variable {gen : Generation S P K} {stage : Stage} {visitsReached : Bool} {id : NodeId} {length : Nat}

/-- A finished node may reach a target. -/
theorem not_hopeless (h : stage.Valid gen visitsReached) (hid : id ∈ stage.run.finished) :
    ¬ gen.Hopeless id := by
  obtain ⟨e, he, -⟩ := h.ordered.first id hid
  have hmem : e ∈ stage.taken := List.mem_of_find?_eq_some he
  have hnode : e.node = id := by simpa using List.find?_some he
  obtain ⟨low, edges, hexpects, -⟩ := h.ordered.weighs e (List.mem_append_left _ hmem)
  exact hnode ▸ hexpects.not_hopeless

/-- **No way along the legs is shorter** than the depth at which a node was found. -/
theorem depth_le_of_leads (h : stage.Valid gen visitsReached)
    (hleads : Leg.Leads stage.run.start stage.followed id length) :
    gen.Hopeless id ∨ ∃ d ≤ length, stage.run.depth? id = some d := by
  induction hleads with
  | start hid => exact .inr ⟨0, Nat.le_refl 0, h.start _ hid⟩
  | @step leg length _ hleg ih =>
    obtain ⟨depth, hfinished, hdepth, hfound⟩ := h.finds leg hleg
    obtain ⟨d, hle, hd⟩ := ih.resolve_left (h.not_hopeless hfinished)
    obtain rfl := Option.some.inj (hd.symm.trans hdepth)
    exact hfound.imp_right fun ⟨e, hle', he⟩ => ⟨e, by omega, he⟩

theorem bestFirst (h : stage.Valid gen visitsReached)
    (hsmall : ∀ e ∈ stage.taken, e.weight < Distance.limit) : stage.BestFirst gen where
  weights e he := by
    obtain ⟨low, edges, hexpects, hweight⟩ := h.ordered.weighs e (List.mem_append_left _ he)
    have := hsmall e he
    exact ⟨edges, hexpects.estimate, by omega⟩
  sorted := (List.pairwise_append.1 h.ordered.sorted).1
  once := h.ordered.nodup
  least id hid := by
    obtain ⟨e, he, hd⟩ := h.ordered.first id hid
    refine ⟨e, he, hd, h.leads hd, fun length hleads => ?_⟩
    obtain ⟨d, hle, hd'⟩ := (h.depth_le_of_leads hleads).resolve_left (h.not_hopeless hid)
    exact Option.some.inj (hd'.symm.trans hd) ▸ hle
  reached := h.ordered.reached_order h.proper hsmall

end Stage.Valid

namespace Exploration

variable [DecidableEq S] [DecidableEq K] {setup : Setup S P K} {bound index : Nat}
variable {p : Progress S P K} {gen : Generation S P K} {start : List NodeId} {stop : StopCriterion}

/-- **A search goes best-first at every stage**, however nodes are covered and handed on meanwhile, and
what the next leg leads to can wait once the heuristics along it pass their check: it was not finished
at a larger depth. A search that ends was settled at one of its stages. It is assumed that no weight
that was taken has come to the limit of sums, and that a search that visits what it reaches begins
without known distances but of targets; the searches of a check begin so, see
`Abstractor.RefinementRun.searches_bestFirst`. -/
theorem search_bestFirst (hbound : index ≤ bound) (hgen : p.history.get? index = some gen)
    (hwf : gen.graph.WellFormed) (hfits : gen.checkSearchNodes = .ok ())
    (hplain : gen.Plain setup.search.visitsReached) :
    (∀ {q}, (search setup (below setup bound) index start stop).run p = .ok ((), q) →
      ∃ steps stage r, (stageAfter setup (below setup bound) index start stop steps).run p =
        .ok (stage, r) ∧ stage.pending = [] ∧ (settle setup index stage.run).run r = .ok ((), q)) ∧
    ∀ {steps stage q},
      (stageAfter setup (below setup bound) index start stop steps).run p = .ok (stage, q) →
      (∀ e ∈ stage.taken, e.weight < Distance.limit) →
      ∃ now, q.history.get? index = some now ∧ stage.BestFirst now ∧
        ∀ leg pending, stage.pending = leg :: pending → ∀ value r next,
          (ensureHeuristic setup (below setup bound) index leg.dest).run q = .ok (value, r) →
          r.history.get? index = some next → next.checkConsistent leg.source leg.dest = .ok () →
          ∃ run, (SearchRun.enqueue next leg.dest (some leg.source) leg.depth).run stage.run =
            .ok () run := by
  refine ⟨search_staged, fun {steps stage q} hstage hsmall => ?_⟩
  have holder : (below setup bound).Moving setup bound index :=
    (below_moving (Nat.le_refl bound)).mono hbound
  obtain ⟨now, hnow, hvalid⟩ := stageAfter_valid holder hgen
    (Generation.proper_of_checkSearchNodes hwf hfits) hplain hstage hsmall
  refine ⟨now, hnow, hvalid.bestFirst hsmall, ?_⟩
  intro leg pending hpending value r next hensure hnext hcheck
  obtain ⟨next', hnext', hproceeds, -, hvalue, hknown⟩ :=
    ensureHeuristic_proceeds holder hnow hvalid.proper hensure
  obtain rfl := Option.some.inj (hnext.symm.trans hnext')
  obtain ⟨k, hk, rfl⟩ := Generation.heuristic_eq_ok.1 hvalue
  obtain ⟨n, hn, -⟩ := hproceeds.proper.fits hk
  have hdue := hvalid.due leg (hpending ▸ List.mem_cons_self)
  obtain ⟨run, hrun, -⟩ := SearchRun.exists_enqueue_cases (some leg.source) hn hk hknown
    fun _ => hdue.exists_depth_le (hvalid.ordered.proceeds hproceeds) hproceeds hsmall hcheck
  exact ⟨run, hrun⟩

/-- An analysis under which 2 is covered by 3, although it is found before 3 is, and 3 by 4, which does
not cover 2. -/
def handedOn : Analysis Nat Unit Unit where
  initStates _ := [0]
  succStates s _ := if s = 0 then [1, 2] else if s = 1 then [3, 4] else if s = 4 then [5] else []
  isTarget s := s == 5
  isBottom _ := false
  isLeq a b := a == b || a == 2 && b == 3 || a == 3 && b == 4
  key _ := ()

/-- Here the visit of 3 is handed on to 2, from which 3 was found, and 4 is found from there at depth 1,
above the depth at which it was found first. -/
theorem search_bestFirst_handedOn :
    ∃ (p q : Progress Nat Unit Unit) (gen now : Generation Nat Unit Unit) (stage : Stage),
      p.history.get? 0 = some gen ∧ gen.graph.WellFormed ∧ gen.checkSearchNodes = .ok () ∧
      gen.Plain true ∧
      (stageAfter ⟨handedOn, .full, 9⟩ (below ⟨handedOn, .full, 9⟩ 0) 0 [0] .fullExploration 14).run p =
        .ok (stage, q) ∧ (∀ e ∈ stage.taken, e.weight < Distance.limit) ∧
      stage.followed = [⟨0, 1, 1, 1⟩, ⟨0, 2, 1, 1⟩, ⟨1, 3, 1, 2⟩, ⟨1, 4, 1, 2⟩, ⟨2, 3, 0, 1⟩,
        ⟨2, 4, 0, 1⟩, ⟨4, 5, 1, 2⟩] ∧
      stage.run.reached = [5] ∧ q.history.get? 0 = some now ∧ stage.BestFirst now := by
  let setup : Setup Nat Unit Unit := ⟨handedOn, .full, 9⟩
  let first : Generation Nat Unit Unit := { graph := {}, prec := () }
  let empty : Progress Nat Unit Unit := ⟨⟨#[some first], .all⟩, {}⟩
  have hruns : (do
      let (_, begun) ← (ensureInitialized setup 0).run empty
      let (stage, _) ← (stageAfter setup (below setup 0) 0 [0] .fullExploration 14).run begun
      return ((begun.history.get? 0).map (·.checkSearchNodes),
        stage.taken.all (·.weight < Distance.limit), stage.followed, stage.run.reached) :
      Except Halt (Option (Except Fault Unit) × Bool × List Leg × List NodeId)) =
      .ok (some (.ok ()), true, [⟨0, 1, 1, 1⟩, ⟨0, 2, 1, 1⟩, ⟨1, 3, 1, 2⟩, ⟨1, 4, 1, 2⟩, ⟨2, 3, 0, 1⟩,
        ⟨2, 4, 0, 1⟩, ⟨4, 5, 1, 2⟩], [5]) := by
    decide +kernel
  simp only [bind_eq_ok, Prod.exists, pure_eq_ok, Prod.mk.injEq, List.all_eq_true,
    decide_eq_true_eq] at hruns
  obtain ⟨_, p, hinitialize, stage, q, hstage, hfits, hsmall, hfollowed, hreached⟩ := hruns
  have hempty : first.Proper := ⟨.empty, by simp [first, NodeMap.get?_empty]⟩
  obtain ⟨gen, hgen, hproceeds⟩ := ensureInitialized_proceeds rfl hempty hinitialize
  have hfits : gen.checkSearchNodes = .ok () := by simpa [hgen] using hfits
  have hplain : gen.Plain setup.search.visitsReached := by
    intro _ i edges hd
    obtain ⟨k, hk, -⟩ := Generation.distance_eq_ok.1 (hproceeds.known hd rfl)
    simp [first, NodeMap.get?_empty] at hk
  obtain ⟨now, hnow, hbest, -⟩ := (search_bestFirst (Nat.le_refl 0) hgen hproceeds.proper.wellFormed
    hfits hplain).2 hstage hsmall
  exact ⟨p, q, gen, now, stage, hgen, hproceeds.proper.wellFormed, hfits, hplain, hstage, hsmall,
    hfollowed, hreached, hnow, hbest⟩

end Exploration

end GuidedReach
