import GuidedReach.Proofs.SearchRun.Survey

/-!
# The paths that a search without heuristics has found

A finished search knows the shortest paths in its graph, as far as targets can be reached. Its search
parents lead back to a start node: each is found at a smaller depth or, at the same depth, is covered
by the node that was found from it.

* `SearchRun.OnPath` — the nodes on the search path up from a goal.
* `SearchRun.rank` — what decreases on the way up.
* `SearchRun.Survey.exists_path` — the search path is a path of the graph.
* `SearchRun.Survey.nearestTarget` — the first target that was reached is as near as any.
* `SearchRun.Survey.handled_of_nearer`, `SearchRun.Survey.handled_of_exhausted` — whatever is nearer
  was explored.
-/

namespace GuidedReach.SearchRun

variable {S P K : Type} {gen : Generation S P K} {run : SearchRun} {pace depth nearest : Nat}
variable {visits : Bool} {goal id : NodeId} {n : Node S}

/-! ## Search paths -/

/-- The nodes on the search path up from a goal. -/
def OnPath (run : SearchRun) (goal : NodeId) : NodeId → Prop :=
  Relation.ReflTransGen (fun i p => run.parent? i = some p) goal

theorem OnPath.exists_below (h : run.OnPath goal id) (hne : id ≠ goal) :
    ∃ c, run.OnPath goal c ∧ run.parent? c = some id :=
  (Relation.ReflTransGen.cases_tail h).resolve_left hne

/-- Decreases on the way up a search path. -/
def rank (run : SearchRun) (g : Graph S) (id : NodeId) : Nat :=
  2 * (run.depth? id).getD 0 + if g.test Node.isCovered id then 0 else 1

namespace Survey

variable (h : run.Survey visits none gen) (hwf : gen.graph.WellFormed)

include h

include hwf in
theorem rank_lt {i p : NodeId} (hp : run.parent? i = some p) :
    run.rank gen.graph p < run.rank gen.graph i := by
  obtain ⟨-, -, w, d, hedge, hd, hi⟩ := h.parent hp
  simp only [rank, hd, hi, Option.getD_some]
  cases hedge with
  | tree _ _ => split <;> split <;> omega
  | covering ha hcovering =>
    -- no coverer is covered itself
    obtain ⟨-, b, hb, hfree, -⟩ := hwf.covering_link ha hcovering
    have hcovered : gen.graph.test Node.isCovered p = true := by
      simp [Graph.test, ha, Node.isCovered, hcovering]
    have hopen : gen.graph.test Node.isCovered i = false := by
      simp [Graph.test, hb, Node.isCovered, hfree]
    rw [hcovered, hopen]
    simp

include hwf in
/-- **A search path is a path of the graph**, by induction on the rank. -/
theorem exists_path {i : NodeId} {d : Nat} (hroot : run.Rooted i) (hd : run.depth? i = some d) :
    ∃ s ∈ run.start, gen.graph.Path s i d := by
  induction hrank : run.rank gen.graph i using Nat.strongRecOn generalizing i d with
  | ind r ih =>
    rcases hroot with hstart | ⟨p, hp⟩
    · obtain rfl := Option.some.inj (hd.symm.trans (h.start i hstart))
      exact ⟨i, hstart, .refl i⟩
    · obtain ⟨-, hroot', w, d', hedge, hd', hi⟩ := h.parent hp
      obtain ⟨s, hs, hpath⟩ := ih _ (hrank ▸ h.rank_lt hwf hp) hroot' hd' rfl
      obtain rfl := Option.some.inj (hd.symm.trans hi)
      refine ⟨s, hs, ?_⟩
      have hlast : gen.graph.Path p i (w + 0) := .step hedge (.refl i)
      simpa using hpath.trans hlast

/-- What a path leads to was found, no deeper than the path is long. -/
theorem found_of_path {i j : NodeId} {d length : Nat} (hpath : gen.graph.Path i j length)
    (hd : run.depth? i = some d) : ∃ e ≤ d + length, run.depth? j = some e := by
  induction hpath generalizing d with
  | refl => exact ⟨d, Nat.le_refl d, hd⟩
  | step hedge _ ih =>
    obtain ⟨e, hle, he⟩ := h.edge hedge hd
    obtain ⟨e', hle', he'⟩ := ih he
    exact ⟨e', by omega, he'⟩

/-- What a path from a start node leads to. -/
theorem found_of_start {i j : NodeId} {length : Nat} (hpath : gen.graph.Path i j length)
    (hi : i ∈ run.start) : ∃ e ≤ length, run.depth? j = some e := by
  obtain ⟨e, hle, he⟩ := h.found_of_path hpath (h.start i hi)
  exact ⟨e, by omega, he⟩

/-- What was reached are targets. -/
theorem isTarget_of_reached {i : NodeId} (hi : i ∈ run.reached) :
    i ∈ run.finished ∧ ∃ n, gen.graph.get? i = some n ∧ n.isTarget = true := by
  rw [h.reached, List.mem_filter] at hi
  refine ⟨hi.1, ?_⟩
  simpa [Graph.test, Option.any_eq_true] using hi.2

theorem mem_reached {i : NodeId} (hi : i ∈ run.finished) (hn : gen.graph.get? i = some n)
    (htarget : n.isTarget = true) : i ∈ run.reached := by
  rw [h.reached]
  exact List.mem_filter.2 ⟨hi, by simp [Graph.test, hn, htarget]⟩

/-! ## Once something was reached -/

section

variable {rest : List NodeId} (hlevels : run.Levelled pace) (hreached : run.reached = goal :: rest)
variable (hgoal : run.depth? goal = some nearest)

include hlevels

/-- What was reached is in the order of its depths. -/
theorem pairwise_reached : run.reached.Pairwise fun i j =>
    ∀ d e, run.depth? i = some d → run.depth? j = some e → d ≤ e := by
  rw [h.reached]
  exact hlevels.ordered.sublist List.filter_sublist

include hreached hgoal

/-- Nothing waits above the first target. -/
theorem finished_of_lt {i : NodeId} {d : Nat} (hd : run.depth? i = some d) (hlt : d < nearest) :
    i ∈ run.finished := by
  refine (hlevels.found hd).resolve_right ?_
  rintro ⟨e, he, -, rfl⟩
  obtain ⟨-, hpace, -⟩ := hlevels.waiting e he
  obtain ⟨hfinished, -⟩ := h.isTarget_of_reached (hreached ▸ List.mem_cons_self : goal ∈ run.reached)
  obtain ⟨d', hle, hd'⟩ := hlevels.finished goal hfinished
  rw [hgoal] at hd'
  cases hd'
  omega

/-- **No target was found above the first** that was reached. -/
theorem nearest_le {i : NodeId} {d : Nat} (hd : run.depth? i = some d)
    (hn : gen.graph.get? i = some n) (htarget : n.isTarget = true) : nearest ≤ d := by
  by_contra hlt
  have hmem := h.mem_reached (h.finished_of_lt hlevels hreached hgoal hd (by omega)) hn htarget
  have hsorted := h.pairwise_reached hlevels
  rw [hreached] at hmem hsorted
  rcases List.mem_cons.1 hmem with rfl | hmem
  · rw [hgoal] at hd
    cases hd
    exact hlt (Nat.le_refl _)
  · exact hlt ((List.pairwise_cons.1 hsorted).1 i hmem _ _ hgoal hd)

/-- Whatever is nearer than the first target was explored. -/
theorem handled_of_nearer {i j : NodeId} {length : Nat} (hpath : gen.graph.Path i j length)
    (hi : i ∈ run.start) (hlt : length < nearest) (hn : gen.graph.get? j = some n) :
    n.isCovered = true ∨ n.isExpanded = true ∨ n.isFeasible = false := by
  obtain ⟨e, hle, he⟩ := h.found_of_start hpath hi
  refine h.handled hn ⟨h.finished_of_lt hlevels hreached hgoal he (by omega), by simp, .inr ?_⟩
  by_contra htarget
  have := h.nearest_le hlevels hreached hgoal he hn (by simpa using htarget)
  omega

end

/-- **The first target that was reached is as near as any.** If it was covered in its visit, then its
coverer is as near and the search path leads there. -/
theorem nearestTarget {rest : List NodeId} (hwf : gen.graph.WellFormed) (hlevels : run.Levelled pace)
    (hreached : run.reached = goal :: rest) (hgoal : run.depth? goal = some nearest)
    (hstands : ∀ {i c n m}, gen.graph.get? i = some n → n.covering = some c →
      gen.graph.get? c = some m → n.isTarget = true → m.isTarget = true) :
    gen.graph.NearestTarget run.start (some nearest) := by
  constructor
  · obtain ⟨-, n, hn, htarget⟩ := h.isTarget_of_reached (hreached ▸ List.mem_cons_self : goal ∈ run.reached)
    cases hcovering : n.covering with
    | none =>
      have hroot := (h.origin hgoal hn).resolve_right (by simp [Node.isCovered, hcovering])
      obtain ⟨s, hs, hpath⟩ := h.exists_path hwf hroot hgoal
      exact ⟨s, hs, goal, n, hpath, hn, htarget⟩
    | some c =>
      obtain ⟨-, m, hm, hfree, -⟩ := hwf.covering_link hn hcovering
      have htarget' := hstands hn hcovering hm htarget
      obtain ⟨e, hle, he⟩ := h.edge (.covering hn hcovering) hgoal
      have hge := h.nearest_le hlevels hreached hgoal he hm htarget'
      obtain rfl : e = nearest := by omega
      have hroot := (h.origin he hm).resolve_right (by simp [Node.isCovered, hfree])
      obtain ⟨s, hs, hpath⟩ := h.exists_path hwf hroot he
      exact ⟨s, hs, c, m, hpath, hm, htarget'⟩
  · rintro length ⟨i, hi, target, n, hpath, hn, htarget⟩
    obtain ⟨e, hle, he⟩ := h.found_of_start hpath hi
    exact (h.nearest_le hlevels hreached hgoal he hn htarget).trans hle

/-! ## Once nothing waits -/

section

variable (hlevels : run.Levelled pace) (hwaitlist : run.waitlist = [])

include hlevels hwaitlist

omit h in
/-- All that was found is finished. -/
theorem finished_of_exhausted {i : NodeId} {d : Nat} (hd : run.depth? i = some d) :
    i ∈ run.finished := by
  refine (hlevels.found hd).resolve_right ?_
  rintro ⟨e, he, -⟩
  rw [hwaitlist] at he
  cases he

/-- If nothing was reached, then no target can be. -/
theorem not_reachesTarget (hreached : run.reached = []) {i length : Nat} (hi : i ∈ run.start) :
    ¬ gen.graph.ReachesTarget i length := by
  rintro ⟨target, n, hpath, hn, htarget⟩
  obtain ⟨e, -, he⟩ := h.found_of_start hpath hi
  have hmem := h.mem_reached (finished_of_exhausted hlevels hwaitlist he) hn htarget
  rw [hreached] at hmem
  cases hmem

/-- All that was found was explored, save for targets if these are not visited. -/
theorem handled_of_exhausted (hplain : visits = true ∨ run.reached = []) {i : NodeId} {d : Nat}
    (hd : run.depth? i = some d) (hn : gen.graph.get? i = some n) :
    n.isCovered = true ∨ n.isExpanded = true ∨ n.isFeasible = false := by
  have hfinished := finished_of_exhausted hlevels hwaitlist hd
  refine h.handled hn ⟨hfinished, by simp, hplain.imp_right fun hreached => ?_⟩
  by_contra htarget
  have hmem := h.mem_reached hfinished hn (by simpa using htarget)
  rw [hreached] at hmem
  cases hmem

end

/-- **A search that is over knows the nearest target**, if there is one, and has explored whatever is
nearer: it has reached the target, or nothing waits. -/
theorem exists_nearest (hwf : gen.graph.WellFormed) (hlevels : run.Levelled pace)
    (hover : run.waitlist = [] ∨ run.reached ≠ [])
    (hstands : ∀ {i c n m}, gen.graph.get? i = some n → n.covering = some c →
      gen.graph.get? c = some m → n.isTarget = true → m.isTarget = true) :
    ∃ nearest, gen.graph.NearestTarget run.start nearest ∧ gen.graph.ExploredTo run.start nearest ∧
      match nearest with
      | none => run.reached = [] ∧ run.waitlist = []
      | some far => ∃ goal rest, run.reached = goal :: rest ∧ run.depth? goal = some far := by
  cases hreached : run.reached with
  | nil =>
    have hwaitlist := hover.resolve_right (by simp [hreached])
    refine ⟨none, fun s hs length => h.not_reachesTarget hlevels hwaitlist hreached hs, ?_, rfl, hwaitlist⟩
    intro s hs i length n hpath _ hn
    obtain ⟨e, -, he⟩ := h.found_of_start hpath hs
    exact h.handled_of_exhausted hlevels hwaitlist (.inr hreached) he hn
  | cons goal rest =>
    obtain ⟨hfinished, -⟩ := h.isTarget_of_reached (hreached ▸ List.mem_cons_self : goal ∈ run.reached)
    obtain ⟨far, -, hgoal⟩ := hlevels.finished goal hfinished
    refine ⟨some far, h.nearestTarget hwf hlevels hreached hgoal hstands, ?_, goal, rest, rfl, hgoal⟩
    intro s hs i length n hpath hlt hn
    exact h.handled_of_nearer hlevels hreached hgoal hpath hs (hlt far rfl) hn

end Survey

end GuidedReach.SearchRun
