import GuidedReach.Exploration.Stage
import GuidedReach.Proofs.Exploration.Rounds

/-!
# Searches are made of small steps

* `Exploration.visit_eq_setOut` — a visit sets out and then follows the legs.
* `Exploration.advanceBy_add` — small steps after small steps.
* `Exploration.visitAll_staged` — visiting nodes until there is no next one takes some small steps.
* `Exploration.search_staged` — hence a search that ends was settled at one of its stages.
-/

namespace GuidedReach.Exploration

open Explore

variable {S P K : Type} [DecidableEq S] [DecidableEq K]
variable {setup : Setup S P K} {older : Older S P K} {index : Nat} {p q r : Progress S P K}
variable {stage mid stage' : Stage} {run run' : SearchRun} {start : List NodeId}
variable {stop : StopCriterion} {taken : List Entry} {followed legs : List Leg}

/-- A visit sets out, and then follows the legs one by one. -/
theorem visit_eq_setOut (run : SearchRun) (id : NodeId) (depth : Nat) :
    visit setup older index run id depth = (do
      let (legs, run) ← setOut setup older index run id depth
      legs.foldlM (fun run leg => follow setup older index run leg.source leg.dest leg.depth) run) := by
  simp only [visit, setOut, bind_assoc]
  refine bind_congr fun (id, run) => bind_congr fun current => ?_
  cases current.covering with
  | some coverer => simp
  | none =>
    by_cases hfeasible : current.isFeasible = true
    · simp [hfeasible, List.foldlM_map]
    · simp [hfeasible]

theorem advanceBy_add {m n : Nat}
    (hfirst : (advanceBy setup older index m stage).run p = .ok (mid, r))
    (hrest : (advanceBy setup older index n mid).run r = .ok (stage', q)) :
    (advanceBy setup older index (n + m) stage).run p = .ok (stage', q) := by
  induction m generalizing stage p with
  | zero =>
    obtain ⟨rfl, rfl⟩ := run_pure_ok.1 hfirst
    exact hrest
  | succ m ih =>
    obtain ⟨next, s, hnext, hfirst⟩ := run_bind_ok.1 hfirst
    exact run_bind_ok.2 ⟨next, s, hnext, ih hfirst⟩

/-- Following all legs takes one small step for each. -/
theorem followAll_staged
    (h : (legs.foldlM (fun run leg =>
      follow setup older index run leg.source leg.dest leg.depth) run).run p = .ok (run', q)) :
    (advanceBy setup older index legs.length { run, taken, followed, pending := legs }).run p =
      .ok ({ run := run', taken, followed := followed ++ legs }, q) := by
  induction legs generalizing run followed p with
  | nil =>
    obtain ⟨rfl, rfl⟩ := run_pure_ok.1 h
    exact run_pure_ok.2 ⟨by simp, rfl⟩
  | cons leg legs ih =>
    rw [List.foldlM_cons] at h
    obtain ⟨next, s, hfollow, h⟩ := run_bind_ok.1 h
    have hadvance : (advance setup older index { run, taken, followed, pending := leg :: legs }).run
        p = .ok ({ run := next, taken, followed := followed ++ [leg], pending := legs }, s) :=
      run_bind_ok.2 ⟨next, s, hfollow, run_pure_ok.2 ⟨rfl, rfl⟩⟩
    refine run_bind_ok.2 ⟨_, s, hadvance, ?_⟩
    rw [List.append_cons followed leg legs]
    exact ih h

/-- **Visiting nodes until there is no next one takes some small steps.** -/
theorem visitAll_staged {fuel : Nat}
    (h : (visitAll setup older index fuel run).run p = .ok (run', q)) :
    ∃ steps stage, (advanceBy setup older index steps { run, taken, followed }).run p =
      .ok (stage, q) ∧ stage.run = run' ∧ stage.pending = [] := by
  induction fuel generalizing run taken followed p with
  | zero => exact (run_throw_ok.1 h).elim
  | succ fuel ih =>
    obtain ⟨gen, _, hread, h⟩ := run_bind_ok.1 h
    obtain ⟨-, rfl⟩ := run_generation_ok.1 hread
    obtain ⟨⟨next, mid⟩, _, hlift, h⟩ := run_bind_ok.1 h
    obtain ⟨-, rfl⟩ := run_lift_ok.1 hlift
    let popped := run.waitlist.take (run.waitlist.length - mid.waitlist.length)
    cases next with
    | none =>
      obtain ⟨rfl, rfl⟩ := run_pure_ok.1 h
      have hfirst : (advance setup older index { run, taken, followed }).run p =
          .ok ({ run := mid, taken := taken ++ popped, followed }, p) :=
        run_bind_ok.2 ⟨gen, p, hread, run_bind_ok.2 ⟨_, p, hlift, run_pure_ok.2 ⟨rfl, rfl⟩⟩⟩
      exact ⟨1, _, run_bind_ok.2 ⟨_, p, hfirst, run_pure_ok.2 ⟨rfl, rfl⟩⟩, rfl, rfl⟩
    | some entry =>
      obtain ⟨id, depth⟩ := entry
      obtain ⟨last, s, hvisit, h⟩ := run_bind_ok.1 h
      rw [visit_eq_setOut] at hvisit
      obtain ⟨⟨legs, out⟩, r, hout, hfollow⟩ := run_bind_ok.1 hvisit
      have hfirst : (advance setup older index { run, taken, followed }).run p =
          .ok ({ run := out, taken := taken ++ popped, followed, pending := legs }, r) :=
        run_bind_ok.2 ⟨gen, p, hread, run_bind_ok.2 ⟨_, p, hlift,
          run_bind_ok.2 ⟨_, r, hout, run_pure_ok.2 ⟨rfl, rfl⟩⟩⟩⟩
      obtain ⟨steps, stage, hsteps, hend⟩ := ih h
      exact ⟨steps + legs.length + 1, stage, run_bind_ok.2 ⟨_, r, hfirst,
        advanceBy_add (followAll_staged hfollow) hsteps⟩, hend⟩

/-- **A search that ends was settled at one of its stages**, when there was nothing more to follow. -/
theorem search_staged (h : (search setup older index start stop).run p = .ok ((), q)) :
    ∃ steps stage r, (stageAfter setup older index start stop steps).run p = .ok (stage, r) ∧
      stage.pending = [] ∧ (settle setup index stage.run).run r = .ok ((), q) := by
  obtain ⟨_, p₁, hheuristics, h⟩ := run_bind_ok.1 h
  obtain ⟨searched, p₂, hsearchable, h⟩ := run_bind_ok.1 h
  obtain ⟨gen, _, hread, h⟩ := run_bind_ok.1 h
  obtain ⟨⟨⟨⟩, first⟩, _, henqueue, h⟩ := run_bind_ok.1 h
  obtain ⟨last, p₃, hvisit, h⟩ := run_bind_ok.1 h
  obtain ⟨⟨⟩, p₄, hsettle, h⟩ := run_bind_ok.1 h
  -- looking at the distances of the start nodes changes nothing
  obtain rfl : p₄ = q := by
    simp only [run_bind_ok, run_generation_ok, run_lift_ok, demand_eq_ok] at h
    obtain ⟨_, _, ⟨-, rfl⟩, decided, _, hany, refuted, _, hall, -, rfl⟩ := h
    obtain ⟨rfl, -⟩ := run_anyM_finite_ok hany
    exact (run_allM_ok (fun _ _ _ _ hrun => (run_distance_ok.1 hrun).choose_spec.2.2) hall).1
  obtain ⟨steps, stage, hsteps, rfl, hpending⟩ := visitAll_staged hvisit
  have hfirst : (firstStage setup older index start stop).run p = .ok ({ run := first }, _) :=
    run_bind_ok.2 ⟨_, p₁, hheuristics, run_bind_ok.2 ⟨searched, p₂, hsearchable, run_bind_ok.2
      ⟨gen, _, hread, run_bind_ok.2 ⟨((), first), _, henqueue, run_pure_ok.2 ⟨rfl, rfl⟩⟩⟩⟩⟩
  exact ⟨steps, stage, p₃, run_bind_ok.2 ⟨_, _, hfirst, hsteps⟩, hpending, hsettle⟩

end GuidedReach.Exploration
