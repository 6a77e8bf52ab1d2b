import GuidedReach.Proofs.Exploration.Moving
import GuidedReach.Proofs.Exploration.Rounds

/-!
# Searches and rounds are moves

* `SearchRun.Hopeful` — all that waits is worth a visit.
* `Exploration.visit_moves`, `Exploration.visitAll_moves` — visits.
* `Exploration.solve_moves`, `Exploration.openProvider_moves` — what is asked of a generation.
* `Exploration.below_moving` — hence what is asked of older generations.
* `Exploration.solveLive_moves` — and what a round does to the live one.
-/

namespace GuidedReach

variable {S P K : Type}

/-! ## Waitlists -/

namespace SearchRun

variable {gen gen' : Generation S P K} {run run' : SearchRun} {id : NodeId}

/-- All that waits may reach a target. -/
def Hopeful (run : SearchRun) (gen : Generation S P K) : Prop :=
  ∀ e ∈ run.waitlist, gen.Promising e.node

theorem Hopeful.keeps (h : run.Hopeful gen) (hkeeps : gen.Keeps gen') : run.Hopeful gen' :=
  fun e he => (h e he).keeps hkeeps

theorem waitlist_of_find {parent : Option NodeId} {depth : Nat} {isNew : Bool}
    (h : (find id parent depth).run run = .ok isNew run') : run'.waitlist = run.waitlist := by
  simp only [find, Edit.run_bind_ok, Edit.run_get_ok] at h
  obtain ⟨_, _, ⟨rfl, rfl⟩, h⟩ := h
  split at h
  · split at h
    · simp only [Edit.run_bind_ok, Edit.run_lift_ok, Edit.run_pure_ok] at h
      obtain ⟨_, _, ⟨-, rfl⟩, -, rfl⟩ := h
      rfl
    · simp only [Edit.run_bind_ok, Edit.run_throw_ok, false_and, exists_false] at h
  · split at h
    · obtain ⟨-, rfl⟩ := Edit.run_pure_ok.1 h
      rfl
    · simp only [Edit.run_bind_ok, Edit.run_set_ok, Edit.run_pure_ok] at h
      obtain ⟨_, _, rfl, -, rfl⟩ := h
      rfl

/-- Only what may reach a target is let wait. -/
theorem Hopeful.enqueue (hrun : run.Hopeful gen) {parent : Option NodeId} {depth : Nat} {u : Unit}
    (h : (enqueue gen id parent depth).run run = .ok u run') : run'.Hopeful gen := by
  simp only [SearchRun.enqueue, Edit.run_bind_ok, Edit.run_lift_ok, Generation.searchNode_eq_ok,
    demand_eq_ok] at h
  obtain ⟨k, _, ⟨hk, rfl⟩, _, _, ⟨hknown, rfl⟩, h⟩ := h
  split at h
  · obtain ⟨-, rfl⟩ := Edit.run_pure_ok.1 h
    exact hrun
  · rename_i hhope
    simp only [Bool.or_eq_true, Distance.isInfinite_iff, not_or] at hhope
    obtain ⟨isNew, mid, hfind, hrest⟩ := Edit.run_bind_ok.1 h
    have hwaitlist := waitlist_of_find hfind
    split at hrest
    · simp only [Edit.run_bind_ok, Edit.run_lift_ok, Edit.run_modify_ok] at hrest
      obtain ⟨_, _, ⟨-, rfl⟩, _, _, ⟨-, rfl⟩, _, _, ⟨-, rfl⟩, _, _, ⟨-, rfl⟩, rfl⟩ := hrest
      intro e he
      obtain rfl | he := mem_insert.1 he
      · exact ⟨_, Generation.heuristic_eq_ok.2 ⟨k, hk, rfl⟩, hknown, .inl hhope.1⟩
      · exact hrun e (hwaitlist ▸ he)
    · obtain ⟨-, rfl⟩ : () = u ∧ mid = run' := Edit.run_pure_ok.1 hrest
      exact fun e he => hrun e (hwaitlist ▸ he)

end SearchRun

namespace Exploration

open Explore

variable [DecidableEq S] [DecidableEq K]
variable {setup : Setup S P K} {older : Older S P K} {top index : Nat}
variable {p q : Progress S P K} {gen : Generation S P K} {run run' : SearchRun} {id : NodeId}
variable {start : List NodeId} {stop : StopCriterion}

section

variable (holder : older.Moving setup top index) (hgen : p.history.get? index = some gen)

include holder hgen

/-! ## Visits -/

theorem ensureExpanded_moves {n : Node S} (hn : gen.graph.get? id = some n) (hfree : n.covering = none)
    (hfeasible : n.isFeasible = true) (hid : gen.Promising id) {u : Unit}
    (h : (ensureExpanded setup older index id).run p = .ok (u, q)) :
    Moves setup top (index + 1) p q := by
  simp only [ensureExpanded, run_bind_ok, run_node_ok, Graph.node_eq_ok] at h
  obtain ⟨_, _, ⟨_, hgen', hn', rfl⟩, h⟩ := h
  obtain rfl := Option.some.inj (hgen.symm.trans hgen')
  obtain rfl := Option.some.inj (hn.symm.trans hn')
  split at h
  · obtain ⟨-, rfl⟩ := run_pure_ok.1 h
    exact .refl p
  · rename_i hopen
    obtain ⟨new, r, hexpand, hcreate⟩ := run_bind_ok.1 h
    obtain ⟨hmoves, graph, hr, hadded⟩ :=
      expand_moves hgen hn hfree (by simpa using hopen) (.inl hfeasible) hexpand
    have hkeeps : gen.Keeps { gen with graph } := .of_grows hadded.grows
    refine hmoves.trans (forM_createSearchNode_moves holder hr (fun i hi m parent hm hparent => ?_)
      hcreate).1
    obtain rfl := Option.some.inj (hparent.symm.trans (hadded.parent_eq hi hm))
    exact hid.keeps hkeeps

/-- Whatever is handed on from a covered node is covered itself. -/
theorem reroute_moves {id' : NodeId}
    (h : (reroute setup older index run id).run p = .ok ((id', run'), q)) :
    Moves setup top (index + 1) p q ∧ ∃ gen', q.history.get? index = some gen' ∧
      run'.waitlist = run.waitlist ∧
      ∀ n, gen'.graph.get? id' = some n → n.covering = none → id' = id := by
  obtain ⟨result, r, hclose, h⟩ := run_bind_ok.1 h
  obtain ⟨hmoves, gen', hr, -, hcovered⟩ := close_moves holder hgen hclose
  have hstay : ∀ {id'' run''}, (pure (id, run) : Explore S P K _).run r = .ok ((id'', run''), q) →
      Moves setup top (index + 1) p q ∧ ∃ gen', q.history.get? index = some gen' ∧
        run''.waitlist = run.waitlist ∧
        ∀ n, gen'.graph.get? id'' = some n → n.covering = none → id'' = id := by
    intro id'' run'' h
    obtain ⟨heq, rfl⟩ := run_pure_ok.1 h
    obtain ⟨rfl, rfl⟩ := Prod.mk.inj heq
    exact ⟨hmoves, gen', hr, rfl, fun _ _ _ => rfl⟩
  cases result with
  | none => exact hstay h
  | some coverer =>
    dsimp only at h
    split at h
    · simp only [run_bind_ok, run_generation_ok, run_lift_ok, Graph.node_eq_ok] at h
      obtain ⟨gen₁, _, ⟨hgen₁, rfl⟩, n, _, ⟨hn, rfl⟩, h⟩ := h
      obtain rfl := Option.some.inj (hr.symm.trans hgen₁)
      split at h
      · rename_i hcovering
        simp only [run_bind_ok, run_lift_ok, run_pure_ok, Prod.mk.injEq] at h
        obtain ⟨_, _, ⟨-, rfl⟩, ⟨rfl, rfl⟩, rfl⟩ := h
        refine ⟨hmoves, gen', hr, rfl, fun m hm hfree => ?_⟩
        obtain rfl := Option.some.inj (hn.symm.trans hm)
        simp [hfree] at hcovering
      · exact hstay h
    · exact hstay h

theorem follow_moves {next : NodeId} {depth : Nat} (hrun : run.Hopeful gen)
    (h : (follow setup older index run id next depth).run p = .ok (run', q)) :
    Moves setup top (index + 1) p q ∧
      ∃ gen', q.history.get? index = some gen' ∧ run'.Hopeful gen' := by
  simp only [follow, run_bind_ok, run_generation_ok, run_lift_ok, run_pure_ok, Prod.exists,
    Edit.result_eq_ok] at h
  obtain ⟨d, r, hensure, gen', _, ⟨hgen', rfl⟩, _, _, ⟨-, rfl⟩, _, mid, _, ⟨henqueue, rfl⟩, rfl,
    rfl⟩ := h
  obtain ⟨hmoves, -⟩ := ensureHeuristic_moves holder hgen hensure
  obtain ⟨gen₁, hr, hkeeps⟩ := hmoves.exists_keeps hgen
  obtain rfl := Option.some.inj (hgen'.symm.trans hr)
  exact ⟨hmoves, gen', hr, (hrun.keeps hkeeps).enqueue henqueue⟩

theorem visit_moves {depth : Nat} (hrun : run.Hopeful gen) (hid : gen.Promising id)
    (h : (visit setup older index run id depth).run p = .ok (run', q)) :
    Moves setup top (index + 1) p q ∧
      ∃ gen', q.history.get? index = some gen' ∧ run'.Hopeful gen' := by
  simp only [visit, run_bind_ok, run_node_ok, Graph.node_eq_ok, Prod.exists] at h
  obtain ⟨id', mid, r, hreroute, n, _, ⟨gen₁, hr, hn, rfl⟩, h⟩ := h
  obtain ⟨hmoves, gen', hgen', hwaitlist, hfree⟩ := reroute_moves holder hgen hreroute
  obtain rfl := Option.some.inj (hr.symm.trans hgen')
  obtain ⟨gen', hgen', hkeeps⟩ := hmoves.exists_keeps hgen
  obtain rfl := Option.some.inj (hr.symm.trans hgen')
  have hmid : mid.Hopeful gen₁ := fun e he => (hrun.keeps hkeeps) e (hwaitlist ▸ he)
  split at h
  · obtain ⟨hmoves', hend⟩ := follow_moves holder hr hmid h
    exact ⟨hmoves.trans hmoves', hend⟩
  · rename_i hcovering
    obtain rfl := hfree n hn hcovering
    split at h
    · obtain ⟨rfl, rfl⟩ := run_pure_ok.1 h
      exact ⟨hmoves, gen₁, hr, hmid⟩
    · rename_i hfeasible
      simp only [run_bind_ok, run_node_ok] at h
      obtain ⟨_, s, hensure, n₁, _, ⟨gen₂, hs, -, rfl⟩, h⟩ := h
      have hexpanded := ensureExpanded_moves holder hr hn hcovering (by simpa using hfeasible)
        (hid.keeps hkeeps) hensure
      obtain ⟨gen', hgen', hkeeps'⟩ := hexpanded.exists_keeps hr
      obtain rfl := Option.some.inj (hs.symm.trans hgen')
      refine run_foldlM_induct (motive := fun run r => Moves setup top (index + 1) p r ∧
        ∃ gen', r.history.get? index = some gen' ∧ run.Hopeful gen') ?_
        ⟨hmoves.trans hexpanded, gen₂, hs, hmid.keeps hkeeps'⟩ h
      rintro run₁ succ run₂ t t' - ⟨hmoves', gen₃, ht, hrun₁⟩ hfollow
      obtain ⟨hmoves'', hend⟩ := follow_moves holder ht hrun₁ hfollow
      exact ⟨hmoves'.trans hmoves'', hend⟩

theorem visitAll_moves {fuel : Nat} (hrun : run.Hopeful gen)
    (h : (visitAll setup older index fuel run).run p = .ok (run', q)) :
    Moves setup top (index + 1) p q := by
  induction fuel generalizing p gen run with
  | zero => exact (run_throw_ok.1 h).elim
  | succ fuel ih =>
    simp only [visitAll, run_bind_ok, run_generation_ok, run_lift_ok, Prod.exists,
      Edit.result_eq_ok] at h
    obtain ⟨_, _, ⟨hgen', rfl⟩, next, mid, _, ⟨hnext, rfl⟩, h⟩ := h
    obtain rfl := Option.some.inj (hgen.symm.trans hgen')
    have hout := SearchRun.next_ok hnext
    have hmid : mid.Hopeful gen := fun e he => hrun e (hout.waitlist e he)
    cases next with
    | none =>
      obtain ⟨rfl, rfl⟩ := run_pure_ok.1 h
      exact .refl p
    | some entry =>
      obtain ⟨id, depth⟩ := entry
      obtain ⟨run₁, r, hvisit, hrest⟩ := run_bind_ok.1 h
      obtain ⟨e, he, rfl⟩ := hout.waited rfl
      obtain ⟨hmoves, gen', hr, hrun₁⟩ := visit_moves holder hgen hmid (hrun e he) hvisit
      exact hmoves.trans (ih hr hrun₁ hrest)

/-! ## Solving -/

omit holder in
theorem searchableStart_moves {searched : List NodeId}
    (h : (searchableStart index start).run p = .ok (searched, q)) :
    Moves setup top (index + 1) p q := by
  induction start generalizing p gen searched with
  | nil =>
    obtain ⟨rfl, rfl⟩ := run_pure_ok.1 h
    exact .refl p
  | cons id start ih =>
    simp only [searchableStart, run_bind_ok, run_generation_ok, run_lift_ok] at h
    obtain ⟨_, _, ⟨hgen', rfl⟩, d, _, ⟨hd, rfl⟩, h⟩ := h
    obtain rfl := Option.some.inj (hgen.symm.trans hgen')
    split at h
    · rename_i hrefuted
      obtain rfl := Distance.isInfinite_iff.1 hrefuted
      simp only [run_bind_ok, run_setDistance_ok] at h
      obtain ⟨_, _, ⟨_, gen₁, hgen', hset, rfl⟩, h⟩ := h
      obtain rfl := Option.some.inj (hgen.symm.trans hgen')
      have hmove : Move setup top index p (p.put index gen₁) := .settle (.start hgen hd hset)
      exact hmove.moves.trans (ih (Progress.get?_put_self hgen) h)
    · simp only [run_bind_ok, run_lift_ok] at h
      obtain ⟨e, _, ⟨-, rfl⟩, h⟩ := h
      split at h
      · exact ih hgen h
      · simp only [run_bind_ok, run_pure_ok] at h
        obtain ⟨rest, _, hrest, rfl, rfl⟩ := h
        exact ih hgen hrest

theorem forM_ensureHeuristic_moves {ids : List NodeId} {u : Unit}
    (h : (ids.forM fun id => do let _ ← ensureHeuristic setup older index id).run p = .ok (u, q)) :
    Moves setup top (index + 1) p q := by
  refine run_forM_induct (motive := Moves setup top (index + 1) p)
    (fun id r r' _ hmoves hrun => ?_) (.refl p) h
  obtain ⟨gen', hgen', -⟩ := hmoves.exists_keeps hgen
  obtain ⟨_, s, hensure, hpure⟩ := run_bind_ok.1 hrun
  obtain ⟨-, rfl⟩ := run_pure_ok.1 hpure
  exact hmoves.trans (ensureHeuristic_moves holder hgen' hensure).1

omit holder in
theorem settle_moves (h : (settle setup index run).run p = .ok ((), q)) :
    Moves setup top (index + 1) p q := by
  obtain ⟨gen', rfl, ⟨hfull, hsettle⟩ | ⟨-, hsettle⟩⟩ := run_settle_ok hgen h
  · exact Move.moves (.exhaustive hgen hfull hsettle)
  · exact Move.moves (.settle (.guided hgen hsettle))

theorem search_moves (h : (search setup older index start stop).run p = .ok ((), q)) :
    Moves setup top (index + 1) p q := by
  obtain ⟨_, p₁, hheuristics, h⟩ := run_bind_ok.1 h
  obtain ⟨searched, p₂, hsearchable, h⟩ := run_bind_ok.1 h
  simp only [run_bind_ok, run_generation_ok, run_lift_ok, Prod.exists, Edit.result_eq_ok] at h
  obtain ⟨gen₂, _, ⟨hgen₂, rfl⟩, _, run₀, _, ⟨henqueue, rfl⟩, run₁, p₃, hvisit, _, p₄, hsettle,
    gen', _, ⟨-, rfl⟩, decided, _, hdecided, refuted, _, hrefuted, -, rfl⟩ := h
  have hmoves₁ := forM_ensureHeuristic_moves holder hgen hheuristics
  obtain ⟨gen₁, hgen₁, -⟩ := hmoves₁.exists_keeps hgen
  have hmoves₂ : Moves setup top (index + 1) p₁ p₂ := searchableStart_moves hgen₁ hsearchable
  have hrun₀ : run₀.Hopeful gen₂ := Edit.run_forM_induct (motive := (·.Hopeful gen₂))
    (fun _ _ _ _ hrun henqueue => hrun.enqueue henqueue) (by simp [SearchRun.Hopeful]) henqueue
  have hmoves₃ := visitAll_moves holder hgen₂ hrun₀ hvisit
  obtain ⟨gen₃, hgen₃, -⟩ := hmoves₃.exists_keeps hgen₂
  have hmoves₄ : Moves setup top (index + 1) p₃ p₄ := settle_moves hgen₃ hsettle
  -- looking at the start nodes changes nothing
  obtain ⟨rfl, -⟩ := run_anyM_finite_ok hdecided
  obtain ⟨rfl, -⟩ := run_allM_ok (fun _ _ _ _ hrun => (run_distance_ok.1 hrun).choose_spec.2.2) hrefuted
  exact hmoves₁.trans (hmoves₂.trans (hmoves₃.trans hmoves₄))

/-- **Solving a generation goes on in moves.** -/
theorem solve_moves (h : (solve setup older index start stop).run p = .ok ((), q)) :
    Moves setup top (index + 1) p q := by
  simp only [solve, run_bind_ok, run_generation_ok] at h
  obtain ⟨_, _, ⟨hgen', rfl⟩, found, _, hany, h⟩ := h
  obtain rfl := Option.some.inj (hgen.symm.trans hgen')
  obtain ⟨rfl, -⟩ := run_anyM_finite_ok hany
  split at h
  · obtain ⟨-, rfl⟩ := run_pure_ok.1 h
    exact .refl p
  · obtain ⟨targets, _, hfilter, hrest⟩ := run_bind_ok.1 h
    obtain ⟨rfl, hmem⟩ := run_filterM_ok (by
      intro a b r r' hrun
      simp only [run_bind_ok, run_lift_ok, run_pure_ok] at hrun
      obtain ⟨_, _, ⟨-, rfl⟩, -, rfl⟩ := hrun
      rfl) hfilter
    split at hrest
    · exact search_moves holder hgen hrest
    · refine run_forM_induct (motive := Moves setup top (index + 1) p)
        (fun id r r' hid hmoves hrun => ?_) (.refl p) hrest
      obtain ⟨-, hlook⟩ := (hmem id).1 hid
      simp only [run_bind_ok, run_lift_ok, Graph.node_eq_ok, run_pure_ok] at hlook
      obtain ⟨n, _, ⟨hn, rfl⟩, htarget, -⟩ := hlook
      simp only [run_bind_ok, run_setDistance_ok] at hrun
      obtain ⟨d, s, hensure, gen₂, gen₃, hs, hset, rfl⟩ := hrun
      obtain ⟨gen₁, hgen₁, -⟩ := hmoves.exists_keeps hgen
      have hmoves := hmoves.trans (ensureHeuristic_moves holder hgen₁ hensure).1
      obtain ⟨_, hs', hkeeps⟩ := hmoves.exists_keeps hgen
      obtain rfl := Option.some.inj (hs.symm.trans hs')
      obtain ⟨n', hn', hgrows⟩ := hkeeps.grows.node hn
      exact hmoves.trans
        (Move.moves (.settle (.target hs hn' (hgrows.isTarget.trans htarget) hset)))

/-! ## Targets whose successors are needed -/

/-- A new node gets a search node, and is settled if it is a target; the graph stays as it is. -/
theorem settleNew_moves {succ : NodeId}
    (hparent : ∀ n parent, gen.graph.get? succ = some n → n.parent = some parent →
      gen.Promising parent) {u : Unit}
    (h : (do
      createSearchNode setup older index succ
      if (← node index succ).isTarget then
        setHeuristic index succ .zero
        setDistance index succ .zero : Explore S P K Unit).run p = .ok (u, q)) :
    Moves setup top (index + 1) p q ∧
      ∃ gen', q.history.get? index = some gen' ∧ gen'.graph = gen.graph := by
  obtain ⟨_, r, hcreate, h⟩ := run_bind_ok.1 h
  obtain ⟨hmoves, gen₁, hr, hgraph⟩ := createSearchNode_moves holder hgen hparent hcreate
  simp only [run_bind_ok, run_node_ok, Graph.node_eq_ok] at h
  obtain ⟨m, _, ⟨_, hgen', hm, rfl⟩, h⟩ := h
  obtain rfl := Option.some.inj (hr.symm.trans hgen')
  split at h
  · rename_i htarget
    simp only [run_bind_ok, run_setHeuristic_ok, run_setDistance_ok] at h
    obtain ⟨_, _, ⟨_, gen₂, hgen', hset, rfl⟩, gen₂', gen₃, hgen₂, hset', rfl⟩ := h
    obtain rfl := Option.some.inj (hr.symm.trans hgen')
    obtain rfl : gen₂ = gen₂' := Option.some.inj ((Progress.get?_put_self hr).symm.trans hgen₂)
    obtain ⟨_, _, -, -, -, hrewrites, -⟩ := Generation.setHeuristic_ok hset
    have hmove : Move setup top index r (r.put index gen₂) :=
      .heuristic hr (.target hm htarget) hset
    have hsettle : Move setup top index (r.put index gen₂) ((r.put index gen₂).put index gen₃) :=
      .settle (.target hgen₂ (hrewrites.graph ▸ hm) htarget hset')
    exact ⟨hmoves.trans (hmove.moves.trans hsettle.moves), gen₃, Progress.get?_put_self hgen₂,
      (Generation.DistanceWrites.of_setDistance hset').graph.trans (hrewrites.graph.trans hgraph)⟩
  · obtain ⟨-, rfl⟩ := run_pure_ok.1 h
    exact ⟨hmoves, gen₁, hr, hgraph⟩

theorem expandTarget_moves (hlt : index < top) {n : Node S} (hn : gen.graph.get? id = some n)
    (hfree : n.covering = none) (hopen : n.isExpanded = false) (htarget : n.isTarget = true)
    (hid : gen.Promising id) (h : (expandTarget setup older index id).run p = .ok ((), q)) :
    Moves setup top (index + 1) p q := by
  obtain ⟨new, r, hexpand, hloop⟩ := run_bind_ok.1 h
  obtain ⟨hmoves, graph, hr, hadded⟩ :=
    expand_moves hgen hn hfree hopen (.inr ⟨htarget, hlt⟩) hexpand
  have hid' : Generation.Promising { gen with graph } id := hid.keeps (.of_grows hadded.grows)
  refine hmoves.trans (run_forM_induct (motive := fun r' => Moves setup top (index + 1) r r' ∧
    ∃ gen', r'.history.get? index = some gen' ∧ gen'.graph = graph) ?_
    ⟨.refl r, _, hr, rfl⟩ hloop).1
  rintro succ t t' hsucc ⟨hmoves, gen₁, ht, hgraph⟩ hstep
  obtain ⟨_, ht', hkeeps⟩ := hmoves.exists_keeps hr
  obtain rfl := Option.some.inj (ht.symm.trans ht')
  obtain ⟨hmoves', gen', hgen', hgraph'⟩ := settleNew_moves holder ht (fun m parent hm hparent => by
    obtain rfl :=
      Option.some.inj (hparent.symm.trans (hadded.parent_eq hsucc (hgraph ▸ hm)))
    exact hid'.keeps hkeeps) hstep
  exact ⟨hmoves.trans hmoves', gen', hgen', hgraph'.trans hgraph⟩

theorem openTarget_moves (hlt : index < top) {fuel : Nat}
    (htarget : ∀ n, gen.graph.get? id = some n → n.isTarget = true)
    (h : (openTarget setup older index fuel id).run p = .ok ((), q)) :
    Moves setup top (index + 1) p q := by
  induction fuel generalizing p gen id with
  | zero => exact (run_throw_ok.1 h).elim
  | succ fuel ih =>
    simp only [openTarget, run_bind_ok, run_node_ok, Graph.node_eq_ok] at h
    obtain ⟨n, _, ⟨_, hgen', hn, rfl⟩, h⟩ := h
    obtain rfl := Option.some.inj (hgen.symm.trans hgen')
    split at h
    · rename_i coverer hcovering
      simp only [run_bind_ok, run_node_ok, run_lift_ok, Graph.node_eq_ok, demand_eq_ok] at h
      obtain ⟨m, _, ⟨_, hgen', hm, rfl⟩, _, _, ⟨hm', rfl⟩, h⟩ := h
      obtain rfl := Option.some.inj (hgen.symm.trans hgen')
      exact ih hgen (fun m' hcoverer => Option.some.inj (hm.symm.trans hcoverer) ▸ hm') h
    · rename_i hfree
      split at h
      · obtain ⟨-, rfl⟩ := run_pure_ok.1 h
        exact .refl p
      · rename_i hopen
        simp only [run_bind_ok] at h
        obtain ⟨d, p₁, hensure, result, p₂, hclose, h⟩ := h
        obtain ⟨hmoves, hknown, gen₁, hgen₁, hgraph, hd⟩ := ensureHeuristic_moves holder hgen hensure
        obtain ⟨hmoves', gen₂, hgen₂, hsame, -⟩ := close_moves holder hgen₁ hclose
        obtain ⟨_, hgen₂', hkeeps⟩ := hmoves'.exists_keeps hgen₁
        obtain rfl := Option.some.inj (hgen₂.symm.trans hgen₂')
        refine hmoves.trans (hmoves'.trans ?_)
        have hn₁ : gen₁.graph.get? id = some n := hgraph ▸ hn
        cases result with
        | some coverer =>
          refine ih hgen₂ (fun m hm => ?_) h
          obtain ⟨m', hm', hgrows⟩ := hkeeps.grows.node hn₁
          obtain rfl := Option.some.inj (hm.symm.trans hm')
          exact hgrows.isTarget.trans (htarget n hn)
        | none =>
          have hn₂ : gen₂.graph.get? id = some n := (hsame rfl).symm ▸ hn₁
          exact expandTarget_moves holder hgen₂ hlt hn₂ hfree (by simpa using hopen) (htarget n hn)
            ⟨d, hkeeps.heuristic hd hknown, hknown, .inr ⟨n, hn₂, htarget n hn⟩⟩ h

theorem openProvider_moves (hlt : index < top)
    (h : (openProvider setup older index id).run p = .ok ((), q)) :
    Moves setup top (index + 1) p q := by
  simp only [openProvider, run_bind_ok, run_node_ok, Graph.node_eq_ok] at h
  obtain ⟨n, _, ⟨_, hgen', hn, rfl⟩, h⟩ := h
  obtain rfl := Option.some.inj (hgen.symm.trans hgen')
  split at h
  · rename_i htarget
    exact openTarget_moves holder hgen hlt
      (fun m hm => Option.some.inj (hn.symm.trans hm) ▸ htarget) h
  · split at h
    · simp only [run_bind_ok, run_node_ok, Graph.node_eq_ok] at h
      obtain ⟨m, _, ⟨_, hgen', hm, rfl⟩, h⟩ := h
      obtain rfl := Option.some.inj (hgen.symm.trans hgen')
      split at h
      · rename_i htarget
        exact openTarget_moves holder hgen hlt
          (fun m' hm' => Option.some.inj (hm.symm.trans hm') ▸ htarget) h
      · obtain ⟨-, rfl⟩ := run_lift_ok.1 h
        exact .refl p
    · obtain ⟨-, rfl⟩ := run_lift_ok.1 h
      exact .refl p

end

/-! ## Rounds -/

/-- **What is asked of older generations is done in moves**, by induction on their index. -/
theorem below_moving {bound : Nat} (hle : bound ≤ top) :
    (below setup bound).Moving setup top bound := by
  induction bound with
  | zero => exact ⟨fun _ _ _ _ _ _ hlt => by omega, fun _ _ _ _ _ hlt => by omega⟩
  | succ bound ih =>
    have ih := ih (Nat.le_of_succ_le hle)
    refine ⟨fun _ {index start stop p q} hlt h => ?_, fun _ {index id p q} hlt h => ?_⟩
    · obtain ⟨gen, hgen⟩ := exists_of_run_generation h
      exact solve_moves (ih.mono (Nat.le_of_lt_succ hlt)) hgen h
    · obtain ⟨gen, hgen⟩ := exists_of_run_node h
      exact openProvider_moves (ih.mono (Nat.le_of_lt_succ hlt)) hgen (by omega) h

theorem ensureInitialized_moves (h : (ensureInitialized setup top).run p = .ok ((), q)) :
    Moves setup top (top + 1) p q := by
  simp only [ensureInitialized, run_bind_ok, run_generation_ok] at h
  obtain ⟨gen, _, ⟨hgen, rfl⟩, h⟩ := h
  split at h
  · obtain ⟨-, rfl⟩ := run_pure_ok.1 h
    exact .refl p
  · rename_i hopen
    have hopen : gen.graph.isInitialized = false := by simpa using hopen
    obtain ⟨new, r, hedit, hcreate⟩ := run_bind_ok.1 h
    obtain ⟨_, graph, hgen', hseed, rfl⟩ := run_editGraph_ok.1 hedit
    obtain rfl := Option.some.inj (hgen.symm.trans hgen')
    have hadded := Graph.seed_leaves hopen hseed
    have hmove : Move setup top top p (p.put top { gen with graph }) := .seed hgen hopen hseed
    refine hmove.moves.trans (forM_createSearchNode_moves (below_moving (Nat.le_refl top))
      (Progress.get?_put_self hgen) (fun i hi n parent hn hparent => ?_) hcreate).1
    simp [hadded.parent_eq hi hn] at hparent

/-- **A round solves the live generation in moves.** -/
theorem solveLive_moves (h : (solveLive setup top [] stop).run p = .ok ((), q)) :
    Moves setup top (top + 1) p q := by
  obtain ⟨mid, hbegun, gen, hgen, hsolve⟩ := solveLive_ok h
  exact (ensureInitialized_moves hbegun).trans
    (solve_moves (below_moving (Nat.le_refl top)) hgen hsolve)

end Exploration

end GuidedReach
