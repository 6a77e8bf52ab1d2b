import GuidedReach.Abstractor
import GuidedReach.Proofs.Ensures
import GuidedReach.Proofs.History.Slots

/-!
# The course of a check

A check that ends in a result puts the caller's graph into the history, solves it, leaves the solved
generation behind and goes on with a copy of it.

* `Abstractor.setup` — what the explorations of a check are given.
* `Abstractor.Course` — the phases of a check and what is passed on between them.
* `Abstractor.Recorded` — what is counted outside of the search.
* `Abstractor.check_recorded`, `Abstractor.check_ok` — every check that ends in a result takes that
  course.
* `Abstractor.Course.behind` — a check begins with the older generations as they are held.
* `Abstractor.endsIn_check` — a check meets no fault if its phases meet none.
-/

namespace GuidedReach.Abstractor

variable {S P K : Type}

/-- What the explorations of a check are given. -/
def setup (abstractor : Abstractor S P K) (fuel : Nat) : Setup S P K :=
  { analysis := abstractor.analysis, search := abstractor.config.search, fuel }

variable [DecidableEq S] [DecidableEq K]

/-- The phases of a check. The live generation has the given index; `solved` holds it once it is
solved, `frozen` the copy that stays behind, and `resumed` the one that the next check goes on with. -/
structure Course (abstractor : Abstractor S P K) (fuel : Nat) (g : Graph S) (prec : P) (index : Nat)
    (fresh : List NodeId) (begun solved frozen resumed : Progress S P K)
    (last live : Generation S P K) : Prop where
  install : abstractor.install g prec = .ok (begun.history, fresh)
  index_eq : index = begun.history.length - 1
  solve : (Exploration.solveLive (abstractor.setup fuel) index fresh abstractor.config.stop).run
    begun = .ok ((), solved)
  last : solved.history.get? index = some last
  freeze : solved.history.freezeLive = .ok frozen.history
  resume : (Exploration.resumeLive (abstractor.setup fuel) (index + 1)).run frozen = .ok ((), resumed)
  live : resumed.history.applyRetention.live? = some live

/-- What a check counts: nothing was counted before, and the counters of its solved generation are taken
down before the check goes on. -/
structure Recorded (abstractor abstractor' : Abstractor S P K) (index : Nat)
    (begun solved frozen resumed : Progress S P K) (last : Generation S P K) : Prop where
  start : ∃ first, begun.history.get? index = some first ∧
    begun.stats = Stats.recordStart { iteration := abstractor.iteration + 1 } first
  finish : frozen.stats = solved.stats.recordEnd last
  result : abstractor'.stats = resumed.stats

variable {abstractor abstractor' : Abstractor S P K} {fuel index : Nat} {g g' : Graph S} {prec : P}
variable {verdict : Verdict} {fresh : List NodeId} {begun solved frozen resumed : Progress S P K}
variable {last live : Generation S P K}

/-- **Every check that ends in a result takes this course**, and counts on the way. -/
theorem check_recorded (hcheck : abstractor.check fuel g prec = .ok (verdict, abstractor', g')) :
    ∃ index fresh begun solved frozen resumed last live,
      abstractor.Course fuel g prec index fresh begun solved frozen resumed last live ∧
        Recorded abstractor abstractor' index begun solved frozen resumed last ∧
        (verdict = .safe → last.graph.isSafe = true) ∧
        (verdict = .counterexample → last.graph.isSafe = false) ∧
        abstractor'.analysis = abstractor.analysis ∧ abstractor'.config = abstractor.config ∧
        abstractor'.history =
          resumed.history.applyRetention.set (index + 1) { live with graph := {} } ∧
        g' = live.graph := by
  simp only [Abstractor.check, bind_eq_ok, lift_eq_ok] at hcheck
  obtain ⟨⟨history, fresh⟩, hinstall, ⟨⟨⟩, solved⟩, hexplore, ⟨last, solved'⟩, hread, frozen, hfreeze,
    ⟨⟨⟩, resumed⟩, hresume, hend⟩ := hcheck
  obtain ⟨hlast, rfl⟩ := Explore.run_generation_ok.1 hread
  simp only [Explore.run_bind_ok, Explore.run_generation_ok, Explore.run_count_ok] at hexplore
  obtain ⟨first, _, ⟨hfirst, rfl⟩, _, begun, rfl, hsolve⟩ := hexplore
  cases hlive : resumed.history.applyRetention.live? with
  | none => simp [hlive] at hend
  | some live =>
    rw [hlive] at hend
    simp only [pure_eq_ok, Prod.mk.injEq] at hend
    obtain ⟨rfl, rfl, rfl⟩ := hend
    refine ⟨history.length - 1, fresh, _, solved, _, resumed, last, live,
      ⟨hinstall, rfl, hsolve, hlast, hfreeze, hresume, hlive⟩, ⟨⟨first, hfirst, rfl⟩, rfl, rfl⟩,
      fun hsafe => ?_, fun hsafe => ?_, rfl, rfl, rfl, rfl⟩
    · split at hsafe
      · assumption
      · cases hsafe
    · split at hsafe
      · cases hsafe
      · simpa using ‹¬ last.graph.isSafe = true›

/-- Every check that ends in a result takes this course. -/
theorem check_ok (hcheck : abstractor.check fuel g prec = .ok (verdict, abstractor', g')) :
    ∃ index fresh begun solved frozen resumed last live,
      abstractor.Course fuel g prec index fresh begun solved frozen resumed last live ∧
        (verdict = .safe → last.graph.isSafe = true) ∧
        (verdict = .counterexample → last.graph.isSafe = false) ∧
        abstractor'.analysis = abstractor.analysis ∧ abstractor'.config = abstractor.config ∧
        abstractor'.history =
          resumed.history.applyRetention.set (index + 1) { live with graph := {} } ∧
        g' = live.graph := by
  obtain ⟨index, fresh, begun, solved, frozen, resumed, last, live, hcourse, -, hresult⟩ :=
    check_recorded hcheck
  exact ⟨index, fresh, begun, solved, frozen, resumed, last, live, hcourse, hresult⟩

omit [DecidableEq S] in
/-- Putting the caller's graph into the history changes the last generation only. -/
theorem get?_of_install {history : History S P K}
    (hinstall : abstractor.install g prec = .ok (history, fresh)) {i : Nat}
    (hi : i + 1 < history.length) : history.get? i = abstractor.history.get? i := by
  cases hlive : abstractor.history.live? with
  | some live =>
    simp only [install, hlive, bind_eq_ok, pure_eq_ok, Prod.mk.injEq] at hinstall
    obtain ⟨live', -, rfl, -⟩ := hinstall
    have hlt := History.lt_length (History.live?_eq_some.1 hlive)
    rw [History.length_set] at hi
    rw [History.get?_set hlt, if_neg (by omega)]
  | none =>
    simp only [install, hlive, pure_eq_ok, Prod.mk.injEq] at hinstall
    obtain ⟨rfl, -⟩ := hinstall
    rw [History.length_push] at hi
    rw [History.get?_push, if_neg (by omega)]

/-- **A check begins with the older generations as they are held.** -/
theorem Course.behind
    (hcourse : abstractor.Course fuel g prec index fresh begun solved frozen resumed last live)
    {i : Nat} (hi : i < index) : begun.history.get? i = abstractor.history.get? i := by
  refine get?_of_install hcourse.install ?_
  have := hcourse.index_eq
  omega

omit [DecidableEq S] in
/-- The first check starts with an empty generation. -/
theorem install_empty (prec : P) (hempty : abstractor.history.length = 0) :
    abstractor.install {} prec = .ok (abstractor.history.push { graph := {}, prec }, []) ∧
      (abstractor.history.push { graph := {}, prec }).length = 1 ∧
      ∀ i, (abstractor.history.push { graph := {}, prec }).get? i =
        if i = 0 then some { graph := {}, prec } else none := by
  have hnone : ∀ i, abstractor.history.get? i = none := fun i =>
    Option.eq_none_iff_forall_ne_some.2 fun _ hgen => by
      have := History.lt_length hgen
      omega
  have hlive : abstractor.history.live? = none :=
    Option.eq_none_iff_forall_ne_some.2 fun _ hlive => by
      simpa [hnone] using History.live?_eq_some.1 hlive
  refine ⟨?_, by rw [History.length_push, hempty], fun i => ?_⟩
  · simp only [install, hlive]
    rfl
  · rw [History.get?_push, hempty, hnone]

/-- The solved generation can stay behind, since its values fit, and a copy of it can go on; what the
check ends in then satisfies `post`. -/
structure GoesOn (abstractor : Abstractor S P K) (fuel index : Nat)
    (post : Verdict × Abstractor S P K × Graph S → Prop) (solved : Progress S P K)
    (last : Generation S P K) : Prop where
  held : solved.history.get? index = some last
  length : solved.history.length = index + 1
  fits : ∀ {i k}, last.searchNodes.get? i = some k →
    ∃ n, last.graph.get? i = some n ∧ k.checkFits n.isTarget = .ok ()
  resumes : ∀ stats, (Exploration.resumeLive (abstractor.setup fuel) (index + 1)).Ensures
    { history := solved.history.push (last.resetOnto index), stats } fun _ resumed => ∃ live,
      resumed.history.get? (index + 1) = some live ∧ resumed.history.length = index + 2 ∧
      ∀ abstractor' : Abstractor S P K, abstractor'.analysis = abstractor.analysis →
        abstractor'.config = abstractor.config → abstractor'.history =
          resumed.history.applyRetention.set (index + 1) { live with graph := {} } →
        post (if last.graph.isSafe then .safe else .counterexample, abstractor', live.graph)

/-- **A check meets no fault if its phases meet none.** -/
theorem endsIn_check {post : Verdict × Abstractor S P K × Graph S → Prop} {history : History S P K}
    (hinstall : abstractor.install g prec = .ok (history, fresh))
    (hlength : history.length = index + 1) (hheld : ∃ gen, history.get? index = some gen)
    (hsolve : ∀ stats, (Exploration.solveLive (abstractor.setup fuel) index fresh
      abstractor.config.stop).Ensures { history, stats } fun _ solved =>
        ∃ last, abstractor.GoesOn fuel index post solved last) :
    EndsIn (abstractor.check fuel g prec) post := by
  obtain ⟨gen, hgen⟩ := hheld
  have hlive : history.length - 1 = index := by rw [hlength, Nat.add_sub_cancel]
  simp only [check, endsIn_bind, endsIn_lift]
  refine ⟨(history, fresh), hinstall, ?_⟩
  dsimp only
  rw [hlive]
  have hexplore : (do
      let gen ← Explore.generation index
      Explore.count (·.recordStart gen)
      Exploration.solveLive (abstractor.setup fuel) index fresh abstractor.config.stop :
        Explore S P K Unit).Ensures { history, stats := { iteration := abstractor.iteration + 1 } }
          fun _ solved => ∃ last, abstractor.GoesOn fuel index post solved last := by
    simp only [Explore.ensures_bind, Explore.ensures_generation, Explore.ensures_count]
    exact ⟨gen, hgen, hsolve _⟩
  refine EndsIn.mono hexplore ?_
  rintro ⟨⟨⟩, solved⟩ - ⟨last, hlast⟩
  have hsolved : solved.history.length - 1 = index := by rw [hlast.length, Nat.add_sub_cancel]
  have hfreeze := History.exists_freezeLive (hsolved ▸ hlast.held) hlast.fits
  rw [hsolved] at hfreeze
  dsimp only
  rw [endsIn_ok (Explore.run_generation_ok.2 ⟨hlast.held, rfl⟩)]
  refine ⟨_, hfreeze, EndsIn.mono (hlast.resumes _) ?_⟩
  rintro ⟨⟨⟩, resumed⟩ - ⟨live, hheld, hlength', hpost⟩
  have hcopy : resumed.history.applyRetention.live? = some live := by
    rw [History.live?_eq_some, History.length_applyRetention, hlength']
    exact (History.get?_applyRetention_live _ hlength').trans hheld
  dsimp only
  rw [hcopy]
  exact (endsIn_ok rfl).2 (hpost _ rfl rfl rfl)

end GuidedReach.Abstractor
