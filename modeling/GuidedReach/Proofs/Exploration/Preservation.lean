import GuidedReach.Proofs.Exploration.Refuted
import GuidedReach.Proofs.Graph.Refutation

/-!
# Explorations keep the values sound

Whatever an exploration does, an infinite value still means that no target can be reached. With
decreasing heuristics that needs the generation to be closed, since a refuted parent refutes its
children.

* `Exploration.ClosedAt` — the generation with an index is closed.
* `Exploration.Step.sound`, `Exploration.Step.closed` — a step keeps values sound and generations
  closed.
* `Exploration.Settle.sound`, `Exploration.Settle.closed` — so does settling a search.
* `Exploration.SoundAt`, `Exploration.Upto.soundAt` — hence an exploration does.
-/

namespace GuidedReach

variable {S P K : Type}

/-- A sound generation takes its place in a sound history. -/
theorem Progress.sound_put {p : Progress S P K} {index : Nat} {gen gen' : Generation S P K}
    {analysis : Analysis S P K} {allowed : P → Prop} {dead : S → Prop}
    (hp : p.history.Sound analysis allowed dead) (hgen : p.history.get? index = some gen)
    (hkept : (p.put index gen').history.Faithful analysis allowed ∧
      p.history.Keeps (p.put index gen').history)
    (hgen' : gen'.Sound analysis dead p.history index) :
    (p.put index gen').history.Sound analysis allowed dead := by
  refine ⟨hkept.1, fun i new hnew => ?_⟩
  rw [Progress.get?_put hgen] at hnew
  split at hnew
  · rename_i heq
    obtain rfl := Option.some.inj hnew
    exact heq ▸ hgen'.keeps hkept.2
  · exact (hp.generation i new hnew).keeps hkept.2

namespace Exploration

/-- The generation with an index is closed. -/
def ClosedAt (search : SearchType) (index : Nat) (history : History S P K) : Prop :=
  ∀ gen, history.get? index = some gen → Closed search history gen

section

variable {setup : Setup S P K} {allowed : P → Prop} {dead : S → Prop} {index bound : Nat}
variable {p q : Progress S P K} {gen gen' : Generation S P K} {id : NodeId}

theorem ClosedAt.put (hgen : p.history.get? index = some gen)
    (h : Closed setup.search (p.put index gen').history gen') : ClosedAt setup.search index (p.put index gen').history := by
  intro new hnew
  rw [Progress.get?_put_self hgen] at hnew
  exact Option.some.inj hnew ▸ h

/-- What a generation takes its heuristics from is not changed along with it. -/
theorem get?_put_below (hsound : gen.Sound setup.analysis dead p.history index) (below : Nat)
    (h : gen.provider = some below) :
    (p.put index gen').history.get? below = p.history.get? below :=
  Progress.get?_put_of_ne (Nat.ne_of_lt (hsound.provider_lt h))

/-! ## Steps -/

theorem heuristic_of_setHeuristic {d : Distance} (h : gen.setHeuristic id d = .ok gen') :
    gen'.heuristic id = .ok d := by
  obtain ⟨-, k, -, -, -, hrewrites, -⟩ := Generation.setHeuristic_ok h
  exact Generation.heuristic_eq_ok.2 ⟨_, by rw [hrewrites.get?, if_pos rfl], rfl⟩

theorem distance_of_setHeuristic {d e : Distance} (h : gen.setHeuristic id d = .ok gen') :
    gen'.distance id = .ok e ↔ gen.distance id = .ok e := by
  obtain ⟨-, k, -, hk, -, hrewrites, -⟩ := Generation.setHeuristic_ok h
  simp [hrewrites.get?, hk]

/-- Where searches are not on demand, a node that its new heuristic refutes was refuted before, or is
fresh. -/
theorem refuted_or_fresh_of_setHeuristic {d : Distance} (hsearch : setup.search ≠ .semiOnDemand)
    (hsource : Source setup p.history gen id d) (hset : gen.setHeuristic id d = .ok gen')
    (h : Refuted setup.search p.history gen' id) :
    Refuted setup.search p.history gen id ∨ Fresh setup.search gen id := by
  obtain ⟨-, k, -, hk, hknown, -, hold⟩ := Generation.setHeuristic_ok hset
  have hvalue := heuristic_of_setHeuristic hset
  obtain hheuristic | hd := h.hopeless hvalue hknown
  · obtain rfl := Except.ok.inj (hvalue.symm.trans hheuristic)
    obtain hsame | ⟨hunknown, -⟩ := hold
    · exact .inl (.inl (.inl (Generation.heuristic_eq_ok.2 ⟨k, hk, hsame⟩)))
    · have hfresh : setup.search = .decreasing → Fresh setup.search gen id := fun hdecreasing =>
        .inr ⟨hdecreasing, Generation.heuristic_eq_ok.2 ⟨k, hk, hunknown⟩⟩
      cases hsource with
      | provider hbelow holder hk' hq hd _ =>
        obtain rfl := Option.some.inj (hk.symm.trans hk')
        by_cases hfull : setup.search = .full
        · exact .inl (.inr ⟨hfull, k, _, _, _, hk, hunknown, hq, hbelow, holder, hd⟩)
        · refine .inr (hfresh ?_)
          cases hs : setup.search <;> simp_all
      | refutedParent hdecreasing => exact .inr (hfresh hdecreasing)
  · exact .inl (.inl (.inr ((distance_of_setHeuristic hset).1 hd)))

variable (hrefutes : setup.analysis.Refutes allowed dead)
variable (hp : p.history.Sound setup.analysis allowed dead)

include hrefutes hp

theorem dead_of_refuted (hgen : p.history.get? index = some gen)
    (h : Refuted setup.search p.history gen id) {n : Node S} (hn : gen.graph.get? id = some n) :
    dead n.state :=
  h.sound (hp.generation index gen hgen) (fun below older _ holder => hp.generation below older holder)
    hrefutes.of_isLeq hn

/-- A target is not refuted. -/
theorem not_refuted_of_isTarget (hgen : p.history.get? index = some gen) {n : Node S}
    (hn : gen.graph.get? id = some n) (htarget : n.isTarget = true) :
    ¬ Refuted setup.search p.history gen id := by
  intro h
  have hstate := hrefutes.not_isTarget (dead_of_refuted hrefutes hp hgen h hn)
  rw [← (hp.faithful index gen hgen).1.isTarget hn, htarget] at hstate
  simp at hstate

/-- An infinite heuristic is sound where it comes from. -/
theorem dead_of_source (hclosed : setup.search = .decreasing → Closed setup.search p.history gen)
    (hgen : p.history.get? index = some gen)
    (h : Source setup p.history gen id .infinite) {n : Node S} (hn : gen.graph.get? id = some n) :
    dead n.state := by
  cases h with
  | provider hbelow holder hk hprovider hdistance _ =>
    obtain ⟨older, m, n', holder', hm, hn', hleq⟩ :=
      (hp.generation index gen hgen).subsumed hk hprovider hbelow
    obtain rfl := Option.some.inj (holder.symm.trans holder')
    obtain rfl := Option.some.inj (hn.symm.trans hn')
    exact hrefutes.of_isLeq hleq ((hp.generation _ _ holder).distance hdistance hm)
  | refutedParent hdecreasing hn' hparent hinfinite =>
    obtain rfl := Option.some.inj (hn.symm.trans hn')
    exact dead_of_refuted hrefutes hp hgen
      ((hclosed hdecreasing).child hn hparent (.inl (.inl hinfinite))) hn

/-- A refuted node stays so when its heuristic is written: an exhaustive search takes over the infinite
distance of the provider. -/
theorem refuted_of_setHeuristic {d : Distance} (hgen : p.history.get? index = some gen)
    (hsource : Source setup p.history gen id d) (hset : gen.setHeuristic id d = .ok gen')
    (h : Refuted setup.search p.history gen id) : Refuted setup.search p.history gen' id := by
  obtain ⟨-, k, -, hk, -, hrewrites, hold⟩ := Generation.setHeuristic_ok hset
  have hvalue := heuristic_of_setHeuristic hset
  obtain (hheuristic | hd) | ⟨hfull, k', q, below, older, hk', hunknown, hq, hbelow, holder, hd⟩ := h
  · refine .inl (.inl ?_)
    obtain ⟨k', hk', hinfinite⟩ := Generation.heuristic_eq_ok.1 hheuristic
    obtain rfl := Option.some.inj (hk.symm.trans hk')
    obtain rfl | ⟨hunknown, -⟩ := hold
    · rw [hvalue, hinfinite]
    · simp [hunknown] at hinfinite
  · exact .inl (.inr ((distance_of_setHeuristic hset).2 hd))
  · refine .inl (.inl ?_)
    cases hsource with
    | target hn htarget =>
      exact absurd (.inr ⟨hfull, k', q, below, older, hk', hunknown, hq, hbelow, holder, hd⟩)
        (not_refuted_of_isTarget hrefutes hp hgen hn htarget)
    | base hnone => simp [hbelow] at hnone
    | provider hbelow' holder' hk'' hq' hd' _ =>
      obtain rfl := Option.some.inj (hbelow.symm.trans hbelow')
      obtain rfl := Option.some.inj (holder.symm.trans holder')
      obtain rfl := Option.some.inj (hk'.symm.trans hk'')
      obtain rfl := Option.some.inj (hq.symm.trans hq')
      rw [hvalue, ← hd', hd]
    | root hdecreasing => simp [hfull] at hdecreasing
    | parent hdecreasing => simp [hfull] at hdecreasing
    | refutedParent hdecreasing => simp [hfull] at hdecreasing

section

variable [DecidableEq S] [DecidableEq K] (hlaws : setup.analysis.Lawful)

include hlaws

/-- **A step keeps the values sound.** -/
theorem Step.sound (hclosed : setup.search = .decreasing → ClosedAt setup.search index p.history)
    (h : Step setup index p q) : q.history.Sound setup.analysis allowed dead := by
  have hkept := h.keeps hlaws hp.faithful
  cases h with
  | count hsame => exact hsame ▸ hp
  | heuristic hgen hsource hset =>
    have hsound := hp.generation _ _ hgen
    obtain ⟨n, k, hn, hk, -, hrewrites, -⟩ := Generation.setHeuristic_ok hset
    refine Progress.sound_put hp hgen hkept (hsound.of_rewrites hrewrites hn (fun hq hbelow => ?_)
      (fun hvalue => ?_) (fun hd => hsound.distance (Generation.distance_eq_ok.2 ⟨k, hk, hd⟩) hn)
      fun hd => hsound.finite (Generation.distance_eq_ok.2 ⟨k, hk, hd⟩))
    · obtain ⟨older, m, n', holder, hm, hn', hleq⟩ := hsound.subsumed hk hq hbelow
      obtain rfl := Option.some.inj (hn.symm.trans hn')
      exact ⟨older, m, holder, hm, hleq⟩
    · have hvalue : _ = Distance.infinite := hvalue
      subst hvalue
      exact dead_of_source hrefutes hp (fun hdecreasing => hclosed hdecreasing _ hgen) hgen hsource hn
  | provider hgen hbelow holder hk hprovider _ hm hcovering hset =>
    have hsound := hp.generation _ _ hgen
    obtain ⟨k, hk', hrewrites⟩ := Generation.setProvider_ok hset
    obtain rfl := Option.some.inj (hk.symm.trans hk')
    obtain ⟨older, m, n, holder', hm', hn, hleq⟩ := hsound.subsumed hk hprovider hbelow
    obtain rfl := Option.some.inj (holder.symm.trans holder')
    obtain rfl := Option.some.inj (hm.symm.trans hm')
    -- the coverer of a provider subsumes what the provider does
    obtain ⟨-, -, above, habove, hleq'⟩ := (hp.faithful _ _ holder).1.covering hm hcovering
    refine Progress.sound_put hp hgen hkept (hsound.of_rewrites hrewrites hn (fun hq hbelow' => ?_)
      (fun hd => hsound.heuristic (Generation.heuristic_eq_ok.2 ⟨_, hk, hd⟩) hn)
      (fun hd => hsound.distance (Generation.distance_eq_ok.2 ⟨_, hk, hd⟩) hn)
      fun hd => hsound.finite (Generation.distance_eq_ok.2 ⟨_, hk, hd⟩))
    obtain rfl := Option.some.inj hq
    obtain rfl := Option.some.inj (hbelow.symm.trans hbelow')
    exact ⟨_, above, holder, habove, hlaws.isLeq_trans hleq hleq'⟩
  | register hgen hprovider hset =>
    have hsound := hp.generation _ _ hgen
    obtain ⟨⟨n, hn⟩, -, hrewrites⟩ := Generation.register_ok hset
    refine Progress.sound_put hp hgen hkept (hsound.of_rewrites hrewrites hn (fun hq hbelow => ?_)
      (by simp) (by simp) (by simp))
    obtain ⟨below, older, m, n', hbelow', holder, hm, hn', hleq⟩ := hprovider _ hq
    obtain rfl := Option.some.inj (hbelow.symm.trans hbelow')
    obtain rfl := Option.some.inj (hn.symm.trans hn')
    exact ⟨older, m, holder, hm, hleq⟩
  | cover hgen ha hb hleaf hopen hleq _ _ _ _ _ _ _ hrun =>
    exact Progress.sound_put hp hgen hkept ((hp.generation _ _ hgen).of_grows
      (Graph.grows_of_cover hrun))
  | expand hgen hn hfree hopen hfeasible _ _ _ _ hrun =>
    obtain ⟨hfaithful, hprec⟩ := hp.faithful _ _ hgen
    have hfeasible := hfeasible.elim (hfaithful.isFeasible_of_isTarget hlaws hn) id
    obtain ⟨-, hadded, -⟩ := Graph.expand_ok hfaithful hprec hn hfree hfeasible hopen hrun
    exact Progress.sound_put hp hgen hkept ((hp.generation _ _ hgen).of_grows hadded.grows)
  | seed hgen hopen hrun =>
    obtain ⟨hfaithful, hprec⟩ := hp.faithful _ _ hgen
    obtain ⟨-, hadded, -⟩ := Graph.seed_ok hfaithful hopen hprec hrun
    exact Progress.sound_put hp hgen hkept ((hp.generation _ _ hgen).of_grows hadded.grows)

/-- **A step leaves a generation closed**, unless searches are on demand. -/
theorem Step.closed (hsearch : setup.search ≠ .semiOnDemand) (hclosed : ClosedAt setup.search index p.history)
    (h : Step setup index p q) : ClosedAt setup.search index q.history := by
  cases h with
  | count hsame =>
    intro gen hgen
    rw [hsame] at hgen ⊢
    exact hclosed gen hgen
  | heuristic hgen hsource hset =>
    obtain ⟨-, k, -, hk, hknown, hrewrites, -⟩ := Generation.setHeuristic_ok hset
    exact .put hgen ((hclosed _ hgen).of_rewrites (hp.faithful _ _ hgen).1.wellFormed hrewrites
      (get?_put_below (hp.generation _ _ hgen))
      (refuted_of_setHeuristic hrefutes hp hgen hsource hset)
      (refuted_or_fresh_of_setHeuristic hsearch hsource hset)
      fun hfresh => absurd hfresh (not_fresh (heuristic_of_setHeuristic hset) hknown))
  | @provider gen gen' _ _ id _ _ k _ hgen _ _ hk _ hknown _ _ hset =>
    have hwf := (hp.faithful _ _ hgen).1.wellFormed
    obtain ⟨k', hk', hrewrites⟩ := Generation.setProvider_ok hset
    obtain rfl := Option.some.inj (hk.symm.trans hk')
    have hheuristic : gen.heuristic id = .ok k.heuristic := Generation.heuristic_eq_ok.2 ⟨k, hk, rfl⟩
    have hself := hrewrites.get? id
    rw [if_pos rfl] at hself
    have hheuristic' : gen'.heuristic id = .ok k.heuristic :=
      Generation.heuristic_eq_ok.2 ⟨_, hself, rfl⟩
    have hhopeless : gen'.Hopeless id ↔ gen.Hopeless id := by
      simp [Generation.Hopeless, hself, hk]
    exact .put hgen ((hclosed _ hgen).of_rewrites hwf hrewrites
      (get?_put_below (hp.generation _ _ hgen))
      (fun hrefuted => .inl (hhopeless.2 (hrefuted.hopeless hheuristic hknown)))
      (fun hrefuted => .inl (.inl (hhopeless.1 (hrefuted.hopeless hheuristic' hknown))))
      fun hfresh => absurd hfresh (not_fresh hheuristic' hknown))
  | register hgen _ hset =>
    have hwf := (hp.faithful _ _ hgen).1.wellFormed
    obtain ⟨-, hnone, hrewrites⟩ := Generation.register_ok hset
    refine .put hgen ((hclosed _ hgen).of_rewrites hwf hrewrites
      (get?_put_below (hp.generation _ _ hgen)) (fun hrefuted => ?_) (fun _ => .inr (.inl hnone))
      fun _ => .inl hnone)
    obtain (hvalue | hvalue) | ⟨-, k, -, -, -, hk, -⟩ := hrefuted
    · simp [hnone] at hvalue
    · simp [hnone] at hvalue
    · simp [hnone] at hk
  | cover hgen ha _ _ _ _ _ habove hbelow hknown hknown' hle hdistance hrun =>
    have hwf := (hp.faithful _ _ hgen).1.wellFormed
    obtain ⟨-, a, b, -, -, -, -, hrewritten⟩ := Graph.cover_ok hwf hrun
    refine .put hgen ((hclosed _ hgen).of_coverNode hrewritten
      (get?_put_below (hp.generation _ _ hgen)) (fun hrefuted => .inl (.inl ?_))
      (not_fresh habove hknown))
    obtain hinfinite | hinfinite := hrefuted.hopeless habove hknown
    · obtain rfl := Except.ok.inj (habove.symm.trans hinfinite)
      rw [hbelow, Distance.eq_infinite_of_notAbove hknown' hle]
    · obtain htarget | hne := hdistance
      · exact absurd hrefuted (not_refuted_of_isTarget hrefutes hp hgen ha htarget)
      · exact absurd hinfinite hne
  | expand hgen hn hfree hopen hfeasible hd hknown hsearched _ hrun =>
    obtain ⟨hfaithful, hprec⟩ := hp.faithful _ _ hgen
    have hsound := hp.generation _ _ hgen
    have hfeasible := hfeasible.elim (hfaithful.isFeasible_of_isTarget hlaws hn) id
    obtain ⟨-, hadded, -⟩ := Graph.expand_ok hfaithful hprec hn hfree hfeasible hopen hrun
    refine .put hgen ((hclosed _ hgen).of_addedLeaves hsound.inGraph (get?_put_below hsound) hadded ?_)
    intro i hi
    obtain rfl := Option.some.inj hi
    refine ⟨fun hrefuted => ?_, not_fresh hd hknown⟩
    obtain htarget | ⟨hne, hne'⟩ := hsearched
    · exact not_refuted_of_isTarget hrefutes hp hgen hn htarget hrefuted
    · obtain hinfinite | hinfinite := hrefuted.hopeless hd hknown
      · exact hne (Except.ok.inj (hd.symm.trans hinfinite))
      · exact hne' hinfinite
  | seed hgen hopen hrun =>
    obtain ⟨hfaithful, hprec⟩ := hp.faithful _ _ hgen
    have hsound := hp.generation _ _ hgen
    obtain ⟨-, hadded, -⟩ := Graph.seed_ok hfaithful hopen hprec hrun
    exact .put hgen ((hclosed _ hgen).of_addedLeaves hsound.inGraph (get?_put_below hsound) hadded
      (by simp))

end

/-! ## Settling -/

/-- Each change of distances settles: infinite ones are where nothing is left below. -/
theorem Settle.settles (h : Settle setup index p q) :
    ∃ gen gen', p.history.get? index = some gen ∧ q = p.put index gen' ∧
      Generation.Settles (fun i => gen.heuristic i = .ok .infinite) gen gen' := by
  cases h with
  | target hgen hn htarget hset =>
    exact ⟨_, _, hgen, rfl, .of_setDistance hset (.refl _ _) hn (by simp [Distance.zero])
      fun _ => .inr ⟨_, _, hn, htarget⟩⟩
  | start hgen hinfinite hset =>
    obtain ⟨n, -, hn, -⟩ := Generation.setDistance_ok hset
    have htarget : n.isTarget = false := by
      cases ht : n.isTarget with
      | false => rfl
      | true => exact absurd (.inl (.inl hinfinite)) (not_refuted_of_isTarget hrefutes hp hgen hn ht)
    exact ⟨_, _, hgen, rfl, .of_setDistance hset (.refl _ _) hn (fun _ => ⟨htarget, .inl hinfinite⟩)
      (by simp [Distance.isFinite])⟩
  | guided hgen hsettle =>
    exact ⟨_, _, hgen, rfl, Generation.settleGuided_settles (fun _ hi => hi) hsettle⟩

/-- **Settling keeps the values sound.** Below a node that became infinitely far away there are only
such nodes, and no targets. -/
theorem Settle.sound (hlaws : setup.analysis.Lawful) (h : Settle setup index p q) :
    q.history.Sound setup.analysis allowed dead := by
  have hkept := h.keeps hp.faithful
  obtain ⟨gen, gen', hgen, rfl, hsettles⟩ := h.settles hrefutes hp
  have hsound := hp.generation index gen hgen
  obtain ⟨hfaithful, -⟩ := hp.faithful index gen hgen
  refine Progress.sound_put hp hgen hkept (hsound.of_distanceWrites hsettles.toDistanceWrites
    (fun hi hn => hfaithful.dead_of_region hlaws hrefutes
      (fun i => gen'.distance i = .ok .infinite) (fun {i n} hi hn => ?_) hi hn)
    fun hi => ?_)
  · have htarget : dead n.state → n.isTarget = false := fun hdead =>
      (hfaithful.isTarget hn).trans (hrefutes.not_isTarget hdead)
    obtain hold | ⟨n', hn', hnot, hblocked⟩ := hsettles.infinite hi
    · have hdead := hsound.distance hold hn
      exact ⟨htarget hdead, .inl hdead⟩
    · obtain rfl := Option.some.inj (hn.symm.trans hn')
      obtain hrefuted | hblocked := hblocked
      · exact ⟨hnot, .inl (hsound.heuristic hrefuted hn)⟩
      · exact ⟨hnot, .inr hblocked⟩
  · obtain ⟨j, d, hj⟩ | htarget := hsettles.finite (.inl ⟨_, _, hi⟩)
    · exact hsound.finite hj
    · exact htarget

/-- **Settling leaves a generation closed.** -/
theorem Settle.closed (hclosed : ClosedAt setup.search index p.history) (h : Settle setup index p q) :
    ClosedAt setup.search index q.history := by
  obtain ⟨gen, gen', hgen, rfl, hsettles⟩ := h.settles hrefutes hp
  have hclosed := hclosed gen hgen
  obtain ⟨hfaithful, -⟩ := hp.faithful index gen hgen
  exact .put hgen (hclosed.of_settles hfaithful hsettles (get?_put_below (hp.generation index gen hgen)))

end

/-! ## Explorations -/

/-- What an exploration of the generation with an index keeps true: values are sound and, unless
searches are on demand, the generation is closed. -/
structure SoundAt (analysis : Analysis S P K) (search : SearchType) (allowed : P → Prop)
    (dead : S → Prop) (index : Nat) (history : History S P K) : Prop where
  sound : history.Sound analysis allowed dead
  closed : search ≠ .semiOnDemand → ClosedAt search index history

section

variable [DecidableEq S] [DecidableEq K] {setup : Setup S P K} {allowed : P → Prop}
variable {dead : S → Prop} {index bound : Nat} {p q : Progress S P K}
variable (hlaws : setup.analysis.Lawful) (hrefutes : setup.analysis.Refutes allowed dead)

include hlaws hrefutes

theorem Step.soundAt (hp : SoundAt setup.analysis setup.search allowed dead index p.history) (h : Step setup index p q) :
    SoundAt setup.analysis setup.search allowed dead index q.history :=
  ⟨h.sound hrefutes hp.sound hlaws fun hdecreasing => hp.closed (by simp [hdecreasing]),
    fun hsearch => h.closed hrefutes hp.sound hlaws hsearch (hp.closed hsearch)⟩

omit [DecidableEq S] [DecidableEq K] in
theorem Settle.soundAt (hp : SoundAt setup.analysis setup.search allowed dead index p.history) (h : Settle setup index p q) :
    SoundAt setup.analysis setup.search allowed dead index q.history :=
  ⟨h.sound hrefutes hp.sound hlaws, fun hsearch => h.closed hrefutes hp.sound (hp.closed hsearch)⟩

/-- Searches on demand do not need closed generations. -/
theorem Below.sound (hp : p.history.Sound setup.analysis allowed dead) (h : Below setup bound p q) :
    q.history.Sound setup.analysis allowed dead := by
  induction h with
  | refl => exact hp
  | tail _ hlast ih =>
    obtain ⟨hsearch, j, -, hstep | hsettle⟩ := hlast
    · exact hstep.sound hrefutes ih hlaws fun hdecreasing => by simp [hsearch] at hdecreasing
    · exact hsettle.sound hrefutes ih hlaws

theorem Quiet.soundAt (hp : SoundAt setup.analysis setup.search allowed dead index p.history) (h : Quiet setup index p q) :
    SoundAt setup.analysis setup.search allowed dead index q.history := by
  induction h with
  | refl => exact hp
  | tail _ hlast ih =>
    obtain hstep | hbelow := hlast
    · exact hstep.soundAt hlaws hrefutes ih
    · exact ⟨hbelow.sound hlaws hrefutes ih.sound,
        fun hsearch => hbelow.eq_of_search hsearch ▸ ih.closed hsearch⟩

/-- **An exploration keeps the values sound** and its generation closed. -/
theorem Upto.soundAt (hp : SoundAt setup.analysis setup.search allowed dead index p.history) (h : Upto setup index p q) :
    SoundAt setup.analysis setup.search allowed dead index q.history := by
  induction h with
  | refl => exact hp
  | tail _ hlast ih =>
    obtain hsettle | hquiet := hlast
    · exact hsettle.soundAt hlaws hrefutes ih
    · exact hquiet.soundAt hlaws hrefutes ih

end

end Exploration

end GuidedReach
