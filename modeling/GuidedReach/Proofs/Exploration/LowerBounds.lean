import GuidedReach.Proofs.Abstractor.Exhaustive

/-!
# Values of exhaustive searches are lower bounds

What is known about a node after exhaustive searches bounds the length of every walk to a target from
what its state stands for. Distances are such bounds because they drop along each edge by at most its
weight, and all that may lead to a target was explored; heuristics are because they are distances of
states that subsume the node.

* `Analysis.Delays` — a notion of states from which targets are at least so many steps away.
* `Generation.LowerBounds` — values that are such bounds.
* `Generation.Measured.lowerBounds` — measured distances of a graph that was explored.
* `Exploration.Upto.lowerBounds` — heuristics, as long as the distances that they come from are.
* `Exploration.solveLive_lowerBounds` — what an exhaustive round leaves behind.
-/

namespace GuidedReach

variable {S P K : Type}

/-- A notion of states from which every target is at least a number of steps away. -/
structure Analysis.Delays (analysis : Analysis S P K) (allowed : P → Prop) (away : Nat → S → Prop) :
    Prop where
  zero : ∀ a, away 0 a
  of_isLeq : ∀ {m a b}, analysis.isLeq a b = true → away m b → away m a
  of_isBottom : ∀ {m a}, analysis.isBottom a = true → away m a
  succ : ∀ {m a prec}, allowed prec → analysis.isTarget a = false →
    (∀ s ∈ analysis.succStates a prec, away m s) → away (m + 1) a

namespace Generation

variable {analysis : Analysis S P K} {allowed : P → Prop} {away : Nat → S → Prop}
variable {gen gen' : Generation S P K} {value value' : NodeId → Except Fault Distance}

/-- From what the states of nodes stand for, targets are at least as far away as the values say. -/
def LowerBounds (away : Nat → S → Prop) (gen : Generation S P K)
    (value : NodeId → Except Fault Distance) : Prop :=
  ∀ ⦃i n d m⦄, gen.graph.get? i = some n → value i = .ok d → (Distance.finite m).Drops 0 d →
    away m n.state

/-- Unknown values bound nothing. -/
theorem LowerBounds.of_unknown (h : ∀ i d, value i = .ok d → d = .unknown) :
    gen.LowerBounds away value := by
  intro i n d m _ hd hdrops
  obtain rfl := h i d hd
  cases hdrops

/-- Zeros are lower bounds of anything. -/
theorem LowerBounds.of_zero (hdelays : analysis.Delays allowed away)
    (h : ∀ i d, value i = .ok d → d.isKnown = true → d = .zero) : gen.LowerBounds away value := by
  intro i n d m _ hd hdrops
  obtain rfl := h i d hd hdrops.isKnown_right
  cases hdrops with
  | finite hle =>
    obtain rfl : m = 0 := by omega
    exact hdelays.zero _

/-- Values are the same, as far as they are known, and nodes that have some were there before. -/
theorem LowerBounds.mono (h : gen.LowerBounds away value)
    (hvalue : ∀ {i n' d}, gen'.graph.get? i = some n' → value' i = .ok d → d.isKnown = true →
      value i = .ok d ∧ ∃ n, gen.graph.get? i = some n ∧ n'.state = n.state) :
    gen'.LowerBounds away value' := by
  intro i n' d m hn' hd hdrops
  obtain ⟨hold, n, hn, hstate⟩ := hvalue hn' hd hdrops.isKnown_right
  exact hstate ▸ h hn hold hdrops

/-- **Measured distances are lower bounds**, if whatever may lead to a target was explored: by
induction on the bound, since a distance drops by at most one along a tree edge. Along a covering edge
it does not drop, and there is only one before the next tree edge. -/
theorem Measured.lowerBounds (hmeasured : gen.Measured) (hg : gen.graph.Faithful analysis allowed)
    (hdelays : analysis.Delays allowed away)
    (hhandled : ∀ {i n}, gen.graph.get? i = some n →
      gen.graph.Handled (fun _ => True) i ∨ ∀ m, away m n.state) :
    gen.LowerBounds away gen.distance := by
  intro i n d m hn hd hdrops
  induction m generalizing i n d with
  | zero => exact hdelays.zero _
  | succ m ih =>
    have hnotTarget : ∀ {i n d}, gen.graph.get? i = some n → gen.distance i = .ok d →
        (Distance.finite (m + 1)).Drops 0 d → analysis.isTarget n.state = false := by
      intro i n d hn hd hdrops
      rw [← hg.isTarget hn, Bool.eq_false_iff]
      intro htarget
      rw [hmeasured.target hn htarget] at hd
      obtain rfl := Except.ok.inj hd
      cases hdrops with
      | finite hle => omega
    have hopen : ∀ {i n d}, gen.graph.get? i = some n → n.covering = none →
        gen.distance i = .ok d → (Distance.finite (m + 1)).Drops 0 d → away (m + 1) n.state := by
      intro i n d hn hfree hd hdrops
      rcases hhandled hn with ⟨n', hn', ⟨c, hc, -⟩ | ⟨-, hempty | ⟨hexpanded, -⟩⟩⟩ | haway
      · obtain rfl := Option.some.inj (hn.symm.trans hn')
        simp [hfree] at hc
      · obtain rfl := Option.some.inj (hn.symm.trans hn')
        exact hdelays.of_isBottom (by simpa [hg.isFeasible hn] using hempty)
      · obtain rfl := Option.some.inj (hn.symm.trans hn')
        obtain ⟨prec, hprec, hall⟩ := hg.expanded hn hexpanded
        refine hdelays.succ hprec (hnotTarget hn hd hdrops) fun s hs => ?_
        obtain ⟨c, b, hc, hb, rfl⟩ := Graph.mem_statesOf.1 (hall s hs)
        obtain ⟨b', hb', hparent⟩ := hg.wellFormed.succ_link hn hc
        obtain ⟨e, he, -⟩ := hmeasured.known hb
        have hedge := hdrops.trans (hmeasured.drops (.tree hb' hparent) hd he)
        refine ih hb he ?_
        cases hedge with
        | finite hle => exact .finite (by omega)
        | infinite => exact .infinite rfl
      · exact haway _
    cases hcovering : n.covering with
    | none => exact hopen hn hcovering hd hdrops
    | some c =>
      obtain ⟨-, b, hb, hfree, -⟩ := hg.wellFormed.covering_link hn hcovering
      obtain ⟨-, -, b', hb', hleq⟩ := hg.covering hn hcovering
      obtain rfl := Option.some.inj (hb.symm.trans hb')
      obtain ⟨e, he, -⟩ := hmeasured.known hb
      exact hdelays.of_isLeq hleq
        (hopen hb hfree he (hdrops.trans (hmeasured.drops (.covering hn hcovering) hd he)))

end Generation

namespace Exploration

variable [DecidableEq S] [DecidableEq K] {setup : Setup S P K} {index : Nat} {p q : Progress S P K}
variable {allowed : P → Prop} {dead : S → Prop} {away : Nat → S → Prop}

omit [DecidableEq S] [DecidableEq K] in
theorem Settle.exists_get? (h : Settle setup index p q) {gen' : Generation S P K}
    (hgen' : q.history.get? index = some gen') : ∃ gen, p.history.get? index = some gen := by
  cases h with
  | target hgen _ _ _ => exact ⟨_, hgen⟩
  | start hgen _ _ => exact ⟨_, hgen⟩
  | guided hgen _ => exact ⟨_, hgen⟩

/-- Unless searches are on demand, other generations stay as they are. -/
theorem Quiet.frame_of_search (hsearch : setup.search ≠ .semiOnDemand) (h : Quiet setup index p q)
    {i : Nat} (hi : i ≠ index) : q.history.get? i = p.history.get? i := by
  induction h with
  | refl => rfl
  | tail _ hlast ih =>
    obtain hstep | hbelow := hlast
    · rw [hstep.frame hi, ih]
    · rw [hbelow.eq_of_search hsearch, ih]

theorem Upto.frame_of_search (hsearch : setup.search ≠ .semiOnDemand) (h : Upto setup index p q)
    {i : Nat} (hi : i ≠ index) : q.history.get? i = p.history.get? i := by
  induction h with
  | refl => rfl
  | tail _ hlast ih =>
    obtain hsettle | hquiet := hlast
    · rw [hsettle.frame hi, ih]
    · rw [hquiet.frame_of_search hsearch hi, ih]

/-- The heuristics of the generation with an index are lower bounds. -/
def BoundedAt (away : Nat → S → Prop) (index : Nat) (history : History S P K) : Prop :=
  ∀ gen, history.get? index = some gen → gen.LowerBounds away gen.heuristic

section

variable (hlaws : setup.analysis.Lawful) (hdelays : setup.analysis.Delays allowed away)
variable (hfull : setup.search = .full)

include hlaws hdelays hfull

omit [DecidableEq S] [DecidableEq K] hlaws in
/-- In an exhaustive search a heuristic is a distance of a state that subsumes the node, or 0. -/
theorem Source.bounds {gen : Generation S P K} {id : NodeId} {d : Distance}
    (hsource : Source setup p.history gen id d) (hp : p.history.Sound setup.analysis allowed dead)
    (hgen : p.history.get? index = some gen)
    (holder : ∀ i < index, ∀ older, p.history.get? i = some older →
      older.LowerBounds away older.distance)
    {n : Node S} (hn : gen.graph.get? id = some n) {m : Nat} (hdrops : (Distance.finite m).Drops 0 d) :
    away m n.state := by
  have hzero : ∀ a, (Distance.finite m).Drops 0 .zero → away m a := by
    intro a hdrops
    cases hdrops with
    | finite hle =>
      obtain rfl : m = 0 := by omega
      exact hdelays.zero a
  cases hsource with
  | target => exact hzero _ hdrops
  | base => exact hzero _ hdrops
  | provider hbelow hheld hk hprovider hd _ =>
    have hsound := hp.generation index gen hgen
    obtain ⟨older, b, n', hheld', hb, hn', hleq⟩ := hsound.subsumed hk hprovider hbelow
    obtain rfl := Option.some.inj (hheld.symm.trans hheld')
    obtain rfl := Option.some.inj (hn.symm.trans hn')
    exact hdelays.of_isLeq hleq (holder _ (hsound.provider_lt hbelow) _ hheld hb hd hdrops)
  | root hdecreasing => simp [hfull] at hdecreasing
  | parent hdecreasing => simp [hfull] at hdecreasing
  | refutedParent hdecreasing => simp [hfull] at hdecreasing

/-- A step keeps heuristics lower bounds. -/
theorem Step.lowerBounds (h : Step setup index p q)
    (hp : p.history.Sound setup.analysis allowed dead)
    (holder : ∀ i < index, ∀ older, p.history.get? i = some older →
      older.LowerBounds away older.distance)
    (hbounds : BoundedAt away index p.history) : BoundedAt away index q.history := by
  intro gen' hgen'
  have hput : ∀ {gen new : Generation S P K}, p.history.get? index = some gen →
      (p.put index new).history.get? index = some gen' → new = gen' := by
    intro gen new hgen hnew
    rw [Progress.get?_put_self hgen] at hnew
    exact Option.some.inj hnew
  have hgraph : ∀ {gen : Generation S P K} {graph : Graph S}, p.history.get? index = some gen →
      gen.graph.Grows graph → Generation.LowerBounds away { gen with graph } gen.heuristic := by
    intro gen graph hgen hgrows
    refine (hbounds gen hgen).mono fun hn' hd hknown => ⟨hd, ?_⟩
    obtain ⟨k, hk, -⟩ := Generation.heuristic_eq_ok.1 hd
    obtain ⟨n, hn⟩ := (hp.generation index gen hgen).inGraph hk
    obtain ⟨n'', hn'', hgrows'⟩ := hgrows.node hn
    obtain rfl := Option.some.inj (hn'.symm.trans hn'')
    exact ⟨n, hn, hgrows'.state⟩
  -- one search node is written, with a heuristic that is a lower bound
  have hrewrites : ∀ {gen new : Generation S P K} {id k'}, p.history.get? index = some gen →
      gen.Rewrites new id k' → (∀ n m, gen.graph.get? id = some n →
        (Distance.finite m).Drops 0 k'.heuristic → away m n.state) →
      new.LowerBounds away new.heuristic := by
    intro gen new id k' hgen hwrite hnew i n d m hn hd hdrops
    rw [hwrite.graph] at hn
    obtain ⟨k, hk, rfl⟩ := Generation.heuristic_eq_ok.1 hd
    rw [hwrite.get?] at hk
    split at hk
    · rename_i heq
      obtain rfl := Option.some.inj hk
      exact hnew n m (heq ▸ hn) hdrops
    · exact hbounds gen hgen hn (Generation.heuristic_eq_ok.2 ⟨k, hk, rfl⟩) hdrops
  cases h with
  | count hsame =>
    rw [hsame] at hgen'
    exact hbounds gen' hgen'
  | heuristic hgen hsource hset =>
    obtain rfl := hput hgen hgen'
    obtain ⟨-, _, -, -, -, hwrite, -⟩ := Generation.setHeuristic_ok hset
    exact hrewrites hgen hwrite fun n m hn hdrops =>
      hsource.bounds hdelays hfull hp hgen holder hn hdrops
  | provider hgen _ _ hk _ _ _ _ hset =>
    obtain rfl := hput hgen hgen'
    obtain ⟨k, hk, hwrite⟩ := Generation.setProvider_ok hset
    exact hrewrites hgen hwrite fun n m hn hdrops =>
      hbounds _ hgen hn (Generation.heuristic_eq_ok.2 ⟨k, hk, rfl⟩) hdrops
  | register hgen _ hset =>
    obtain rfl := hput hgen hgen'
    obtain ⟨-, -, hwrite⟩ := Generation.register_ok hset
    refine hrewrites hgen hwrite fun n m _ hdrops => ?_
    cases hdrops
  | cover hgen _ _ _ _ _ _ _ _ _ _ _ _ hrun =>
    obtain rfl := hput hgen hgen'
    exact hgraph hgen (Graph.grows_of_cover hrun)
  | expand hgen hn hfree hopen hfeasible _ _ _ _ hrun =>
    obtain rfl := hput hgen hgen'
    obtain ⟨hfaithful, hprec⟩ := hp.faithful _ _ hgen
    have hfeasible := hfeasible.elim (hfaithful.isFeasible_of_isTarget hlaws hn) id
    obtain ⟨-, hadded, -⟩ := Graph.expand_ok hfaithful hprec hn hfree hfeasible hopen hrun
    exact hgraph hgen hadded.grows
  | seed hgen hopen hrun =>
    obtain rfl := hput hgen hgen'
    obtain ⟨hfaithful, hprec⟩ := hp.faithful _ _ hgen
    obtain ⟨-, hadded, -⟩ := Graph.seed_ok hfaithful hopen hprec hrun
    exact hgraph hgen hadded.grows

omit [DecidableEq S] [DecidableEq K] hlaws hdelays hfull in
/-- New distances leave heuristics as they are. -/
theorem lowerBounds_heuristic_of_writes {gen gen' : Generation S P K}
    (h : gen.LowerBounds away gen.heuristic) (hwrites : gen.DistanceWrites gen') :
    gen'.LowerBounds away gen'.heuristic := by
  refine h.mono fun hn hd _ => ⟨hwrites.heuristic_eq_ok.1 hd, ?_⟩
  rw [hwrites.graph] at hn
  exact ⟨_, hn, rfl⟩

omit [DecidableEq S] [DecidableEq K] hlaws hdelays hfull in
theorem Settle.lowerBounds (h : Settle setup index p q) (hbounds : BoundedAt away index p.history) :
    BoundedAt away index q.history := by
  intro gen' hgen'
  obtain ⟨gen, hgen⟩ := h.exists_get? hgen'
  exact lowerBounds_heuristic_of_writes (hbounds gen hgen) (h.writes hgen hgen')

variable (hrefutes : setup.analysis.Refutes allowed dead)
variable (hp : SoundAt setup.analysis setup.search allowed dead index p.history)
variable (holder : ∀ i < index, ∀ older, p.history.get? i = some older →
  older.LowerBounds away older.distance)

include hrefutes hp holder

theorem Quiet.lowerBounds (h : Quiet setup index p q) (hbounds : BoundedAt away index p.history) :
    BoundedAt away index q.history := by
  induction h with
  | refl => exact hbounds
  | tail hquiet hlast ih =>
    obtain hstep | hbelow := hlast
    · refine hstep.lowerBounds hlaws hdelays hfull (Quiet.soundAt hlaws hrefutes hp hquiet).sound
        (fun i hi older hget => ?_) ih
      rw [Quiet.frame_of_search (by simp [hfull]) hquiet (Nat.ne_of_lt hi)] at hget
      exact holder i hi older hget
    · exact hbelow.eq_of_search (by simp [hfull]) ▸ ih

/-- **An exhaustive exploration keeps heuristics lower bounds**, if older distances are. -/
theorem Upto.lowerBounds (h : Upto setup index p q) (hbounds : BoundedAt away index p.history) :
    BoundedAt away index q.history := by
  induction h with
  | refl => exact hbounds
  | tail hupto hlast ih =>
    obtain hsettle | hquiet := hlast
    · exact hsettle.lowerBounds ih
    · refine hquiet.lowerBounds hlaws hdelays hfull hrefutes
        (Upto.soundAt hlaws hrefutes hp hupto) (fun i hi older hget => ?_) ih
      rw [Upto.frame_of_search (by simp [hfull]) hupto (Nat.ne_of_lt hi)] at hget
      exact holder i hi older hget

/-- **Solving the live generation exhaustively** leaves lower bounds: heuristics, and the distances of
all that was explored. -/
theorem solveLive_lowerBounds (hdead : ∀ {a}, dead a → ∀ m, away m a) {gen : Generation S P K}
    (hgen : p.history.get? index = some gen)
    (hunknown : ∀ i d, gen.distance i = .ok d → d = .unknown)
    (hbounds : gen.LowerBounds away gen.heuristic)
    (h : (solveLive setup index [] .fullExploration).run p = .ok ((), q)) :
    (∃ gen', q.history.get? index = some gen' ∧ gen'.LowerBounds away gen'.heuristic ∧
      gen'.LowerBounds away gen'.distance) ∧
      ∀ i ≠ index, q.history.get? i = p.history.get? i := by
  have hsearch : setup.search ≠ .semiOnDemand := by simp [hfull]
  obtain ⟨mid, hinitialize, gen₀, hgen₀, hsolve⟩ := solveLive_ok h
  obtain ⟨hquiet, gen₀', hgen₀', hinitialized⟩ :=
    ensureInitialized_ok hlaws hp.sound.faithful hgen hinitialize
  obtain rfl := Option.some.inj (hgen₀.symm.trans hgen₀')
  have hmid := hquiet.soundAt hlaws hrefutes hp
  obtain ⟨spread, gen₁, gen', hupto, hgen₁, hgen', hwrites, hframe, hends⟩ :=
    solve_settled hlaws hrefutes hmid hgen₀ (hquiet.unknown hgen hgen₀ hunknown) hfull
      (below_lawful hlaws index) hinitialized hsolve
  have hspread := hupto.soundAt hlaws hrefutes hmid
  have hbehind : ∀ i ≠ index, spread.history.get? i = p.history.get? i := fun i hi => by
    rw [hupto.frame_of_search hsearch hi, hquiet.frame_of_search hsearch hi]
  have hbounds₀ : BoundedAt away index mid.history :=
    hquiet.lowerBounds hlaws hdelays hfull hrefutes hp holder fun old hold =>
      Option.some.inj (hgen.symm.trans hold) ▸ hbounds
  have hbounds₁ := hupto.lowerBounds hlaws hdelays hfull hrefutes hmid (fun i hi older hget => by
    rw [hquiet.frame_of_search hsearch (Nat.ne_of_lt hi)] at hget
    exact holder i hi older hget) hbounds₀ gen₁ hgen₁
  refine ⟨⟨gen', hgen', lowerBounds_heuristic_of_writes hbounds₁ hwrites, ?_⟩, fun i hi => by
    rw [hframe i hi, hbehind i hi]⟩
  rcases hends with ⟨-, htargets⟩ | ⟨hmeasured, hexhausted⟩
  · exact .of_zero hdelays fun i d hd hknown => (htargets i d hd hknown).1
  · -- whatever was passed over is refuted
    have hfaithful := (hspread.sound.faithful _ _ hgen₁).1
    refine hmeasured.lowerBounds (hwrites.graph ▸ hfaithful) hdelays fun hn => ?_
    rw [hwrites.graph] at hn ⊢
    exact (handled_or_refuted hfaithful (hspread.closed hsearch gen₁ hgen₁) (hexhausted rfl)
      hn).imp_right fun hrefuted => hdead (dead_of_refuted hrefutes hspread.sound hgen₁ hrefuted hn)

end

end Exploration

end GuidedReach
