import GuidedReach.Proofs.Exploration.Works
import GuidedReach.Proofs.Generation.Deductions
import GuidedReach.Proofs.Generation.Measured
import GuidedReach.Proofs.Graph.Paths

/-!
# Finite distances are lengths of paths

In a guided search a finite distance is written where a path to a target of that length exists, and
the path outlives whatever happens to the graph later: nested searches, covered nodes, targets that are
expanded after all. Sums of distances stop at `Distance.limit`, so a path may be longer than a distance
that reached the limit; but then there are more nodes than the limit, one at each smaller distance.

* `Generation.Backed` — each finite distance has a path behind it.
* `Generation.Backed.of_deductions` — guided settlings keep that true.
* `Generation.Backed.reachesTarget` — up to the limit the path is exactly as long.
* `Exploration.Works.backed` — explorations keep it true in all generations.
-/

namespace GuidedReach

variable {S P K : Type}

namespace Generation

variable {gen gen' : Generation S P K} {i m : Nat}

/-- Behind each finite distance there is a path to a target. Its length is the distance, or is beyond
the limit of sums; and some node is at the next smaller distance. -/
structure Backed (gen : Generation S P K) : Prop where
  path : ∀ {i m}, gen.distance i = .ok (.finite m) →
    ∃ length, gen.graph.ReachesTarget i length ∧ m = min length Distance.limit
  lower : ∀ {i m}, gen.distance i = .ok (.finite (m + 1)) →
    ∃ j, gen.distance j = .ok (.finite m)

namespace Backed

/-- Without finite distances there is nothing to back. -/
theorem of_unknown (h : ∀ i d, gen.distance i = .ok d → d = .unknown) : gen.Backed where
  path hi := by cases h _ _ hi
  lower hi := by cases h _ _ hi

/-- Other graphs do as well, if the paths go on there. -/
theorem congr (h : gen.Backed)
    (hpath : ∀ {i length}, gen.graph.ReachesTarget i length → gen'.graph.ReachesTarget i length)
    (hdistance : ∀ i m, gen'.distance i = .ok (.finite m) ↔ gen.distance i = .ok (.finite m)) :
    gen'.Backed where
  path hi := by
    obtain ⟨length, hreaches, hm⟩ := h.path ((hdistance _ _).1 hi)
    exact ⟨length, hpath hreaches, hm⟩
  lower hi := by
    obtain ⟨j, hj⟩ := h.lower ((hdistance _ _).1 hi)
    exact ⟨j, (hdistance _ _).2 hj⟩

/-- One more distance, which has a path behind it. -/
theorem setDistance (h : gen.Backed) {id : NodeId} {d : Distance}
    (hset : gen.setDistance id d = .ok gen')
    (hpath : ∀ m, d = .finite m →
      ∃ length, gen.graph.ReachesTarget id length ∧ m = min length Distance.limit)
    (hlower : ∀ m, d = .finite (m + 1) → ∃ j, gen.distance j = .ok (.finite m)) :
    gen'.Backed := by
  have hwrites := DistanceWrites.of_setDistance hset
  constructor
  · intro i m hi
    rw [hwrites.graph]
    rcases distance_of_setDistance hset hi with ⟨rfl, hm⟩ | hi
    · exact hpath m hm.symm
    · exact h.path hi
  · intro i m hi
    have hold : ∃ j, gen.distance j = .ok (.finite m) := by
      rcases distance_of_setDistance hset hi with ⟨rfl, hm⟩ | hi
      · exact hlower m hm.symm
      · exact h.lower hi
    obtain ⟨j, hj⟩ := hold
    exact ⟨j, hwrites.distance_eq_ok hj rfl⟩

/-- A distance that continues another one has a path behind it. -/
theorem continues (h : gen.Backed) {id : NodeId} {d : Distance} (hd : gen.Continues id d) :
    (∀ m, d = .finite m →
      ∃ length, gen.graph.ReachesTarget id length ∧ m = min length Distance.limit) ∧
      ∀ m, d = .finite (m + 1) → ∃ j, gen.distance j = .ok (.finite m) := by
  cases hd with
  | covering hn hcovering hnext =>
    constructor
    · rintro m rfl
      obtain ⟨length, hreaches, hm⟩ := h.path hnext
      exact ⟨0 + length, .step (.covering hn hcovering) hreaches, by rw [Nat.zero_add, hm]⟩
    · rintro m rfl
      exact h.lower hnext
  | @tree next _ e _ hn hparent hnext hsucc =>
    cases e with
    | unknown => cases hsucc
    | infinite =>
      obtain rfl : Distance.infinite = d := by simpa [Distance.succ, Distance.add] using hsucc
      constructor <;> rintro m ⟨⟩
    | finite e =>
      obtain rfl : Distance.finite (min (e + 1) Distance.limit) = d := by
        simpa [Distance.succ, Distance.add] using hsucc
      obtain ⟨length, hreaches, he⟩ := h.path hnext
      constructor
      · rintro m ⟨⟩
        refine ⟨1 + length, .step (.tree hn hparent) hreaches, ?_⟩
        omega
      · intro m hm
        have hm : min (e + 1) Distance.limit = m + 1 := Distance.finite.inj hm
        by_cases hle : e + 1 ≤ Distance.limit
        · obtain rfl : e = m := by omega
          exact ⟨next, hnext⟩
        · -- the sum stopped at the limit, where the next node is as well
          obtain rfl : e = m + 1 := by omega
          exact h.lower hnext

theorem deduction (h : gen.Backed) (hstep : gen.Deduction gen') : gen'.Backed := by
  cases hstep with
  | target hn htarget hset =>
    refine h.setDistance hset ?_ ?_
    · rintro m ⟨⟩
      exact ⟨0, .of_isTarget hn htarget, rfl⟩
    · rintro m ⟨⟩
  | onward _ _ hcontinues hset =>
    obtain ⟨hpath, hlower⟩ := h.continues hcontinues
    exact h.setDistance hset hpath hlower
  | infinite _ _ hset =>
    refine h.setDistance hset ?_ ?_ <;> rintro m ⟨⟩

/-- **A guided settling keeps finite distances backed**, write by write. -/
theorem of_deductions (h : gen.Backed) (hsteps : gen.Deductions gen') : gen'.Backed := by
  induction hsteps with
  | refl => exact h
  | tail _ hlast ih => exact ih.deduction hlast

/-- There is a node at every distance below a finite one. -/
theorem exists_level (h : gen.Backed) (hi : gen.distance i = .ok (.finite m)) :
    ∀ k ≤ m, ∃ j, gen.distance j = .ok (.finite k) := by
  intro k hk
  induction hk using Nat.decreasingInduction with
  | self => exact ⟨i, hi⟩
  | of_succ k _ ih =>
    obtain ⟨j, hj⟩ := ih
    exact h.lower hj

/-- So a finite distance is less than the number of nodes. -/
theorem lt_size (h : gen.Backed)
    (hinGraph : ∀ {i k}, gen.searchNodes.get? i = some k → ∃ n, gen.graph.get? i = some n)
    (hi : gen.distance i = .ok (.finite m)) : m < gen.graph.size := by
  refine lt_length_of_levels (h.exists_level hi) fun {j k} hj => ?_
  obtain ⟨k, hk, -⟩ := distance_eq_ok.1 hj
  exact Graph.mem_ids.2 (hinGraph hk)

/-- **In a graph of at most as many nodes as the limit, a finite distance is the length of a path.** -/
theorem reachesTarget (h : gen.Backed)
    (hinGraph : ∀ {i k}, gen.searchNodes.get? i = some k → ∃ n, gen.graph.get? i = some n)
    (hsize : gen.graph.size ≤ Distance.limit) (hi : gen.distance i = .ok (.finite m)) :
    gen.graph.ReachesTarget i m := by
  have hlt := h.lt_size hinGraph hi
  obtain ⟨length, hreaches, hm⟩ := h.path hi
  obtain rfl : m = length := by omega
  exact hreaches

end Backed

end Generation

/-- Finite distances are backed in all generations that are held. -/
def History.Backed (history : History S P K) : Prop :=
  ∀ index gen, history.get? index = some gen → gen.Backed

theorem Progress.backed_put {p : Progress S P K} {index : Nat} {gen gen' : Generation S P K}
    (hp : p.history.Backed) (hgen : p.history.get? index = some gen) (hgen' : gen'.Backed) :
    (p.put index gen').history.Backed := by
  intro i old hold
  rw [Progress.get?_put hgen] at hold
  split at hold
  · obtain rfl := Option.some.inj hold
    exact hgen'
  · exact hp i old hold

namespace Exploration

variable [DecidableEq S] [DecidableEq K] {setup : Setup S P K} {index : Nat} {p q : Progress S P K}
variable {allowed : P → Prop} (hlaws : setup.analysis.Lawful)
variable (hp : p.history.Faithful setup.analysis allowed)

include hlaws hp

/-- A step leaves the paths in its generation as long as they were. -/
theorem Step.reachesTarget (h : Step setup index p q) {gen gen' : Generation S P K}
    (hgen : p.history.get? index = some gen) (hgen' : q.history.get? index = some gen')
    {i length : Nat} (hreaches : gen.graph.ReachesTarget i length) :
    gen'.graph.ReachesTarget i length := by
  have hput : ∀ {old new : Generation S P K}, p.history.get? index = some old →
      (p.put index new).history.get? index = some gen' → old = gen ∧ gen' = new := by
    intro old new hold hnew
    rw [Progress.get?_put_self hold] at hnew
    exact ⟨Option.some.inj (hold.symm.trans hgen), (Option.some.inj hnew).symm⟩
  cases h with
  | count hsame =>
    rw [hsame, hgen] at hgen'
    exact Option.some.inj hgen' ▸ hreaches
  | heuristic hold _ hset =>
    obtain ⟨rfl, rfl⟩ := hput hold hgen'
    obtain ⟨-, _, -, -, -, hrewrites, -⟩ := Generation.setHeuristic_ok hset
    exact hrewrites.graph ▸ hreaches
  | provider hold _ _ _ _ _ _ _ hset =>
    obtain ⟨rfl, rfl⟩ := hput hold hgen'
    obtain ⟨_, -, hrewrites⟩ := Generation.setProvider_ok hset
    exact hrewrites.graph ▸ hreaches
  | register hold _ hset =>
    obtain ⟨rfl, rfl⟩ := hput hold hgen'
    obtain ⟨-, -, hrewrites⟩ := Generation.register_ok hset
    exact hrewrites.graph ▸ hreaches
  | cover hold ha hb hleaf _ _ htarget _ _ _ _ _ _ hrun =>
    obtain ⟨rfl, rfl⟩ := hput hold hgen'
    exact hreaches.of_cover (hp _ _ hold).1.wellFormed ha hb hleaf htarget hrun
  | expand hold hn hfree hopen hfeasible _ _ _ _ hrun =>
    obtain ⟨rfl, rfl⟩ := hput hold hgen'
    obtain ⟨hfaithful, hprec⟩ := hp _ _ hold
    have hfeasible := hfeasible.elim (hfaithful.isFeasible_of_isTarget hlaws hn) id
    obtain ⟨-, hadded, -⟩ := Graph.expand_ok hfaithful hprec hn hfree hfeasible hopen hrun
    exact hreaches.of_addedLeaves hadded
  | seed hold hopen hrun =>
    obtain ⟨rfl, rfl⟩ := hput hold hgen'
    obtain ⟨hfaithful, hprec⟩ := hp _ _ hold
    obtain ⟨-, hadded, -⟩ := Graph.seed_ok hfaithful hopen hprec hrun
    exact hreaches.of_addedLeaves hadded

theorem Step.backed (h : Step setup index p q) (hbacked : p.history.Backed) : q.history.Backed := by
  intro i gen' hgen'
  by_cases hi : i = index
  · subst hi
    obtain ⟨gen, hgen, hnew⟩ := h.noNewDistances gen' hgen'
    obtain ⟨gen'', hgen'', hkeeps⟩ := (h.keeps hlaws hp).2 _ gen hgen
    obtain rfl := Option.some.inj (hgen'.symm.trans hgen'')
    refine (hbacked i gen hgen).congr (h.reachesTarget hlaws hp hgen hgen') fun j m => ⟨fun hj => ?_,
      fun hj => hkeeps.distance hj rfl⟩
    exact hnew j _ hj rfl
  · rw [h.frame hi] at hgen'
    exact hbacked i gen' hgen'

omit [DecidableEq S] [DecidableEq K] hlaws in
theorem Settle.backed (h : Settle setup index p q) (hbacked : p.history.Backed) :
    q.history.Backed := by
  cases h with
  | target hgen hn htarget hset =>
    exact Progress.backed_put hbacked hgen ((hbacked _ _ hgen).deduction (.target hn htarget hset))
  | start hgen _ hset =>
    refine Progress.backed_put hbacked hgen ((hbacked _ _ hgen).setDistance hset ?_ ?_) <;>
      rintro m ⟨⟩
  | guided hgen hsettle =>
    exact Progress.backed_put hbacked hgen ((hbacked _ _ hgen).of_deductions
      (Generation.settleGuided_deductions (hp _ _ hgen).1.wellFormed hsettle))

/-- **Explorations keep finite distances backed**, in all generations. -/
theorem Works.backed (h : Works setup p q) (hbacked : p.history.Backed) : q.history.Backed := by
  induction h with
  | refl => exact hbacked
  | tail hworks hlast ih =>
    have hmid := (Works.keeps hlaws hp hworks).1
    obtain ⟨_, hstep | hsettle⟩ := hlast
    · exact hstep.backed hlaws hmid ih
    · exact hsettle.backed hmid ih

end Exploration

end GuidedReach
