import GuidedReach.Proofs.Exploration.Works

/-!
# Values stay below a cap

Whatever work is done on a history, the finite values in it stay below a cap that can be told from
the start: a sum stops at `Distance.limit`, and every other value that is written is 0, or was there
already, or is less than one that was.

* `Distance.Capped`, `Generation.Capped`, `History.Capped` — finite values are at most a cap.
* `Generation.Capped.settleGuided` — so are the distances from a guided search.
* `Exploration.Works.capped` — work keeps the values of all generations capped.
-/

namespace GuidedReach

variable {S P K : Type} {cap : Nat}

/-! ## Distances -/

namespace Distance

/-- The edges of a distance, if it is finite. -/
def edges : Distance → Nat
  | .finite edges => edges
  | _ => 0

/-- A distance is at most a cap, if it is finite. -/
def Capped (cap : Nat) (d : Distance) : Prop := d.edges ≤ cap

variable {d e : Distance}

theorem capped_iff : d.Capped cap ↔ d.edges ≤ cap := Iff.rfl

theorem capped_unknown : unknown.Capped cap := Nat.zero_le cap

theorem capped_infinite : infinite.Capped cap := Nat.zero_le cap

theorem capped_zero : zero.Capped cap := Nat.zero_le cap

theorem capped_finite {n : Nat} : (finite n).Capped cap ↔ n ≤ cap := Iff.rfl

/-- Sums stop at a limit. -/
theorem capped_of_succ (hlimit : limit ≤ cap) (h : d.succ = .ok e) : e.Capped cap := by
  unfold succ add at h
  cases d with
  | unknown => simp at h
  | infinite =>
    obtain rfl := Except.ok.inj h
    exact capped_infinite
  | finite edges =>
    obtain rfl := Except.ok.inj h
    rw [capped_finite]
    omega

/-- The known distances up to a cap. -/
def upTo (cap : Nat) : List Distance := .infinite :: (List.range (cap + 1)).map .finite

theorem mem_upTo (hknown : d.isKnown = true) (hcapped : d.Capped cap) : d ∈ upTo cap := by
  unfold upTo
  cases d with
  | unknown => simp [isKnown] at hknown
  | infinite => exact List.mem_cons_self
  | finite edges =>
    apply List.mem_cons_of_mem
    apply List.mem_map_of_mem
    rw [List.mem_range]
    exact Nat.lt_succ_of_le (capped_finite.1 hcapped)

theorem length_upTo : (upTo cap).length = cap + 2 := by simp [upTo]

end Distance

/-! ## Generations -/

namespace Generation

variable {gen gen' : Generation S P K} {id : NodeId} {d : Distance} {run : SearchRun}

/-- All finite values of a generation are at most a cap. -/
structure Capped (cap : Nat) (gen : Generation S P K) : Prop where
  heuristic : ∀ {i d}, gen.heuristic i = .ok d → d.Capped cap
  distance : ∀ {i d}, gen.distance i = .ok d → d.Capped cap

namespace Capped

theorem mono {cap' : Nat} (h : gen.Capped cap) (hle : cap ≤ cap') : gen.Capped cap' :=
  ⟨fun hi => Nat.le_trans (h.heuristic hi) hle, fun hi => Nat.le_trans (h.distance hi) hle⟩

/-- A search node with capped values is written. -/
theorem of_rewrites (h : gen.Capped cap) {k : SearchNode} (hrewrites : gen.Rewrites gen' id k)
    (hheuristic : k.heuristic.Capped cap) (hdistance : k.distance.Capped cap) : gen'.Capped cap where
  heuristic := by
    intro i d hi
    obtain ⟨k', hk', rfl⟩ := heuristic_eq_ok.1 hi
    rw [hrewrites.get?] at hk'
    split at hk'
    · obtain rfl := Option.some.inj hk'
      exact hheuristic
    · exact h.heuristic (heuristic_eq_ok.2 ⟨k', hk', rfl⟩)
  distance := by
    intro i d hi
    obtain ⟨k', hk', rfl⟩ := distance_eq_ok.1 hi
    rw [hrewrites.get?] at hk'
    split at hk'
    · obtain rfl := Option.some.inj hk'
      exact hdistance
    · exact h.distance (distance_eq_ok.2 ⟨k', hk', rfl⟩)

theorem setHeuristic (h : gen.Capped cap) (hd : d.Capped cap)
    (hset : gen.setHeuristic id d = .ok gen') : gen'.Capped cap := by
  obtain ⟨-, k, -, hk, -, hrewrites, -⟩ := setHeuristic_ok hset
  exact h.of_rewrites hrewrites hd (h.distance (distance_eq_ok.2 ⟨k, hk, rfl⟩))

theorem setDistance (h : gen.Capped cap) (hd : d.Capped cap)
    (hset : gen.setDistance id d = .ok gen') : gen'.Capped cap := by
  obtain ⟨-, k, -, hk, -, hrewrites, -⟩ := setDistance_ok hset
  exact h.of_rewrites hrewrites (h.heuristic (heuristic_eq_ok.2 ⟨k, hk, rfl⟩)) hd

variable (hlimit : Distance.limit ≤ cap)

include hlimit

/-- A distance that follows is that of a coverer, or a sum. -/
theorem derived (h : gen.Capped cap) {n : Node S} (hd : gen.derived id n = .ok d) :
    d.Capped cap := by
  unfold Generation.derived at hd
  split at hd
  · exact h.distance hd
  · split at hd
    · simp only [bind_eq_ok, pure_eq_ok] at hd
      obtain ⟨dead, -, rfl⟩ := hd
      cases dead
      · exact Distance.capped_unknown
      · exact Distance.capped_infinite
    · split at hd
      · obtain rfl := pure_eq_ok.1 hd
        exact Distance.capped_unknown
      · simp only [bind_eq_ok] at hd
        obtain ⟨below, -, hd⟩ := hd
        split at hd
        · exact Distance.capped_of_succ hlimit hd
        · obtain rfl := pure_eq_ok.1 hd
          exact Distance.capped_unknown

theorem deriveWithin (h : gen.Capped cap) {steps : Nat} {ids : List NodeId}
    (hrun : gen.deriveWithin steps ids = .ok gen') : gen'.Capped cap :=
  deriveWithin_induct (motive := fun gen => gen.Capped cap → gen'.Capped cap)
    (fun _ _ hd _ hset ih h => ih (h.setDistance (h.derived hlimit hd) hset)) hrun id h

theorem deriveFromDeadEnds (h : gen.Capped cap) (hrun : gen.deriveFromDeadEnds = .ok gen') :
    gen'.Capped cap := by
  simp only [Generation.deriveFromDeadEnds, bind_eq_ok] at hrun
  obtain ⟨dead, -, hrun⟩ := hrun
  exact h.deriveWithin hlimit hrun

/-- A walk up writes the distance it starts with, and sums. -/
theorem climb (h : gen.Capped cap) {goal : NodeId} {steps : Nat} {beside beside' : List NodeId}
    (hfinite : d.isFinite = true) (hd : d.Capped cap)
    (hrun : gen.climb run goal steps id d beside = .ok (gen', beside')) : gen'.Capped cap := by
  induction steps generalizing gen id d beside with
  | zero =>
    obtain ⟨rfl, -⟩ : gen = gen' ∧ beside = beside' := by simpa [Generation.climb] using hrun
    exact h
  | succ steps ih =>
    obtain rfl | ⟨mid, hmid, hrest⟩ := climb_succ_ok hrun
    · exact h
    have hcapped : mid.Capped cap := by
      rcases hmid with ⟨-, rfl⟩ | hassign
      · exact h
      · obtain hnone | ⟨mid', hmid', hset⟩ := assignOnPath_ok hassign
        · cases hnone
        obtain rfl := Option.some.inj hmid'
        exact h.setDistance hd hset
    rcases hrest with rfl | ⟨parent, e, beside'', -, hnext, hclimb⟩
    · exact hcapped
    · refine ih hcapped (isFinite_of_climb hfinite hnext) ?_ hclimb
      rcases hnext with ⟨_, -, -, rfl⟩ | ⟨_, -, -, hsucc⟩
      · exact hd
      · exact Distance.capped_of_succ hlimit hsucc

theorem settlePath (h : gen.Capped cap) {goal : NodeId}
    (hrun : gen.settlePath run goal = .ok gen') : gen'.Capped cap := by
  simp only [Generation.settlePath, bind_eq_ok] at hrun
  obtain ⟨d, hd, _, hfinite, ⟨mid, beside⟩, hclimb, hderive⟩ := hrun
  have hmid := h.climb hlimit (demand_eq_ok.1 hfinite) (h.distance hd) hclimb
  exact hmid.deriveWithin hlimit hderive

omit hlimit in
/-- Below an unreachable node everything is infinitely far away. -/
theorem sinkWithin (h : gen.Capped cap) {steps : Nat} {visited queue beside beside' : List NodeId}
    (hrun : gen.sinkWithin steps visited queue beside = .ok (gen', beside')) : gen'.Capped cap :=
  sinkWithin_induct (motive := fun gen => gen.Capped cap → gen'.Capped cap)
    (fun _ _ hset ih h => ih (h.setDistance Distance.capped_infinite hset)) hrun id h

/-- **The distances from a guided search stay below the cap.** -/
theorem settleGuided (h : gen.Capped cap) (hrun : gen.settleGuided run = .ok gen') :
    gen'.Capped cap := by
  unfold Generation.settleGuided at hrun
  split at hrun
  · simp only [settleUnreachable, bind_eq_ok] at hrun
    obtain ⟨⟨mid, beside⟩, hsink, hderive⟩ := hrun
    exact (h.sinkWithin hsink).deriveWithin hlimit hderive
  · simp only [bind_eq_ok] at hrun
    obtain ⟨_, -, first, hzero, second, hpaths, hends⟩ := hrun
    have hfirst : first.Capped cap := by
      refine foldlM_induct (motive := Capped cap) (fun c id c' _ hc hstep => ?_) h hzero
      simp only [bind_eq_ok] at hstep
      obtain ⟨n, -, hstep⟩ := hstep
      split at hstep
      · exact hc.setDistance Distance.capped_zero hstep
      · obtain rfl := pure_eq_ok.1 hstep
        exact hc
    have hsecond : second.Capped cap :=
      foldlM_induct (motive := Capped cap) (fun c id c' _ hc hstep => hc.settlePath hlimit hstep)
        hfirst hpaths
    exact hsecond.deriveFromDeadEnds hlimit hends

end Capped

end Generation

/-! ## Histories -/

/-- All finite values of all generations are at most a cap. -/
def History.Capped (cap : Nat) (history : History S P K) : Prop :=
  ∀ index gen, history.get? index = some gen → gen.Capped cap

theorem Progress.capped_put {p : Progress S P K} {index : Nat} {gen gen' : Generation S P K}
    (hp : p.history.Capped cap) (hgen : p.history.get? index = some gen) (hgen' : gen'.Capped cap) :
    (p.put index gen').history.Capped cap := by
  intro i new hnew
  rw [Progress.get?_put hgen] at hnew
  split at hnew
  · obtain rfl := Option.some.inj hnew
    exact hgen'
  · exact hp i new hnew

namespace Exploration

variable {setup : Setup S P K} {index : Nat} {p q : Progress S P K}

/-- A heuristic is 0, a distance of a provider, or no more than the heuristic of a parent. -/
theorem Source.capped {history : History S P K} {gen : Generation S P K} {id : NodeId} {d : Distance}
    (h : Source setup history gen id d) (hhistory : history.Capped cap) (hgen : gen.Capped cap) :
    d.Capped cap := by
  cases h with
  | target | base | root => exact Distance.capped_zero
  | provider _ holder _ _ hd => exact (hhistory _ _ holder).distance hd
  | parent _ _ _ hd =>
    have hle := Distance.capped_finite.1 (hgen.heuristic hd)
    rw [Distance.capped_finite]
    omega
  | refutedParent => exact Distance.capped_infinite

variable [DecidableEq S] [DecidableEq K]

theorem Step.capped (h : Step setup index p q) (hp : p.history.Capped cap) :
    q.history.Capped cap := by
  cases h with
  | count hsame =>
    rw [hsame]
    exact hp
  | heuristic hgen hsource hset =>
    have hcapped := hp _ _ hgen
    exact Progress.capped_put hp hgen (hcapped.setHeuristic (hsource.capped hp hcapped) hset)
  | provider hgen _ _ _ _ _ _ _ hset =>
    have hcapped := hp _ _ hgen
    obtain ⟨k, hk, hrewrites⟩ := Generation.setProvider_ok hset
    refine Progress.capped_put hp hgen (hcapped.of_rewrites hrewrites ?_ ?_)
    · exact hcapped.heuristic (Generation.heuristic_eq_ok.2 ⟨k, hk, rfl⟩)
    · exact hcapped.distance (Generation.distance_eq_ok.2 ⟨k, hk, rfl⟩)
  | register hgen _ hset =>
    obtain ⟨-, -, hrewrites⟩ := Generation.register_ok hset
    exact Progress.capped_put hp hgen
      ((hp _ _ hgen).of_rewrites hrewrites Distance.capped_unknown Distance.capped_unknown)
  | cover hgen | expand hgen | seed hgen =>
    have hcapped := hp _ _ hgen
    exact Progress.capped_put hp hgen ⟨hcapped.heuristic, hcapped.distance⟩

omit [DecidableEq S] [DecidableEq K] in
theorem Settle.capped (h : Settle setup index p q) (hlimit : Distance.limit ≤ cap)
    (hp : p.history.Capped cap) : q.history.Capped cap := by
  cases h with
  | target hgen _ _ hset =>
    exact Progress.capped_put hp hgen ((hp _ _ hgen).setDistance Distance.capped_zero hset)
  | start hgen _ hset =>
    exact Progress.capped_put hp hgen ((hp _ _ hgen).setDistance Distance.capped_infinite hset)
  | guided hgen hsettle =>
    exact Progress.capped_put hp hgen ((hp _ _ hgen).settleGuided hlimit hsettle)

/-- **Work keeps values below the cap.** -/
theorem Works.capped (h : Works setup p q) (hlimit : Distance.limit ≤ cap)
    (hp : p.history.Capped cap) : q.history.Capped cap := by
  induction h with
  | refl => exact hp
  | tail _ hlast ih =>
    obtain ⟨_, hstep | hsettle⟩ := hlast
    · exact hstep.capped ih
    · exact hsettle.capped hlimit ih

end Exploration

end GuidedReach
