import GuidedReach.Proofs.TransitionSystem.Reachability
import GuidedReach.TransitionSystem.Trace

/-!
# Replays are exact

A replay goes through a list of sets and keeps the states in which paths can end. Every such state comes
after one in the set before it, so a target in the last set can be walked back to an init state.

* `TransitionSystem.canEnd_concat` — a path through one more set is a path with one more step.
* `TransitionSystem.Replayed`, `TransitionSystem.Replayed.cons` — what a replay has to yield, set by set.
* `TransitionSystem.traceBack_ok`, `TransitionSystem.exists_traceBack` — walking back is sound and
  complete.
* `TransitionSystem.feasibleAlong_of_concreteTrace`, `TransitionSystem.exists_concreteTrace` — so is the
  search for a path to a target.
* `TransitionSystem.replay_exact` — **replays and traces are exact, and look up no successors of what is
  no state**.
-/

namespace GuidedReach.TransitionSystem

variable {system : TransitionSystem} {blocks sets before rest reach : List StateSet}
variable {set block next previous : StateSet} {path : List Nat} {s t state : Nat}

/-! ## Paths through sets -/

theorem forall₂_concat {α β : Type} {R : α → β → Prop} {l : List α} {m : List β} {a : α} {b : β} :
    List.Forall₂ R (l ++ [a]) (m ++ [b]) ↔ List.Forall₂ R l m ∧ R a b := by
  rw [← List.forall₂_reverse_iff, List.reverse_concat', List.reverse_concat', List.forall₂_cons,
    List.forall₂_reverse_iff, and_comm]

theorem isChain_concat {α : Type} {R : α → α → Prop} {l : List α} {a : α} :
    (l ++ [a]).IsChain R ↔ l.IsChain R ∧ ∀ b, l.getLast? = some b → R b a := by
  simp [List.isChain_append]

theorem realizes_singleton : system.Realizes [set] path ↔ ∃ s, path = [s] ∧ s ∈ system.init ∧ s ∈ set := by
  constructor
  · rintro ⟨⟨s, hhead, hinit⟩, -, hinside⟩
    obtain ⟨t, _, hmem, hnil, rfl⟩ := List.forall₂_cons_right_iff.1 hinside
    obtain rfl := List.forall₂_nil_right_iff.1 hnil
    obtain rfl : t = s := Option.some.inj hhead
    exact ⟨t, rfl, hinit, hmem⟩
  · rintro ⟨s, rfl, hinit, hmem⟩
    exact ⟨⟨s, rfl, hinit⟩, .singleton s, .cons hmem .nil⟩

/-- A path through one more set has one more step. -/
theorem realizes_concat (hsets : sets ≠ []) :
    system.Realizes (sets ++ [set]) path ↔
      ∃ before s t, path = before ++ [t] ∧ system.Realizes sets before ∧ before.getLast? = some s ∧
        system.Step s t ∧ t ∈ set := by
  constructor
  · rintro ⟨⟨first, hhead, hinit⟩, hsteps, hinside⟩
    obtain rfl | ⟨before, t, rfl⟩ := path.eq_nil_or_concat'
    · cases hhead
    obtain ⟨hbefore, ht⟩ := forall₂_concat.1 hinside
    obtain ⟨hchain, hstep⟩ := isChain_concat.1 hsteps
    have hne : before ≠ [] := by
      rintro rfl
      exact hsets (List.forall₂_nil_left_iff.1 hbefore)
    rw [List.head?_append_of_ne_nil _ hne] at hhead
    have hlast := List.getLast?_eq_some_getLast hne
    exact ⟨before, _, t, rfl, ⟨⟨first, hhead, hinit⟩, hchain, hbefore⟩, hlast, hstep _ hlast, ht⟩
  · rintro ⟨before, s, t, rfl, ⟨⟨first, hhead, hinit⟩, hchain, hbefore⟩, hlast, hstep, ht⟩
    refine ⟨⟨first, ?_, hinit⟩, isChain_concat.2 ⟨hchain, fun u hu => ?_⟩, forall₂_concat.2 ⟨hbefore, ht⟩⟩
    · rw [List.head?_append, hhead]
      rfl
    · rw [hlast] at hu
      exact Option.some.inj hu ▸ hstep

theorem Realizes.take (h : system.Realizes sets path) {k : Nat} (hk : 0 < k) :
    system.Realizes (sets.take k) (path.take k) where
  starts := by
    rw [List.head?_take, if_neg hk.ne']
    exact h.starts
  steps := h.steps.take k
  inside := List.forall₂_take k h.inside

theorem canEnd_singleton : system.CanEnd [set] s ↔ s ∈ system.init ∧ s ∈ set := by
  constructor
  · rintro ⟨path, hpath, hlast⟩
    obtain ⟨t, rfl, h⟩ := realizes_singleton.1 hpath
    obtain rfl : t = s := Option.some.inj hlast
    exact h
  · exact fun h => ⟨[s], realizes_singleton.2 ⟨s, rfl, h⟩, rfl⟩

/-- The paths through one more set end in the successors that are in it. -/
theorem canEnd_concat (hsets : sets ≠ []) :
    system.CanEnd (sets ++ [set]) t ↔ (∃ s, system.CanEnd sets s ∧ system.Step s t) ∧ t ∈ set := by
  constructor
  · rintro ⟨_, hpath, hlast⟩
    obtain ⟨before, s, u, rfl, hbefore, hs, hstep, hu⟩ := (realizes_concat hsets).1 hpath
    obtain rfl : u = t := by simpa using hlast
    exact ⟨⟨s, ⟨before, hbefore, hs⟩, hstep⟩, hu⟩
  · rintro ⟨⟨s, ⟨before, hbefore, hs⟩, hstep⟩, ht⟩
    exact ⟨before ++ [t], (realizes_concat hsets).2 ⟨before, s, t, rfl, hbefore, hs, hstep, ht⟩, by simp⟩

/-- What holds of some paths holds of their beginnings. -/
theorem Realizes.exists_canEnd (h : system.Realizes sets path) {k : Nat} (hk : 0 < k) :
    ∃ s, system.CanEnd (sets.take k) s := by
  have htake := h.take hk
  obtain ⟨s, hs, -⟩ := htake.starts
  have hne : path.take k ≠ [] := by
    intro hnil
    rw [hnil] at hs
    cases hs
  exact ⟨_, _, htake, List.getLast?_eq_some_getLast hne⟩

theorem CanEnd.mem (h : system.CanEnd (sets ++ [set]) s) : s ∈ set := by
  cases sets with
  | nil => exact (canEnd_singleton.1 h).2
  | cons first sets => exact ((canEnd_concat (List.cons_ne_nil first sets)).1 h).2

/-! ## Replays -/

/-- What a replay yields that goes through further sets: entry by entry the ends of all paths, and no
more entries after an empty one. -/
structure Replayed (system : TransitionSystem) (before rest reach : List StateSet) : Prop where
  lt_length : ∀ j, j < reach.length ↔
    j < rest.length ∧ ∀ i < j, ∃ s, system.CanEnd (before ++ rest.take (i + 1)) s
  mem : ∀ {j set}, reach[j]? = some set → ∀ s, s ∈ set ↔ system.CanEnd (before ++ rest.take (j + 1)) s

theorem Replayed.nil (before : List StateSet) : system.Replayed before [] [] :=
  ⟨by simp, by simp⟩

/-- One more set in front. -/
theorem Replayed.cons (hnext : ∀ s, s ∈ next ↔ system.CanEnd (before ++ [block]) s)
    (h : system.Replayed (before ++ [block]) rest reach) :
    system.Replayed before (block :: rest) (next :: if next.isEmpty then [] else reach) := by
  have happend : ∀ i, before ++ (block :: rest).take (i + 1) = before ++ [block] ++ rest.take i := by simp
  constructor
  · intro j
    cases j with
    | zero => simp
    | succ j =>
      simp only [Nat.forall_lt_succ_left, happend, List.take_zero, List.append_nil, List.length_cons,
        Nat.add_lt_add_iff_right]
      split
      · rename_i hempty
        have hnone : ¬ ∃ s, system.CanEnd (before ++ [block]) s := fun ⟨s, hs⟩ =>
          StateSet.isEmpty_iff.1 hempty s ((hnext s).2 hs)
        simp [hnone]
      · rename_i hempty
        have hsome : ∃ s, system.CanEnd (before ++ [block]) s := by
          by_contra hnone
          exact hempty (StateSet.isEmpty_iff.2 fun s hs => hnone ⟨s, (hnext s).1 hs⟩)
        rw [h.lt_length j]
        simp only [hsome, true_and]
  · intro j set hset
    rw [happend]
    cases j with
    | zero =>
      obtain rfl : next = set := by simpa using hset
      simpa using hnext
    | succ j =>
      rw [List.getElem?_cons_succ] at hset
      split at hset
      · cases hset
      · exact h.mem hset

/-- **A replay that goes on from the ends of all paths is exact**, by induction on the sets that are
left. -/
theorem replayed_replayFrom (hbefore : before ≠ [])
    (hprevious : ∀ s, s ∈ previous ↔ system.CanEnd before s) :
    system.Replayed before rest (system.replayFrom previous rest) := by
  induction rest generalizing before previous with
  | nil => exact .nil before
  | cons block rest ih =>
    have hnext : ∀ s, s ∈ (system.image previous).inter block ↔ system.CanEnd (before ++ [block]) s := by
      intro s
      simp only [StateSet.mem_inter, mem_image, canEnd_concat hbefore, hprevious]
    exact .cons hnext (ih (by simp) hnext)

theorem replayed_replay (system : TransitionSystem) (blocks : List StateSet) :
    system.Replayed [] blocks (system.replay blocks) := by
  cases blocks with
  | nil => exact .nil []
  | cons block rest =>
    have hfirst : ∀ s, s ∈ system.init.inter block ↔ system.CanEnd ([] ++ [block]) s := fun s => by
      rw [StateSet.mem_inter, List.nil_append, canEnd_singleton]
    exact .cons hfirst (replayed_replayFrom (by simp) hfirst)

theorem mem_replay {j : Nat} (hset : (system.replay blocks)[j]? = some set) :
    s ∈ set ↔ system.CanEnd (blocks.take (j + 1)) s :=
  (replayed_replay system blocks).mem hset s

theorem lt_length_replay {j : Nat} :
    j < (system.replay blocks).length ↔
      j < blocks.length ∧ ∀ i < j, ∃ s, system.CanEnd (blocks.take (i + 1)) s :=
  (replayed_replay system blocks).lt_length j

theorem length_replay_le (system : TransitionSystem) (blocks : List StateSet) :
    (system.replay blocks).length ≤ blocks.length := by
  by_contra hlt
  exact absurd (lt_length_replay.1 (Nat.lt_of_not_le hlt)).1 (Nat.lt_irrefl _)

/-- A path through all sets is followed to its end. -/
theorem Realizes.length_replay (h : system.Realizes blocks path) :
    (system.replay blocks).length = blocks.length := by
  refine (length_replay_le system blocks).antisymm ?_
  by_contra hlt
  have hnot : ¬ (system.replay blocks).length < (system.replay blocks).length := Nat.lt_irrefl _
  exact hnot (lt_length_replay.2 ⟨Nat.lt_of_not_le hlt, fun i _ => h.exists_canEnd i.succ_pos⟩)

/-! ## How far paths get -/

theorem lt_length_takeWhile {α : Type} {p : α → Bool} {l : List α} {j : Nat} :
    j < (l.takeWhile p).length ↔ ∀ i < j + 1, ∃ a, l[i]? = some a ∧ p a = true := by
  induction l generalizing j with
  | nil => simpa using ⟨0, j.zero_le⟩
  | cons a l ih =>
    rw [Nat.forall_lt_succ_left]
    simp only [List.getElem?_cons_zero, List.getElem?_cons_succ, Option.some.injEq, exists_eq_left']
    cases hp : p a with
    | false => simp [hp]
    | true =>
      cases j with
      | zero => simp [hp]
      | succ j => simpa [hp] using ih

/-- A replay keeps entries for as long as some path leads through the sets. -/
theorem lt_length_takeWhile_replay {j : Nat} :
    j < ((system.replay blocks).takeWhile fun set => !set.isEmpty).length ↔
      j < blocks.length ∧ ∃ path, system.Realizes (blocks.take (j + 1)) path := by
  rw [lt_length_takeWhile]
  constructor
  · intro h
    obtain ⟨set, hset, hnonempty⟩ := h j j.lt_succ_self
    obtain ⟨hlt, -⟩ := List.getElem?_eq_some_iff.1 hset
    have hsome : ∃ s, s ∈ set := by
      by_contra hnone
      simp [StateSet.isEmpty_iff.2 fun s hs => hnone ⟨s, hs⟩] at hnonempty
    obtain ⟨s, hs⟩ := hsome
    obtain ⟨path, hpath, -⟩ := (mem_replay hset).1 hs
    exact ⟨(lt_length_replay.1 hlt).1, path, hpath⟩
  · rintro ⟨hlt, path, hpath⟩ i hi
    have hend : ∀ k, k < j + 1 → ∃ s, system.CanEnd (blocks.take (k + 1)) s := by
      intro k hk
      obtain ⟨s, hs⟩ := hpath.exists_canEnd k.succ_pos
      rw [List.take_take, Nat.min_eq_left hk] at hs
      exact ⟨s, hs⟩
    have hlt' : i < (system.replay blocks).length :=
      lt_length_replay.2 ⟨by omega, fun k hk => hend k (by omega)⟩
    obtain ⟨s, hs⟩ := hend i hi
    have hset := List.getElem?_eq_getElem hlt'
    refine ⟨_, hset, ?_⟩
    rw [Bool.not_eq_true']
    exact Bool.eq_false_iff.2 fun hempty =>
      StateSet.isEmpty_iff.1 hempty s ((mem_replay hset).2 hs)

/-- **Where a replay ends** that gets past the first block: the last entry that it keeps holds the ends
of the longest paths through the blocks. -/
theorem exists_longestRealized (hinit : ∃ s, s ∈ system.init ∧ s ∈ block)
    (hreach : reach = (system.replay (block :: rest)).takeWhile fun set => !set.isEmpty) :
    ∃ step states, reach.length = step + 1 ∧ reach.getLast? = some states ∧ (∃ s, s ∈ states) ∧
      (∀ s, s ∈ states ↔ system.CanEnd ((block :: rest).take (step + 1)) s) ∧
      system.LongestRealized (block :: rest) (step + 1) := by
  have hlength : ∀ j, j < reach.length ↔
      j < (block :: rest).length ∧ ∃ path, system.Realizes ((block :: rest).take (j + 1)) path :=
    fun j => hreach ▸ lt_length_takeWhile_replay
  obtain ⟨s, hs, hblock⟩ := hinit
  have hpos : 0 < reach.length :=
    (hlength 0).2 ⟨Nat.succ_pos _, [s], realizes_singleton.2 ⟨s, rfl, hs, hblock⟩⟩
  obtain ⟨step, hstep⟩ := Nat.exists_eq_succ_of_ne_zero hpos.ne'
  have hlt : step < reach.length := hstep ▸ step.lt_succ_self
  -- what is kept is the beginning of the replay
  have hentry : (system.replay (block :: rest))[step]? = some reach[step] := by
    subst hreach
    rw [List.getElem?_eq_getElem ((List.takeWhile_prefix _).length_le.trans_lt' hlt)]
    exact congrArg some ((List.takeWhile_prefix _).getElem hlt).symm
  obtain ⟨hstep', path, hpath⟩ := (hlength step).1 hlt
  refine ⟨step, reach[step], hstep, ?_, ?_, fun t => mem_replay hentry, ⟨hstep', path, hpath⟩, ?_⟩
  · rw [List.getLast?_eq_getElem?, hstep]
    exact List.getElem?_eq_getElem hlt
  · obtain ⟨t, ht⟩ := hpath.exists_canEnd step.succ_pos
    rw [List.take_take, Nat.min_self] at ht
    exact ⟨t, (mem_replay hentry).2 ht⟩
  · rintro k ⟨hk, path, hpath⟩
    cases k with
    | zero => exact Nat.zero_le _
    | succ k => exact hstep.le.trans' ((hlength k).2 ⟨hk, path, hpath⟩)

/-! ## Walking back -/

/-- Each state of the later set comes after a state of the earlier one. -/
def Backed (system : TransitionSystem) (earlier later : StateSet) : Prop :=
  ∀ t, t ∈ later → ∃ s, s ∈ earlier ∧ system.Step s t

theorem isChain_replayFrom (system : TransitionSystem) (previous : StateSet)
    (blocks : List StateSet) :
    List.IsChain system.Backed (previous :: system.replayFrom previous blocks) := by
  induction blocks generalizing previous with
  | nil => exact .singleton previous
  | cons block blocks ih =>
    have hbacked : system.Backed previous ((system.image previous).inter block) := fun t ht =>
      mem_image.1 (StateSet.mem_inter.1 ht).1
    simp only [replayFrom]
    split
    · exact List.isChain_cons_cons.2 ⟨hbacked, .singleton _⟩
    · exact List.isChain_cons_cons.2 ⟨hbacked, ih _⟩

theorem isChain_replay (system : TransitionSystem) (blocks : List StateSet) :
    List.IsChain system.Backed (system.replay blocks) := by
  cases blocks with
  | nil => exact .nil
  | cons block rest =>
    simp only [replay]
    split
    · exact .singleton _
    · exact isChain_replayFrom system _ rest

/-- Sets that are backed one by the other can be walked back to the first. -/
theorem exists_traceBack
    (hchain : List.IsChain (fun later earlier => system.Backed earlier later) (set :: sets))
    (hstate : state ∈ set) : ∃ path, system.traceBack state sets = some path := by
  induction sets generalizing set state with
  | nil => exact ⟨[state], rfl⟩
  | cons earlier sets ih =>
    obtain ⟨hbacked, hrest⟩ := List.isChain_cons_cons.1 hchain
    obtain ⟨s, hs, hstep⟩ := hbacked state hstate
    obtain ⟨before, hbefore⟩ : ∃ before,
        earlier.toList.find? (fun s => (system.successors s).contains state) = some before := by
      refine Option.isSome_iff_exists.1 (List.find?_isSome.2 ⟨s, hs, ?_⟩)
      exact List.contains_iff_mem.2 (mem_successors.2 hstep)
    obtain ⟨path, hpath⟩ := ih hrest (List.mem_of_find?_eq_some hbefore)
    refine ⟨path ++ [state], ?_⟩
    unfold traceBack
    rw [hbefore]
    simp [hpath]

/-- What walking back yields: a path to the state, with one state in each set. -/
theorem traceBack_ok (h : system.traceBack state sets = some path) :
    path.IsChain system.Step ∧ ∃ before, path = before ++ [state] ∧
      List.Forall₂ (fun s set => s ∈ set) before sets.reverse := by
  induction sets generalizing state path with
  | nil =>
    obtain rfl : [state] = path := by simpa [traceBack] using h
    exact ⟨.singleton state, [], rfl, .nil⟩
  | cons previous sets ih =>
    simp only [traceBack, Option.bind_eq_bind, Option.bind_eq_some_iff, Option.pure_def,
      Option.some.injEq] at h
    obtain ⟨s, hs, path, hpath, rfl⟩ := h
    obtain ⟨hchain, before, rfl, hinside⟩ := ih hpath
    have hcontains := List.find?_some hs
    have hstep : system.Step s state := mem_successors.1 (List.contains_iff_mem.1 hcontains)
    refine ⟨isChain_concat.2 ⟨hchain, fun u hu => ?_⟩, before ++ [s], rfl, ?_⟩
    · obtain rfl : s = u := by simpa using hu
      exact hstep
    · rw [List.reverse_cons]
      exact forall₂_concat.2 ⟨hinside, List.mem_of_find?_eq_some hs⟩

/-! ## Paths to targets -/

/-- A trace is found when a replay goes through all sets and can be walked back from a target. -/
theorem concreteTrace_eq_some :
    system.concreteTrace blocks = some path ↔
      (system.replay blocks).length = blocks.length ∧
        ∃ before last target, system.replay blocks = before ++ [last] ∧
          last.toList.find? system.isTarget = some target ∧
          system.traceBack target before.reverse = some path := by
  simp only [concreteTrace, Option.bind_eq_bind, Option.bind_eq_some_iff, Option.guard_eq_some']
  obtain hnil | ⟨before, last, hreach⟩ := (system.replay blocks).eq_nil_or_concat'
  · simp [hnil]
  · rw [hreach, List.reverse_concat']
    simp only [Option.bind_eq_some_iff]
    constructor
    · rintro ⟨_, hlength, target, htarget, hpath⟩
      exact ⟨hlength, before, last, target, rfl, htarget, hpath⟩
    · rintro ⟨hlength, before', last', target, heq, htarget, hpath⟩
      obtain ⟨rfl, rfl⟩ := List.append_singleton_inj.1 heq
      exact ⟨(), hlength, target, htarget, hpath⟩

/-- **A trace that was found is a path through all sets to a target.** -/
theorem feasibleAlong_of_concreteTrace (h : system.concreteTrace blocks = some path) :
    system.FeasibleAlong blocks path := by
  obtain ⟨hlength, before, last, target, hreach, htarget, hback⟩ := concreteTrace_eq_some.1 h
  obtain ⟨hchain, states, rfl, hstates⟩ := traceBack_ok hback
  rw [List.reverse_reverse] at hstates
  have hinside : List.Forall₂ (fun s set => s ∈ set) (states ++ [target]) (system.replay blocks) := by
    rw [hreach]
    exact forall₂_concat.2 ⟨hstates, List.mem_of_find?_eq_some htarget⟩
  -- each state of the path is the end of a path through the sets up to its own
  have hends : ∀ {i s}, (states ++ [target])[i]? = some s → system.CanEnd (blocks.take (i + 1)) s := by
    intro i s hs
    obtain ⟨hi, rfl⟩ := List.getElem?_eq_some_iff.1 hs
    have hi' : i < (system.replay blocks).length := hinside.length_eq ▸ hi
    exact (mem_replay (List.getElem?_eq_getElem hi')).1 (hinside.get hi hi')
  have htotal : (states ++ [target]).length = blocks.length := hinside.length_eq.trans hlength
  refine ⟨⟨?_, hchain, List.forall₂_iff_get.2 ⟨htotal, fun i hi hi' => ?_⟩⟩, target, by simp,
    StateSet.contains_iff.1 (List.find?_some htarget)⟩
  · have hhead := List.head?_eq_some_head (l := states ++ [target]) (by simp)
    refine ⟨_, hhead, ?_⟩
    rw [List.head?_eq_getElem?] at hhead
    cases blocks with
    | nil => simp at htotal
    | cons block rest => exact (canEnd_singleton.1 (hends hhead)).1
  · have hend := hends (List.getElem?_eq_getElem hi)
    rw [← List.take_concat_get' _ _ hi'] at hend
    exact hend.mem

/-- **If there is a path through all sets to a target, then one is found.** -/
theorem FeasibleAlong.exists_concreteTrace (h : system.FeasibleAlong blocks path) :
    ∃ trace, system.concreteTrace blocks = some trace := by
  obtain ⟨hpath, target, hlast, htarget⟩ := h
  have hlength := hpath.length_replay
  obtain ⟨before, last, hreach⟩ : ∃ before last, system.replay blocks = before ++ [last] := by
    refine (List.eq_nil_or_concat' _).resolve_left fun hnil => ?_
    obtain rfl : blocks = [] := List.eq_nil_of_length_eq_zero (by rw [← hlength, hnil]; rfl)
    rw [List.forall₂_nil_right_iff.1 hpath.inside] at hlast
    cases hlast
  have hmem : target ∈ last := by
    have hend : (system.replay blocks)[before.length]? = some last := by simp [hreach]
    have hall : blocks.take (before.length + 1) = blocks :=
      List.take_of_length_le (by rw [← hlength, hreach]; simp)
    rw [mem_replay hend, hall]
    exact ⟨path, hpath, hlast⟩
  obtain ⟨found, hfound⟩ : ∃ found, last.toList.find? system.isTarget = some found :=
    Option.isSome_iff_exists.1 (List.find?_isSome.2 ⟨target, hmem, StateSet.contains_iff.2 htarget⟩)
  have hchain := isChain_replay system blocks
  rw [hreach, ← List.isChain_reverse, List.reverse_concat'] at hchain
  obtain ⟨trace, htrace⟩ := exists_traceBack hchain (List.mem_of_find?_eq_some hfound)
  exact ⟨trace, concreteTrace_eq_some.2 ⟨hlength, before, last, found, hreach, hfound, htrace⟩⟩

theorem followsEdges_iff : system.followsEdges path = true ↔ path.IsChain system.Step := by
  induction path with
  | nil => simp [followsEdges]
  | cons s path ih =>
    cases path with
    | nil => simp [followsEdges]
    | cons t path =>
      rw [List.isChain_cons_cons, ← ih]
      simp [followsEdges, mem_successors]

/-- **A path through sets to a target is a counterexample.** -/
theorem FeasibleAlong.isCounterexample (h : system.FeasibleAlong blocks path) :
    system.isCounterexample path = true := by
  obtain ⟨⟨⟨first, hfirst, hinit⟩, hsteps, -⟩, target, hlast, htarget⟩ := h
  simp only [TransitionSystem.isCounterexample, hfirst, hlast, followsEdges_iff.2 hsteps,
    StateSet.contains_iff.2 hinit, isTarget, StateSet.contains_iff.2 htarget, Bool.and_self]

/-! ## Checked accesses -/

theorem replayFrom?_eq (h : ∀ s, s ∈ previous → s < system.states) :
    system.replayFrom? previous rest = .ok (system.replayFrom previous rest) := by
  induction rest generalizing previous with
  | nil => rfl
  | cons block rest ih =>
    have hnext : ∀ s, s ∈ (system.image previous).inter block → s < system.states := fun s hs =>
      lt_states_of_mem_image (StateSet.mem_inter.1 hs).1
    simp only [replayFrom?, replayFrom, image?_eq h, ok_bind, ih hnext]
    split <;> rfl

theorem replay?_eq (system : TransitionSystem) (blocks : List StateSet) :
    system.replay? blocks = .ok (system.replay blocks) := by
  cases blocks with
  | nil => rfl
  | cons block rest =>
    have hfirst : ∀ s, s ∈ system.init.inter block → s < system.states := fun s hs =>
      system.init_lt s (StateSet.mem_inter.1 hs).1
    simp only [replay?, replay, replayFrom?_eq hfirst, ok_bind]
    split <;> rfl

theorem findBefore?_eq {states : List Nat} (h : ∀ s ∈ states, s < system.states) :
    system.findBefore? state states =
      .ok (states.find? fun s => (system.successors s).contains state) := by
  induction states with
  | nil => rfl
  | cons s states ih =>
    rw [List.forall_mem_cons] at h
    simp only [findBefore?, successors?_eq, if_pos h.1, ok_bind, List.find?_cons, ih h.2]
    split <;> simp_all

theorem traceBack?_eq (h : ∀ set ∈ sets, ∀ s, s ∈ set → s < system.states) :
    system.traceBack? state sets = .ok (system.traceBack state sets) := by
  induction sets generalizing state with
  | nil => rfl
  | cons previous sets ih =>
    rw [List.forall_mem_cons] at h
    simp only [traceBack?, traceBack, findBefore?_eq h.1, ok_bind]
    cases previous.toList.find? fun s => (system.successors s).contains state with
    | none => rfl
    | some before =>
      simp only [ih h.2, ok_bind, Option.bind_eq_bind, Option.bind_some]
      cases system.traceBack before sets <;> rfl

/-- A state in which a path ends is a state of the system. -/
theorem lt_states_of_mem_replay (hset : set ∈ system.replay blocks) (hs : s ∈ set) :
    s < system.states := by
  obtain ⟨j, hj⟩ := List.mem_iff_getElem?.1 hset
  obtain ⟨path, ⟨⟨first, hfirst, hinit⟩, hsteps, -⟩, hlast⟩ := (mem_replay hj).1 hs
  obtain rfl | ⟨before, last, rfl⟩ := path.eq_nil_or_concat'
  · cases hfirst
  obtain rfl : last = s := by simpa using hlast
  obtain ⟨-, hstep⟩ := isChain_concat.1 hsteps
  cases hbefore : before.getLast? with
  | none =>
    obtain rfl := List.getLast?_eq_none_iff.1 hbefore
    exact Option.some.inj hfirst ▸ system.init_lt first hinit
  | some u => exact (system.edges_lt _ (hstep u hbefore)).2

theorem concreteTrace?_eq (system : TransitionSystem) (blocks : List StateSet) :
    system.concreteTrace? blocks = .ok (system.concreteTrace blocks) := by
  simp only [concreteTrace?, concreteTrace, replay?_eq, ok_bind]
  by_cases hlength : (system.replay blocks).length = blocks.length
  swap
  · simp [hlength, guard]
  simp only [hlength, guard, ne_eq, not_true_eq_false, if_false, if_true]
  cases hreverse : (system.replay blocks).reverse with
  | nil => rfl
  | cons last before =>
    have hbefore : ∀ set ∈ before, ∀ s, s ∈ set → s < system.states := fun set hset s hs =>
      lt_states_of_mem_replay (List.mem_reverse.1 (hreverse ▸ List.mem_cons_of_mem last hset)) hs
    cases htarget : last.toList.find? system.isTarget with
    | none => simp [htarget]
    | some target => simp [htarget, traceBack?_eq hbefore]

/-! ## Exactness -/

/-- **Replays and traces are exact.** A replay goes on for as long as some path leads through the sets so
far, and its entries are the ends of these paths. A trace is found just in case some path leads through
all sets to a target; then it is such a path, and a counterexample. Whatever numbers the sets hold, no
successors are looked up of one that is no state. -/
theorem replay_exact (system : TransitionSystem) (blocks : List StateSet) :
    (∀ j, j < (system.replay blocks).length ↔
      j < blocks.length ∧ ∀ i < j, ∃ s, system.CanEnd (blocks.take (i + 1)) s) ∧
    (∀ j set, (system.replay blocks)[j]? = some set →
      ∀ s, s ∈ set ↔ system.CanEnd (blocks.take (j + 1)) s) ∧
    ((∃ path, system.concreteTrace blocks = some path) ↔
      ∃ path, system.FeasibleAlong blocks path) ∧
    (∀ path, system.concreteTrace blocks = some path →
      system.FeasibleAlong blocks path ∧ system.isCounterexample path = true) ∧
    system.replay? blocks = .ok (system.replay blocks) ∧
    system.concreteTrace? blocks = .ok (system.concreteTrace blocks) := by
  refine ⟨fun j => lt_length_replay, fun j set hset s => mem_replay hset, ⟨?_, ?_⟩, ?_,
    replay?_eq system blocks, concreteTrace?_eq system blocks⟩
  · rintro ⟨path, hpath⟩
    exact ⟨path, feasibleAlong_of_concreteTrace hpath⟩
  · rintro ⟨path, hpath⟩
    exact hpath.exists_concreteTrace
  · intro path hpath
    have hfeasible := feasibleAlong_of_concreteTrace hpath
    exact ⟨hfeasible, hfeasible.isCounterexample⟩

example : forked.concreteTrace [.ofList [0, 9], .ofList [1, 2], .ofList [3, 7]] = some [0, 2, 3] := by
  decide

end GuidedReach.TransitionSystem
