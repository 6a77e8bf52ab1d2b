import GuidedReach.Proofs.TransitionSystem.Reachability

/-!
# Systems are made of parts that fit together

Parts that fit together make a system, and all others are refused because of the first thing wrong with
them. A system stands for the edges that it was made of.

* `TransitionSystem.find?_mentioned` — what is mentioned is gone through in the right order.
* `TransitionSystem.Refused.not_fits`, `TransitionSystem.Refused.unique` — there is one error for parts
  that do not fit together, and none for parts that do.
* `TransitionSystem.make?_cases` — the two ways in which making a system ends.
* `TransitionSystem.make?_eq_ok` — which system is made.
* `TransitionSystem.make?_exact` — **the main result**.
-/

namespace GuidedReach.TransitionSystem

variable {states s : Nat} {init targets : List Nat} {edges : List (Nat × Nat)}
variable {error error' : SystemError} {system system' : TransitionSystem}

/-! ## The first thing wrong -/

theorem find?_unknown_eq_none {l : List Nat} :
    l.find? (fun s => decide (states ≤ s)) = none ↔ ∀ t ∈ l, t < states := by
  simp [List.find?_eq_none]

theorem find?_unknown_eq_some {l : List Nat} :
    l.find? (fun s => decide (states ≤ s)) = some s ↔
      ∃ before after, l = before ++ s :: after ∧ (∀ t ∈ before, t < states) ∧ states ≤ s := by
  simp only [List.find?_eq_some_iff_append, decide_eq_true_eq, Bool.not_eq_true', decide_eq_false_iff_not,
    Nat.not_le]
  tauto

/-- Of an edge, the source is looked at before the destination. -/
theorem find?_edge_eq_some {e : Nat × Nat} :
    [e.1, e.2].find? (fun s => decide (states ≤ s)) = some s ↔
      states ≤ s ∧ (e.1 = s ∨ e.1 < states ∧ e.2 = s) := by
  grind

/-- The ends of the edges are looked at edge by edge. -/
theorem find?_edges_eq_some :
    (edges.flatMap fun (source, dest) => [source, dest]).find? (fun s => decide (states ≤ s)) = some s ↔
      ∃ before e after, edges = before ++ e :: after ∧
        (∀ e ∈ before, e.1 < states ∧ e.2 < states) ∧
        states ≤ s ∧ (e.1 = s ∨ e.1 < states ∧ e.2 = s) := by
  simp only [List.find?_flatMap, List.findSome?_eq_some_iff, find?_edge_eq_some, find?_unknown_eq_none,
    List.forall_mem_cons, List.not_mem_nil, false_imp_iff, forall_const, and_true]
  constructor
  · rintro ⟨before, e, after, hedges, hfound, hbefore⟩
    exact ⟨before, e, after, hedges, hbefore, hfound⟩
  · rintro ⟨before, e, after, hedges, hbefore, hfound⟩
    exact ⟨before, e, after, hedges, hfound, hbefore⟩

/-- **The first number that is no state** among those that are mentioned. -/
theorem find?_mentioned :
    (mentioned init edges targets).find? (fun s => decide (states ≤ s)) = some s ↔
      FirstUnknown states init edges targets s := by
  rw [mentioned, List.find?_append, Option.or_eq_some_iff, find?_edges_eq_some]
  simp only [List.find?_append, Option.or_eq_some_iff, Option.or_eq_none_iff, find?_unknown_eq_some,
    find?_unknown_eq_none]
  constructor
  · rintro ((⟨before, after, hl, hbefore, hs⟩ | ⟨hinit, before, after, hl, hbefore, hs⟩) |
      ⟨⟨hinit, htargets⟩, before, ⟨source, dest⟩, after, hl, hbefore, hs, rfl | ⟨hsource, rfl⟩⟩)
    · exact .init hl hbefore hs
    · exact .target hinit hl hbefore hs
    · exact .source hinit htargets hl hbefore hs
    · exact .dest hinit htargets hl hbefore hsource hs
  · rintro (⟨hl, hbefore, hs⟩ | ⟨hinit, hl, hbefore, hs⟩ | ⟨hinit, htargets, hl, hbefore, hs⟩ |
      ⟨hinit, htargets, hl, hbefore, hsource, hs⟩)
    · exact .inl (.inl ⟨_, _, hl, hbefore, hs⟩)
    · exact .inl (.inr ⟨hinit, _, _, hl, hbefore, hs⟩)
    · exact .inr ⟨⟨hinit, htargets⟩, _, _, _, hl, hbefore, hs, .inl rfl⟩
    · exact .inr ⟨⟨hinit, htargets⟩, _, _, _, hl, hbefore, hs, .inr ⟨hsource, rfl⟩⟩

theorem forall_mentioned_lt : (∀ t ∈ mentioned init edges targets, t < states) ↔
    (∀ t ∈ init, t < states) ∧ (∀ t ∈ targets, t < states) ∧
      ∀ e ∈ edges, e.1 < states ∧ e.2 < states := by
  simp only [mentioned, List.forall_mem_append, List.forall_mem_flatMap, List.forall_mem_cons,
    List.not_mem_nil, false_imp_iff, forall_const, and_true, and_assoc]

namespace Refused

theorem not_fits (h : Refused states init edges targets error) : ¬ Fits states init edges targets := by
  intro hfits
  cases h with
  | empty hzero => exact hfits.states_pos.ne' hzero
  | tooLarge hlarge => exact hfits.states_le.not_gt hlarge
  | unknownState _ _ hfirst =>
    have hlt := forall_mentioned_lt.2 ⟨hfits.init_lt, hfits.targets_lt, hfits.edges_lt⟩
    rw [← find?_mentioned, find?_unknown_eq_none.2 hlt] at hfirst
    cases hfirst

theorem unique (h : Refused states init edges targets error)
    (h' : Refused states init edges targets error') : error = error' := by
  cases h with
  | empty hzero =>
    cases h' with
    | empty => rfl
    | tooLarge hlarge => omega
    | unknownState hpos => omega
  | tooLarge hlarge =>
    cases h' with
    | empty hzero => omega
    | tooLarge => rfl
    | unknownState _ hle => omega
  | unknownState hpos hle hfirst =>
    cases h' with
    | empty hzero => omega
    | tooLarge hlarge => omega
    | unknownState _ _ hfirst' =>
      rw [Option.some.inj ((find?_mentioned.2 hfirst).symm.trans (find?_mentioned.2 hfirst'))]

end Refused

/-! ## Making systems -/

/-- What a system is made of fits together. -/
theorem fits_parts (system : TransitionSystem) (hinit : ∀ s, s ∈ system.init ↔ s ∈ init)
    (htargets : ∀ s, s ∈ system.targets ↔ s ∈ targets) :
    Fits system.states init system.edges targets where
  states_pos := system.states_pos
  states_le := system.states_le
  init_lt s hs := system.init_lt s ((hinit s).2 hs)
  targets_lt s hs := system.targets_lt s ((htargets s).2 hs)
  edges_lt := system.edges_lt

/-- A system is determined by its parts. -/
theorem eq_of_parts (hstates : system.states = system'.states) (hinit : system.init = system'.init)
    (hedges : system.edges = system'.edges) (htargets : system.targets = system'.targets) :
    system = system' := by
  obtain ⟨_, _, _, _, _, _, _, _, _, _, rfl⟩ := system
  obtain ⟨_, _, _, _, _, _, _, _, _, _, rfl⟩ := system'
  subst hstates hinit hedges htargets
  rfl

/-- **The two ways in which making a system ends.** -/
theorem make?_cases (states : Nat) (init : List Nat) (edges : List (Nat × Nat)) (targets : List Nat) :
    (∃ error, make? states init edges targets = .error error ∧
      Refused states init edges targets error) ∨
    ∃ system, make? states init edges targets = .ok system ∧ system.states = states ∧
      system.init = .ofList init ∧ system.edges = edges ∧ system.targets = .ofList targets := by
  unfold make?
  split
  · rename_i hzero
    exact .inl ⟨_, rfl, .empty hzero⟩
  rename_i hpos
  split
  · rename_i hlarge
    exact .inl ⟨_, rfl, .tooLarge hlarge⟩
  rename_i hle
  split
  · rename_i s hfound
    exact .inl ⟨_, rfl, .unknownState (Nat.pos_of_ne_zero hpos) (Nat.le_of_not_lt hle)
      (find?_mentioned.1 hfound)⟩
  · exact .inr ⟨_, rfl, rfl, rfl, rfl, rfl⟩

/-- **The system that is made** has the given parts. -/
theorem make?_eq_ok : make? states init edges targets = .ok system ↔
    system.states = states ∧ system.init = .ofList init ∧ system.edges = edges ∧
      system.targets = .ofList targets := by
  constructor
  · intro h
    rcases make?_cases states init edges targets with ⟨error, herror, -⟩ | ⟨system', hok, hparts⟩
    · rw [herror] at h
      cases h
    · rw [hok] at h
      cases h
      exact hparts
  · rintro ⟨rfl, hinit, rfl, htargets⟩
    have hfits : Fits system.states init system.edges targets :=
      system.fits_parts (fun s => hinit ▸ StateSet.mem_ofList) fun s => htargets ▸ StateSet.mem_ofList
    rcases make?_cases system.states init system.edges targets with
      ⟨error, -, hrefused⟩ | ⟨system', hok, hstates', hinit', hedges', htargets'⟩
    · exact absurd hfits hrefused.not_fits
    · rw [hok, eq_of_parts hstates' (hinit'.trans hinit.symm) hedges' (htargets'.trans htargets.symm)]

theorem exists_make?_iff :
    (∃ system, make? states init edges targets = .ok system) ↔ Fits states init edges targets := by
  constructor
  · rintro ⟨system, hok⟩
    obtain ⟨rfl, hinit, rfl, htargets⟩ := make?_eq_ok.1 hok
    exact system.fits_parts (fun s => hinit ▸ StateSet.mem_ofList) fun s => htargets ▸ StateSet.mem_ofList
  · intro hfits
    rcases make?_cases states init edges targets with ⟨error, -, hrefused⟩ | ⟨system, hok, -⟩
    · exact absurd hfits hrefused.not_fits
    · exact ⟨system, hok⟩

theorem make?_eq_error :
    make? states init edges targets = .error error ↔ Refused states init edges targets error := by
  constructor
  · intro h
    rcases make?_cases states init edges targets with ⟨error', herror, hrefused⟩ | ⟨system, hok, -⟩
    · rw [herror] at h
      cases h
      exact hrefused
    · rw [hok] at h
      cases h
  · intro hrefused
    rcases make?_cases states init edges targets with ⟨error', herror, hrefused'⟩ | ⟨system, hok, -⟩
    · rw [herror, hrefused.unique hrefused']
    · exact absurd (exists_make?_iff.1 ⟨system, hok⟩) hrefused.not_fits

/-! ## Exactness -/

/-- **Systems are made of parts that fit together, and stand for their edges.** A system is made just in
case there are states, no more than supported, and nothing else is mentioned. Otherwise the error is the
first thing wrong. A system has the parts that it was made of. Its table is filled, and then read at any
state, without an access out of its range; it holds the distinct ends of the edges from each state in the
order in which they first occur. So the image of a set of states is what the edges say, and within the
states, and wherever a walk leads from a state, successors can be looked up. -/
theorem make?_exact (states : Nat) (init : List Nat) (edges : List (Nat × Nat)) (targets : List Nat) :
    ((∃ system, make? states init edges targets = .ok system) ↔ Fits states init edges targets) ∧
    (∀ error, make? states init edges targets = .error error ↔
      Refused states init edges targets error) ∧
    ∀ system, make? states init edges targets = .ok system →
      (system.states = states ∧ (∀ s, s ∈ system.init ↔ s ∈ init) ∧ system.edges = edges ∧
        ∀ s, s ∈ system.targets ↔ s ∈ targets) ∧
      adjacency? states edges = .ok system.succs ∧
      (∀ s < states, system.succs[s]? = some (system.successors s) ∧
        system.successors? s = .ok (system.successors s) ∧ (system.successors s).Nodup ∧
        ∀ ends, ListsEnds edges s ends ↔ ends = system.successors s) ∧
      (∀ set : StateSet, (∀ s, s ∈ set → s < states) →
        system.image? set = .ok (system.image set) ∧
        ∀ t, (t ∈ system.image set ↔ ∃ s, s ∈ set ∧ (s, t) ∈ edges) ∧
          (t ∈ system.image set → t < states)) ∧
      ∀ s t length, s < states → system.Walk s t length →
        t < states ∧ system.successors? t = .ok (system.successors t) := by
  refine ⟨exists_make?_iff, fun error => make?_eq_error, fun system hok => ?_⟩
  obtain ⟨rfl, hinit, rfl, htargets⟩ := make?_eq_ok.1 hok
  have hlookUp : ∀ s < system.states, system.successors? s = .ok (system.successors s) :=
    fun s hs => by rw [successors?_eq, if_pos hs]
  refine ⟨⟨rfl, fun s => hinit ▸ StateSet.mem_ofList, rfl, fun s => htargets ▸ StateSet.mem_ofList⟩,
    ?_, fun s hs => ?_, fun set hset => ?_, fun s t length hs hwalk => ?_⟩
  · rw [adjacency?_eq fun e he => (system.edges_lt e he).1, system.succs_eq]
  · have hlists := listsEnds_successors hs
    refine ⟨getElem?_succs hs, hlookUp s hs, hlists.nodup, fun ends => ⟨fun h => h.unique hlists, ?_⟩⟩
    rintro rfl
    exact hlists
  · exact ⟨image?_eq hset, fun t => ⟨mem_image, lt_states_of_mem_image⟩⟩
  · have ht := hwalk.lt_states hs
    exact ⟨ht, hlookUp t ht⟩

example : make? 3 [0, 2] [(0, 5), (4, 1)] [1] = .error (.unknownState 5 3) := rfl

/-- Some edges twice and some back to where they start, and a state that none starts from. -/
def crowded : TransitionSystem where
  states := 9
  init := .ofList [0]
  edges := [(0, 6), (1, 8), (0, 1), (0, 6), (6, 6), (1, 0), (0, 1)]
  targets := .ofList [8]
  succs := adjacency 9 [(0, 6), (1, 8), (0, 1), (0, 6), (6, 6), (1, 0), (0, 1)]
  states_pos := by decide
  states_le := by decide
  init_lt := by decide
  targets_lt := by decide
  edges_lt := by decide
  succs_eq := rfl

/-- The edge from state 0 to state 6 comes before the one to state 1. A walk leads to the target, whose
successors can be looked up although there are none. -/
theorem make?_exact_crowded :
    make? 9 [0, 0] crowded.edges [8, 8] = .ok crowded ∧
    (∀ ends, ListsEnds crowded.edges 0 ends ↔ ends = [6, 1]) ∧
    adjacency? 9 crowded.edges = .ok crowded.succs ∧
    (∀ s, s ∈ StateSet.ofList [0, 1] → s < 9) ∧
    crowded.image? (.ofList [0, 1]) = .ok (.ofList [0, 1, 6, 8]) ∧
    crowded.Walk 0 8 2 ∧ crowded.successors? 8 = .ok [] := by
  have hok : make? 9 [0, 0] crowded.edges [8, 8] = .ok crowded :=
    make?_eq_ok.2 ⟨rfl, by decide, rfl, by decide⟩
  have hfirst : (0, 1) ∈ crowded.edges := by decide
  have hsecond : (1, 8) ∈ crowded.edges := by decide
  have hwalk : crowded.Walk 0 8 2 := .step hfirst (.step hsecond (.refl 8))
  have hset : ∀ s, s ∈ StateSet.ofList [0, 1] → s < 9 := by simp
  obtain ⟨-, -, hmade⟩ := make?_exact 9 [0, 0] crowded.edges [8, 8]
  obtain ⟨-, htable, hlists, himage, hwalks⟩ := hmade crowded hok
  exact ⟨hok, (hlists 0 (by decide)).2.2.2, htable, hset, (himage _ hset).1,
    hwalk, (hwalks 0 8 2 (by decide) hwalk).2⟩

end GuidedReach.TransitionSystem
