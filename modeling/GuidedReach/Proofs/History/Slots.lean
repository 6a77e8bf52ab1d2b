import GuidedReach.History
import GuidedReach.Proofs.Generation.Writes

/-!
# The slots of a history

* `History.get?_set`, `History.get?_push`, `History.get?_applyRetention` — the slots after each
  change.
* `History.freezeLive_ok` — what a check leaves behind, and what it goes on with.
-/

namespace GuidedReach.History

variable {S P K : Type} {history history' : History S P K}

theorem lt_length {index : Nat} {gen : Generation S P K} (h : history.get? index = some gen) :
    index < history.length := by
  by_cases hlt : index < history.slots.size
  · exact hlt
  · simp [get?, Array.getElem?_eq_none (Nat.le_of_not_lt hlt)] at h

theorem get?_set {index : Nat} {gen : Generation S P K} (h : index < history.length) (i : Nat) :
    (history.set index gen).get? i = if i = index then some gen else history.get? i := by
  simp only [get?, set, Array.set!_eq_setIfInBounds, Array.getElem?_setIfInBounds]
  by_cases hi : index = i
  · subst hi
    simp only [length] at h
    simp [h]
  · simp [hi, Ne.symm hi]

@[simp] theorem length_set {index : Nat} {gen : Generation S P K} :
    (history.set index gen).length = history.length := by
  simp [set, length]

theorem get?_push (history : History S P K) (gen : Generation S P K) (i : Nat) :
    (history.push gen).get? i = if i = history.length then some gen else history.get? i := by
  simp only [get?, push, Array.getElem?_push]
  by_cases hi : i = history.slots.size
  · simp [hi, length]
  · simp [hi, length]

@[simp] theorem length_push (history : History S P K) (gen : Generation S P K) :
    (history.push gen).length = history.length + 1 := by
  simp [push, length]

theorem live?_eq_some {gen : Generation S P K} :
    history.live? = some gen ↔ history.get? (history.length - 1) = some gen := by
  rw [live?, Array.back?_eq_getElem?]
  rfl

/-- **Freezing** leaves the live generation behind, whose search nodes turned out admissible, and goes
on with a reset copy. -/
theorem freezeLive_ok (h : history.freezeLive = .ok history') :
    ∃ live, history.get? (history.length - 1) = some live ∧
      (∀ i k, live.searchNodes.get? i = some k → k.Admissible) ∧
      history' = history.push (live.resetOnto (history.length - 1)) := by
  unfold freezeLive at h
  split at h
  · rename_i live hlive
    simp only [bind_eq_ok, pure_eq_ok] at h
    obtain ⟨_, hcheck, rfl⟩ := h
    refine ⟨live, live?_eq_some.1 hlive, fun i k hk => ?_, rfl⟩
    have hfits := forM_eq_ok.1 hcheck (i, k) (NodeMap.mem_toList.2 hk)
    simp only [bind_eq_ok] at hfits
    obtain ⟨n, -, hfits⟩ := hfits
    exact SearchNode.checkFits_ok hfits
  · simp at h

/-- Only a live generation whose search nodes all belong to nodes of its graph can be frozen. -/
theorem exists_node_of_freezeLive (h : history.freezeLive = .ok history') {live : Generation S P K}
    (hlive : history.get? (history.length - 1) = some live) {i : NodeId} {k : SearchNode}
    (hk : live.searchNodes.get? i = some k) : ∃ n, live.graph.get? i = some n := by
  simp only [freezeLive, live?_eq_some.2 hlive, bind_eq_ok] at h
  obtain ⟨_, hcheck, -⟩ := h
  have hfits := forM_eq_ok.1 hcheck (i, k) (NodeMap.mem_toList.2 hk)
  simp only [bind_eq_ok, Graph.node_eq_ok] at hfits
  obtain ⟨n, hn, -⟩ := hfits
  exact ⟨n, hn⟩

/-- The live generation can be frozen if its values fit its graph. -/
theorem exists_freezeLive {live : Generation S P K}
    (hlive : history.get? (history.length - 1) = some live)
    (hfits : ∀ {i k}, live.searchNodes.get? i = some k →
      ∃ n, live.graph.get? i = some n ∧ k.checkFits n.isTarget = .ok ()) :
    history.freezeLive = .ok (history.push (live.resetOnto (history.length - 1))) := by
  have hcheck : live.checkSearchNodes = .ok () := by
    refine forM_eq_ok.2 fun entry hentry => ?_
    obtain ⟨n, hn, hfit⟩ := hfits (NodeMap.mem_toList.1 hentry)
    exact bind_eq_ok.2 ⟨n, Graph.node_eq_ok.2 hn, hfit⟩
  simp only [freezeLive, live?_eq_some.2 hlive, bind_eq_ok, pure_eq_ok]
  exact ⟨(), hcheck, trivial⟩

theorem applyRetention_of_all (h : history.retention = .all) : history.applyRetention = history := by
  simp [applyRetention, h]

theorem get?_applyRetention_of_previous (h : history.retention = .previous) (i : Nat) :
    history.applyRetention.get? i =
      if i + 2 < history.length then none
      else if i + 2 = history.length then (history.get? i).map (·.releaseProvider)
      else history.get? i := by
  simp only [applyRetention, h, get?, Array.getElem?_mapIdx]
  cases history.slots[i]? with
  | none => simp
  | some slot => simp only [Option.map_some, Option.join_some]

/-- Retention keeps the live generation and, but for its provider, the one before it. -/
theorem get?_applyRetention (history : History S P K) :
    history.applyRetention = history ∨ ∀ i, history.applyRetention.get? i =
      if i + 2 < history.length then none
      else if i + 2 = history.length then (history.get? i).map (·.releaseProvider)
      else history.get? i := by
  cases h : history.retention with
  | all => exact .inl (applyRetention_of_all h)
  | previous => exact .inr (get?_applyRetention_of_previous h)

/-- The live generation stays as it is. -/
theorem get?_applyRetention_live (history : History S P K) {index : Nat}
    (hlength : history.length = index + 1) :
    history.applyRetention.get? index = history.get? index := by
  rcases history.get?_applyRetention with hsame | hget
  · rw [hsame]
  · rw [hget, if_neg (by omega), if_neg (by omega)]

/-- What is kept is as it was, save that a provider may be forgotten. -/
theorem exists_of_get?_applyRetention {index : Nat} {gen : Generation S P K}
    (h : history.applyRetention.get? index = some gen) :
    ∃ old, history.get? index = some old ∧ (gen = old ∨ gen = old.releaseProvider) := by
  rcases history.get?_applyRetention with hsame | hget
  · rw [hsame] at h
    exact ⟨gen, h, .inl rfl⟩
  · rw [hget] at h
    split at h
    · cases h
    · split at h
      · obtain ⟨old, hold, rfl⟩ := Option.map_eq_some_iff.1 h
        exact ⟨old, hold, .inr rfl⟩
      · exact ⟨gen, h, .inl rfl⟩

/-- The generation before the live one is kept. -/
theorem exists_get?_applyRetention {index : Nat} {old : Generation S P K}
    (hlength : history.length = index + 2) (hold : history.get? index = some old) :
    ∃ gen, history.applyRetention.get? index = some gen ∧
      (gen = old ∨ gen = old.releaseProvider) := by
  rcases history.get?_applyRetention with hsame | hget
  · exact ⟨old, hsame.symm ▸ hold, .inl rfl⟩
  · refine ⟨old.releaseProvider, ?_, .inr rfl⟩
    rw [hget, if_neg (by omega), if_pos hlength.symm, hold]
    rfl

/-- If only the last two generations are kept, the older of these loses its provider. -/
theorem get?_applyRetention_lastTwo {index i : Nat} {old : Generation S P K}
    (h : history.retention = .previous) (hlength : history.length = index + 2)
    (hold : history.get? index = some old) (hi : i ≠ index + 1) :
    history.applyRetention.get? i = if i = index then some old.releaseProvider else none := by
  rw [get?_applyRetention_of_previous h, hlength]
  rcases Nat.lt_trichotomy i index with hlt | rfl | hlt
  · rw [if_pos (by omega), if_neg (by omega)]
  · rw [if_neg (by omega), if_pos rfl, if_pos rfl, hold, Option.map_some]
  · rw [if_neg (by omega), if_neg (by omega), if_neg (by omega)]
    refine Option.eq_none_iff_forall_ne_some.2 fun gen hgen => ?_
    have := lt_length hgen
    omega

theorem liveIndex?_eq {index : Nat} (hlength : history.length = index + 1) :
    history.liveIndex? = some index := by
  have hempty : history.isEmpty = false := by
    cases h : history.isEmpty with
    | false => rfl
    | true =>
      have hzero : history.length = 0 := by simpa [isEmpty, length] using h
      omega
  simp only [liveIndex?, hempty, hlength]
  rfl

/-- The solved generation is the one before the live one. -/
theorem solved?_eq {index : Nat} (hlength : history.length = index + 2) :
    history.solved? = history.get? index := by
  simp only [solved?, liveIndex?_eq hlength]

@[simp] theorem length_applyRetention (history : History S P K) :
    history.applyRetention.length = history.length := by
  unfold applyRetention
  split <;> simp [length]

end GuidedReach.History
