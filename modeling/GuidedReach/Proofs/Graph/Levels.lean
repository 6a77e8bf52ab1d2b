import GuidedReach.Proofs.Graph.Grown
import Mathlib.Data.List.ProdSigma

/-!
# How many nodes a graph can have

A node is found by going down from an init node as many levels as it is deep. So a graph whose nodes
are not too deep and do not list too many successors is not too large.

* `Graph.level` — the nodes on one level.
* `Graph.WellFormed.mem_level` — every node is on the level that it is deep.
* `Graph.WellFormed.size_le` — the size of a graph of bounded height and width.
-/

namespace GuidedReach.Graph

variable {S : Type} {g : Graph S} {height width : Nat} {i : NodeId} {n : Node S}

/-! ## Levels -/

/-- The nodes on one level: the init nodes, or what the nodes one level up list as successors. -/
def level (g : Graph S) : Nat → List NodeId
  | 0 => g.initNodes
  | depth + 1 => (g.level depth).flatMap g.succsOf

theorem length_flatMap_le {α β : Type} {l : List α} {f : α → List β} {bound : Nat}
    (h : ∀ a ∈ l, (f a).length ≤ bound) : (l.flatMap f).length ≤ l.length * bound := by
  rw [List.length_flatMap]
  calc (l.map fun a => (f a).length).sum ≤ (l.map fun a => (f a).length).length • bound :=
        List.sum_le_card_nsmul _ _ (by simpa using h)
    _ = l.length * bound := by rw [List.length_map, smul_eq_mul]

/-- A level has at most as many nodes as there are ways to get there. -/
theorem length_level_le (hroots : g.initNodes.length ≤ width)
    (hsuccs : ∀ id, (g.succsOf id).length ≤ width) (depth : Nat) :
    (g.level depth).length ≤ width ^ (depth + 1) := by
  induction depth with
  | zero => simpa [level] using hroots
  | succ depth ih =>
    calc (g.level (depth + 1)).length ≤ (g.level depth).length * width :=
          length_flatMap_le fun id _ => hsuccs id
      _ ≤ width ^ (depth + 1) * width := Nat.mul_le_mul_right width ih

/-- **Every node is on the level that it is deep.** The induction is on the number of the node. -/
theorem WellFormed.mem_level (hwf : g.WellFormed) (hn : g.get? i = some n) : i ∈ g.level n.depth := by
  induction i using Nat.strongRecOn generalizing n with
  | ind i ih =>
    cases hparent : n.parent with
    | none =>
      obtain ⟨hcount, hdepth⟩ := hwf.init_link hn hparent
      rw [hdepth]
      show i ∈ g.initNodes
      exact List.count_pos_iff.1 (by omega)
    | some p =>
      obtain ⟨hlt, m, hm, hdepth, hcount⟩ := hwf.parent_link hn hparent
      rw [hdepth]
      refine List.mem_flatMap.2 ⟨p, ih p hlt hm, ?_⟩
      rw [succsOf_eq hm]
      exact List.count_pos_iff.1 (by omega)

/-- **A graph of bounded height and width is of bounded size.** -/
theorem WellFormed.size_le (hwf : g.WellFormed)
    (hheight : ∀ {i n}, g.get? i = some n → n.depth ≤ height)
    (hroots : g.initNodes.length ≤ width)
    (hsuccs : ∀ {i n}, g.get? i = some n → n.succs.length ≤ width) :
    g.size ≤ (height + 1) * (width + 1) ^ (height + 1) := by
  have hsuccs' : ∀ id, (g.succsOf id).length ≤ width := by
    intro id
    cases hid : g.get? id with
    | none => simp [succsOf_eq_nil hid]
    | some n => rw [succsOf_eq hid]; exact hsuccs hid
  have hlevel : ∀ depth ∈ List.range (height + 1),
      (g.level depth).length ≤ (width + 1) ^ (height + 1) := by
    intro depth hdepth
    rw [List.mem_range] at hdepth
    calc (g.level depth).length ≤ width ^ (depth + 1) := length_level_le hroots hsuccs' depth
      _ ≤ (width + 1) ^ (depth + 1) := Nat.pow_le_pow_left (Nat.le_succ width) _
      _ ≤ (width + 1) ^ (height + 1) := Nat.pow_le_pow_right (Nat.succ_pos width) (by omega)
  have hsubset : g.ids ⊆ (List.range (height + 1)).flatMap g.level := by
    intro i hi
    obtain ⟨n, hn⟩ := mem_ids.1 hi
    have hdepth := hheight hn
    exact List.mem_flatMap.2 ⟨n.depth, List.mem_range.2 (by omega), hwf.mem_level hn⟩
  calc g.size ≤ ((List.range (height + 1)).flatMap g.level).length :=
        (g.ids_nodup.subperm hsubset).length_le
    _ ≤ (List.range (height + 1)).length * (width + 1) ^ (height + 1) := length_flatMap_le hlevel
    _ = (height + 1) * (width + 1) ^ (height + 1) := by rw [List.length_range]

end GuidedReach.Graph
