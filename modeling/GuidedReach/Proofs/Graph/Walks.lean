import GuidedReach.Proofs.Graph.Ancestors
import GuidedReach.Proofs.Graph.Prune

/-!
# Walks along the tree

Both walks along the tree edges of a graph are bounded by the number of slots. In a graph whose
links agree the bound is never met: numbers decrease on the way up and increase on the way down.

* `Graph.WellFormed.ancestorsWithin_eq`, `Graph.WellFormed.descendantsWithin_eq` — more steps than
  there are to take change nothing.
* `Graph.WellFormed.ancestors_eq`, `Graph.WellFormed.descendants_eq` — the walks from a node go on as
  those from its parent and from its children.
* `Graph.WellFormed.mem_descendants_iff`, `Graph.WellFormed.nodup_descendants` — the descendants of a
  node are the nodes that have it as an ancestor, each once.
-/

namespace GuidedReach.Graph.WellFormed

variable {S : Type} {g : Graph S} {id a b x : NodeId} {n : Node S}

/-! ## Upwards -/

theorem ancestorsWithin_succ (hwf : g.WellFormed) {steps : Nat} (hsteps : id ≤ steps) :
    g.ancestorsWithin (steps + 1) id = g.ancestorsWithin steps id := by
  induction steps generalizing id with
  | zero =>
    have hroot : (g.get? id).bind (·.parent) = none := by
      refine Option.eq_none_iff_forall_not_mem.2 fun parent hparent => ?_
      obtain ⟨n, hn, hp⟩ := Option.bind_eq_some_iff.1 hparent
      have := (hwf.parent_link hn hp).1
      lia
    simp [ancestorsWithin, hroot]
  | succ steps ih =>
    rw [ancestorsWithin, ancestorsWithin]
    split
    · rename_i parent hparent
      obtain ⟨n, hn, hp⟩ := Option.bind_eq_some_iff.1 hparent
      have := (hwf.parent_link hn hp).1
      rw [ih (by lia)]
    · rfl

theorem ancestorsWithin_eq (hwf : g.WellFormed) {steps : Nat} (hsteps : id ≤ steps) :
    g.ancestorsWithin steps id = g.ancestors id := by
  induction steps, hsteps using Nat.le_induction with
  | base => rfl
  | succ steps hle ih => rw [hwf.ancestorsWithin_succ hle, ih]

theorem ancestors_eq (hwf : g.WellFormed) (hn : g.get? id = some n) :
    g.ancestors id = id :: n.parent.elim [] g.ancestors := by
  rw [← hwf.ancestorsWithin_eq (Nat.le_succ id), ancestorsWithin, hn, Option.bind_some]
  cases hp : n.parent with
  | none => rfl
  | some parent => simp [hwf.ancestorsWithin_eq (Nat.le_of_lt (hwf.parent_link hn hp).1)]

theorem self_mem_ancestors (hwf : g.WellFormed) (hn : g.get? id = some n) : id ∈ g.ancestors id := by
  rw [hwf.ancestors_eq hn]
  exact List.mem_cons_self

theorem mem_ancestors_iff (hwf : g.WellFormed) (hn : g.get? id = some n) :
    a ∈ g.ancestors id ↔ a = id ∨ ∃ parent, n.parent = some parent ∧ a ∈ g.ancestors parent := by
  rw [hwf.ancestors_eq hn, List.mem_cons]
  cases n.parent <;> simp

/-- Ancestors of a node are on one path, so the older of two is an ancestor of the younger. -/
theorem mem_ancestors_of_le (hwf : g.WellFormed) (hn : g.get? x = some n) (ha : a ∈ g.ancestors x)
    (hb : b ∈ g.ancestors x) (hle : a ≤ b) : a ∈ g.ancestors b := by
  induction x using Nat.strong_induction_on generalizing n with
  | _ x ih =>
    obtain rfl | ⟨parent, hp, hb⟩ := (hwf.mem_ancestors_iff hn).1 hb
    · exact ha
    obtain ⟨hlt, m, hm, -⟩ := hwf.parent_link hn hp
    obtain rfl | ⟨parent', hp', ha⟩ := (hwf.mem_ancestors_iff hn).1 ha
    · -- the younger one would be above the node that is the older one
      obtain rfl | habove := above_of_mem_ancestorsWithin hb
      · lia
      · have := (habove.not_leaf hwf).1
        lia
    · obtain rfl := Option.some.inj (hp.symm.trans hp')
      exact ih parent hlt hm ha hb

/-! ## Downwards -/

theorem descendantsWithin_succ (hwf : g.WellFormed) (hn : g.get? id = some n) {levels : Nat}
    (hlevels : g.nodes.slotCount ≤ levels + id) :
    g.descendantsWithin (levels + 1) id = g.descendantsWithin levels id := by
  induction levels generalizing id n with
  | zero =>
    have := lt_slotCount hn
    lia
  | succ levels ih =>
    rw [descendantsWithin, descendantsWithin, hn]
    refine congrArg (id :: ·) (List.flatMap_congr fun c hc => ?_)
    obtain ⟨hlt, m, hm, -⟩ := hwf.lt_child hn hc
    exact ih hm (by lia)

theorem descendantsWithin_eq (hwf : g.WellFormed) (hn : g.get? id = some n) {levels : Nat}
    (hlevels : g.nodes.slotCount ≤ levels + id) :
    g.descendantsWithin levels id = g.descendants id := by
  have hmore : ∀ {k}, g.nodes.slotCount ≤ k + id → ∀ d,
      g.descendantsWithin (k + d) id = g.descendantsWithin k id := fun {k} hk d => by
    induction d with
    | zero => rfl
    | succ d ih => rw [← Nat.add_assoc, hwf.descendantsWithin_succ hn (by lia), ih]
  obtain hle | hle := Nat.le_total levels g.nodes.slotCount
  · obtain ⟨d, hd⟩ := Nat.exists_eq_add_of_le hle
    rw [descendants, hd, hmore hlevels]
  · obtain ⟨d, rfl⟩ := Nat.exists_eq_add_of_le hle
    rw [hmore (Nat.le_add_right _ _), descendants]

theorem descendants_eq (hwf : g.WellFormed) (hn : g.get? id = some n) :
    g.descendants id = id :: n.succs.flatMap g.descendants := by
  have hlevels : g.nodes.slotCount ≤ g.nodes.slotCount + 1 + id := by lia
  rw [← hwf.descendantsWithin_eq hn hlevels, descendantsWithin, hn]
  rfl

theorem mem_ancestors_of_mem_descendantsWithin (hwf : g.WellFormed) (hn : g.get? id = some n)
    {levels : Nat} (hx : x ∈ g.descendantsWithin levels id) :
    (∃ m, g.get? x = some m) ∧ id ∈ g.ancestors x := by
  induction x using Nat.strong_induction_on with
  | _ x ih =>
    obtain rfl | hne := eq_or_ne x id
    · exact ⟨⟨n, hn⟩, hwf.self_mem_ancestors hn⟩
    · obtain ⟨p, m, hp, hm, hc⟩ := parent_mem_descendantsWithin hx hne
      obtain ⟨hlt, k, hk, hparent⟩ := hwf.lt_child hm hc
      exact ⟨⟨k, hk⟩, (hwf.mem_ancestors_iff hk).2 (.inr ⟨p, hparent, (ih p hlt hp).2⟩)⟩

/-- **The descendants of a node are the nodes that have it as an ancestor.** -/
theorem mem_descendants_iff (hwf : g.WellFormed) (hn : g.get? id = some n) :
    x ∈ g.descendants id ↔ (∃ m, g.get? x = some m) ∧ id ∈ g.ancestors x := by
  refine ⟨hwf.mem_ancestors_of_mem_descendantsWithin hn, ?_⟩
  rintro ⟨⟨m, hm⟩, hid⟩
  have hsubtree := subtree_descendants hwf hn
  induction x using Nat.strong_induction_on generalizing m with
  | _ x ih =>
    obtain rfl | ⟨p, hp, hid⟩ := (hwf.mem_ancestors_iff hm).1 hid
    · exact hsubtree.root_mem
    · obtain ⟨hlt, -⟩ := hwf.parent_link hm hp
      obtain ⟨k, hk, hmem⟩ := hwf.exists_parent hm hp
      exact hsubtree.child_mem (ih p hlt hid k hk) hk hmem

theorem succs_nodup (hwf : g.WellFormed) (hn : g.get? id = some n) : n.succs.Nodup := by
  refine List.nodup_iff_count.2 fun c => ?_
  by_cases hc : c ∈ n.succs
  · obtain ⟨k, hk, hparent⟩ := hwf.succ_link hn hc
    obtain ⟨-, n', hn', -, hcount⟩ := hwf.parent_link hk hparent
    obtain rfl := Option.some.inj (hn.symm.trans hn')
    exact Nat.le_of_eq hcount
  · simp [List.count_eq_zero_of_not_mem hc]

theorem nodup_descendantsWithin (hwf : g.WellFormed) (hn : g.get? id = some n) (levels : Nat) :
    (g.descendantsWithin levels id).Nodup := by
  induction levels generalizing id n with
  | zero => exact .nil
  | succ levels ih =>
    rw [descendantsWithin, hn]
    have hchild : ∀ {c x}, c ∈ n.succs → x ∈ g.descendantsWithin levels c →
        ∃ k, g.get? c = some k ∧ k.parent = some id ∧ id < c ∧ (∃ m, g.get? x = some m) ∧
          c ∈ g.ancestors x := fun hc hx => by
      obtain ⟨hlt, k, hk, hparent⟩ := hwf.lt_child hn hc
      exact ⟨k, hk, hparent, hlt, hwf.mem_ancestors_of_mem_descendantsWithin hk hx⟩
    -- a child is no ancestor of the node, hence of no other child either
    have hup : ∀ {c}, id < c → c ∉ g.ancestors id := fun hlt hmem => by
      obtain rfl | habove := above_of_mem_ancestorsWithin hmem
      · exact Nat.lt_irrefl _ hlt
      · exact Nat.lt_asymm hlt (habove.not_leaf hwf).1
    have hapart : ∀ {c d k}, c < d → g.get? d = some k → k.parent = some id → id < c →
        c ∉ g.ancestors d := fun hlt hk hparent hid hmem => by
      obtain rfl | ⟨p, hp, hmem⟩ := (hwf.mem_ancestors_iff hk).1 hmem
      · exact Nat.lt_irrefl _ hlt
      · obtain rfl := Option.some.inj (hparent.symm.trans hp)
        exact hup hid hmem
    refine List.nodup_cons.2 ⟨fun hmem => ?_, List.nodup_flatMap.2 ⟨fun c hc => ?_, ?_⟩⟩
    · obtain ⟨c, hc, hx⟩ := List.mem_flatMap.1 hmem
      obtain ⟨-, -, -, hlt, -, hanc⟩ := hchild hc hx
      exact hup hlt hanc
    · obtain ⟨-, k, hk, -⟩ := hwf.lt_child hn hc
      exact ih hk
    · refine (hwf.succs_nodup hn).imp_of_mem fun {c d} hc hd hne => ?_
      rw [Function.onFun, List.disjoint_left]
      intro x hxc hxd
      obtain ⟨k, hk, hparent, hlt, ⟨m, hm⟩, hcx⟩ := hchild hc hxc
      obtain ⟨k', hk', hparent', hlt', -, hdx⟩ := hchild hd hxd
      obtain hcd | hdc := Nat.lt_or_gt_of_ne hne
      · exact hapart hcd hk' hparent' hlt (hwf.mem_ancestors_of_le hm hcx hdx (Nat.le_of_lt hcd))
      · exact hapart hdc hk hparent hlt' (hwf.mem_ancestors_of_le hm hdx hcx (Nat.le_of_lt hdc))

/-- **No node is met twice on the way down.** -/
theorem nodup_descendants (hwf : g.WellFormed) (hn : g.get? id = some n) :
    (g.descendants id).Nodup :=
  hwf.nodup_descendantsWithin hn _

end GuidedReach.Graph.WellFormed
