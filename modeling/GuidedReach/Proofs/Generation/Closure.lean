import Mathlib.Order.FixedPoints
import GuidedReach.Graph.Operation
import GuidedReach.Proofs.Generation.Worklist
import GuidedReach.Proofs.Graph.Operations

/-!
# Deriving distances yields the least closure

Whatever the worklist looks like in between, the distances it assigns are the least set of distances
that is closed under the rules by which they follow. So the order of the worklist does not matter.

* `Generation.Prompted` — a node is to be looked at: it is a seed, or next to an assigned distance.
* `Generation.Yields` — the distance of a node that follows from known and assigned ones.
* `Generation.closure` — the least set of distances that is closed under these rules.
* `Generation.closure_unique` — it assigns at most one distance to a node.
* `Generation.deriveFrom_closure` — **deriving assigns exactly this closure**.
-/

namespace GuidedReach.Generation

variable {S P K : Type} {gen gen' mid : Generation S P K} {id i : NodeId} {n : Node S}
variable {d e : Distance} {seeds : Set NodeId} {A B : Set (NodeId × Distance)}

/-! ## The rules -/

/-- The node has the distance, because that is known or because it is assigned. -/
inductive Valued (gen : Generation S P K) (A : Set (NodeId × Distance)) (id : NodeId) (d : Distance) :
    Prop
  | known : gen.distance id = .ok d → d.isKnown = true → Valued gen A id d
  | assigned : (id, d) ∈ A → Valued gen A id d

/-- The node is a seed, the tree parent of a node with an assigned distance, or covered by one. -/
inductive Prompted (gen : Generation S P K) (seeds : Set NodeId) (A : Set (NodeId × Distance))
    (id : NodeId) : Prop
  | seed : id ∈ seeds → Prompted gen seeds A id
  | parent {c : NodeId} {m : Node S} {d : Distance} : (c, d) ∈ A → gen.graph.get? c = some m →
    m.parent = some id → Prompted gen seeds A id
  | covered {c : NodeId} {m : Node S} {d : Distance} : (c, d) ∈ A → gen.graph.get? c = some m →
    id ∈ m.covered → Prompted gen seeds A id

/-- A covered node has the distance of its coverer. An uncovered leaf that is expanded, infeasible or
refuted is infinitely far away. Any other expanded node is one edge further away than its nearest
successor, once all of these have distances. -/
inductive Yields (gen : Generation S P K) (A : Set (NodeId × Distance)) (id : NodeId) (n : Node S) :
    Distance → Prop
  | covering {c : NodeId} {d : Distance} : n.covering = some c → gen.Valued A c d →
    Yields gen A id n d
  | deadLeaf : n.covering = none → n.succs = [] →
    n.isExpanded = true ∨ n.isFeasible = false ∨ gen.heuristic id = .ok .infinite →
    Yields gen A id n .infinite
  | nearest {c : NodeId} {e d : Distance} : n.covering = none → n.isExpanded = true → c ∈ n.succs →
    gen.Valued A c e → (∀ c' ∈ n.succs, ∃ e', gen.Valued A c' e' ∧ e.notAbove e' = true) →
    e.succ = .ok d → Yields gen A id n d

/-- What follows in one step at a node that is no target, has no distance and is prompted. -/
structure Entails (gen : Generation S P K) (seeds : Set NodeId) (A : Set (NodeId × Distance))
    (id : NodeId) (n : Node S) (d : Distance) : Prop where
  node : gen.graph.get? id = some n
  plain : n.isTarget = false
  unknown : gen.distance id = .ok .unknown
  prompted : gen.Prompted seeds A id
  yields : gen.Yields A id n d

theorem Valued.mono (hsub : A ⊆ B) : gen.Valued A id d → gen.Valued B id d
  | .known hd hknown => .known hd hknown
  | .assigned hd => .assigned (hsub hd)

theorem Prompted.mono (hsub : A ⊆ B) : gen.Prompted seeds A id → gen.Prompted seeds B id
  | .seed hid => .seed hid
  | .parent hc hm hparent => .parent (hsub hc) hm hparent
  | .covered hc hm hcovered => .covered (hsub hc) hm hcovered

theorem Yields.mono (hsub : A ⊆ B) : gen.Yields A id n d → gen.Yields B id n d
  | .covering hcovering hd => .covering hcovering (hd.mono hsub)
  | .deadLeaf hfree hleaf hdead => .deadLeaf hfree hleaf hdead
  | .nearest hfree hexpanded hc he hall hd =>
    .nearest hfree hexpanded hc (he.mono hsub) (fun c' hc' =>
      let ⟨e', he', hle⟩ := hall c' hc'
      ⟨e', he'.mono hsub, hle⟩) hd

/-- The distances that follow in one step from known and assigned ones. -/
def consequences (gen : Generation S P K) (seeds : Set NodeId) :
    Set (NodeId × Distance) →o Set (NodeId × Distance) where
  toFun A := {p | ∃ n, gen.Entails seeds A p.1 n p.2}
  monotone' := fun _ _ hsub _ ⟨n, h⟩ =>
    ⟨n, h.node, h.plain, h.unknown, h.prompted.mono hsub, h.yields.mono hsub⟩

/-- The least set of distances that contains all of its consequences. -/
def closure (gen : Generation S P K) (seeds : Set NodeId) : Set (NodeId × Distance) :=
  (gen.consequences seeds).lfp

theorem mem_closure : (id, d) ∈ gen.closure seeds ↔ ∃ n, gen.Entails seeds (gen.closure seeds) id n d := by
  conv_lhs => rw [closure, ← OrderHom.map_lfp]
  rfl

/-- What is closed under the rules contains the closure. -/
theorem closure_subset (h : ∀ {id n d}, gen.Entails seeds A id n d → (id, d) ∈ A) :
    gen.closure seeds ⊆ A :=
  OrderHom.lfp_le _ fun _ ⟨_, hp⟩ => h hp

/-! ## At most one distance for a node -/

theorem unknown_of_mem_closure (h : (id, d) ∈ gen.closure seeds) : gen.distance id = .ok .unknown := by
  obtain ⟨_, h⟩ := mem_closure.1 h
  exact h.unknown

theorem isKnown_of_mem_closure (h : (id, d) ∈ gen.closure seeds) : d.isKnown = true := by
  refine closure_subset (A := {p | p.2.isKnown = true}) (fun {id n d} h => ?_) h
  show d.isKnown = true
  cases h.yields with
  | covering _ hd =>
    cases hd with
    | known _ hknown => exact hknown
    | assigned hd => exact hd
  | deadLeaf => rfl
  | nearest _ _ _ _ _ hsucc => exact (Distance.succ_eq_ok hsucc).2.1

theorem Valued.unique (hA : ∀ {c e}, (c, e) ∈ A → gen.distance c = .ok .unknown)
    (hB : ∀ {c e}, (c, e) ∈ B → gen.distance c = .ok .unknown)
    (hAB : ∀ {c e e'}, (c, e) ∈ A → (c, e') ∈ B → e = e') :
    gen.Valued A id d → gen.Valued B id e → d = e
  | .known hd _, .known he _ => Except.ok.inj (hd.symm.trans he)
  | .assigned hd, .assigned he => hAB hd he
  | .known hd hknown, .assigned he => by
    cases Except.ok.inj (hd.symm.trans (hB he))
    cases hknown
  | .assigned hd, .known he hknown => by
    cases Except.ok.inj (he.symm.trans (hA hd))
    cases hknown

/-- What follows at a node is unique if the distances of its neighbours are. -/
theorem Yields.unique (hvalue : ∀ {c e e'}, gen.Valued A c e → gen.Valued B c e' → e = e')
    (h : gen.Yields A id n d) (h' : gen.Yields B id n e) : d = e := by
  cases h with
  | covering hcovering hd =>
    cases h' with
    | covering hcovering' he =>
      obtain rfl := Option.some.inj (hcovering.symm.trans hcovering')
      exact hvalue hd he
    | deadLeaf hfree => simp [hcovering] at hfree
    | nearest hfree => simp [hcovering] at hfree
  | deadLeaf hfree hleaf =>
    cases h' with
    | covering hcovering => simp [hfree] at hcovering
    | deadLeaf => rfl
    | nearest _ _ hc => simp [hleaf] at hc
  | nearest hfree _ hc hd hall hsucc =>
    cases h' with
    | covering hcovering => simp [hfree] at hcovering
    | deadLeaf _ hleaf => simp [hleaf] at hc
    | nearest _ _ hc' hd' hall' hsucc' =>
      -- each of the two nearest successors is not above the other
      obtain ⟨_, he, hle⟩ := hall _ hc'
      obtain rfl := hvalue he hd'
      obtain ⟨_, he', hle'⟩ := hall' _ hc
      obtain rfl := hvalue hd he'
      obtain rfl := Distance.notAbove_antisymm hle hle'
      exact Except.ok.inj (hsucc.symm.trans hsucc')

/-- **The closure assigns at most one distance to a node.** -/
theorem closure_unique (h : (id, d) ∈ gen.closure seeds) (h' : (id, e) ∈ gen.closure seeds) :
    d = e := by
  let A : Set (NodeId × Distance) :=
    {p | p ∈ gen.closure seeds ∧ ∀ e, (p.1, e) ∈ gen.closure seeds → p.2 = e}
  refine (closure_subset (A := A) (fun {id n d} hid => ?_) h).2 e h'
  have hmem : (id, d) ∈ gen.closure seeds := mem_closure.2
    ⟨n, hid.node, hid.plain, hid.unknown, hid.prompted.mono fun _ hp => hp.1,
      hid.yields.mono fun _ hp => hp.1⟩
  refine ⟨hmem, fun e he => ?_⟩
  obtain ⟨n', he⟩ := mem_closure.1 he
  obtain rfl := Option.some.inj (hid.node.symm.trans he.node)
  exact hid.yields.unique (Valued.unique (fun hc => unknown_of_mem_closure hc.1)
    unknown_of_mem_closure fun hc he => hc.2 _ he) he.yields

/-! ## Assigned distances -/

/-- The distances that became known from one generation to another. -/
def assigned (gen gen' : Generation S P K) : Set (NodeId × Distance) :=
  {p | gen.distance p.1 = .ok .unknown ∧ gen'.distance p.1 = .ok p.2 ∧ p.2.isKnown = true}

/-- The distances of the later generation are those that were known or became so. -/
theorem valued_assigned (h : DistanceWrites gen gen') :
    gen.Valued (gen.assigned gen') id d ↔ gen'.distance id = .ok d ∧ d.isKnown = true := by
  constructor
  · rintro (⟨hd, hknown⟩ | ⟨-, hd, hknown⟩)
    · exact ⟨h.distance_eq_ok hd hknown, hknown⟩
    · exact ⟨hd, hknown⟩
  · rintro ⟨hd, hknown⟩
    obtain ⟨k, hk, rfl⟩ := Generation.distance_eq_ok.1 hd
    obtain ⟨-, hnone⟩ | ⟨l, e, hl, he, hold⟩ := h.searchNode id
    · simp [hk] at hnone
    · obtain rfl := Option.some.inj (hk.symm.trans he)
      obtain rfl | ⟨hunknown, -⟩ := hold
      · exact .known (Generation.distance_eq_ok.2 ⟨l, hl, rfl⟩) hknown
      · exact .assigned ⟨Generation.distance_eq_ok.2 ⟨l, hl, hunknown⟩, hd, hknown⟩

theorem assigned_of_setDistance (hset : gen'.setDistance id d = .ok mid) {p : NodeId × Distance}
    (hp : p ∈ gen.assigned mid) : p = (id, d) ∨ p ∈ gen.assigned gen' := by
  obtain ⟨hunknown, hp, hknown⟩ := hp
  obtain ⟨hid, hd⟩ | hold := distance_of_setDistance hset hp
  · exact .inl (Prod.ext hid hd)
  · exact .inr ⟨hunknown, hold, hknown⟩

theorem isDeadEnd_eq_ok_true : gen.isDeadEnd id n = .ok true ↔
    n.isExpanded = true ∨ n.isFeasible = false ∨ gen.heuristic id = .ok .infinite := by
  unfold isDeadEnd
  split
  · rename_i h
    exact ⟨fun _ => by rw [← or_assoc]; exact .inl (by simpa using h), fun _ => rfl⟩
  · rename_i h
    have h : ¬ (n.isExpanded = true ∨ n.isFeasible = false) := by simpa using h
    rw [← or_assoc, or_iff_right h]
    constructor
    · intro hdead
      obtain ⟨e, he, hinfinite⟩ := bind_eq_ok.1 hdead
      exact Distance.isInfinite_iff.1 (pure_eq_ok.1 hinfinite) ▸ he
    · intro he
      exact bind_eq_ok.2 ⟨_, he, rfl⟩

/-- The least of some known distances is one of them. -/
theorem nearest_mem_of_ne_nil {ds : List Distance} (hne : ds ≠ [])
    (hknown : ∀ e ∈ ds, e.isKnown = true) : Distance.nearest ds ∈ ds := by
  by_cases hinfinite : Distance.nearest ds = .infinite
  · obtain ⟨e, he⟩ := List.exists_mem_of_ne_nil ds hne
    rw [hinfinite, ← (Distance.nearest_eq_infinite hknown).1 hinfinite e he]
    exact he
  · exact Distance.nearest_mem hinfinite

/-- What the later generation derives follows from the distances that became known. -/
theorem yields_of_derived (h : DistanceWrites gen gen') (hd : gen'.derived id n = .ok d)
    (hknown : d.isKnown = true) : gen.Yields (gen.assigned gen') id n d := by
  unfold derived at hd
  split at hd
  · rename_i c hcovering
    exact .covering hcovering ((valued_assigned h).2 ⟨hd, hknown⟩)
  rename_i hfree
  split at hd
  · rename_i hleaf
    obtain ⟨dead, hdead, hd⟩ := bind_eq_ok.1 hd
    obtain rfl := pure_eq_ok.1 hd
    cases dead with
    | false => cases hknown
    | true =>
      refine .deadLeaf hfree (List.isEmpty_iff.1 hleaf) ?_
      simpa only [h.heuristic_eq_ok] using isDeadEnd_eq_ok_true.1 hdead
  rename_i hbranch
  split at hd
  · obtain rfl := pure_eq_ok.1 hd
    cases hknown
  rename_i hexpanded
  obtain ⟨below, hbelow, hd⟩ := bind_eq_ok.1 hd
  split at hd
  · rename_i hall
    obtain ⟨hlisted, hfrom⟩ := exists_of_mapM_ok hbelow
    have hall := List.all_eq_true.1 hall
    have hne : below ≠ [] := by
      obtain ⟨c, hc⟩ := List.exists_mem_of_ne_nil n.succs (by simpa [Node.isLeaf] using hbranch)
      obtain ⟨e, he, -⟩ := hlisted c hc
      exact List.ne_nil_of_mem he
    have hmem := nearest_mem_of_ne_nil hne hall
    obtain ⟨c, hc, hdistance⟩ := hfrom _ hmem
    refine .nearest hfree (by simpa using hexpanded) hc
      ((valued_assigned h).2 ⟨hdistance, hall _ hmem⟩) (fun c' hc' => ?_) hd
    obtain ⟨e', he', hdistance'⟩ := hlisted c' hc'
    exact ⟨e', (valued_assigned h).2 ⟨hdistance', hall e' he'⟩, Distance.nearest_notAbove he'⟩
  · obtain rfl := pure_eq_ok.1 hd
    cases hknown

/-- If a distance follows from those that became known, then the later generation can derive one. -/
theorem Yields.follows (h : DistanceWrites gen gen') (hd : gen.Yields (gen.assigned gen') id n d) :
    gen'.Follows id n := by
  cases hd with
  | covering hcovering hd => exact .covering hcovering (settled_iff.2 ⟨_, (valued_assigned h).1 hd⟩)
  | deadLeaf hfree hleaf hdead =>
    refine .deadEnd hfree hleaf (isDeadEnd_eq_ok_true.2 ?_)
    simpa only [h.heuristic_eq_ok] using hdead
  | nearest hfree hexpanded hc _ hall _ =>
    refine .expanded hfree (List.ne_nil_of_mem hc) hexpanded fun c' hc' => ?_
    obtain ⟨e', he', -⟩ := hall c' hc'
    exact settled_iff.2 ⟨e', (valued_assigned h).1 he'⟩

/-! ## The worklist -/

/-- What has been assigned lies in the closure, and the worklist only holds prompted nodes. It holds
each node at which a distance is due and which the assigned ones prompt. -/
structure Closing (gen : Generation S P K) (seeds : Set NodeId) (g : Generation S P K)
    (ids : List NodeId) : Prop where
  writes : DistanceWrites gen g
  slotCount : g.searchNodes.slotCount = gen.searchNodes.slotCount
  sound : gen.assigned g ⊆ gen.closure seeds
  prompted : ∀ i ∈ ids, gen.Prompted seeds (gen.closure seeds) i
  due : ∀ {i m}, g.Due i m → gen.Prompted seeds (gen.assigned g) i → i ∈ ids

namespace Closing

variable {g : Generation S P K} {ids rest waiting : List NodeId}

theorem start (gen : Generation S P K) (ids : List NodeId) : gen.Closing {i | i ∈ ids} gen ids := by
  have hnone : ∀ p, p ∉ gen.assigned gen := by
    rintro p ⟨hunknown, hp, hknown⟩
    rw [← Except.ok.inj (hunknown.symm.trans hp)] at hknown
    cases hknown
  refine ⟨.refl gen, rfl, fun p hp => absurd hp (hnone p), fun i hi => .seed hi, fun _ hi => ?_⟩
  cases hi with
  | seed hi => exact hi
  | parent hc => exact absurd hc (hnone _)
  | covered hc => exact absurd hc (hnone _)

theorem skip (h : gen.Closing seeds g (id :: rest)) (hnot : ∀ m, ¬ g.Due id m) :
    gen.Closing seeds g rest where
  writes := h.writes
  slotCount := h.slotCount
  sound := h.sound
  prompted i hi := h.prompted i (List.mem_cons_of_mem _ hi)
  due hi hprompted := (List.mem_cons.1 (h.due hi hprompted)).resolve_left fun heq =>
    hnot _ (heq ▸ hi)

/-- What is derived at the first node of the worklist lies in the closure. -/
theorem mem_closure (h : gen.Closing seeds g (id :: rest)) (hn : g.graph.get? id = some n)
    (hplain : n.isTarget = false) (hopen : g.distance id = .ok .unknown)
    (hd : g.derived id n = .ok d) (hknown : d.isKnown = true) : (id, d) ∈ gen.closure seeds :=
  Generation.mem_closure.2 ⟨n, h.writes.graph ▸ hn, hplain, h.writes.unknown hopen,
    h.prompted id List.mem_cons_self, (yields_of_derived h.writes hd hknown).mono h.sound⟩

/-- **After a write, the neighbours that it prompts are on the worklist.** -/
theorem write (h : gen.Closing seeds g (id :: rest)) (hwf : gen.graph.WellFormed)
    (hn : g.graph.get? id = some n) (hmem : (id, d) ∈ gen.closure seeds)
    (hset : g.setDistance id d = .ok mid) (hwaiting : mid.unsettled n.covered = .ok waiting) :
    gen.Closing seeds mid (n.parent.toList ++ rest ++ waiting) := by
  have hwrites := DistanceWrites.of_setDistance hset
  have hgraph : gen.graph.get? id = some n := h.writes.graph ▸ hn
  refine ⟨h.writes.trans hwrites, ?_, fun p hp => ?_, fun i hi => ?_, fun {i m} hi hprompted => ?_⟩
  · exact (slotCount_of_setDistance hset).trans h.slotCount
  · obtain rfl | hp := assigned_of_setDistance hset hp
    · exact hmem
    · exact h.sound hp
  · simp only [List.mem_append, Option.mem_toList] at hi
    rcases hi with (hi | hi) | hi
    · exact .parent hmem hgraph hi
    · exact h.prompted i (List.mem_cons_of_mem _ hi)
    · exact .covered hmem hgraph ((mem_filterM hwaiting i).1 hi).1
  · have hne := hi.ne_of_setDistance hset
    simp only [List.mem_append, Option.mem_toList]
    have hcovered : i ∈ n.covered → i ∈ waiting := fun hcovered =>
      mem_unsettled hwaiting hcovered hi.unknown
    obtain hdue | hi' | ⟨hparent, -⟩ := hi.of_setDistance (h.writes.graph ▸ hwf) hn hset
    · -- it was due before; either it was prompted before, or this write prompts it
      have hbefore : gen.Prompted seeds (gen.assigned g) i → i ∈ rest := fun hprompted =>
        (List.mem_cons.1 (h.due hdue hprompted)).resolve_left hne
      cases hprompted with
      | seed hi => exact .inl (.inr (hbefore (.seed hi)))
      | parent hc hm hparent =>
        obtain heq | hc := assigned_of_setDistance hset hc
        · cases heq
          obtain rfl := Option.some.inj (hgraph.symm.trans hm)
          exact .inl (.inl hparent)
        · exact .inl (.inr (hbefore (.parent hc hm hparent)))
      | covered hc hm hi =>
        obtain heq | hc := assigned_of_setDistance hset hc
        · cases heq
          obtain rfl := Option.some.inj (hgraph.symm.trans hm)
          exact .inr (hcovered hi)
        · exact .inl (.inr (hbefore (.covered hc hm hi)))
    · exact .inr (hcovered hi')
    · exact .inl (.inl hparent)

/-- **Once the worklist is empty, the closure has been assigned.** -/
theorem assigned_eq (h : gen.Closing seeds g []) : gen.assigned g = gen.closure seeds := by
  refine h.sound.antisymm (closure_subset fun {id n d} hid => ?_)
  have hmem : (id, d) ∈ gen.closure seeds := Generation.mem_closure.2
    ⟨n, hid.node, hid.plain, hid.unknown, hid.prompted.mono h.sound, hid.yields.mono h.sound⟩
  obtain ⟨e, he⟩ : ∃ e, g.distance id = .ok e := by
    obtain ⟨k, hk, -⟩ := Generation.distance_eq_ok.1 hid.unknown
    obtain ⟨hnone, -⟩ | ⟨_, e, -, he, -⟩ := h.writes.searchNode id
    · simp [hk] at hnone
    · exact ⟨e, Generation.distance_eq_ok.2 ⟨_, he, rfl⟩⟩
  cases hknown : e.isKnown with
  | true =>
    have hassigned : (id, e) ∈ gen.assigned g := ⟨hid.unknown, he, hknown⟩
    obtain rfl := closure_unique hmem (h.sound hassigned)
    exact hassigned
  | false =>
    -- the distance would still be due, and the worklist would hold the node
    obtain rfl := Distance.eq_unknown_of_not_isKnown hknown
    exact absurd (h.due ⟨h.writes.graph.symm ▸ hid.node, hid.plain, he, hid.yields.follows h.writes⟩
      hid.prompted) List.not_mem_nil

end Closing

/-! ## Deriving distances -/

/-- A node that is assigned nothing keeps its search node. -/
theorem DistanceWrites.searchNode_eq (h : DistanceWrites gen gen')
    (hnone : ∀ d, (i, d) ∉ gen.assigned gen') :
    gen'.searchNodes.get? i = gen.searchNodes.get? i := by
  obtain ⟨hi, hi'⟩ | ⟨k, d, hk, hk', rfl | ⟨hunknown, -⟩⟩ := h.searchNode i
  · rw [hi, hi']
  · rw [hk, hk']
  · cases hknown : d.isKnown with
    | false =>
      obtain rfl := Distance.eq_unknown_of_not_isKnown hknown
      rw [hk, hk', ← hunknown]
    | true =>
      exact absurd ⟨Generation.distance_eq_ok.2 ⟨k, hk, hunknown⟩,
        Generation.distance_eq_ok.2 ⟨_, hk', rfl⟩, hknown⟩ (hnone d)

/-- Two ways to write distances end in the same, if they assign the same. -/
theorem DistanceWrites.eq_of_assigned (h : DistanceWrites gen gen') (h' : DistanceWrites gen mid)
    (hslots : gen'.searchNodes.slotCount = mid.searchNodes.slotCount)
    (hassigned : gen.assigned gen' = gen.assigned mid) : gen' = mid := by
  have hvalues : ∀ {i e}, (gen'.distance i = .ok e ∧ e.isKnown = true) ↔
      mid.distance i = .ok e ∧ e.isKnown = true := fun {i e} => by
    rw [← valued_assigned h, ← valued_assigned h', hassigned]
  have hsearchNodes : gen'.searchNodes = mid.searchNodes := by
    refine NodeMap.ext_get? hslots fun i => ?_
    obtain ⟨hnone, hi⟩ | ⟨k, d, hk, hi, -⟩ := h.searchNode i
    · obtain ⟨-, hi'⟩ | ⟨_, _, hk, -⟩ := h'.searchNode i
      · rw [hi, hi']
      · simp [hnone] at hk
    · obtain ⟨hnone, -⟩ | ⟨l, e, hl, hi', -⟩ := h'.searchNode i
      · simp [hk] at hnone
      obtain rfl := Option.some.inj (hk.symm.trans hl)
      have hd : gen'.distance i = .ok d := Generation.distance_eq_ok.2 ⟨_, hi, rfl⟩
      have he : mid.distance i = .ok e := Generation.distance_eq_ok.2 ⟨_, hi', rfl⟩
      suffices d = e by rw [hi, hi', this]
      cases hknown : d.isKnown with
      | true => exact Except.ok.inj ((hvalues.1 ⟨hd, hknown⟩).1.symm.trans he)
      | false =>
        cases hknown' : e.isKnown with
        | true => exact Except.ok.inj (hd.symm.trans (hvalues.2 ⟨he, hknown'⟩).1)
        | false =>
          rw [Distance.eq_unknown_of_not_isKnown hknown, Distance.eq_unknown_of_not_isKnown hknown']
  cases gen'
  cases mid
  simp only [Generation.mk.injEq]
  exact ⟨h.graph.trans h'.graph.symm, h.prec.trans h'.prec.symm, hsearchNodes,
    h.attached.trans h'.attached.symm, h.buckets.trans h'.buckets.symm,
    h.provider.trans h'.provider.symm⟩

/-- If no distance of the closure lies below a known heuristic, then deriving assigns the closure. -/
theorem Furnished.exists_deriveFrom_assigned {ids : List NodeId} (h : gen.Furnished)
    (hids : ∀ i ∈ ids, ∃ n, gen.graph.get? i = some n)
    (hbelow : ∀ {i d k}, (i, d) ∈ gen.closure {i | i ∈ ids} → gen.searchNodes.get? i = some k →
      k.heuristic.isKnown = true → k.heuristic.notAbove d = true) :
    ∃ gen', gen.deriveFrom ids = .ok gen' ∧ DistanceWrites gen gen' ∧
      gen'.searchNodes.slotCount = gen.searchNodes.slotCount ∧
      gen.assigned gen' = gen.closure {i | i ∈ ids} := by
  obtain ⟨gen', hrun, hwrites, hlast⟩ := h.exists_deriveFrom
    (motive := fun g rest => gen.Closing {i | i ∈ ids} g rest) Closing.skip
    (fun {g id rest n d} _ hg hn hplain hopen hd hknown => by
      have hmem := hg.mem_closure hn hplain hopen hd hknown
      obtain ⟨k, hk, hunknown⟩ := Generation.distance_eq_ok.1 hopen
      have hfits : k.heuristic.isKnown = true → k.heuristic.notAbove d = true := by
        have hheuristic := hg.writes.heuristic_eq_ok.1 (Generation.heuristic_eq_ok.2 ⟨k, hk, rfl⟩)
        obtain ⟨l, hl, heq⟩ := Generation.heuristic_eq_ok.1 hheuristic
        exact heq ▸ hbelow hmem hl
      obtain ⟨mid, hset⟩ := exists_setDistance hn hk hknown
        (.inr ⟨hunknown, by simp [hplain], hfits⟩)
      exact ⟨mid, hset, fun _ hwaiting => hg.write h.wellFormed hn hmem hset hwaiting⟩)
    hids (.start gen ids)
  exact ⟨gen', hrun, hwrites, hlast.slotCount, hlast.assigned_eq⟩

/-- **Deriving what follows yields the least closure.** In a well-formed generation, provided that no
derived distance lies below a known heuristic, it comes to its end without a fault and assigns exactly
the least set of distances that is closed under the rules. Known distances, targets and everything else
stay as they are. The outcome depends on the set of seeds only. -/
theorem deriveFrom_closure (gen : Generation S P K) (ids : List NodeId)
    (hwf : gen.graph.WellFormed)
    (hregistered : ∀ i n, gen.graph.get? i = some n → ∃ k, gen.searchNodes.get? i = some k)
    (hids : ∀ i ∈ ids, ∃ n, gen.graph.get? i = some n)
    (hbelow : ∀ i d k, (i, d) ∈ gen.closure {i | i ∈ ids} → gen.searchNodes.get? i = some k →
      k.heuristic.isKnown = true → k.heuristic.notAbove d = true) :
    ∃ gen', gen.deriveFrom ids = .ok gen' ∧
      (∀ extra, gen.deriveWithin (ids.length + gen.graph.linkCount + extra) ids = .ok gen') ∧
      gen.assigned gen' = gen.closure {i | i ∈ ids} ∧
      IsLeast {A | ∀ id n d, gen.Entails {i | i ∈ ids} A id n d → (id, d) ∈ A} (gen.assigned gen') ∧
      DistanceWrites gen gen' ∧
      (∀ id d, gen.distance id = .ok d → d.isKnown = true → gen'.distance id = .ok d) ∧
      (∀ id n, gen.graph.get? id = some n → n.isTarget = true →
        gen'.searchNodes.get? id = gen.searchNodes.get? id) ∧
      ∀ ids', (∀ i, i ∈ ids' ↔ i ∈ ids) → gen.deriveFrom ids' = .ok gen' := by
  have hfurnished : gen.Furnished := ⟨hwf, hregistered _ _⟩
  obtain ⟨gen', hrun, hwrites, hslots, hassigned⟩ :=
    hfurnished.exists_deriveFrom_assigned hids (hbelow _ _ _)
  refine ⟨gen', hrun, fun extra => (deriveWithin_linkCount gen ids extra).trans hrun, hassigned, ?_,
    hwrites, fun id d hd hknown => hwrites.distance_eq_ok hd hknown, fun id n hn htarget => ?_,
    fun ids' hsame => ?_⟩
  · rw [hassigned]
    exact ⟨fun id n d h => mem_closure.2 ⟨n, h⟩, fun A hA => closure_subset (hA _ _ _)⟩
  · refine hwrites.searchNode_eq fun d hd => ?_
    obtain ⟨m, hm⟩ := mem_closure.1 (hassigned ▸ hd)
    obtain rfl := Option.some.inj (hn.symm.trans hm.node)
    exact absurd hm.plain (by simp [htarget])
  · have hseeds : {i | i ∈ ids'} = {i | i ∈ ids} := Set.ext hsame
    obtain ⟨gen'', hrun', hwrites', hslots', hassigned'⟩ := hfurnished.exists_deriveFrom_assigned
      (fun i hi => hids i ((hsame i).1 hi)) (hseeds ▸ hbelow _ _ _)
    rw [hrun', hwrites'.eq_of_assigned hwrites (hslots'.trans hslots.symm)
      (by rw [hassigned', hassigned, hseeds])]

/-- An init node above an inner node with a dead leaf and a target, and one that is covered by the inner
node. Only the distance of the target is known. -/
def halfSettled : Generation Unit Unit Unit where
  graph := .after [.createInit () false true, .createSucc 0 () false true, .createSucc 1 () false true,
    .createSucc 1 () true true, .createInit () false true, .setExpanded 0 true, .setExpanded 1 true,
    .setExpanded 2 true, .cover 4 1]
  prec := ()
  searchNodes := ⟨#[some { heuristic := .zero }, some { heuristic := .zero },
    some { heuristic := .zero }, some { heuristic := .zero, distance := .zero },
    some {}]⟩

/-- From the covered node and the dead leaf all distances follow, in either order, also if the covered
node is given twice. -/
theorem deriveFrom_closure_halfSettled :
    ∃ gen', halfSettled.deriveFrom [4, 2] = .ok gen' ∧
      halfSettled.deriveFrom [4, 2, 4] = .ok gen' ∧ halfSettled.deriveFrom [2, 4] = .ok gen' ∧
      (2, .infinite) ∈ halfSettled.closure {i | i ∈ [4, 2]} ∧
      (1, .finite 1) ∈ halfSettled.closure {i | i ∈ [4, 2]} ∧
      (0, .finite 2) ∈ halfSettled.closure {i | i ∈ [4, 2]} ∧
      (4, .finite 1) ∈ halfSettled.closure {i | i ∈ [4, 2]} := by
  have hvalues : (halfSettled.deriveFrom [4, 2]).map (fun gen => [0, 1, 2, 4].map gen.distance) =
      .ok [.ok (.finite 2), .ok (.finite 1), .ok .infinite, .ok (.finite 1)] := by
    decide +kernel
  have hlt : ∀ {i n}, halfSettled.graph.get? i = some n → i < 5 := NodeMap.lt_slotCount_of_get?
  obtain ⟨gen', hrun, -, hassigned, -, -, -, -, hsame⟩ := deriveFrom_closure halfSettled [4, 2]
    (Graph.wellFormed_after _)
    (fun i n hn => Option.isSome_iff_exists.1 <| by
      have := hlt hn
      interval_cases i <;> rfl)
    (by simp only [List.forall_mem_cons]; exact ⟨⟨_, rfl⟩, ⟨_, rfl⟩, List.forall_mem_nil _⟩)
    (fun i d k hd hk hknown => by
      have hzero : k.heuristic = .zero := by
        have hlt : i < 5 := NodeMap.lt_slotCount_of_get? hk
        interval_cases i <;> (cases hk; first | rfl | cases hknown)
      exact hzero ▸ (Distance.drops_zero_iff rfl (isKnown_of_mem_closure hd)).1
        (.zero (isKnown_of_mem_closure hd)))
  rw [hrun] at hvalues
  simp only [Except.map, List.map_cons, List.map_nil, Except.ok.injEq, List.cons.injEq] at hvalues
  obtain ⟨h0, h1, h2, h4, -⟩ := hvalues
  rw [← hassigned]
  exact ⟨gen', hrun, hsame _ (fun i => by simp only [List.mem_cons]; tauto),
    hsame _ (fun i => by simp only [List.mem_cons]; tauto),
    ⟨rfl, h2, rfl⟩, ⟨rfl, h1, rfl⟩, ⟨rfl, h0, rfl⟩, ⟨rfl, h4, rfl⟩⟩

end GuidedReach.Generation
