import GuidedReach.Proofs.Generation.Settles
import GuidedReach.Settle.Exhaustive

/-!
# What an exhaustive search settles

After an exhaustive search the distances are spread backwards from the targets, and what is not met
is infinitely far away.

* `Generation.spreadWithin_ok` — what is met is closed under parents and covered nodes.
* `Generation.spreadWithin_avoids` — it stays out of regions that no target can be reached from.
* `Generation.settleExhaustive_settled`, `Generation.settleExhaustive_infinite`,
  `Generation.settleExhaustive_avoids` — the distances afterwards.
-/

namespace GuidedReach.Generation

variable {S P K : Type} {gen gen' : Generation S P K}

/-! ## Settled nodes -/

/-- Whether a node has a search node with a known distance. -/
def settled (gen : Generation S P K) (id : NodeId) : Bool :=
  (gen.searchNodes.get? id).any (·.distance.isKnown)

theorem settled_iff {id : NodeId} :
    gen.settled id = true ↔ ∃ d, gen.distance id = .ok d ∧ d.isKnown = true := by
  simp [settled, Option.any_eq_true]

theorem isSettled_eq_ok {id : NodeId} {b : Bool} (h : gen.isSettled id = .ok b) :
    gen.settled id = b := by
  simp only [isSettled, bind_eq_ok, distance_eq_ok, pure_eq_ok] at h
  obtain ⟨_, ⟨k, hk, rfl⟩, rfl⟩ := h
  simp [settled, hk]

theorem DistanceWrites.settled (h : DistanceWrites gen gen') {id : NodeId}
    (hid : gen.settled id = true) : gen'.settled id = true := by
  obtain ⟨d, hd, hknown⟩ := settled_iff.1 hid
  exact settled_iff.2 ⟨d, h.distance_eq_ok hd hknown, hknown⟩

/-- Settling a node pays for what it adds to a queue. -/
theorem weightOutside_of_setDistance {mid : Generation S P K} {id : NodeId} {n : Node S}
    {d : Distance} (hn : gen.graph.get? id = some n) (hopen : gen.settled id = false)
    (hset : gen.setDistance id d = .ok mid) :
    mid.graph.weightOutside mid.settled + Graph.linkWeight n ≤
      gen.graph.weightOutside gen.settled := by
  have hwrite := DistanceWrites.of_setDistance hset
  obtain ⟨hid, hknown⟩ := distance_self_of_setDistance hset
  rw [hwrite.graph]
  exact gen.graph.weightOutside_add_le hn hopen (settled_iff.2 ⟨d, hid, hknown⟩)
    fun i hi => hwrite.settled hi

/-! ## Spreading from the targets -/

/-- Whatever waits is settled in the end, and a newly settled node has settled neighbours above. -/
theorem spreadWithin_ok {steps : Nat} {queue : List (NodeId × Nat)}
    (hsteps : queue.length + gen.graph.weightOutside gen.settled ≤ steps)
    (h : gen.spreadWithin steps queue = .ok gen') :
    DistanceWrites gen gen' ∧ (∀ entry ∈ queue, gen'.settled entry.1 = true) ∧
      ∀ {i d}, gen'.distance i = .ok d → gen.distance i = .ok d ∨
        d.isFinite = true ∧ ∃ n, gen.graph.get? i = some n ∧
          (∀ p, n.parent = some p → gen'.settled p = true) ∧
          ∀ x ∈ n.covered, gen'.settled x = true := by
  induction steps generalizing gen queue with
  | zero =>
    obtain rfl : queue = [] := List.length_eq_zero_iff.1 (by omega)
    obtain rfl : gen = gen' := by simpa [spreadWithin] using h
    exact ⟨.refl _, by simp, .inl⟩
  | succ steps ih =>
    cases queue with
    | nil =>
      obtain rfl : gen = gen' := by simpa [spreadWithin] using h
      exact ⟨.refl _, by simp, .inl⟩
    | cons entry rest =>
      obtain ⟨id, distance⟩ := entry
      rw [List.length_cons] at hsteps
      simp only [spreadWithin, bind_eq_ok] at h
      obtain ⟨old, hold, h⟩ := h
      have hold := isSettled_eq_ok hold
      split at h
      · rename_i hsettled
        obtain ⟨hwrites, hall, hnew⟩ := ih (by omega) h
        exact ⟨hwrites, List.forall_mem_cons.2 ⟨hwrites.settled (hold.trans hsettled), hall⟩, hnew⟩
      · rename_i hunsettled
        simp only [bind_eq_ok, Graph.node_eq_ok] at h
        obtain ⟨mid, hset, n, hn, h⟩ := h
        have hwrite := DistanceWrites.of_setDistance hset
        obtain ⟨hid, hknown⟩ := distance_self_of_setDistance hset
        rw [hwrite.graph] at hn
        have hself : mid.settled id = true := settled_iff.2 ⟨_, hid, hknown⟩
        have hpaid := weightOutside_of_setDistance hn (by simp [hold, hunsettled]) hset
        have habove := Graph.length_above_le n
        obtain ⟨hwrites, hall, hnew⟩ := ih (by
          simp only [List.length_append, List.length_map, List.length_reverse]
          omega) h
        refine ⟨hwrite.trans hwrites, List.forall_mem_cons.2 ⟨hwrites.settled hself, fun e he =>
          hall e (by simp [he])⟩, fun {i d} hi => ?_⟩
        obtain hi | ⟨hfinite, m, hm, hrest⟩ := hnew hi
        · obtain ⟨rfl, rfl⟩ | hi := distance_of_setDistance hset hi
          · refine .inr ⟨rfl, n, hn, fun p hp => ?_, fun x hx => ?_⟩
            · exact hall (p, distance + 1) (by simp [hp])
            · exact hall (x, distance) (by simp [hx])
          · exact .inl hi
        · exact .inr ⟨hfinite, m, hwrite.graph ▸ hm, hrest⟩

/-- A region that is closed under children and coverers, and in which nothing waits, is left
alone. -/
theorem spreadWithin_avoids {region : NodeId → Prop} {steps : Nat} {queue : List (NodeId × Nat)}
    (hchild : ∀ {i n p}, gen.graph.get? i = some n → n.parent = some p → region p → region i)
    (hcoverer : ∀ {i n x}, gen.graph.get? i = some n → x ∈ n.covered → region x → region i)
    (hqueue : ∀ entry ∈ queue, ¬ region entry.1)
    (h : gen.spreadWithin steps queue = .ok gen') {i : NodeId} {d : Distance} (hi : region i)
    (hd : gen'.distance i = .ok d) : gen.distance i = .ok d := by
  induction steps generalizing gen queue with
  | zero =>
    obtain rfl : gen = gen' := by simpa [spreadWithin] using h
    exact hd
  | succ steps ih =>
    cases queue with
    | nil =>
      obtain rfl : gen = gen' := by simpa [spreadWithin] using h
      exact hd
    | cons entry rest =>
      obtain ⟨id, distance⟩ := entry
      obtain ⟨hid, hrest⟩ := List.forall_mem_cons.1 hqueue
      simp only [spreadWithin, bind_eq_ok] at h
      obtain ⟨old, -, h⟩ := h
      split at h
      · exact ih hchild hcoverer hrest h
      · simp only [bind_eq_ok, Graph.node_eq_ok] at h
        obtain ⟨mid, hset, n, hn, h⟩ := h
        have hgraph := (DistanceWrites.of_setDistance hset).graph
        rw [hgraph] at hn
        have hmid := ih (by rw [hgraph]; exact hchild) (by rw [hgraph]; exact hcoverer) (by
          intro entry hentry hregion
          rcases List.mem_append.1 hentry with hentry | hentry
          · rcases List.mem_append.1 hentry with hentry | hentry
            · obtain ⟨x, hx, rfl⟩ := List.mem_map.1 hentry
              exact hid (hcoverer hn (List.mem_reverse.1 hx) hregion)
            · exact hrest entry hentry hregion
          · obtain ⟨p, hp, rfl⟩ := List.mem_map.1 hentry
            exact hid (hchild hn (by simpa using hp) hregion)) h
        obtain ⟨rfl, -⟩ | hmid := distance_of_setDistance hset hmid
        · exact absurd hi hid
        · exact hmid

/-! ## What is not met -/

theorem foldlM_setInfinite_ok {ids : List NodeId}
    (h : ids.foldlM (fun gen id => gen.setDistance id .infinite) gen = .ok gen') :
    DistanceWrites gen gen' ∧ (∀ i ∈ ids, gen'.distance i = .ok .infinite) ∧
      ∀ {i d}, gen'.distance i = .ok d → gen.distance i = .ok d ∨ d = .infinite ∧ i ∈ ids := by
  induction ids generalizing gen with
  | nil =>
    obtain rfl := pure_eq_ok.1 h
    exact ⟨.refl _, by simp, .inl⟩
  | cons id ids ih =>
    simp only [List.foldlM_cons, bind_eq_ok] at h
    obtain ⟨mid, hset, h⟩ := h
    have hwrite := DistanceWrites.of_setDistance hset
    obtain ⟨hwrites, hall, hnew⟩ := ih h
    refine ⟨hwrite.trans hwrites, List.forall_mem_cons.2
      ⟨hwrites.distance_eq_ok (distance_self_of_setDistance hset).1 rfl, hall⟩, fun {i d} hi => ?_⟩
    obtain hi | ⟨hd, hi⟩ := hnew hi
    · obtain ⟨rfl, rfl⟩ | hi := distance_of_setDistance hset hi
      · exact .inr ⟨rfl, by simp⟩
      · exact .inl hi
    · exact .inr ⟨hd, by simp [hi]⟩

/-- The entries that the backward search starts with. -/
theorem mem_targets_zero {g : Graph S} {entry : NodeId × Nat} :
    entry ∈ (g.ids.filter (g.test (·.isTarget))).map (·, 0) ↔
      entry.2 = 0 ∧ ∃ n, g.get? entry.1 = some n ∧ n.isTarget = true := by
  simp only [List.mem_map, List.mem_filter, Graph.mem_ids, Graph.test, Option.any_eq_true]
  constructor
  · rintro ⟨i, ⟨-, n, hn, ht⟩, rfl⟩
    exact ⟨rfl, n, hn, ht⟩
  · obtain ⟨i, d⟩ := entry
    rintro ⟨rfl, n, hn, ht⟩
    exact ⟨i, ⟨⟨n, hn⟩, n, hn, ht⟩, rfl⟩

/-- The two halves of an exhaustive settling: spreading, and filling in what was not met. -/
theorem settleExhaustive_halves {run : SearchRun} (h : gen.settleExhaustive run = .ok gen') :
    ∃ (mid : Generation S P K) (queue : List (NodeId × Nat)) (ids : List NodeId),
      (∀ entry, entry ∈ queue ↔
        entry.2 = 0 ∧ ∃ n, gen.graph.get? entry.1 = some n ∧ n.isTarget = true) ∧
      gen.spreadWithin (queue.length + gen.graph.linkCount) queue = .ok mid ∧
      (∀ i, i ∈ ids ↔ (∃ n, mid.graph.get? i = some n) ∧ mid.settled i = false) ∧
      ids.foldlM (fun gen id => gen.setDistance id .infinite) mid = .ok gen' := by
  simp only [settleExhaustive, spreadFromTargets, bind_eq_ok] at h
  obtain ⟨_, -, mid, hspread, ids, hids, h⟩ := h
  refine ⟨mid, (gen.graph.ids.filter (gen.graph.test (·.isTarget))).map (·, 0), ids,
    fun _ => mem_targets_zero, by rwa [← List.length_map] at hspread,
    fun i => ?_, h⟩
  rw [mem_filterM hids, Graph.mem_ids]
  refine and_congr_right fun hn => ?_
  obtain ⟨b, hb⟩ := exists_of_filterM_ok hids i (Graph.mem_ids.2 hn)
  simp only [bind_eq_ok, pure_eq_ok] at hb ⊢
  obtain ⟨s, hs, rfl⟩ := hb
  simp [hs, isSettled_eq_ok hs]

section

variable {run : SearchRun} (h : gen.settleExhaustive run = .ok gen')

include h

theorem settleExhaustive_writes : DistanceWrites gen gen' := by
  obtain ⟨mid, queue, ids, -, hspread, -, hfill⟩ := settleExhaustive_halves h
  exact (spreadWithin_ok (Nat.add_le_add_left (gen.graph.weightOutside_le_linkCount _) _) hspread).1.trans
    (foldlM_setInfinite_ok hfill).1

/-- Every node of the graph is settled. -/
theorem settleExhaustive_settled {i : NodeId} {n : Node S} (hn : gen.graph.get? i = some n) :
    gen'.settled i = true := by
  obtain ⟨mid, queue, ids, -, hspread, hids, hfill⟩ := settleExhaustive_halves h
  have hmid :=
    (spreadWithin_ok (Nat.add_le_add_left (gen.graph.weightOutside_le_linkCount _) _) hspread).1
  obtain ⟨hwrites, hall, -⟩ := foldlM_setInfinite_ok hfill
  cases hs : mid.settled i with
  | true => exact hwrites.settled hs
  | false => exact settled_iff.2 ⟨_, hall i ((hids i).2 ⟨⟨n, hmid.graph ▸ hn⟩, hs⟩), rfl⟩

/-- What became infinitely far away is no target, and whatever is right below it was either at a
finite distance before or is infinitely far away. -/
theorem settleExhaustive_infinite {i : NodeId} (hi : gen'.distance i = .ok .infinite) :
    gen.distance i = .ok .infinite ∨ ∃ n, gen.graph.get? i = some n ∧ n.isTarget = false ∧
      ∀ {c m d}, gen.graph.get? c = some m → m.parent = some i ∨ i ∈ m.covered →
        gen'.distance c = .ok (.finite d) → gen.distance c = .ok (.finite d) := by
  obtain ⟨mid, queue, ids, hqueue, hspread, hids, hfill⟩ := settleExhaustive_halves h
  obtain ⟨hmid, hmet, hnew⟩ :=
    spreadWithin_ok (Nat.add_le_add_left (gen.graph.weightOutside_le_linkCount _) _) hspread
  obtain ⟨hwrites, hall, hold⟩ := foldlM_setInfinite_ok hfill
  obtain hi | ⟨-, hi⟩ := hold hi
  · obtain hi | ⟨hfinite, -⟩ := hnew hi
    · exact .inl hi
    · simp [Distance.isFinite] at hfinite
  · obtain ⟨⟨n, hn⟩, hunmet⟩ := (hids i).1 hi
    rw [hmid.graph] at hn
    refine .inr ⟨n, hn, ?_, fun {c m d} hc hlink hd => ?_⟩
    · cases ht : n.isTarget with
      | false => rfl
      | true => simp [hmet (i, 0) ((hqueue _).2 ⟨rfl, n, hn, ht⟩)] at hunmet
    · obtain hd | ⟨hd, -⟩ := hold hd
      · obtain hd | ⟨-, m', hm', hparent, hcovered⟩ := hnew hd
        · exact hd
        · obtain rfl := Option.some.inj (hc.symm.trans hm')
          obtain hlink | hlink := hlink
          · simp [hparent i hlink] at hunmet
          · simp [hcovered i hlink] at hunmet
      · simp at hd

theorem settleExhaustive_seesTarget (hsees : gen'.SeesTarget) : gen.SeesTarget := by
  obtain ⟨mid, queue, ids, hqueue, hspread, hids, hfill⟩ := settleExhaustive_halves h
  obtain ⟨i, d, hd⟩ | htarget := hsees
  · obtain ⟨-, -, hold⟩ := foldlM_setInfinite_ok hfill
    obtain hd | ⟨hd, -⟩ := hold hd
    · cases queue with
      | nil =>
        -- without targets nothing is spread
        obtain rfl : gen = mid := by
          cases hw : gen.graph.linkCount <;> simpa [hw, spreadWithin] using hspread
        exact .inl ⟨i, d, hd⟩
      | cons entry queue =>
        obtain ⟨-, n, hn, ht⟩ := (hqueue entry).1 (by simp)
        exact .inr ⟨_, n, hn, ht⟩
    · simp at hd
  · exact .inr ((settleExhaustive_writes h).graph ▸ htarget)

/-- A region without targets that is closed under children and coverers gets no finite distances. -/
theorem settleExhaustive_avoids (region : NodeId → Prop)
    (hchild : ∀ {i n p}, gen.graph.get? i = some n → n.parent = some p → region p → region i)
    (hcoverer : ∀ {i n x}, gen.graph.get? i = some n → x ∈ n.covered → region x → region i)
    (htarget : ∀ {i n}, gen.graph.get? i = some n → region i → n.isTarget = false)
    {i : NodeId} {d : Nat} (hi : region i) (hd : gen'.distance i = .ok (.finite d)) :
    gen.distance i = .ok (.finite d) := by
  obtain ⟨mid, queue, ids, hqueue, hspread, hids, hfill⟩ := settleExhaustive_halves h
  obtain ⟨-, -, hold⟩ := foldlM_setInfinite_ok hfill
  obtain hd | ⟨hd, -⟩ := hold hd
  · refine spreadWithin_avoids hchild hcoverer (fun entry hentry hregion => ?_) hspread hi hd
    obtain ⟨-, n, hn, ht⟩ := (hqueue entry).1 hentry
    simp [htarget hn hregion] at ht
  · simp at hd

end

end GuidedReach.Generation
