import GuidedReach.Proofs.Exploration.Solved

/-!
# The generation that goes on

After a check, a reset copy of the solved generation becomes the live one: each node takes its
heuristic from itself in the solved generation. With decreasing heuristics they are computed at once,
and covering edges along which they drop are removed.

* `Exploration.Inherits` — a copy of a solved generation, with some heuristics computed.
* `Exploration.Inherits.hopeless`, `Exploration.Inherits.infinite_child` — infinite heuristics come
  from hopeless nodes of the solved generation, and go on to all children.
* `Exploration.resumeLive_soundAt` — the new live generation is sound, and closed.
-/

namespace GuidedReach.Exploration

open Explore

variable {S P K : Type}

/-- A generation is a copy of the last one of a history, in which some heuristics were computed. -/
structure Inherits (setup : Setup S P K) (history : History S P K) (older : Generation S P K)
    (p : Progress S P K) (gen : Generation S P K) : Prop where
  below : ∀ i < history.length, p.history.get? i = history.get? i
  length : p.history.length = history.length + 1
  held : p.history.get? history.length = some gen
  graph : gen.graph = older.graph
  prec : gen.prec = older.prec
  provider : gen.provider = some (history.length - 1)
  searchNode : ∀ {i k}, gen.searchNodes.get? i = some k →
    (∃ k', older.searchNodes.get? i = some k') ∧ k.provider = some i ∧ k.distance = .unknown ∧
      (k.heuristic.isKnown = true → Source setup p.history gen i k.heuristic)
  registered : ∀ {i k}, older.searchNodes.get? i = some k → ∃ k', gen.searchNodes.get? i = some k'

variable {setup : Setup S P K} {history history' : History S P K} {older gen gen' : Generation S P K}
variable {p q : Progress S P K} {id : NodeId} {d : Distance} {allowed : P → Prop} {dead : S → Prop}

/-- A heuristic comes from the same source after others were computed. -/
theorem Source.setHeuristic {i : NodeId} {v : Distance} (h : Source setup history gen i v)
    (hset : gen.setHeuristic id d = .ok gen')
    (hframe : ∀ below, gen.provider = some below → history'.get? below = history.get? below) :
    Source setup history' gen' i v := by
  obtain ⟨-, k, -, hk, -, hrewrites, -⟩ := Generation.setHeuristic_ok hset
  have hkeeps := Generation.keeps_of_setHeuristic hset
  have hgraph := hrewrites.graph
  cases h with
  | target hn htarget => exact .target (hgraph ▸ hn) htarget
  | base hnone => exact .base (hrewrites.provider.trans hnone)
  | @provider below older k' provider _ hbelow holder hk' hprovider hd hknown =>
    have hprovider' : ∃ k'', gen'.searchNodes.get? i = some k'' ∧ k''.provider = some provider := by
      rw [hrewrites.get?]
      split
      · rename_i heq
        obtain rfl := Option.some.inj (hk.symm.trans (heq ▸ hk'))
        exact ⟨_, rfl, hprovider⟩
      · exact ⟨k', hk', hprovider⟩
    obtain ⟨k'', hk'', hprovider'⟩ := hprovider'
    exact .provider (hrewrites.provider.trans hbelow) ((hframe below hbelow).trans holder) hk''
      hprovider' hd hknown
  | root hdecreasing hn hroot => exact .root hdecreasing (hgraph ▸ hn) hroot
  | parent hdecreasing hn hparent hfinite =>
    exact .parent hdecreasing (hgraph ▸ hn) hparent (hkeeps.heuristic hfinite rfl)
  | refutedParent hdecreasing hn hparent hinfinite =>
    exact .refutedParent hdecreasing (hgraph ▸ hn) hparent (hkeeps.heuristic hinfinite rfl)

namespace Inherits

/-- The reset copy itself. -/
theorem of_resetOnto {stats : Stats} :
    Inherits setup history older
      { history := history.push (older.resetOnto (history.length - 1)), stats }
      (older.resetOnto (history.length - 1)) where
  below i hi := by rw [History.get?_push, if_neg (by omega)]
  length := History.length_push _ _
  held := by rw [History.get?_push, if_pos rfl]
  graph := rfl
  prec := rfl
  provider := rfl
  searchNode hk := by
    obtain ⟨rfl, hold⟩ := Generation.exists_of_resetOnto hk
    exact ⟨hold, rfl, rfl, by simp [Distance.isKnown]⟩
  registered hk := ⟨_, Generation.get?_resetOnto _ hk⟩

theorem setHeuristic (hp : Inherits setup history older p gen) (hpos : 0 < history.length)
    (hsource : Source setup p.history gen id d) (hset : gen.setHeuristic id d = .ok gen') :
    Inherits setup history older (p.put history.length gen') gen' := by
  obtain ⟨-, k, -, hk, -, hrewrites, -⟩ := Generation.setHeuristic_ok hset
  have hframe : ∀ below, gen.provider = some below →
      (p.put history.length gen').history.get? below = p.history.get? below := by
    intro below hbelow
    rw [hp.provider] at hbelow
    obtain rfl := Option.some.inj hbelow
    exact Progress.get?_put_of_ne (by omega)
  refine ⟨fun i hi => (Progress.get?_put_of_ne (Nat.ne_of_lt hi)).trans (hp.below i hi),
    Progress.length_put.trans hp.length, Progress.get?_put_self hp.held,
    hrewrites.graph.trans hp.graph, hrewrites.prec.trans hp.prec,
    hrewrites.provider.trans hp.provider, fun {i k'} hk' => ?_, fun {i k'} hk' => ?_⟩
  · rw [hrewrites.get?] at hk'
    split at hk'
    · rename_i heq
      obtain rfl := Option.some.inj hk'
      obtain ⟨hold, hprovider, hdistance, -⟩ := hp.searchNode hk
      exact ⟨heq ▸ hold, heq ▸ hprovider, hdistance, fun _ => heq ▸ hsource.setHeuristic hset hframe⟩
    · obtain ⟨hold, hprovider, hdistance, hsource'⟩ := hp.searchNode hk'
      exact ⟨hold, hprovider, hdistance, fun hknown => (hsource' hknown).setHeuristic hset hframe⟩
  · obtain ⟨k'', hk''⟩ := hp.registered hk'
    rw [hrewrites.get?]
    split
    · exact ⟨_, rfl⟩
    · exact ⟨k'', hk''⟩

theorem distance_eq_unknown (hp : Inherits setup history older p gen) {i : NodeId} {d : Distance}
    (hd : gen.distance i = .ok d) : d = .unknown := by
  obtain ⟨k, hk, rfl⟩ := Generation.distance_eq_ok.1 hd
  exact (hp.searchNode hk).2.2.1

/-- Where a known heuristic comes from. -/
theorem source (hp : Inherits setup history older p gen) {i : NodeId} {d : Distance}
    (hd : gen.heuristic i = .ok d) (hknown : d.isKnown = true) :
    Source setup p.history gen i d := by
  obtain ⟨k, hk, rfl⟩ := Generation.heuristic_eq_ok.1 hd
  exact (hp.searchNode hk).2.2.2 hknown

/-- What a node takes over from the solved generation is its own distance there. -/
theorem distance_of_provider (hp : Inherits setup history older p gen)
    (holder : history.get? (history.length - 1) = some older) (hpos : 0 < history.length)
    {i provider : NodeId} {below : Nat} {older' : Generation S P K} {k : SearchNode} {d : Distance}
    (hbelow : gen.provider = some below) (holder' : p.history.get? below = some older')
    (hk : gen.searchNodes.get? i = some k) (hprovider : k.provider = some provider)
    (hd : older'.distance provider = .ok d) : older.distance i = .ok d := by
  rw [hp.provider] at hbelow
  obtain rfl := Option.some.inj hbelow
  obtain rfl := Option.some.inj
    (holder'.symm.trans ((hp.below (history.length - 1) (by omega)).trans holder))
  obtain rfl := Option.some.inj (hprovider.symm.trans (hp.searchNode hk).2.1)
  exact hd

section

variable (hp : Inherits setup history older p gen) (hpos : 0 < history.length)
variable (holder : history.get? (history.length - 1) = some older)
variable (hwf : older.graph.WellFormed)
variable (hclosed : Closed .decreasing history older)

include hp hpos holder hwf hclosed

/-- An infinite heuristic comes from a hopeless node, by induction on the number of the node. -/
theorem hopeless {i : NodeId} (hi : gen.heuristic i = .ok .infinite) : older.Hopeless i := by
  induction i using Nat.strongRecOn with
  | ind i ih =>
    generalize hvalue : Distance.infinite = value at hi
    cases hp.source hi (by rw [← hvalue]; rfl) with
    | provider hbelow holder' hk hprovider hd _ =>
      exact .inr (hvalue ▸ hp.distance_of_provider holder hpos hbelow holder' hk hprovider hd)
    | refutedParent _ hn hparent hinfinite =>
      rw [hp.graph] at hn
      have habove := ih _ (hwf.parent_link hn hparent).1 hinfinite
      obtain hhopeless | ⟨hfull, -⟩ := hclosed.child hn hparent (.inl habove)
      · exact hhopeless
      · simp at hfull
    | _ => simp [Distance.zero] at hvalue

variable (htarget : ∀ {i n}, older.Hopeless i → older.graph.get? i = some n → n.isTarget = false)
variable (hadmissible : ∀ i k, older.searchNodes.get? i = some k → k.Admissible)

include htarget hadmissible

/-- Infinite heuristics go on to all children whose heuristics are computed. -/
theorem infinite_child {i parent : NodeId} {n : Node S} (hn : older.graph.get? i = some n)
    (hparent : n.parent = some parent) (habove : gen.heuristic parent = .ok .infinite)
    (hd : gen.heuristic i = .ok d) (hknown : d.isKnown = true) : d = .infinite := by
  have hhopeless : older.Hopeless i := by
    obtain hhopeless | ⟨hfull, -⟩ := hclosed.child hn hparent
      (.inl (hp.hopeless hpos holder hwf hclosed habove))
    · exact hhopeless
    · simp at hfull
  have hn' : gen.graph.get? i = some n := hp.graph ▸ hn
  cases hp.source hd hknown with
  | target hm ht =>
    obtain rfl := Option.some.inj (hn'.symm.trans hm)
    simp [htarget hhopeless hn] at ht
  | base hnone => simp [hp.provider] at hnone
  | provider hbelow holder' hk hprovider hd' _ =>
    have hd'' := hp.distance_of_provider holder hpos hbelow holder' hk hprovider hd'
    obtain hinfinite | hinfinite := hhopeless
    · -- the distance there is not below the heuristic
      obtain ⟨k', hk', rfl⟩ := Generation.distance_eq_ok.1 hd''
      obtain ⟨k'', hk'', hheuristic⟩ := Generation.heuristic_eq_ok.1 hinfinite
      obtain rfl := Option.some.inj (hk'.symm.trans hk'')
      have := (hadmissible i k' hk').not_isFinite hheuristic
      cases hdistance : k'.distance <;> simp_all [Distance.isFinite, Distance.isKnown]
    · exact (Except.ok.inj (hinfinite.symm.trans hd'')).symm
  | root _ hm hroot =>
    obtain rfl := Option.some.inj (hn'.symm.trans hm)
    simp [hparent] at hroot
  | parent _ hm hparent' hfinite =>
    obtain rfl := Option.some.inj (hn'.symm.trans hm)
    obtain rfl := Option.some.inj (hparent.symm.trans hparent')
    simp [habove] at hfinite
  | refutedParent => rfl

end

end Inherits

/-! ## Computing all heuristics -/

section

variable (hhistory : history.Faithful setup.analysis allowed)
variable (holder : history.get? (history.length - 1) = some older)

include hhistory holder

theorem Inherits.faithful (hp : Inherits setup history older p gen) :
    p.history.Faithful setup.analysis allowed := by
  obtain ⟨hgraph, hprec⟩ := hhistory _ older holder
  exact hhistory.of_last hp.below hp.length hp.held (hp.graph ▸ hgraph) (hp.prec ▸ hprec)

theorem forM_ensureHeuristic_inherits [DecidableEq S] [DecidableEq K] (hpos : 0 < history.length)
    (hsearch : setup.search ≠ .semiOnDemand) {ids : List NodeId} {u : Unit}
    (hbelow : (below setup history.length).Lawful setup allowed history.length)
    (hp : Inherits setup history older p gen)
    (h : (ids.forM fun id => do
      let _ ← ensureHeuristic setup (below setup history.length) history.length id).run p =
        .ok (u, q)) :
    ∃ gen', Inherits setup history older q gen' ∧ gen.Keeps gen' ∧
      ∀ id ∈ ids, ∃ d, gen'.heuristic id = .ok d ∧ d.isKnown = true := by
  induction ids generalizing p gen with
  | nil =>
    obtain ⟨-, rfl⟩ : () = u ∧ p = q := run_pure_ok.1 h
    exact ⟨gen, hp, .refl gen, by simp⟩
  | cons id ids ih =>
    obtain ⟨r, hfirst, hrest⟩ := run_forM_cons_ok.1 h
    obtain ⟨d, r', hensure, hend⟩ := run_bind_ok.1 hfirst
    obtain ⟨-, rfl⟩ := run_pure_ok.1 hend
    have hstep : ∃ gen₁, Inherits setup history older r' gen₁ ∧ gen.Keeps gen₁ ∧
        gen₁.heuristic id = .ok d ∧ d.isKnown = true := by
      obtain ⟨mid, -, hsame, -, hknown, ⟨rfl, hd⟩ | ⟨gen₁, hsource, hset, rfl⟩⟩ :=
        ensureHeuristic_cases hbelow (hp.faithful hhistory holder) hp.held hensure
      · obtain rfl := hsame hsearch
        exact ⟨gen, hp, .refl gen, hd, hknown⟩
      · obtain rfl := hsame hsearch
        obtain ⟨-, k, -, -, -, hrewrites, -⟩ := Generation.setHeuristic_ok hset
        exact ⟨gen₁, hp.setHeuristic hpos hsource hset, Generation.keeps_of_setHeuristic hset,
          Generation.heuristic_eq_ok.2 ⟨_, by rw [hrewrites.get?, if_pos rfl], rfl⟩, hknown⟩
    obtain ⟨gen₁, hp₁, hkept, hd, hknown⟩ := hstep
    obtain ⟨gen', hq, hkept', hall⟩ := ih hp₁ hrest
    exact ⟨gen', hq, hkept.trans hkept',
      List.forall_mem_cons.2 ⟨⟨d, hkept'.heuristic hd hknown, hknown⟩, hall⟩⟩

end

/-! ## Removing covering edges -/

/-- Some covering edges of a generation were removed, and along those that are left at the given
nodes the heuristic does not drop. -/
structure Loosened (index : Nat) (p : Progress S P K) (gen : Generation S P K) (ids : List NodeId)
    (q : Progress S P K) (graph : Graph S) : Prop where
  held : q.history.get? index = some { gen with graph }
  frame : ∀ i, i ≠ index → q.history.get? i = p.history.get? i
  length : q.history.length = p.history.length
  remains : gen.graph.Remains graph
  node : ∀ {i n}, gen.graph.get? i = some n →
    ∃ n', graph.get? i = some n' ∧ n'.state = n.state ∧ n'.isTarget = n.isTarget
  consistent : ∀ {i n c}, i ∈ ids → graph.get? i = some n → n.covering = some c →
    ∃ above below, gen.heuristic i = .ok above ∧ gen.heuristic c = .ok below ∧
      below.isKnown = true ∧ above.notAbove below = true

variable {index : Nat}

theorem Loosened.nil (hgen : p.history.get? index = some gen) :
    Loosened index p gen [] p gen.graph :=
  ⟨hgen, fun _ _ => rfl, rfl, .refl _, fun hn => ⟨_, hn, rfl, rfl⟩, by simp⟩

/-- First one node, then the others: what holds of the edge of the first goes on holding. -/
theorem Loosened.cons {r : Progress S P K} {graph graph' : Graph S} {ids : List NodeId}
    (h : Loosened index p gen [id] q graph)
    (h' : Loosened index q { gen with graph } ids r graph') :
    Loosened index p gen (id :: ids) r graph' := by
  refine ⟨h'.held, fun i hi => (h'.frame i hi).trans (h.frame i hi), h'.length.trans h.length,
    h.remains.trans h'.remains, fun hn => ?_, fun {i n c} hi hn hcov => ?_⟩
  · obtain ⟨n', hn', hstate, htarget⟩ := h.node hn
    obtain ⟨n'', hn'', hstate', htarget'⟩ := h'.node hn'
    exact ⟨n'', hn'', hstate'.trans hstate, htarget'.trans htarget⟩
  · obtain rfl | hi := List.mem_cons.1 hi
    · obtain ⟨n', hn', -, -, -, hcov'⟩ := h'.remains.node hn
      exact h.consistent (by simp) hn' (hcov' c hcov)
    · exact h'.consistent hi hn hcov

section

variable (hknown : ∀ {i n}, gen.graph.get? i = some n →
  ∃ d, gen.heuristic i = .ok d ∧ d.isKnown = true)

include hknown

/-- The covering edge of one node, if there is one: it is removed if the heuristic drops. -/
theorem loosen_ok (hgen : p.history.get? index = some gen)
    (hfaithful : gen.graph.Faithful setup.analysis allowed) {u : Unit}
    (h : (loosen index id).run p = .ok (u, q)) :
    ∃ graph, Loosened index p gen [id] q graph ∧ graph.Faithful setup.analysis allowed := by
  simp only [loosen, run_bind_ok, run_generation_ok, run_lift_ok, Graph.node_eq_ok] at h
  obtain ⟨_, _, ⟨hgen', rfl⟩, n, _, ⟨hn, rfl⟩, h⟩ := h
  obtain rfl := Option.some.inj (hgen.symm.trans hgen')
  split at h
  · rename_i coverer hcovering
    simp only [run_bind_ok, run_lift_ok] at h
    obtain ⟨below, _, ⟨hbelow, rfl⟩, above, _, ⟨habove, rfl⟩, drops, _, ⟨hlt, rfl⟩, h⟩ := h
    obtain ⟨-, m, hm, -⟩ := hfaithful.wellFormed.covering_link hn hcovering
    obtain ⟨d, hd, hbelow'⟩ := hknown hm
    obtain rfl := Except.ok.inj (hbelow.symm.trans hd)
    obtain ⟨d, hd, habove'⟩ := hknown hn
    obtain rfl := Except.ok.inj (habove.symm.trans hd)
    rw [Distance.lt_eq_ok hbelow' habove', Except.ok.injEq] at hlt
    split at h
    · simp only [run_editGraph_ok] at h
      obtain ⟨gen', graph, hgen', hrun, rfl⟩ := h
      obtain rfl := Option.some.inj (hgen.symm.trans hgen')
      obtain ⟨-, -, hrewritten⟩ := Graph.uncover_ok hfaithful.wellFormed hrun
      refine ⟨graph, ⟨Progress.get?_put_self hgen, fun i hi => Progress.get?_put_of_ne hi,
        Progress.length_put, .of_uncover hrewritten,
        fun hn => ⟨_, hrewritten.get?_of_get? hn, rfl, rfl⟩, fun {i n c} hi hn' hcov => ?_⟩,
        hfaithful.uncover hrun⟩
      obtain rfl := List.mem_singleton.1 hi
      obtain ⟨n', -, rfl⟩ := hrewritten.exists_of_get? hn'
      simp [Graph.uncoverNode] at hcov
    · obtain ⟨-, rfl⟩ := run_pure_ok.1 h
      refine ⟨gen.graph, ⟨hgen, fun _ _ => rfl, rfl, .refl _, fun hn => ⟨_, hn, rfl, rfl⟩,
        fun {i n c} hi hn' hcov => ?_⟩, hfaithful⟩
      obtain rfl := List.mem_singleton.1 hi
      obtain rfl := Option.some.inj (hn.symm.trans hn')
      obtain rfl := Option.some.inj (hcovering.symm.trans hcov)
      exact ⟨above, below, habove, hbelow, hbelow', by simp_all⟩
  · rename_i hfree
    obtain ⟨-, rfl⟩ := run_pure_ok.1 h
    refine ⟨gen.graph, ⟨hgen, fun _ _ => rfl, rfl, .refl _, fun hn => ⟨_, hn, rfl, rfl⟩,
      fun {i n c} hi hn' hcov => ?_⟩, hfaithful⟩
    obtain rfl := List.mem_singleton.1 hi
    obtain rfl := Option.some.inj (hn.symm.trans hn')
    exact absurd hcov (hfree c)

theorem forM_loosen_ok {ids : List NodeId} (hgen : p.history.get? index = some gen)
    (hfaithful : gen.graph.Faithful setup.analysis allowed) {u : Unit}
    (h : (ids.forM (loosen index)).run p = .ok (u, q)) :
    ∃ graph, Loosened index p gen ids q graph ∧ graph.Faithful setup.analysis allowed := by
  induction ids generalizing p gen with
  | nil =>
    obtain ⟨-, rfl⟩ : () = u ∧ p = q := run_pure_ok.1 h
    exact ⟨gen.graph, .nil hgen, hfaithful⟩
  | cons id ids ih =>
    obtain ⟨r, hfirst, hrest⟩ := run_forM_cons_ok.1 h
    obtain ⟨graph, hloosened, hgraph⟩ := loosen_ok hknown hgen hfaithful hfirst
    obtain ⟨graph', hloosened', hgraph'⟩ := ih
      (fun {i n} hn => by
        obtain ⟨n', hn', -⟩ := hloosened.remains.node hn
        exact hknown hn') hloosened.held hgraph hrest
    exact ⟨graph', hloosened.cons hloosened', hgraph'⟩

end

/-! ## Resuming -/

section

variable (hsolved : Solved setup.analysis setup.search allowed dead (history.length - 1) history)
variable (holder : history.get? (history.length - 1) = some older)

include hsolved holder

/-- A copy is sound if its infinite heuristics are. -/
theorem Inherits.sound (hlaws : setup.analysis.Lawful) (hp : Inherits setup history older p gen)
    (hpos : 0 < history.length)
    (hdead : ∀ {i n}, gen.heuristic i = .ok .infinite → older.graph.get? i = some n → dead n.state) :
    gen.Sound setup.analysis dead history history.length where
  inGraph hk := by
    obtain ⟨⟨k', hk'⟩, -⟩ := hp.searchNode hk
    exact hp.graph ▸ (hsolved.sound.generation _ older holder).inGraph hk'
  provider_lt hbelow := by
    rw [hp.provider] at hbelow
    obtain rfl := Option.some.inj hbelow
    omega
  subsumed hk hq hbelow := by
    rw [hp.provider] at hbelow
    obtain rfl := Option.some.inj hbelow
    obtain ⟨⟨k', hk'⟩, hprovider, -⟩ := hp.searchNode hk
    obtain rfl := Option.some.inj (hprovider.symm.trans hq)
    obtain ⟨n, hn⟩ := (hsolved.sound.generation _ older holder).inGraph hk'
    exact ⟨older, n, n, holder, hn, hp.graph ▸ hn, hlaws.isLeq_refl _⟩
  heuristic hi hn := hdead hi (hp.graph ▸ hn)
  distance hi _ := by simpa using hp.distance_eq_unknown hi
  finite hi := by simpa using hp.distance_eq_unknown hi

omit hsolved in
/-- After an exhaustive search the distances may be taken over. -/
theorem closed_of_sealed (hsealed : Sealed older) (hpos : 0 < history.length) :
    Closed .full (history.push (older.resetOnto (history.length - 1)))
      (older.resetOnto (history.length - 1)) := by
  have hbelow : (history.push (older.resetOnto (history.length - 1))).get? (history.length - 1) =
      some older := by
    rw [History.get?_push, if_neg (by omega), holder]
  have hrefuted : ∀ i, Refuted .full (history.push (older.resetOnto (history.length - 1)))
      (older.resetOnto (history.length - 1)) i ↔ older.distance i = .ok .infinite := by
    intro i
    constructor
    · rintro ((hi | hi) | ⟨-, k, q, below, older', hk, -, hq, hbelow', holder', hd⟩)
      · obtain ⟨k, hk, hd⟩ := Generation.heuristic_eq_ok.1 hi
        simp [(Generation.exists_of_resetOnto hk).1] at hd
      · obtain ⟨k, hk, hd⟩ := Generation.distance_eq_ok.1 hi
        simp [(Generation.exists_of_resetOnto hk).1] at hd
      · obtain rfl : i = q := by simpa [(Generation.exists_of_resetOnto hk).1] using hq
        obtain rfl := Option.some.inj hbelow'
        obtain rfl := Option.some.inj (hbelow.symm.trans holder')
        exact hd
    · intro hi
      obtain ⟨k, hk, -⟩ := Generation.distance_eq_ok.1 hi
      exact .inr ⟨rfl, { provider := some i }, i, _, older, Generation.get?_resetOnto _ hk, rfl, rfl,
        rfl, hbelow, hi⟩
  refine ⟨fun hn hparent hi => ?_, fun hn hcov hi => ?_, fun {i n} hn hi => ?_⟩
  · rw [hrefuted] at hi ⊢
    exact hsealed.child hn hparent hi
  · rw [hrefuted] at hi ⊢
    exact hsealed.coverer hn hcov hi
  · refine hsealed.fresh hn ?_
    obtain hnone | ⟨hdecreasing, -⟩ := hi
    · simpa [Generation.resetOnto, NodeMap.get?_mapWithId] using hnone
    · simp at hdecreasing

variable [DecidableEq S] [DecidableEq K] (hlaws : setup.analysis.Lawful)
variable (hrefutes : setup.analysis.Refutes allowed dead)
variable (hadmissible : ∀ i k, older.searchNodes.get? i = some k → k.Admissible)

include hlaws hrefutes hadmissible

/-- With decreasing heuristics, all of them are computed and none drops along an edge to infinity. -/
theorem resumeDecreasing_soundAt (hpos : 0 < history.length) (hdecreasing : setup.search = .decreasing)
    {r : Progress S P K} (hp : Inherits setup history older p gen) {u v : Unit}
    (hheuristics : (gen.graph.ids.forM fun id => do
      let _ ← ensureHeuristic setup (below setup history.length) history.length id).run p = .ok (u, q))
    (hloosen : (gen.graph.ids.forM (loosen history.length)).run q = .ok (v, r)) :
    SoundAt setup.analysis setup.search allowed dead history.length r.history ∧
      ∃ live, Inherits setup history older q { live with graph := older.graph } ∧
        r.history.get? history.length = some live ∧ older.graph.Remains live.graph ∧
        (∀ i < history.length, r.history.get? i = history.get? i) ∧
        r.history.length = history.length + 1 := by
  obtain ⟨hfaithful, hprec⟩ := hsolved.sound.faithful _ older holder
  have hsound := hsolved.sound.generation _ older holder
  have hclosed : Closed .decreasing history older := hdecreasing ▸ hsolved.decreasing hdecreasing older holder
  obtain ⟨gen', hq, hkept, hall⟩ := forM_ensureHeuristic_inherits hsolved.sound.faithful holder hpos
    (by simp [hdecreasing]) (below_lawful hlaws _) hp hheuristics
  have hgraph : gen'.graph = older.graph := hq.graph
  have hknown : ∀ {i n}, gen'.graph.get? i = some n → ∃ d, gen'.heuristic i = .ok d ∧ d.isKnown = true :=
    fun {i n} hn => hall i (Graph.mem_ids.2 ⟨n, by rw [hp.graph, ← hgraph]; exact hn⟩)
  have hdead : ∀ {i n}, older.Hopeless i → older.graph.get? i = some n → dead n.state :=
    fun hi hn => hi.elim (fun hi => hsound.heuristic hi hn) fun hi => hsound.distance hi hn
  have htarget : ∀ {i n}, older.Hopeless i → older.graph.get? i = some n → n.isTarget = false :=
    fun hi hn => (hfaithful.isTarget hn).trans (hrefutes.not_isTarget (hdead hi hn))
  have hsound' := hq.sound hsolved holder hlaws hpos fun hi hn =>
    hdead (hq.hopeless hpos holder hfaithful.wellFormed hclosed hi) hn
  obtain ⟨graph, hloosened, hfaithful'⟩ := forM_loosen_ok hknown hq.held (hgraph ▸ hfaithful) hloosen
  have hbelow : ∀ i < history.length, r.history.get? i = history.get? i := fun i hi =>
    (hloosened.frame i (Nat.ne_of_lt hi)).trans (hq.below i hi)
  have hlength : r.history.length = history.length + 1 := hloosened.length.trans hq.length
  refine ⟨⟨hsolved.sound.of_last hbelow hlength hloosened.held hfaithful' (hq.prec ▸ hprec)
    (hsound'.of_graph hloosened.node), fun _ live hlive => ?_⟩, _, ?_, hloosened.held,
    hgraph ▸ hloosened.remains, hbelow, hlength⟩
  · obtain rfl := Option.some.inj (hloosened.held.symm.trans hlive)
    rw [hdecreasing]
    -- a refuted node has an infinite heuristic
    have hrefuted : ∀ {i}, Refuted .decreasing r.history { gen' with graph } i →
        gen'.heuristic i = .ok .infinite := by
      rintro i ((hi | hi) | ⟨hfull, -⟩)
      · exact hi
      · simpa using hq.distance_eq_unknown hi
      · simp at hfull
    refine ⟨fun {i n parent} hn hparent hi => ?_, fun {i n c} hn hcov hi => ?_, fun {i n} hn hi => ?_⟩
    · obtain ⟨n', hn', -, hparent', -⟩ := hloosened.remains.node hn
      obtain ⟨d, hd, hknown'⟩ := hknown hn'
      rw [hq.infinite_child hpos holder hfaithful.wellFormed hclosed htarget hadmissible (hgraph ▸ hn')
        (hparent'.symm.trans hparent) (hrefuted hi) hd hknown'] at hd
      exact .inl (.inl hd)
    · obtain ⟨n', hn', -⟩ := hloosened.remains.node hn
      have hids : i ∈ gen.graph.ids := Graph.mem_ids.2 ⟨n', by rw [hp.graph, ← hgraph]; exact hn'⟩
      obtain ⟨above, below, habove, hbelow, hknown', hle⟩ := hloosened.consistent hids hn hcov
      obtain rfl := Except.ok.inj (habove.symm.trans (hrefuted hi))
      rw [Distance.eq_infinite_of_notAbove hknown' hle] at hbelow
      exact .inl (.inl hbelow)
    · obtain ⟨n', hn', -⟩ := hloosened.remains.node hn
      obtain ⟨d, hd, hknown'⟩ := hknown hn'
      exact absurd hi (not_fresh hd hknown')
  · exact hgraph ▸ hq

/-- **The live generation that a check goes on with is sound**, its distances are unknown, and it
takes its heuristics from the solved one. -/
theorem resumeLive_soundAt {stats : Stats}
    (h : (resumeLive setup history.length).run
      { history := history.push (older.resetOnto (history.length - 1)), stats } = .ok ((), q)) :
    SoundAt setup.analysis setup.search allowed dead history.length q.history ∧
      (∀ i < history.length, q.history.get? i = history.get? i) ∧
      q.history.length = history.length + 1 ∧
      ∃ live, q.history.get? history.length = some live ∧ live.provider = some (history.length - 1) ∧
        older.graph.Remains live.graph ∧ ∀ i d, live.distance i = .ok d → d = .unknown := by
  have hpos : 0 < history.length := Nat.lt_of_le_of_lt (Nat.zero_le _) (History.lt_length holder)
  have hp : Inherits setup history older
      { history := history.push (older.resetOnto (history.length - 1)), stats } _ := .of_resetOnto
  unfold resumeLive at h
  split at h
  · rename_i hdecreasing
    obtain ⟨gen, _, hread, h⟩ := run_bind_ok.1 h
    obtain ⟨hgen, rfl⟩ := run_generation_ok.1 hread
    obtain rfl := Option.some.inj (hp.held.symm.trans hgen)
    obtain ⟨_, q', hheuristics, hloosen⟩ := run_bind_ok.1 h
    obtain ⟨hsoundAt, live, hlive, hget, hremains, hbelow, hlength⟩ := resumeDecreasing_soundAt hsolved
      holder hlaws hrefutes hadmissible hpos hdecreasing hp hheuristics hloosen
    exact ⟨hsoundAt, hbelow, hlength, live, hget, hlive.provider, hremains,
      fun i d hd => hlive.distance_eq_unknown hd⟩
  · rename_i hother
    obtain ⟨-, rfl⟩ := run_pure_ok.1 h
    obtain ⟨hfaithful, hprec⟩ := hsolved.sound.faithful _ older holder
    have hsound := hp.sound hsolved holder hlaws hpos fun {i n} hi _ => by
      obtain ⟨k, hk, hd⟩ := Generation.heuristic_eq_ok.1 hi
      simp [(Generation.exists_of_resetOnto hk).1] at hd
    refine ⟨⟨hsolved.sound.of_last hp.below hp.length hp.held hfaithful hprec hsound,
      fun hsearch live hlive => ?_⟩, hp.below, hp.length, _, hp.held, rfl, .refl _,
      fun i d hd => hp.distance_eq_unknown hd⟩
    obtain rfl := Option.some.inj (hp.held.symm.trans hlive)
    have hfull : setup.search = .full := by
      cases hs : setup.search <;> simp_all
    rw [hfull]
    exact closed_of_sealed holder (hsolved.full hfull older holder) hpos

end

end GuidedReach.Exploration
