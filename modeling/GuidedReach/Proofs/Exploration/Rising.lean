import GuidedReach.Proofs.Exploration.Capped
import GuidedReach.Proofs.Generation.Tracked
import GuidedReach.Proofs.Graph.Ancestors

/-!
# Heuristics rise where a branch repeats a state

A node is only expanded when no other one can stand in for it. Its ancestors with the same state
could, unless they promise nearer targets: so from one node of a branch to a later one with the same
state the heuristic rises, and a branch that repeats states cannot go on for ever.

* `Generation.Rises` — a node promises farther targets than all its ancestors with the same state.
* `Generation.Rising` — that is so for all nodes that were expanded since some earlier point.
* `Exploration.Works.rising` — whatever work was done since then.
* `Generation.Rising.depth_le` — so the depth of the nodes that were added is bounded.
-/

namespace GuidedReach

variable {S P K : Type}

namespace Generation

variable {base : Graph S} {gen gen' : Generation S P K} {a i id : NodeId} {n : Node S}

/-! ## Rising heuristics -/

/-- The heuristic of the first node is below that of the second one. -/
def LowerAt (gen : Generation S P K) (a i : NodeId) : Prop :=
  ∃ below above, gen.heuristic a = .ok below ∧ below.isKnown = true ∧
    gen.heuristic i = .ok above ∧ above.isKnown = true ∧ above.notAbove below = false

theorem LowerAt.keeps (h : gen.LowerAt a i) (hkeeps : gen.Keeps gen') : gen'.LowerAt a i := by
  obtain ⟨below, above, ha, hbelow, hi, habove, hlower⟩ := h
  exact ⟨below, above, hkeeps.heuristic ha hbelow, hbelow, hkeeps.heuristic hi habove, habove, hlower⟩

/-- A node has a known heuristic, which is above those of all ancestors with the same state that were
added to an earlier graph. -/
structure Rises (base : Graph S) (gen : Generation S P K) (i : NodeId) : Prop where
  known : ∃ d, gen.heuristic i = .ok d ∧ d.isKnown = true
  lower : ∀ {n a m}, gen.graph.get? i = some n → base.get? a = none → gen.graph.get? a = some m →
    gen.graph.Above a i → m.state = n.state → gen.LowerAt a i

theorem Rises.keeps (h : gen.Rises base i) (hkeeps : gen.Keeps gen') (hwf : gen.graph.WellFormed)
    (hn : gen.graph.get? i = some n) : gen'.Rises base i where
  known := by
    obtain ⟨d, hd, hknown⟩ := h.known
    exact ⟨d, hkeeps.heuristic hd hknown, hknown⟩
  lower := by
    intro n' a m' hn' hnone hm' habove hstate
    have hold := hkeeps.grows.above hwf habove hn
    obtain ⟨-, m, hm, -⟩ := hold.not_leaf hwf
    obtain ⟨n'', hn'', hgrows⟩ := hkeeps.grows.node hn
    obtain rfl := Option.some.inj (hn'.symm.trans hn'')
    obtain ⟨m'', hm'', hgrows'⟩ := hkeeps.grows.node hm
    obtain rfl := Option.some.inj (hm'.symm.trans hm'')
    rw [hgrows.state, hgrows'.state] at hstate
    exact (h.lower hn hnone hm hold hstate).keeps hkeeps

variable [DecidableEq K] {analysis : Analysis S P K} {allowed : P → Prop} {prec : P}

/-- The nodes that were added to an earlier graph are filed under their keys once they have search
nodes, and heuristics rise at those that are expanded. -/
structure Rising (analysis : Analysis S P K) (base : Graph S) (gen : Generation S P K) : Prop where
  filed : ∀ {i k}, base.get? i = none → gen.searchNodes.get? i = some k →
    ∃ n, gen.graph.get? i = some n ∧ i ∈ gen.buckets.find (analysis.key n.state)
  rises : ∀ {i n}, base.get? i = none → gen.graph.get? i = some n → n.isExpanded = true →
    gen.Rises base i

namespace Rising

/-- No node was added yet. -/
theorem start (hheld : ∀ {i k}, gen.searchNodes.get? i = some k → ∃ n, gen.graph.get? i = some n) :
    gen.Rising analysis gen.graph where
  filed hnone hk := by
    obtain ⟨n, hn⟩ := hheld hk
    simp [hnone] at hn
  rises hnone hn := by simp [hnone] at hn

/-- What is kept keeps rising, if heuristics rise at the nodes that are expanded now. -/
theorem of_keeps (h : gen.Rising analysis base) (hkeeps : gen.Keeps gen')
    (hwf : gen.graph.WellFormed) (hbuckets : gen'.buckets = gen.buckets)
    (hheld : ∀ {i k}, gen'.searchNodes.get? i = some k → ∃ k, gen.searchNodes.get? i = some k)
    (hexpanded : ∀ {i n}, base.get? i = none → gen'.graph.get? i = some n → n.isExpanded = true →
      (∃ n, gen.graph.get? i = some n ∧ n.isExpanded = true) ∨ gen.Rises base i ∧
        ∃ n, gen.graph.get? i = some n) : gen'.Rising analysis base where
  filed := by
    intro i k hnone hk
    obtain ⟨k', hk'⟩ := hheld hk
    obtain ⟨n, hn, hfiled⟩ := h.filed hnone hk'
    obtain ⟨n', hn', hgrows⟩ := hkeeps.grows.node hn
    refine ⟨n', hn', ?_⟩
    rw [hbuckets, hgrows.state]
    exact hfiled
  rises := by
    intro i n hnone hn hexp
    rcases hexpanded hnone hn hexp with ⟨n', hn', hexp'⟩ | ⟨hrises, n', hn'⟩
    · exact (h.rises hnone hn' hexp').keeps hkeeps hwf hn'
    · exact hrises.keeps hkeeps hwf hn'

/-- A search node is written anew. -/
theorem of_rewrites (h : gen.Rising analysis base) (hkeeps : gen.Keeps gen')
    (hwf : gen.graph.WellFormed) {k k' : SearchNode} (hk : gen.searchNodes.get? id = some k)
    (hrewrites : gen.Rewrites gen' id k') (hbuckets : gen'.buckets = gen.buckets) :
    gen'.Rising analysis base := by
  refine h.of_keeps hkeeps hwf hbuckets (fun {i l} hl => ?_) fun _ hn hexp => ?_
  · rw [hrewrites.get?] at hl
    split at hl
    · rename_i heq
      exact ⟨k, heq ▸ hk⟩
    · exact ⟨l, hl⟩
  · rw [hrewrites.graph] at hn
    exact .inl ⟨_, hn, hexp⟩

/-- A node gets a search node, and is filed under its key. -/
theorem register (h : gen.Rising analysis base) (hwf : gen.graph.WellFormed) {k : SearchNode}
    (hset : gen.register analysis id k = .ok gen') : gen'.Rising analysis base := by
  have hkeeps := keeps_of_register hset
  obtain ⟨-, -, hrewrites⟩ := register_ok hset
  simp only [Generation.register, bind_eq_ok, Graph.node_eq_ok, pure_eq_ok] at hset
  obtain ⟨n, hn, _, -, rfl⟩ := hset
  constructor
  · intro i l hnone hl
    show ∃ m, gen.graph.get? i = some m ∧
      i ∈ (gen.buckets.file (analysis.key n.state) id).find (analysis.key m.state)
    simp only [Buckets.find_file]
    rw [hrewrites.get?] at hl
    split at hl
    · rename_i heq
      subst heq
      exact ⟨n, hn, by simp⟩
    · obtain ⟨m, hm, hfiled⟩ := h.filed hnone hl
      refine ⟨m, hm, ?_⟩
      split
      · rename_i hkey
        exact List.mem_append_left _ (hkey ▸ hfiled)
      · exact hfiled
  · intro i m hnone hm hexp
    exact (h.rises hnone hm hexp).keeps hkeeps hwf hm

/-- **Where a node is to be expanded, the heuristic has risen.** Its ancestors with the same state
may cover it, so they are candidates that were found unfit. -/
theorem rises_of_uncoverable (h : gen.Rising analysis base) (hlaws : analysis.Lawful)
    (hg : gen.graph.Faithful analysis allowed)
    (hgrown : base.GrownFrom analysis prec gen.graph) (hnew : base.get? id = none)
    (hn : gen.graph.get? id = some n) (hfree : n.covering = none) (hopen : n.isExpanded = false)
    {d : Distance} (hd : gen.heuristic id = .ok d) (hknown : d.isKnown = true)
    (hclosed : gen.Uncoverable analysis id) : gen.Rises base id where
  known := ⟨d, hd, hknown⟩
  lower := by
    intro n' a m hn' hnone hm habove hstate
    obtain rfl := Option.some.inj (hn.symm.trans hn')
    -- the node is a leaf, since it was not expanded since it was added
    have hleaf : n.succs = [] := by
      rw [hgrown.open_succs hn hopen, Graph.succsOf_eq_nil hnew]
    -- its ancestor has children, so it was expanded
    obtain ⟨-, m', hm', hsuccs⟩ := habove.not_leaf hg.wellFormed
    obtain rfl := Option.some.inj (hm.symm.trans hm')
    have hexpanded : m.isExpanded = true := by
      by_contra hnot
      exact hsuccs (by
        rw [hgrown.open_succs hm (by simpa using hnot), Graph.succsOf_eq_nil hnone])
    obtain ⟨e, he, -⟩ := (h.rises hnone hm hexpanded).known
    obtain ⟨k, hk, -⟩ := heuristic_eq_ok.1 he
    obtain ⟨m', hm', hfiled⟩ := h.filed hnone hk
    obtain rfl := Option.some.inj (hm.symm.trans hm')
    have htarget : ∀ b, gen.graph.get? a = some b → n.isTarget = true → b.isTarget = true := by
      intro b hb htarget
      obtain rfl := Option.some.inj (hm.symm.trans hb)
      rwa [hg.isTarget hm, hstate, ← hg.isTarget hn]
    rw [hstate] at hfiled
    obtain ⟨below, hbelow, hknown', hlower⟩ := hclosed hn hfree hopen hleaf hd hfiled
      (hg.mayCover_of_above hlaws habove hm hn hstate) htarget
    exact ⟨below, d, hbelow, hknown', hd, hknown, hlower⟩

end Rising

end Generation

/-! ## Work -/

namespace Exploration

variable [DecidableEq S] [DecidableEq K] {setup : Setup S P K} {index i : Nat}
variable {p q : Progress S P K} {allowed : P → Prop} {base : Graph S} {gen gen' : Generation S P K}

section

variable (hlaws : setup.analysis.Lawful) (hp : p.history.Faithful setup.analysis allowed)

include hlaws hp

/-- A step keeps heuristics rising. -/
theorem Step.rising (h : Step setup index p q) (hgen : p.history.get? i = some gen)
    (hgen' : q.history.get? i = some gen')
    (hgrown : base.GrownFrom setup.analysis gen.prec gen.graph)
    (hrising : gen.Rising setup.analysis base) : gen'.Rising setup.analysis base := by
  obtain ⟨hfaithful, hprec⟩ := hp i gen hgen
  have hwf := hfaithful.wellFormed
  obtain ⟨new, hnew, hkeeps⟩ := (h.keeps hlaws hp).2 i gen hgen
  obtain rfl := Option.some.inj (hgen'.symm.trans hnew)
  by_cases hi : i = index
  swap
  · rw [h.frame hi, hgen] at hgen'
    exact Option.some.inj hgen' ▸ hrising
  subst hi
  have hput : ∀ {new : Generation S P K}, (p.put i new).history.get? i = some gen' → gen' = new := by
    intro new hnew
    rw [Progress.get?_put_self hgen] at hnew
    exact (Option.some.inj hnew).symm
  cases h with
  | count hsame =>
    rw [hsame, hgen] at hgen'
    exact Option.some.inj hgen' ▸ hrising
  | heuristic hold _ hset =>
    obtain rfl := Option.some.inj (hgen.symm.trans hold)
    obtain rfl := hput hgen'
    obtain ⟨_, k, -, hk, -, hrewrites, -⟩ := Generation.setHeuristic_ok hset
    exact hrising.of_rewrites hkeeps hwf hk hrewrites (Generation.buckets_of_setHeuristic hset)
  | provider hold _ _ _ _ _ _ _ hset =>
    obtain rfl := Option.some.inj (hgen.symm.trans hold)
    obtain rfl := hput hgen'
    obtain ⟨k, hk, hrewrites⟩ := Generation.setProvider_ok hset
    obtain ⟨_, _, -, -, -, hbuckets⟩ := Generation.editSearchNode_ok hset
    exact hrising.of_rewrites hkeeps hwf hk hrewrites hbuckets
  | register hold _ hset =>
    obtain rfl := Option.some.inj (hgen.symm.trans hold)
    obtain rfl := hput hgen'
    exact hrising.register hwf hset
  | cover hold _ _ _ _ _ _ _ _ _ _ _ _ hrun =>
    obtain rfl := Option.some.inj (hgen.symm.trans hold)
    obtain rfl := hput hgen'
    obtain ⟨-, _, _, -, -, -, -, hrewritten⟩ := Graph.cover_ok hwf hrun
    refine hrising.of_keeps hkeeps hwf rfl (fun hk => ⟨_, hk⟩) fun _ hn hexp => .inl ?_
    obtain ⟨m, hm, rfl⟩ := hrewritten.exists_of_get? hn
    exact ⟨m, hm, hexp⟩
  | seed hold hopen hrun =>
    obtain rfl := Option.some.inj (hgen.symm.trans hold)
    obtain rfl := hput hgen'
    obtain ⟨-, hadded, -⟩ := Graph.seed_ok hfaithful hopen hprec hrun
    exact hrising.of_keeps hkeeps hwf rfl (fun hk => ⟨_, hk⟩) fun _ hn hexp =>
      .inl (hadded.exists_of_isExpanded hn hexp (by simp))
  | @expand _ _ id n d _ hold hn hfree hopen hfeasible hd hknown _ hclosed hrun =>
    obtain rfl := Option.some.inj (hgen.symm.trans hold)
    obtain rfl := hput hgen'
    have hfeasible := hfeasible.elim (hfaithful.isFeasible_of_isTarget hlaws hn) fun h => h
    obtain ⟨-, hadded, -⟩ := Graph.expand_ok hfaithful hprec hn hfree hfeasible hopen hrun
    refine hrising.of_keeps hkeeps hwf rfl (fun hk => ⟨_, hk⟩) fun {j m} hnone hm hexp => ?_
    by_cases hj : j = id
    · -- the node that is expanded
      subst hj
      exact .inr ⟨hrising.rises_of_uncoverable hlaws hfaithful hgrown hnone hn hfree hopen hd hknown
        hclosed, n, hn⟩
    · exact .inl (hadded.exists_of_isExpanded hm hexp (by simpa using hj))

omit [DecidableEq S] hlaws in
/-- Settling keeps heuristics rising. -/
theorem Settle.rising (h : Settle setup index p q) (hgen : p.history.get? i = some gen)
    (hgen' : q.history.get? i = some gen') (hrising : gen.Rising setup.analysis base) :
    gen'.Rising setup.analysis base := by
  have hwrites := h.writes hgen hgen'
  refine hrising.of_keeps (.of_distanceWrites hwrites) (hp i gen hgen).1.wellFormed hwrites.buckets
    (fun {j k} hk => ?_) fun _ hn hexp => .inl ?_
  · rcases hwrites.searchNode j with ⟨-, hnone⟩ | ⟨k', _, hk', -, -⟩
    · simp [hnone] at hk
    · exact ⟨k', hk'⟩
  · rw [hwrites.graph] at hn
    exact ⟨_, hn, hexp⟩

/-- **Heuristics rise, whatever work is done**: along every branch that was added to the graph of a
generation they rise from one expanded node to the next one with the same state. -/
theorem Works.rising (h : Works setup p q)
    (hheld : ∀ {j k}, gen.searchNodes.get? j = some k → ∃ n, gen.graph.get? j = some n)
    (hgen : p.history.get? i = some gen) (hgen' : q.history.get? i = some gen') :
    gen'.Rising setup.analysis gen.graph := by
  induction h generalizing gen' with
  | refl =>
    obtain rfl := Option.some.inj (hgen.symm.trans hgen')
    exact .start hheld
  | tail hbefore hlast ih =>
    obtain ⟨hfaithful, hkeeps⟩ := Works.keeps hlaws hp hbefore
    obtain ⟨mid, hmid, hkept⟩ := hkeeps i gen hgen
    have hgrown := Works.grownFrom hlaws hp hbefore hgen hmid
    obtain ⟨_, hstep | hsettle⟩ := hlast
    · rw [← hkept.prec] at hgrown
      exact hstep.rising hlaws hfaithful hmid hgen' hgrown (ih hmid)
    · exact hsettle.rising hfaithful hmid hgen' (ih hmid)

end

end Exploration

/-! ## How deep a branch can get -/

namespace Generation.Rising

variable {base : Graph S} {gen : Generation S P K} {i : NodeId} {n : Node S} {prec : P}
variable [DecidableEq K] {analysis : Analysis S P K} {allowed : P → Prop} {height cap : Nat}

/-- The states and heuristics of the ancestors that were added are pairwise different. The induction
is on the number of the node. -/
theorem exists_keys (h : gen.Rising analysis base) (hwf : gen.graph.WellFormed)
    (hgrown : base.GrownFrom analysis prec gen.graph)
    (hheight : ∀ {i n}, base.get? i = some n → n.depth ≤ height)
    (hn : gen.graph.get? i = some n) :
    ∃ keys : List (S × Distance), keys.Nodup ∧ n.depth ≤ height + 1 + keys.length ∧
      ∀ key ∈ keys, ∃ a m, base.get? a = none ∧ gen.graph.get? a = some m ∧ gen.graph.Above a i ∧
        m.state = key.1 ∧ gen.heuristic a = .ok key.2 ∧ key.2.isKnown = true := by
  induction i using Nat.strongRecOn generalizing n with
  | ind i ih =>
    cases hold : base.get? i with
    | some n₀ =>
      obtain ⟨n', hn', hgrows⟩ := hgrown.grows.node hold
      obtain rfl := Option.some.inj (hn.symm.trans hn')
      have hle := hheight hold
      refine ⟨[], List.nodup_nil, ?_, by simp⟩
      rw [hgrows.depth]
      omega
    | none =>
      cases hparent : n.parent with
      | none =>
        refine ⟨[], List.nodup_nil, ?_, by simp⟩
        rw [(hwf.init_link hn hparent).2]
        omega
      | some p =>
        obtain ⟨hlt, m, hm, hdepth, hcount⟩ := hwf.parent_link hn hparent
        have hisParent : gen.graph.IsParent p i := ⟨n, hn, hparent⟩
        cases hp : base.get? p with
        | some m₀ =>
          obtain ⟨m', hm', hgrows⟩ := hgrown.grows.node hp
          obtain rfl := Option.some.inj (hm.symm.trans hm')
          have hle := hheight hp
          refine ⟨[], List.nodup_nil, ?_, by simp⟩
          rw [hdepth, hgrows.depth]
          simp only [List.length_nil]
          omega
        | none =>
          -- the parent was expanded since it was added, so its heuristic has risen
          have hmem : i ∈ m.succs := (hwf.mem_succs_iff hm hn).2 hparent
          have hexpanded : m.isExpanded = true := by
            by_contra hnot
            rw [hgrown.open_succs hm (by simpa using hnot), Graph.succsOf_eq_nil hp] at hmem
            cases hmem
          obtain ⟨⟨d, hd, hknown⟩, hlower⟩ := h.rises hp hm hexpanded
          obtain ⟨keys, hnodup, hle, hkeys⟩ := ih p hlt hm
          refine ⟨(m.state, d) :: keys, List.nodup_cons.2 ⟨fun hmem' => ?_, hnodup⟩, ?_, ?_⟩
          · obtain ⟨a, b, hnone, hb, habove, hstate, hheuristic, -⟩ := hkeys _ hmem'
            obtain ⟨below, above, hbelow, -, habove', -, hless⟩ := hlower hm hnone hb habove hstate
            obtain rfl := Except.ok.inj (hheuristic.symm.trans hbelow)
            obtain rfl := Except.ok.inj (hd.symm.trans habove')
            simp [Distance.notAbove_refl] at hless
          · rw [hdepth, List.length_cons]
            omega
          · refine List.forall_mem_cons.2 ⟨⟨p, m, hp, hm, .single hisParent, rfl, hd, hknown⟩, ?_⟩
            intro key hkey
            obtain ⟨a, b, hnone, hb, habove, hrest⟩ := hkeys key hkey
            exact ⟨a, b, hnone, hb, habove.tail hisParent, hrest⟩

/-- **The depth of a branch is bounded**, by the number of states that nodes were added with and that
of values below the cap. -/
theorem depth_le (h : gen.Rising analysis base) (hwf : gen.graph.WellFormed)
    (hgrown : base.GrownFrom analysis prec gen.graph)
    (hheight : ∀ {i n}, base.get? i = some n → n.depth ≤ height) (hcapped : gen.Capped cap)
    {states : List S}
    (hstates : ∀ {i m}, base.get? i = none → gen.graph.get? i = some m → m.state ∈ states)
    (hn : gen.graph.get? i = some n) :
    n.depth ≤ height + 1 + states.length * (cap + 2) := by
  obtain ⟨keys, hnodup, hle, hkeys⟩ := h.exists_keys hwf hgrown hheight hn
  have hsubset : keys ⊆ states ×ˢ Distance.upTo cap := by
    rintro ⟨s, d⟩ hkey
    obtain ⟨a, m, hnone, hm, -, rfl, hd, hknown⟩ := hkeys _ hkey
    exact List.mem_product.2
      ⟨hstates hnone hm, Distance.mem_upTo hknown (hcapped.heuristic hd)⟩
  have hlength := (hnodup.subperm hsubset).length_le
  rw [List.length_product, Distance.length_upTo] at hlength
  omega

end Generation.Rising

end GuidedReach
