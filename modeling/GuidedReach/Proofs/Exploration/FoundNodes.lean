import GuidedReach.Proofs.Exploration.Nodes
import GuidedReach.Proofs.Exploration.Tidy

/-!
# Explorations find the search nodes of single nodes

While the generations up to an index are tidy, the operations on single nodes of the last of them find
the search nodes that they look up, and leave the generations tidy.

* `Exploration.finds_ensureHeuristic` — a heuristic may need the distance of a provider.
* `Exploration.finds_createSearchNode` — the next pending node gets its search node.
* `Exploration.finds_close`, `Exploration.finds_expand` — covering and expanding.
-/

namespace GuidedReach.Exploration

open Explore Progress

variable {S P K : Type} [DecidableEq K]
variable {setup : Setup S P K} {older : Older S P K} {index below : Nat} {pending : List NodeId}
variable {p : Progress S P K} {gen : Generation S P K} {id provider : NodeId} {value : Distance}

/-! ## Writes -/

theorem finds_setHeuristic (h : p.history.Tidy setup.analysis pending index) (hid : id ∉ pending) :
    (setHeuristic index id value).Finds p fun _ q => p.Tidies setup.analysis pending index q := by
  refine finds_generation_bind fun gen hgen => ?_
  refine finds_lift_bind (Generation.finds_setHeuristic fun n hn =>
    (h.filed hgen).registered hn hid) fun gen' hset _ => ?_
  refine finds_putGeneration.mono fun _ q _ hq => ?_
  subst hq
  obtain ⟨_, k, -, hk, -, hrewrites, -⟩ := Generation.setHeuristic_ok hset
  exact .put_of_rewrites h hgen hk hrewrites rfl ((h.filed hgen).setHeuristic hset)

theorem finds_setDistance (h : p.history.Tidy setup.analysis pending index) (hid : id ∉ pending) :
    (setDistance index id value).Finds p fun _ q => p.Tidies setup.analysis pending index q := by
  refine finds_generation_bind fun gen hgen => ?_
  refine finds_lift_bind (Generation.finds_setDistance fun n hn =>
    (h.filed hgen).registered hn hid) fun gen' hset _ => ?_
  refine finds_putGeneration.mono fun _ q _ hq => ?_
  subst hq
  exact .put_of_distanceWrites h hgen (.of_setDistance hset)

/-! ## Heuristics -/

section

variable (holder : older.Tidying setup.analysis index)
variable (h : p.history.Tidy setup.analysis [] index) (hid : p.Holds index id)

include h hid

/-- The search node of a node that is in the graph. -/
theorem finds_known (hgen : p.history.get? index = some gen) :
    GuidedReach.Finds (gen.searchNode id) fun k => gen.searchNodes.get? id = some k := by
  obtain ⟨n, hn⟩ := hid.exists hgen
  exact Generation.finds_searchNode ((h.furnished hgen).registered hn)

omit hid in
/-- A provider is in the graph of the provider generation. -/
theorem holds_provider {i : Nat} (hgen : p.history.get? index = some gen)
    (hbelow : gen.provider = some below) {k : SearchNode} (hk : gen.searchNodes.get? i = some k)
    (hprovider : k.provider = some provider) : p.Holds below provider := by
  obtain ⟨-, older, holder, hby⟩ := h.provided (Nat.le_refl _) hgen hbelow
  obtain ⟨m, hm⟩ := hby hk hprovider
  exact ⟨older, m, holder, hm⟩

include holder in
theorem finds_heuristicWithoutDistance :
    (heuristicWithoutDistance setup older index id).Finds p fun _ q =>
      p.Tidies setup.analysis [] index q := by
  refine finds_generation_bind fun gen hgen => ?_
  split
  · exact finds_fail fun h => h
  · refine finds_lift_bind (finds_known h hid hgen) fun k _ hk => ?_
    split
    · rename_i below provider hbelow hprovider
      refine finds_count.bind fun _ q _ hq => ?_
      have hcount : p.Tidies setup.analysis [] index q := hq ▸ .of_count h
      refine finds_lift_bind (finds_demand fun h => h) fun _ _ hlt => ?_
      have hlt := of_decide_eq_true hlt
      have hheld := hcount.holds (holds_provider h hgen hbelow hk hprovider)
      refine (holder.solve hlt (hcount.tidy.below hlt) (by simpa using hheld)).bind
        fun _ r _ hr => ?_
      refine finds_generation_bind fun older' holder' => ?_
      refine finds_lift_bind ((hr.tidy.furnished holder').finds_distance
        ((hr.holds hheld).exists holder')) fun d _ _ => ?_
      refine finds_lift_bind (finds_demand fun h => h) fun _ _ _ => finds_pure ?_
      exact hcount.trans (.of_below hcount.tidy hlt hr)
    · exact finds_fail fun h => h
  · refine finds_lift_bind Graph.finds_node fun n _ hn => ?_
    split
    · exact finds_pure (.refl h)
    · rename_i parent hparent
      refine finds_lift_bind ((h.furnished hgen).finds_heuristic
        ((h.furnished hgen).exists_parent hn hparent)) fun d _ _ => ?_
      split
      · exact finds_pure (.refl h)
      · exact finds_pure (.refl h)
      · exact finds_fail fun h => h

theorem finds_inheritedDistance :
    (inheritedDistance index id).Finds p fun _ q => q = p := by
  refine finds_generation_bind fun gen hgen => finds_lift_bind (finds_known h hid hgen)
    fun k _ hk => ?_
  split
  · rename_i below provider hbelow hprovider
    obtain ⟨hlt, -⟩ := h.provided (Nat.le_refl _) hgen hbelow
    refine finds_generation_bind fun older' holder' => ?_
    exact (finds_lift (((h.below hlt).furnished holder').finds_distance
      ((holds_provider h hgen hbelow hk hprovider).exists holder'))).mono fun _ _ _ hq => hq.2
  · exact finds_pure rfl

include holder

theorem finds_computeHeuristic :
    (computeHeuristic setup older index id).Finds p fun _ q =>
      p.Tidies setup.analysis [] index q := by
  refine finds_generation_bind fun gen hgen => (finds_inheritedDistance h hid).bind
    fun inherited q _ hq => ?_
  subst hq
  refine finds_lift_bind Graph.finds_node fun n _ _ => ?_
  split
  · exact finds_lift_bind (finds_demand fun h => h) fun _ _ _ => finds_pure (.refl h)
  split
  · exact finds_pure (.refl h)
  split
  · exact finds_pure (.refl h)
  · exact finds_heuristicWithoutDistance holder h hid

/-- **A heuristic is made known** without missing a search node. -/
theorem finds_ensureHeuristic :
    (ensureHeuristic setup older index id).Finds p fun _ q =>
      p.Tidies setup.analysis [] index q := by
  refine finds_generation_bind fun gen hgen => finds_lift_bind (finds_known h hid hgen)
    fun k _ _ => ?_
  split
  · exact finds_pure (.refl h)
  refine (finds_computeHeuristic holder h hid).bind fun value q _ hq => ?_
  refine (finds_setHeuristic hq.tidy List.not_mem_nil).bind fun _ r _ hr => ?_
  exact finds_pure (hq.trans hr)

end

/-! ## Providers -/

section

variable (holder : older.Tidying setup.analysis index)
variable (h : p.history.Tidy setup.analysis pending index)

include h

include holder in
theorem finds_askForSuccessors (hprovider : p.Holds below provider) :
    (askForSuccessors setup older index below provider).Finds p fun _ q =>
      p.Tidies setup.analysis pending index q := by
  unfold askForSuccessors
  split
  · refine finds_lift_bind (finds_demand fun h => h) fun _ _ hlt => ?_
    have hlt := of_decide_eq_true hlt
    exact (holder.openProvider hlt (h.below hlt) hprovider).mono fun _ _ _ hq => .of_below h hlt hq
  · exact finds_pure (.refl h)

/-- The coverer of a provider takes its place. -/
theorem finds_uncoveredProvider (hgen : p.history.get? index = some gen)
    (hbelow : gen.provider = some below) (hid : p.Holds index id) (hregistered : id ∉ pending)
    (hprovider : p.Holds below provider) :
    (uncoveredProvider index below id provider).Finds p fun result q =>
      p.Tidies setup.analysis pending index q ∧ q.Holds below result := by
  refine finds_node_bind fun older' m holder' hm => ?_
  split
  · rename_i coverer hcovering
    refine finds_generation_bind fun gen' hgen' => ?_
    obtain rfl := Option.some.inj (hgen.symm.trans hgen')
    obtain ⟨hlt, -⟩ := h.provided (Nat.le_refl _) hgen hbelow
    obtain ⟨b, hb⟩ := ((h.below hlt).furnished holder').exists_coverer hm hcovering
    obtain ⟨n, hn⟩ := hid.exists hgen
    have hk := (h.filed hgen).registered hn hregistered
    refine finds_lift_bind (Generation.finds_editSearchNode hk fun _ => Edit.finds_modify.mono
      fun _ _ _ _ => trivial) fun gen' hset _ => ?_
    refine finds_putGeneration.bind fun _ q _ hq => finds_pure ?_
    subst hq
    obtain ⟨k, -, hrewrites⟩ := Generation.setProvider_ok hset
    have htidies : p.Tidies setup.analysis pending index (p.put index gen') := by
      refine .put h hgen (.of_graph hrewrites.graph hrewrites.provider)
        (hrewrites.graph ▸ h.wellFormed (Nat.le_refl _) hgen) ((h.filed hgen).setProvider hset)
        fun hbelow' holder'' hby => ?_
      obtain rfl := Option.some.inj (hbelow.symm.trans hbelow')
      obtain rfl := Option.some.inj (holder'.symm.trans holder'')
      intro i l q hl hq
      rw [hrewrites.get?] at hl
      split at hl
      · obtain rfl := Option.some.inj hl
        exact Option.some.inj hq ▸ ⟨b, hb⟩
      · exact hby hl hq
    exact ⟨htidies, htidies.holds ⟨older', b, holder', hb⟩⟩
  · exact finds_pure ⟨.refl h, hprovider⟩

variable (hgen : p.history.get? index = some gen) (hbelow : gen.provider = some below)
variable (hparent : ∀ {n parent}, gen.graph.get? id = some n → n.parent = some parent →
  parent ∉ pending)

include holder hgen hbelow hparent

theorem finds_providerCandidates :
    (providerCandidates setup older index below id).Finds p fun candidates q =>
      p.Tidies setup.analysis pending index q ∧ ∀ i ∈ candidates, q.Holds below i := by
  obtain ⟨hlt, older', holder', hby⟩ := h.provided (Nat.le_refl _) hgen hbelow
  refine finds_generation_bind fun gen' hgen' => ?_
  obtain rfl := Option.some.inj (hgen.symm.trans hgen')
  refine finds_lift_bind Graph.finds_node fun n _ hn => ?_
  split
  · rename_i parent hn'
    have hfiled := h.filed hgen
    obtain ⟨-, m, hm, -⟩ := (h.wellFormed (Nat.le_refl _) hgen).parent_link hn hn'
    refine finds_lift_bind (Generation.finds_searchNode (hfiled.registered hm (hparent hn hn')))
      fun k _ hk => ?_
    split
    · rename_i provider hprovider
      obtain ⟨b, hb⟩ := hby hk hprovider
      have hheld : p.Holds below provider := ⟨older', b, holder', hb⟩
      refine (finds_askForSuccessors holder h hheld).bind fun _ q _ hq => ?_
      obtain ⟨gen₁, hgen₁, hcontinued⟩ := hq.continued hgen
      refine (finds_uncoveredProvider hq.tidy hgen₁ (hcontinued.provider.trans hbelow)
        (hq.holds ⟨gen, m, hgen, hm⟩) (hparent hn hn') (hq.holds hheld)).bind
          fun provider' r _ ⟨hr, _⟩ => ?_
      refine finds_node_bind fun older₂ above holder₂ habove => ?_
      split
      · refine finds_pure ⟨hq.trans hr, fun i hi => ?_⟩
        obtain ⟨c, hc⟩ := ((hr.tidy.below hlt).furnished holder₂).exists_succ habove hi
        exact ⟨older₂, c, holder₂, hc⟩
      · exact finds_lift_bind (finds_demand fun h => h) fun _ _ _ =>
          finds_pure ⟨hq.trans hr, by simp⟩
    · exact finds_lift_bind (finds_demand fun h => h) fun _ _ _ => finds_pure ⟨.refl h, by simp⟩
  · refine finds_generation_bind fun older₂ holder₂ => finds_pure ⟨.refl h, fun i hi => ?_⟩
    obtain ⟨m, hm, -⟩ := (h.wellFormed hlt.le holder₂).init_parentless hi
    exact ⟨older₂, m, holder₂, hm⟩

/-- **A provider is found** without missing a search node. -/
theorem finds_findProvider :
    (findProvider setup older index below id).Finds p fun _ q =>
      p.Tidies setup.analysis pending index q := by
  obtain ⟨hlt, -⟩ := h.provided (Nat.le_refl _) hgen hbelow
  refine (finds_providerCandidates holder h hgen hbelow hparent).bind
    fun candidates q _ ⟨hq, hcandidates⟩ => ?_
  refine finds_generation_bind fun gen₁ _ => finds_generation_bind fun older' holder' =>
    finds_lift_bind Graph.finds_node fun n _ _ => ?_
  refine (finds_filterM fun i _ => finds_lift_bind Graph.finds_node fun _ _ _ =>
    finds_pure rfl).bind fun subsuming q' _ ⟨hq', hsubsuming⟩ => ?_
  subst hq'
  refine (finds_mapM fun i hi => finds_lift_bind (((hq.tidy.below hlt).furnished holder').finds_distance
    ((hcandidates i (hsubsuming i hi)).exists holder')) fun _ _ _ => finds_pure rfl).bind
      fun distances q' _ hq' => ?_
  subst hq'
  dsimp only
  split
  · exact finds_lift_bind (finds_demand fun h => h) fun _ _ _ => finds_pure hq
  · exact finds_pure hq

end

/-- The next pending node is registered, with a provider of the older graph. -/
theorem finds_register (h : p.history.Tidy setup.analysis (id :: pending) index)
    {provider : Option NodeId} (hprovider : ∀ {gen below i}, p.history.get? index = some gen →
      gen.provider = some below → provider = some i → p.Holds below i) :
    (do
      putGeneration index (← (← generation index).register setup.analysis id { provider }) :
        Explore S P K Unit).Finds p fun _ q => p.Tidies setup.analysis pending index q := by
  refine finds_generation_bind fun gen hgen => finds_lift_bind Generation.finds_register
    fun gen' hset _ => finds_putGeneration.mono fun _ q _ hq => ?_
  subst hq
  obtain ⟨-, -, hrewrites⟩ := Generation.register_ok hset
  refine .put h hgen (.of_graph hrewrites.graph hrewrites.provider)
    (hrewrites.graph ▸ h.wellFormed (Nat.le_refl _) hgen) ((h.filed hgen).register hset)
    fun hbelow holder hby => ?_
  intro i l q hl hq
  rw [hrewrites.get?] at hl
  split at hl
  · obtain rfl := Option.some.inj hl
    exact (hprovider hgen hbelow hq).exists holder
  · exact hby hl hq

/-- **The next pending node gets its search node.** -/
theorem finds_createSearchNode (holder : older.Tidying setup.analysis index)
    (h : p.history.Tidy setup.analysis (id :: pending) index) :
    (createSearchNode setup older index id).Finds p fun _ q =>
      p.Tidies setup.analysis pending index q := by
  refine finds_generation_bind fun gen hgen => ?_
  split
  · rename_i below hbelow
    have hparent : ∀ {n parent}, gen.graph.get? id = some n → n.parent = some parent →
        parent ∉ id :: pending :=
      (h.filed hgen).parent_notMem (h.wellFormed (Nat.le_refl _) hgen)
    refine (finds_findProvider holder h hgen hbelow hparent).bind fun found q hfound hq => ?_
    obtain ⟨_, gen₁, older', _, -, hgen₁, holder', -, hlink⟩ := findProvider_cases hfound
    refine (finds_register hq.tidy fun hgen₂ hbelow' hprovider => ?_).mono fun _ _ _ hr =>
      hq.trans hr
    obtain ⟨m, hm, -⟩ := hlink _ hprovider
    obtain rfl := Option.some.inj (hbelow.symm.trans ((hq.provider hgen hgen₂).symm.trans hbelow'))
    exact ⟨older', m, holder', hm⟩
  · have hnone : (pure none : Explore S P K (Option NodeId)).Finds p fun found q =>
        found = none ∧ q = p := ⟨rfl, rfl⟩
    refine hnone.bind fun found q _ ⟨hfound, hq⟩ => ?_
    subst hfound hq
    exact finds_register h fun _ _ hprovider => by cases hprovider

/-- All pending nodes get their search nodes. -/
theorem finds_forM_createSearchNode (holder : older.Tidying setup.analysis index)
    (h : p.history.Tidy setup.analysis pending index) :
    (pending.forM (createSearchNode setup older index)).Finds p fun _ q =>
      p.Tidies setup.analysis [] index q :=
  finds_forM (motive := fun rest q => p.Tidies setup.analysis rest index q)
    (fun _ _ _ hq => (finds_createSearchNode holder hq.tidy).mono fun _ _ _ hr => hq.trans hr)
    (.refl h)

/-! ## Covering and expanding -/

/-- A changed graph without new nodes. -/
theorem finds_editGraph_tidies (h : p.history.Tidy setup.analysis [] index)
    {edit : Edit (Graph S) Unit} (hedit : ∀ g, edit.Finds g fun _ _ => True)
    (hchange : ∀ {gen graph}, p.history.get? index = some gen → edit.run gen.graph = .ok () graph →
      gen.graph.Grows graph ∧ graph.WellFormed ∧ graph.ids = gen.graph.ids) :
    (editGraph index edit).Finds p fun _ q => p.Tidies setup.analysis [] index q := by
  refine (finds_editGraph hedit).mono fun _ q _ ⟨gen, graph, hgen, hrun, hq⟩ => ?_
  subst hq
  obtain ⟨hgrows, hwf, hids⟩ := hchange hgen hrun
  exact .put_of_grows h hgen hgrows hwf (hids.trans (List.append_nil _).symm)

section

variable (holder : older.Tidying setup.analysis index)
variable (h : p.history.Tidy setup.analysis [] index)

include holder h

theorem finds_coverByOneOf {isTarget : Bool} {heuristic : Distance} {candidates : List NodeId}
    (hcandidates : ∀ i ∈ candidates, p.Holds index i) :
    (coverByOneOf setup older index id isTarget heuristic candidates).Finds p fun _ q =>
      p.Tidies setup.analysis [] index q := by
  induction candidates generalizing p with
  | nil => exact finds_pure (.refl h)
  | cons candidate rest ih =>
    obtain ⟨hcandidate, hrest⟩ := List.forall_mem_cons.1 hcandidates
    refine finds_generation_bind fun gen hgen => finds_lift_bind Graph.finds_node fun n _ _ => ?_
    split
    · exact ih h hrest
    refine finds_lift_bind Graph.finds_mayCover fun may _ _ => ?_
    split
    · exact ih h hrest
    refine (finds_ensureHeuristic holder h hcandidate).bind fun d q _ hq => ?_
    refine finds_lift_bind Distance.finds_lt fun less _ _ => ?_
    split
    · exact (ih hq.tidy fun i hi => hq.holds (hrest i hi)).mono fun _ _ _ hr => hq.trans hr
    · refine (finds_editGraph_tidies hq.tidy (fun _ => Graph.finds_cover) fun hgen hrun => ?_).bind
        fun _ r _ hr => ?_
      · have hwf := hq.tidy.wellFormed (Nat.le_refl _) hgen
        exact ⟨Graph.grows_of_cover hrun, hwf.cover hrun, Graph.ids_cover hwf hrun⟩
      · refine finds_count.bind fun _ t _ ht => finds_pure ?_
        exact (hq.trans hr).trans (ht ▸ .of_count hr.tidy)

/-- **A node is covered, or left open**, without missing a search node. -/
theorem finds_close :
    (close setup older index id).Finds p fun _ q => p.Tidies setup.analysis [] index q := by
  refine finds_generation_bind fun gen hgen => finds_lift_bind Graph.finds_node fun n _ hn => ?_
  split
  · exact finds_pure (.refl h)
  refine finds_lift_bind ((h.furnished hgen).finds_heuristic ⟨n, hn⟩) fun d _ _ => ?_
  refine finds_lift_bind (finds_demand fun h => h) fun _ _ _ => ?_
  refine finds_lift_bind (h.filed hgen).finds_coveringCandidates fun candidates _ hcandidates => ?_
  refine finds_coverByOneOf holder h fun i hi => ?_
  obtain ⟨m, hm⟩ := hcandidates i hi
  exact ⟨gen, m, hgen, hm⟩

end

/-- **A node is expanded**, and its new successors are to be registered. -/
theorem finds_expand [DecidableEq S] (h : p.history.Tidy setup.analysis [] index)
    (hgen : p.history.get? index = some gen) {n : Node S} (hn : gen.graph.get? id = some n)
    (hopen : n.isExpanded = false) :
    (expand setup index id).Finds p fun new q => p.Tidies setup.analysis new index q := by
  refine finds_generation_bind fun gen' hgen' => ?_
  obtain rfl := Option.some.inj (hgen.symm.trans hgen')
  refine (finds_editGraph fun _ => Graph.finds_expand).bind fun new q _ hq => ?_
  obtain ⟨gen', graph, hgen', hrun, hq⟩ := hq
  obtain rfl := Option.some.inj (hgen.symm.trans hgen')
  have htidies : p.Tidies setup.analysis new index q := by
    subst hq
    exact .put_of_grows h hgen (Graph.expand_leaves hn hopen hrun).1.grows
      ((h.wellFormed (Nat.le_refl _) hgen).expand hrun) (Graph.ids_expand hrun)
  refine finds_count.bind fun _ r _ hr => finds_pure ?_
  exact htidies.trans (hr ▸ .of_count htidies.tidy)

end GuidedReach.Exploration
