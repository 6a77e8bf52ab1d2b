import GuidedReach.Proofs.Graph.Leaves
import GuidedReach.Proofs.Graph.Severed
import GuidedReach.Proofs.Graph.Survivors
import GuidedReach.Proofs.Graph.Refusals

/-!
# What growing adds

Growing a graph fills a list of siblings up: it gets a leaf for each wanted state that no sibling has
yet. The presence test runs against a list that grows with every leaf, so a state that is wanted twice
is added once, and growing again adds nothing.

* `absent` — the states of a list that are not present yet, each once.
* `Graph.Appended` — a graph with new leaves under the next fresh numbers.
* `Graph.addInitStates_appended`, `Graph.addSuccStates_appended` — the leaves are those of the absent
  states.
* `Graph.Seeding`, `Graph.Expansion` — what growing makes of a graph.
-/

namespace GuidedReach

variable {S P K : Type}

/-! ## States that are not there yet -/

section Absent

variable [DecidableEq S] {present states : List S} {s : S}

/-- The states of a list that are not among those present, each once, in the order in which they first
occur. -/
def absent (present states : List S) : List S := (states.filter (· ∉ present)).eraseDups

@[simp] theorem absent_nil (present : List S) : absent present [] = [] := rfl

theorem absent_cons_of_mem (h : s ∈ present) (states : List S) :
    absent present (s :: states) = absent present states := by
  simp [absent, h]

/-- From then on, a state that was added counts as present. -/
theorem absent_cons_of_notMem (h : s ∉ present) (states : List S) :
    absent present (s :: states) = s :: absent (present ++ [s]) states := by
  rw [absent, List.filter_cons_of_pos (by simpa using h), List.eraseDups_cons, List.filter_filter,
    absent]
  refine congrArg (fun l => s :: List.eraseDups l) (List.filter_congr fun t _ => ?_)
  by_cases hst : t = s <;> simp [hst]

theorem mem_append_absent {t : S} : t ∈ present ++ absent present states ↔ t ∈ present ∨ t ∈ states := by
  simp only [absent, List.mem_append, List.mem_eraseDups, List.mem_filter, decide_eq_true_eq]
  tauto

theorem nodup_append_absent (h : present.Nodup) : (present ++ absent present states).Nodup := by
  induction states generalizing present with
  | nil => simpa using h
  | cons s states ih =>
    by_cases hs : s ∈ present
    · rw [absent_cons_of_mem hs]
      exact ih h
    · rw [absent_cons_of_notMem hs, ← List.singleton_append, ← List.append_assoc]
      exact ih (h.append (List.nodup_singleton s) (by simpa using hs))

end Absent

namespace Graph

variable {g g' g'' : Graph S} {parent : Option NodeId} {depth : Nat} {id : NodeId} {n : Node S}
variable {states states' : List S} {new new' ids : List NodeId} {analysis : Analysis S P K} {prec : P}

/-! ## New leaves -/

/-- The leaf that an analysis makes of a state. -/
def leafOf (analysis : Analysis S P K) (parent : Option NodeId) (depth : Nat) (state : S) : Node S :=
  { state, depth, isTarget := analysis.isTarget state, isFeasible := !analysis.isBottom state, parent }

/-- A node after new children were listed under `parent`. -/
def addChildren (parent : Option NodeId) (new : List NodeId) (i : NodeId) (n : Node S) : Node S :=
  if parent = some i then { n with succs := n.succs ++ new } else n

theorem addChildren_of_ne (h : parent ≠ some id) (new : List NodeId) (n : Node S) :
    addChildren parent new id n = n :=
  if_neg h

theorem addChildren_nil (i : NodeId) (n : Node S) : addChildren parent [] i n = n := by
  simp [addChildren]

/-- The second graph has a leaf more for each of the states, under the next fresh numbers, and these
leaves are listed under `parent`. -/
structure Appended (analysis : Analysis S P K) (parent : Option NodeId) (depth : Nat)
    (states : List S) (new : List NodeId) (g g' : Graph S) : Prop where
  numbers : new = List.range' g.nodes.slotCount states.length
  slotCount : g'.nodes.slotCount = g.nodes.slotCount + states.length
  statesOf_new : g'.statesOf new = states
  leaf : ∀ c ∈ new, ∃ s, g'.get? c = some (leafOf analysis parent depth s)
  old : ∀ i, i ∉ new → g'.get? i = (g.get? i).map (addChildren parent new i)

theorem statesOf_congr (h : ∀ i ∈ ids, (g'.get? i).map (·.state) = (g.get? i).map (·.state)) :
    g'.statesOf ids = g.statesOf ids :=
  List.filterMap_congr h

theorem statesOf_append (g : Graph S) (ids ids' : List NodeId) :
    g.statesOf (ids ++ ids') = g.statesOf ids ++ g.statesOf ids' :=
  List.filterMap_append ..

namespace Appended

theorem refl (g : Graph S) : Appended analysis parent depth [] [] g g :=
  ⟨rfl, rfl, rfl, by simp, fun i _ => by
    rw [funext (addChildren_nil i)]
    exact Option.map_id'.symm⟩

/-- The new numbers were never given out. -/
theorem slotCount_le (h : Appended analysis parent depth states new g g') {c : NodeId} (hc : c ∈ new) :
    g.nodes.slotCount ≤ c := by
  rw [h.numbers, List.mem_range'_1] at hc
  exact hc.1

theorem notMem (h : Appended analysis parent depth states new g g') {c : NodeId}
    (hc : c < g.nodes.slotCount) : c ∉ new :=
  fun hmem => absurd (h.slotCount_le hmem) (Nat.not_le.2 hc)

theorem statesOf_old (h : Appended analysis parent depth states new g g')
    (hids : ∀ i ∈ ids, i < g.nodes.slotCount) : g'.statesOf ids = g.statesOf ids :=
  statesOf_congr fun i hi => by
    rw [h.old i (h.notMem (hids i hi)), Option.map_map]
    refine Option.map_congr fun n _ => ?_
    simp only [Function.comp_apply, addChildren]
    split <;> rfl

theorem trans (h : Appended analysis parent depth states new g g')
    (h' : Appended analysis parent depth states' new' g' g'')
    (hparent : ∀ p, parent = some p → p < g.nodes.slotCount) :
    Appended analysis parent depth (states ++ states') (new ++ new') g g'' where
  numbers := by
    rw [h.numbers, h'.numbers, h.slotCount, List.length_append, List.range'_append_1]
  slotCount := by rw [h'.slotCount, h.slotCount, List.length_append, Nat.add_assoc]
  statesOf_new := by
    have hnew : ∀ c ∈ new, c < g'.nodes.slotCount := fun c hc => by
      obtain ⟨s, hs⟩ := h.leaf c hc
      exact lt_slotCount hs
    rw [statesOf_append, h'.statesOf_old hnew, h.statesOf_new, h'.statesOf_new]
  leaf c hc := by
    rcases List.mem_append.1 hc with hc | hc
    · obtain ⟨s, hs⟩ := h.leaf c hc
      have hne : parent ≠ some c := fun heq =>
        absurd (h.slotCount_le hc) (Nat.not_le.2 (hparent c heq))
      exact ⟨s, by rw [h'.old c (h'.notMem (lt_slotCount hs)), hs, Option.map_some,
        addChildren_of_ne hne]⟩
    · exact h'.leaf c hc
  old i hi := by
    rw [List.mem_append, not_or] at hi
    rw [h'.old i hi.2, h.old i hi.1, Option.map_map]
    refine Option.map_congr fun n _ => ?_
    by_cases hp : parent = some i <;> simp [addChildren, hp]

/-- A node that was just created. -/
theorem of_created {f : NodeId → Node S → Node S} {s : S}
    (h : Created f id (leafOf analysis parent depth s) g g') (hid : id = g.nodes.slotCount)
    (hcount : g'.nodes.slotCount = g.nodes.slotCount + 1)
    (hf : ∀ i n, f i n = addChildren parent [id] i n) :
    Appended analysis parent depth [s] [id] g g' where
  numbers := by rw [hid]; rfl
  slotCount := hcount
  statesOf_new := by simp [statesOf, h.get?_id, leafOf]
  leaf c hc := ⟨s, List.mem_singleton.1 hc ▸ h.get?_id⟩
  old i hi := by
    rw [h.get?, if_neg (by simpa using hi)]
    exact Option.map_congr fun n _ => hf i n

end Appended

theorem slotCount_createInit {state : S} {isTarget isFeasible : Bool}
    (h : (createInit state isTarget isFeasible).run g = .ok id g') :
    g'.nodes.slotCount = g.nodes.slotCount + 1 := by
  simp only [createInit, Edit.run_bind_ok, run_allocate_ok, Edit.run_modify_ok,
    Edit.run_pure_ok] at h
  obtain ⟨_, _, ⟨rfl, rfl⟩, _, _, rfl, rfl, rfl⟩ := h
  exact NodeMap.slotCount_push ..

theorem slotCount_createSucc {p : NodeId} {state : S} {isTarget isFeasible : Bool}
    (h : (createSucc p state isTarget isFeasible).run g = .ok id g') :
    g'.nodes.slotCount = g.nodes.slotCount + 1 := by
  simp only [createSucc, Edit.run_bind_ok, run_readNode_ok, Edit.run_lift_ok, run_allocate_ok,
    Edit.run_pure_ok] at h
  obtain ⟨_, _, ⟨-, rfl⟩, _, _, ⟨-, rfl⟩, _, _, ⟨rfl, rfl⟩, _, _, hupdate, rfl, rfl⟩ := h
  exact (rewritten_of_updateNode hupdate).2.slotCount.trans (NodeMap.slotCount_push ..)

theorem createInit_appended {s : S}
    (h : (createInit s (analysis.isTarget s) (!analysis.isBottom s)).run g = .ok id g') :
    Appended analysis none 0 [s] [id] g g' :=
  .of_created (createInit_ok h).1 (createInit_eq_slotCount h) (slotCount_createInit h)
    fun i n => (addChildren_of_ne (by simp) _ n).symm

theorem createSucc_appended {p : NodeId} {s : S} (hn : g.get? p = some n)
    (h : (createSucc p s (analysis.isTarget s) (!analysis.isBottom s)).run g = .ok id g') :
    Appended analysis (some p) (n.depth + 1) [s] [id] g g' := by
  obtain ⟨above, habove, -, hcreated, -⟩ := createSucc_ok h
  obtain rfl := Option.some.inj (hn.symm.trans habove)
  refine .of_created hcreated (createSucc_eq_slotCount h) (slotCount_createSucc h) fun i n => ?_
  simp only [addChild, addChildren, Option.some.injEq, eq_comm (a := p)]

/-! ## Filling siblings up -/

section Growing

variable [DecidableEq S]

theorem addInitStates_appended (hinit : ∀ i ∈ g.initNodes, i < g.nodes.slotCount)
    (h : (addInitStates analysis states).run g = .ok new g') :
    Appended analysis none 0 (absent (g.statesOf g.initNodes) states) new g g' := by
  induction states generalizing g new with
  | nil =>
    obtain ⟨rfl, rfl⟩ := Edit.run_pure_ok.1 h
    exact .refl g
  | cons s states ih =>
    simp only [addInitStates, Edit.run_bind_ok, Edit.run_get_ok] at h
    obtain ⟨_, _, ⟨rfl, rfl⟩, h⟩ := h
    split at h
    · rename_i hs
      rw [absent_cons_of_mem hs]
      exact ih hinit h
    · rename_i hs
      simp only [Edit.run_bind_ok, Edit.run_pure_ok] at h
      obtain ⟨c, t, hc, rest, _, hrest, rfl, rfl⟩ := h
      have hfirst := createInit_appended hc
      obtain ⟨-, hlisted, -⟩ := createInit_ok hc
      have hpresent : t.statesOf t.initNodes = g.statesOf g.initNodes ++ [s] := by
        rw [hlisted, statesOf_append, hfirst.statesOf_old hinit, hfirst.statesOf_new]
      have hinit' : ∀ i ∈ t.initNodes, i < t.nodes.slotCount := by
        rw [hlisted, hfirst.slotCount, ← createInit_eq_slotCount hc]
        intro i hi
        rcases List.mem_append.1 hi with hi | hi
        · exact Nat.lt_succ_of_lt (createInit_eq_slotCount hc ▸ hinit i hi)
        · rw [List.mem_singleton.1 hi]
          exact Nat.lt_succ_self c
      have hlater := ih hinit' hrest
      rw [hpresent] at hlater
      rw [absent_cons_of_notMem hs]
      exact hfirst.trans hlater (by simp)

theorem addSuccStates_appended (hn : g.get? id = some n)
    (hsuccs : ∀ i ∈ n.succs, i < g.nodes.slotCount)
    (h : (addSuccStates analysis id states).run g = .ok new g') :
    Appended analysis (some id) (n.depth + 1) (absent (g.statesOf n.succs) states) new g g' := by
  induction states generalizing g n new with
  | nil =>
    obtain ⟨rfl, rfl⟩ := Edit.run_pure_ok.1 h
    exact .refl g
  | cons s states ih =>
    simp only [addSuccStates, Edit.run_bind_ok, Edit.run_get_ok, run_readNode_ok] at h
    obtain ⟨n', _, ⟨hn', rfl⟩, _, _, ⟨rfl, rfl⟩, h⟩ := h
    obtain rfl := Option.some.inj (hn.symm.trans hn')
    split at h
    · rename_i hs
      rw [absent_cons_of_mem hs]
      exact ih hn hsuccs h
    · rename_i hs
      simp only [Edit.run_bind_ok, Edit.run_pure_ok] at h
      obtain ⟨c, t, hc, rest, _, hrest, rfl, rfl⟩ := h
      have hfirst := createSucc_appended hn hc
      have hid := lt_slotCount hn
      have hn₁ : t.get? id = some { n with succs := n.succs ++ [c] } := by
        rw [hfirst.old id (hfirst.notMem hid), hn]
        simp [addChildren]
      have hpresent : t.statesOf (n.succs ++ [c]) = g.statesOf n.succs ++ [s] := by
        rw [statesOf_append, hfirst.statesOf_old hsuccs, hfirst.statesOf_new]
      have hsuccs' : ∀ i ∈ n.succs ++ [c], i < t.nodes.slotCount := by
        rw [hfirst.slotCount, ← createSucc_eq_slotCount hc]
        intro i hi
        rcases List.mem_append.1 hi with hi | hi
        · exact Nat.lt_succ_of_lt (createSucc_eq_slotCount hc ▸ hsuccs i hi)
        · rw [List.mem_singleton.1 hi]
          exact Nat.lt_succ_self c
      have hlater := ih hn₁ hsuccs' hrest
      rw [hpresent] at hlater
      rw [absent_cons_of_notMem hs]
      exact hfirst.trans hlater fun p hp => Option.some.inj hp ▸ hid

/-! ## Growing again -/

theorem run_addInitStates_of_present (h : ∀ s ∈ states, s ∈ g.statesOf g.initNodes) :
    (addInitStates analysis states).run g = .ok [] g := by
  induction states with
  | nil => rfl
  | cons s states ih =>
    rw [addInitStates, Edit.run_bind_of_ok (Edit.run_get_ok.2 ⟨rfl, rfl⟩), if_pos (h s List.mem_cons_self)]
    exact ih fun t ht => h t (List.mem_cons_of_mem s ht)

theorem run_addSuccStates_of_present (hn : g.get? id = some n)
    (h : ∀ s ∈ states, s ∈ g.statesOf n.succs) :
    (addSuccStates analysis id states).run g = .ok [] g := by
  induction states with
  | nil => rfl
  | cons s states ih =>
    rw [run_addSuccStates_cons analysis hn, if_pos (h s List.mem_cons_self)]
    exact ih fun t ht => h t (List.mem_cons_of_mem s ht)

end Growing

/-- Writing a node that is there already changes nothing. -/
theorem insert_self (hn : g.get? id = some n) : { g with nodes := g.nodes.insert id n } = g := by
  have hnodes : g.nodes.insert id n = g.nodes :=
    NodeMap.ext_get? (NodeMap.slotCount_insert (lt_slotCount hn)) fun i => by
      rw [NodeMap.get?_insert]
      split
      · rename_i hi
        exact hi ▸ hn.symm
      · rfl
  rw [hnodes]

/-! ## What growing makes of a graph -/

section Growing

variable [DecidableEq S]

/-- The nodes `new` were added to the siblings `listed`, for the wanted states that none of them had,
and nothing else changed outside of their parent. -/
structure Filled (analysis : Analysis S P K) (parent : Option NodeId) (depth : Nat)
    (listed : List NodeId) (wanted : List S) (new : List NodeId) (g g' : Graph S) : Prop where
  /-- The new nodes have the next fresh numbers, in order. -/
  numbers : new = List.range' g.nodes.slotCount new.length
  slotCount : g'.nodes.slotCount = g.nodes.slotCount + new.length
  states : g'.statesOf new = absent (g.statesOf listed) wanted
  siblings : g'.statesOf (listed ++ new) = g.statesOf listed ++ absent (g.statesOf listed) wanted
  /-- A new node is as the analysis makes it, without any links but that to its parent. -/
  leaf : ∀ c ∈ new, ∃ s, g'.get? c = some (leafOf analysis parent depth s)
  others : ∀ i, parent ≠ some i → i ∉ new → g'.get? i = g.get? i

/-- What seeding makes of a graph. -/
structure Seeding (analysis : Analysis S P K) (prec : P) (new : List NodeId) (g g' : Graph S) : Prop
    extends Filled analysis none 0 g.initNodes (analysis.initStates prec) new g g' where
  initNodes : g'.initNodes = g.initNodes ++ new
  isInitialized : g'.isInitialized = true
  again : (seed analysis prec).run g' = .ok [] g'

/-- What expanding the node `id`, which was `n` before, makes of a graph. -/
structure Expansion (analysis : Analysis S P K) (prec : P) (id : NodeId) (n : Node S)
    (new : List NodeId) (g g' : Graph S) : Prop
    extends Filled analysis (some id) (n.depth + 1) n.succs (analysis.succStates n.state prec) new
      g g' where
  node : g'.get? id = some { n with succs := n.succs ++ new, isExpanded := true }
  initNodes : g'.initNodes = g.initNodes
  isInitialized : g'.isInitialized = g.isInitialized
  again : (expand analysis id prec).run g' = .ok [] g'

theorem Appended.filled {listed : List NodeId} {wanted : List S}
    (h : Appended analysis parent depth (absent (g.statesOf listed) wanted) new g g')
    (hlisted : ∀ i ∈ listed, i < g.nodes.slotCount) :
    Filled analysis parent depth listed wanted new g g' where
  numbers := by
    have hnumbers := h.numbers
    rw [hnumbers, List.length_range']
  slotCount := by rw [h.slotCount, h.numbers, List.length_range']
  states := h.statesOf_new
  siblings := by rw [statesOf_append, h.statesOf_old hlisted, h.statesOf_new]
  leaf := h.leaf
  others i hne hi := by
    rw [h.old i hi, funext (addChildren_of_ne hne new)]
    exact Option.map_id'

/-- Afterwards the parent may be changed, as long as it keeps its state. -/
theorem Filled.rewritten {listed : List NodeId} {wanted : List S} {f : NodeId → Node S → Node S}
    (h : Filled analysis parent depth listed wanted new g g') (hf : Rewritten f g' g'')
    (hstate : ∀ i n, (f i n).state = n.state) (hothers : ∀ i n, parent ≠ some i → f i n = n)
    (hparent : ∀ c ∈ new, parent ≠ some c) :
    Filled analysis parent depth listed wanted new g g'' := by
  have hstates : ∀ ids, g''.statesOf ids = g'.statesOf ids := fun ids => statesOf_congr fun i _ => by
    rw [hf.get?, Option.map_map]
    exact Option.map_congr fun n _ => hstate i n
  have hkeeps : ∀ i, parent ≠ some i → g''.get? i = g'.get? i := fun i hne => by
    rw [hf.get?, funext fun n => hothers i n hne]
    exact Option.map_id'
  exact
    { numbers := h.numbers
      slotCount := hf.slotCount.trans h.slotCount
      states := (hstates _).trans h.states
      siblings := (hstates _).trans h.siblings
      leaf := fun c hc => (h.leaf c hc).imp fun s hs => (hkeeps c (hparent c hc)).trans hs
      others := fun i hne hi => (hkeeps i hne).trans (h.others i hne hi) }

namespace WellFormed

/-- **Seeding adds the missing init states**, each once, and has nothing to add the second time. -/
theorem seeding (hwf : g.WellFormed) (h : (Graph.seed analysis prec).run g = .ok new g') :
    Seeding analysis prec new g g' := by
  simp only [Graph.seed, Edit.run_bind_ok, Edit.run_pure_ok] at h
  obtain ⟨_, t, hadd, _, _, hset, rfl, rfl⟩ := h
  obtain rfl := Edit.run_modify_ok.1 hset
  have hlisted : ∀ i ∈ g.initNodes, i < g.nodes.slotCount := fun i hi => by
    obtain ⟨n, hn, -⟩ := hwf.init_parentless hi
    exact lt_slotCount hn
  have hfilled := (addInitStates_appended hlisted hadd).filled hlisted
  obtain ⟨-, hinit⟩ := addInitStates_initNodes hadd
  have hpresent : ∀ s ∈ analysis.initStates prec, s ∈ t.statesOf t.initNodes := fun s hs => by
    rw [hinit, hfilled.siblings]
    exact mem_append_absent.2 (.inr hs)
  refine
    { numbers := hfilled.numbers
      slotCount := hfilled.slotCount
      states := hfilled.states
      siblings := hfilled.siblings
      leaf := hfilled.leaf
      others := hfilled.others
      initNodes := hinit
      isInitialized := rfl
      again := ?_ }
  have hagain : (Graph.addInitStates analysis (analysis.initStates prec)).run
      { t with isInitialized := true } = .ok [] { t with isInitialized := true } :=
    run_addInitStates_of_present hpresent
  rw [Graph.seed, Edit.run_bind_of_ok hagain]
  rfl

/-- **Expanding adds the missing successors of a node**, each once, and has nothing to add the second
time. -/
theorem expansion (hwf : g.WellFormed) (hn : g.get? id = some n)
    (h : (Graph.expand analysis id prec).run g = .ok new g') :
    Expansion analysis prec id n new g g' := by
  have hrun := run_expand analysis prec hn
  rw [h] at hrun
  split at hrun
  swap
  · cases hrun
  rename_i hdomain
  obtain ⟨added, t, hadd, hrest⟩ := Edit.run_bind_ok.1 hrun.symm
  obtain ⟨_, s, hset, hpure⟩ := Edit.run_bind_ok.1 hrest
  obtain ⟨rfl, rfl⟩ := Edit.run_pure_ok.1 hpure
  have hlisted : ∀ i ∈ n.succs, i < g.nodes.slotCount := fun i hi => by
    obtain ⟨c, hc, -⟩ := hwf.succ_link hn hi
    exact lt_slotCount hc
  have happended := addSuccStates_appended hn hlisted hadd
  obtain ⟨-, -, hinit, hinitialized⟩ := addSuccStates_succs hn hadd
  obtain ⟨-, hrewritten⟩ := rewritten_of_setExpanded hset
  have hfilled := (happended.filled hlisted).rewritten hrewritten
    (fun i n => by split <;> rfl) (fun i n hne => if_neg fun hi => hne (congrArg some hi.symm))
    fun c hc heq => happended.notMem (lt_slotCount hn) (Option.some.inj heq ▸ hc)
  have hid : s.get? id = some { n with succs := n.succs ++ added, isExpanded := true } := by
    rw [hrewritten.get?, happended.old id (happended.notMem (lt_slotCount hn)), hn]
    simp [addChildren]
  have hpresent : ∀ w ∈ analysis.succStates n.state prec, w ∈ s.statesOf (n.succs ++ added) :=
    fun w hw => by
      rw [hfilled.siblings]
      exact mem_append_absent.2 (.inr hw)
  refine
    { numbers := hfilled.numbers
      slotCount := hfilled.slotCount
      states := hfilled.states
      siblings := hfilled.siblings
      leaf := hfilled.leaf
      others := hfilled.others
      node := hid
      initNodes := hrewritten.initNodes.trans hinit
      isInitialized := hrewritten.isInitialized.trans hinitialized
      again := ?_ }
  rw [run_expand analysis prec hid, if_pos hdomain,
    Edit.run_bind_of_ok (run_addSuccStates_of_present hid hpresent)]
  have hagain : (Graph.setExpanded id true).run s = .ok () s :=
    run_updateNode_ok.2 ⟨_, hid, (insert_self hid).symm⟩
  exact Edit.run_bind_of_ok hagain

end WellFormed

end Growing

end Graph

end GuidedReach
