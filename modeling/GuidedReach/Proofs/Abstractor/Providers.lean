import GuidedReach.Proofs.Abstractor.Discipline
import GuidedReach.Proofs.Generation.Provided

/-!
# Providers over whole runs

Each generation takes its heuristics from an older one that is still held. There the provider of a node
subsumes it, and, unless heuristics are decreasing, known heuristics are what the providers answer.

* `History.Provided` — every provider is there and subsumes.
* `History.Answered` — with semi-on-demand heuristics, every provider answers what was taken over.
* `Exploration.Move.provided`, `Exploration.Move.answered` — moves keep both.
* `Abstractor.providers_sound` — what holds of providers after every check.
-/

namespace GuidedReach

variable {S P K : Type}

/-! ## Histories -/

/-- Search nodes belong to graph nodes, and the generations that provide for others are held: older
ones, for the live generation the one right before it. -/
structure History.Provided (analysis : Analysis S P K) (top : Nat) (history : History S P K) :
    Prop where
  node : ∀ {i gen}, history.get? i = some gen → ∀ {j k}, gen.searchNodes.get? j = some k →
    ∃ n, gen.graph.get? j = some n
  provider : ∀ {i gen p}, history.get? i = some gen → gen.provider = some p →
    p < i ∧ (i = top → p + 1 = top) ∧
      ∃ older, history.get? p = some older ∧ gen.ProvidedBy analysis older

/-- Coverers give the same answers, and these were taken over from the providers. -/
structure History.Answered (history : History S P K) : Prop where
  grounded : ∀ {i gen}, history.get? i = some gen → gen.Grounded
  inherits : ∀ {i gen p older}, history.get? i = some gen → gen.provider = some p →
    history.get? p = some older → gen.Inherits older

namespace History

variable {analysis : Analysis S P K} {top index : Nat} {history : History S P K}
variable {gen gen' : Generation S P K}

/-- Writing a generation in which every provider still subsumes, and that still provides for others. -/
theorem Provided.set (h : history.Provided analysis top) (hgen : history.get? index = some gen)
    (hsame : gen'.provider = gen.provider)
    (hnode : ∀ {j k}, gen'.searchNodes.get? j = some k → ∃ n, gen'.graph.get? j = some n)
    (hown : ∀ p older, gen.provider = some p → history.get? p = some older →
      gen.ProvidedBy analysis older → gen'.ProvidedBy analysis older)
    (hothers : ∀ i younger, index < i → history.get? i = some younger →
      younger.ProvidedBy analysis gen → younger.ProvidedBy analysis gen') :
    (history.set index gen').Provided analysis top := by
  have hset : ∀ i, (history.set index gen').get? i =
      if i = index then some gen' else history.get? i := History.get?_set (History.lt_length hgen)
  refine ⟨fun {i gen₁} hi => ?_, fun {i gen₁ p} hi hp => ?_⟩
  · rw [hset] at hi
    split at hi
    · obtain rfl := Option.some.inj hi
      exact hnode
    · exact h.node hi
  · rw [hset] at hi
    split at hi
    · rename_i heq
      subst heq
      obtain rfl := Option.some.inj hi
      rw [hsame] at hp
      obtain ⟨hlt, htop, older, holder, hprovided⟩ := h.provider hgen hp
      exact ⟨hlt, htop, older, by rw [hset, if_neg (by omega), holder],
        hown p older hp holder hprovided⟩
    · obtain ⟨hlt, htop, older, holder, hprovided⟩ := h.provider hi hp
      refine ⟨hlt, htop, ?_⟩
      by_cases heq : p = index
      · subst heq
        obtain rfl := Option.some.inj (hgen.symm.trans holder)
        exact ⟨gen', by rw [hset, if_pos rfl], hothers i gen₁ hlt hi hprovided⟩
      · exact ⟨older, by rw [hset, if_neg heq, holder], hprovided⟩

/-- Writing a later state of a generation. -/
theorem Provided.set_of_keeps (h : history.Provided analysis top)
    (hgen : history.get? index = some gen) (hkeeps : gen.Keeps gen')
    (hnode : ∀ {j k}, gen'.searchNodes.get? j = some k → ∃ n, gen'.graph.get? j = some n)
    (hown : ∀ p older, gen.provider = some p → history.get? p = some older →
      gen.ProvidedBy analysis older → gen'.ProvidedBy analysis older) :
    (history.set index gen').Provided analysis top :=
  h.set hgen hkeeps.provider hnode hown fun _ _ _ _ hprovided => hprovided.keeps hkeeps

/-- Writing the live generation, which provides for no other. -/
theorem Provided.set_live (h : history.Provided analysis top) (hlength : history.length = top + 1)
    (hgen : history.get? top = some gen) (hsame : gen'.provider = gen.provider)
    (hcarries : gen.Carries gen') : (history.set top gen').Provided analysis top := by
  refine h.set hgen hsame (fun {j k} hk => ?_) (fun _ _ _ _ hprovided => hprovided.carries hcarries)
    fun i younger hlt hi => ?_
  · obtain ⟨_, _, n', -, -, -, -, hn', -⟩ := hcarries j k hk
    exact ⟨n', hn'⟩
  · have := History.lt_length hi
    omega

/-- In the copy that goes on, each node is provided for by itself. -/
theorem Provided.freeze (h : history.Provided analysis top) (hlength : history.length = top + 1)
    (hrefl : ∀ a, analysis.isLeq a a = true) (hlive : history.get? top = some gen) :
    (history.push (gen.resetOnto top)).Provided analysis (top + 1) := by
  have hpush := history.get?_push (gen.resetOnto top)
  rw [hlength] at hpush
  have hold : ∀ {i old}, history.get? i = some old →
      (history.push (gen.resetOnto top)).get? i = some old := by
    intro i old hi
    have := History.lt_length hi
    rw [hpush, if_neg (by omega), hi]
  refine ⟨fun {i gen₁} hi j k hk => ?_, fun {i gen₁ p} hi hp => ?_⟩
  · rw [hpush] at hi
    split at hi
    · obtain rfl := Option.some.inj hi
      obtain ⟨-, _, hk'⟩ := Generation.exists_of_resetOnto hk
      exact h.node hlive hk'
    · exact h.node hi hk
  · rw [hpush] at hi
    split at hi
    · rename_i heq
      subst heq
      obtain rfl := Option.some.inj hi
      obtain rfl := Option.some.inj hp
      refine ⟨Nat.lt_succ_self _, fun _ => rfl, gen, hold hlive, fun j k q hk hq => ?_⟩
      obtain ⟨rfl, _, hk'⟩ := Generation.exists_of_resetOnto hk
      obtain rfl := Option.some.inj hq
      obtain ⟨n, hn⟩ := h.node hlive hk'
      exact ⟨n, n, hn, hn, hrefl n.state⟩
    · rename_i hne
      obtain ⟨hlt, -, older, holder, hprovided⟩ := h.provider hi hp
      exact ⟨hlt, fun heq => absurd heq hne, older, hold holder, hprovided⟩

/-- Where only the previous generation is retained, only the live one still has a provider, which is
that generation. -/
theorem Provided.applyRetention (h : history.Provided analysis top)
    (hlength : history.length = top + 1) : history.applyRetention.Provided analysis top := by
  cases hretention : history.retention with
  | all => exact (History.applyRetention_of_all hretention).symm ▸ h
  | previous =>
    have hget := History.get?_applyRetention_of_previous hretention
    rw [hlength] at hget
    refine ⟨fun hi j k hk => ?_, fun {i gen p} hi hp => ?_⟩
    · obtain ⟨old, hold, rfl | rfl⟩ := History.exists_of_get?_applyRetention hi
      · exact h.node hold hk
      · obtain ⟨k', hk', -⟩ := Generation.exists_of_releaseProvider hk
        exact h.node hold hk'
    · have htop : i = top ∧ history.get? i = some gen := by
        rw [hget] at hi
        split at hi
        · cases hi
        · split at hi
          · obtain ⟨old, -, rfl⟩ := Option.map_eq_some_iff.1 hi
            simp [Generation.releaseProvider] at hp
          · have := History.lt_length hi
            exact ⟨by omega, hi⟩
      obtain ⟨rfl, hold⟩ := htop
      obtain ⟨hlt, hbefore, older, holder, hprovided⟩ := h.provider hold hp
      have hp' := hbefore rfl
      refine ⟨hlt, hbefore, older.releaseProvider, ?_, hprovided⟩
      rw [hget, if_neg (by omega), if_pos (by omega), holder, Option.map_some]

theorem Answered.set (h : history.Answered) (hprovided : history.Provided analysis top)
    (hgen : history.get? index = some gen) (hsame : gen'.provider = gen.provider)
    (hgrounded : gen'.Grounded)
    (hown : ∀ p older, gen.provider = some p → history.get? p = some older →
      gen.Inherits older → gen'.Inherits older)
    (hothers : ∀ i younger, index < i → history.get? i = some younger →
      younger.Inherits gen → younger.Inherits gen') :
    (history.set index gen').Answered := by
  have hset : ∀ i, (history.set index gen').get? i =
      if i = index then some gen' else history.get? i := History.get?_set (History.lt_length hgen)
  refine ⟨fun {i gen₁} hi => ?_, fun {i gen₁ p older} hi hp holder => ?_⟩
  · rw [hset] at hi
    split at hi
    · obtain rfl := Option.some.inj hi
      exact hgrounded
    · exact h.grounded hi
  · rw [hset] at hi holder
    split at hi
    · rename_i heq
      subst heq
      obtain rfl := Option.some.inj hi
      rw [hsame] at hp
      obtain ⟨hlt, -⟩ := hprovided.provider hgen hp
      rw [if_neg (by omega)] at holder
      exact hown p older hp holder (h.inherits hgen hp holder)
    · obtain ⟨hlt, -⟩ := hprovided.provider hi hp
      split at holder
      · rename_i heq
        subst heq
        obtain rfl := Option.some.inj holder
        exact hothers i gen₁ hlt hi (h.inherits hi hp hgen)
      · exact h.inherits hi hp holder

/-- Writing a later state of a generation. -/
theorem Answered.set_of_keeps (h : history.Answered) (hprovided : history.Provided analysis top)
    (hgen : history.get? index = some gen) (hkeeps : gen.Keeps gen') (hgrounded : gen'.Grounded)
    (hown : ∀ p older, gen.provider = some p → history.get? p = some older →
      gen.Inherits older → gen'.Inherits older) : (history.set index gen').Answered :=
  h.set hprovided hgen hkeeps.provider hgrounded hown fun _ _ _ _ hinherits =>
    hinherits.keeps hkeeps

/-- The copy that goes on has taken nothing over yet. -/
theorem Answered.freeze (h : history.Answered) (hprovided : history.Provided analysis top)
    (gen : Generation S P K) (copy : Nat) : (history.push (gen.resetOnto copy)).Answered := by
  have hpush := history.get?_push (gen.resetOnto copy)
  refine ⟨fun {i gen₁} hi => ?_, fun {i gen₁ p older} hi hp holder => ?_⟩
  · rw [hpush] at hi
    split at hi
    · obtain rfl := Option.some.inj hi
      refine .of_unknown fun {j d} hd => ?_
      obtain ⟨k, hk, rfl⟩ := Generation.distance_eq_ok.1 hd
      rw [(Generation.exists_of_resetOnto hk).1]
    · exact h.grounded hi
  · rw [hpush] at hi holder
    split at hi
    · obtain rfl := Option.some.inj hi
      intro j k q n hk _ _ _ hknown
      simp [(Generation.exists_of_resetOnto hk).1, Distance.isKnown] at hknown
    · have hlt := (hprovided.provider hi hp).1
      have := History.lt_length hi
      rw [if_neg (by omega)] at holder
      exact h.inherits hi hp holder

end History

/-! ## Moves -/

namespace Exploration

variable [DecidableEq S] [DecidableEq K] {setup : Setup S P K} {top index : Nat}
variable {p q : Progress S P K}

/-- **Every provider stays where it is, and subsumes**: also the coverer that replaces a covered one. -/
theorem Move.provided (hmove : Move setup top index p q)
    (htrans : ∀ {a b c}, setup.analysis.isLeq a b = true → setup.analysis.isLeq b c = true →
      setup.analysis.isLeq a c = true) (hdisciplined : p.history.Disciplined setup.analysis top)
    (hp : p.history.Provided setup.analysis top) : q.history.Provided setup.analysis top := by
  have hrewritten : ∀ {gen gen' : Generation S P K} {id : NodeId} {k' : SearchNode},
      p.history.get? index = some gen → gen.Rewrites gen' id k' → (∃ n, gen.graph.get? id = some n) →
        ∀ {j k}, gen'.searchNodes.get? j = some k → ∃ n, gen'.graph.get? j = some n := by
    intro gen gen' id k' hgen hrewrites hid j k hk
    rw [hrewrites.get?] at hk
    rw [hrewrites.graph]
    split at hk
    · rename_i heq
      exact heq ▸ hid
    · exact hp.node hgen hk
  have hcarried : ∀ {gen gen' : Generation S P K}, p.history.get? index = some gen →
      gen.Keeps gen' → gen.Carries gen' → (p.put index gen').history.Provided setup.analysis top := by
    intro gen gen' hgen hkeeps hcarries
    refine hp.set_of_keeps hgen hkeeps (fun {j k} hk => ?_)
      fun _ _ _ _ hprovided => hprovided.carries hcarries
    obtain ⟨_, _, n', -, -, -, -, hn', -⟩ := hcarries j k hk
    exact ⟨n', hn'⟩
  cases hmove with
  | nested _ => exact hp
  | heuristic hgen _ hset =>
    obtain ⟨n, k, hn, hk, -, hrewrites, -⟩ := Generation.setHeuristic_ok hset
    exact hp.set_of_keeps hgen (Generation.keeps_of_setHeuristic hset)
      (hrewritten hgen hrewrites ⟨n, hn⟩) fun _ _ _ _ hprovided =>
        hprovided.rewrites hrewrites fun q hq => hprovided _ k q hk hq
  | @repoint gen gen' older below id provider coverer k m hgen hbelow holder hk hprovider _ hm hcovering
      hset =>
    obtain ⟨k', hk', hrewrites⟩ := Generation.setProvider_ok hset
    obtain rfl := Option.some.inj (hk.symm.trans hk')
    refine hp.set_of_keeps hgen (Generation.keeps_of_setProvider hset)
      (hrewritten hgen hrewrites (hp.node hgen hk)) fun p' older' hp' holder' hprovided => ?_
    obtain rfl := Option.some.inj (hbelow.symm.trans hp')
    obtain rfl := Option.some.inj (holder.symm.trans holder')
    refine hprovided.rewrites hrewrites fun q hq => ?_
    obtain rfl := Option.some.inj hq
    obtain ⟨n, m', hn, hm', hleq⟩ := hprovided id k provider hk hprovider
    obtain rfl := Option.some.inj (hm.symm.trans hm')
    obtain ⟨-, -, -, b, hb, hleq', -⟩ := (hdisciplined.graph holder).covering hm hcovering
    exact ⟨n, b, hn, hb, htrans hleq hleq'⟩
  | register hgen hnew hset =>
    obtain ⟨hid, -, hrewrites⟩ := Generation.register_ok hset
    refine hp.set_of_keeps hgen (Generation.keeps_of_register hset)
      (hrewritten hgen hrewrites hid) fun p' older hp' holder hprovided =>
        hprovided.rewrites hrewrites fun q hq => ?_
    obtain ⟨below, older', m, n, hbelow, holder', hm, hn, hleq⟩ := hnew q hq
    obtain rfl := Option.some.inj (hbelow.symm.trans hp')
    obtain rfl := Option.some.inj (holder.symm.trans holder')
    exact ⟨n, m, hn, hm, hleq⟩
  | cover hgen _ _ _ _ _ _ hrun =>
    have hgrows := Graph.grows_of_cover hrun
    exact hcarried hgen (.of_grows hgrows) (Generation.carries_of_grows (hp.node hgen) hgrows)
  | expand hgen hn _ hopen _ hrun =>
    have hgrows := (Graph.expand_leaves hn hopen hrun).1.grows
    exact hcarried hgen (.of_grows hgrows) (Generation.carries_of_grows (hp.node hgen) hgrows)
  | seed hgen hopen hrun =>
    have hgrows := (Graph.seed_leaves hopen hrun).grows
    exact hcarried hgen (.of_grows hgrows) (Generation.carries_of_grows (hp.node hgen) hgrows)
  | settle hsettle =>
    obtain ⟨_, _, hgen, hwrites, rfl⟩ := hsettle.exists_writes
    exact hcarried hgen (.of_distanceWrites hwrites)
      (Generation.carries_of_distanceWrites (hp.node hgen) hwrites)
  | exhaustive hgen _ hsettle =>
    have hwrites := Generation.settleExhaustive_writes hsettle
    exact hcarried hgen (.of_distanceWrites hwrites)
      (Generation.carries_of_distanceWrites (hp.node hgen) hwrites)

omit [DecidableEq S] [DecidableEq K] in
/-- With semi-on-demand heuristics, a node that is no target takes over what its provider answers. -/
theorem Source.answers {history : History S P K} {gen older : Generation S P K} {id q : NodeId}
    {d : Distance} {below : Nat} {k : SearchNode} {n : Node S}
    (hsource : Source setup history gen id d) (hsearch : setup.search = .semiOnDemand)
    (hprovided : history.Provided setup.analysis top) (ha : history.Answered)
    (hgen : history.get? index = some gen) (hbelow : gen.provider = some below)
    (holder : history.get? below = some older) (hk : gen.searchNodes.get? id = some k)
    (hprovider : k.provider = some q) (hn : gen.graph.get? id = some n)
    (htarget : n.isTarget = false) : older.Answers q d := by
  cases hsource with
  | target hn' htarget' =>
    obtain rfl := Option.some.inj (hn.symm.trans hn')
    simp [htarget] at htarget'
  | base hnone => simp [hnone] at hbelow
  | provider hbelow' holder' hk' hprovider' hvalue hknown =>
    obtain rfl := Option.some.inj (hbelow.symm.trans hbelow')
    obtain rfl := Option.some.inj (holder.symm.trans holder')
    obtain rfl := Option.some.inj (hk.symm.trans hk')
    obtain rfl := Option.some.inj (hprovider.symm.trans hprovider')
    obtain ⟨-, -, older', holder', hsubsumed⟩ := hprovided.provider hgen hbelow
    obtain rfl := Option.some.inj (holder.symm.trans holder')
    obtain ⟨-, m, -, hm, -⟩ := hsubsumed id k q hk hprovider
    exact (ha.grounded holder).answers hm hvalue hknown
  | root hdecreasing => simp [hsearch] at hdecreasing
  | parent hdecreasing => simp [hsearch] at hdecreasing
  | refutedParent hdecreasing => simp [hsearch] at hdecreasing

/-- **With semi-on-demand heuristics, what was taken over stays what the providers answer**, also when a
provider is replaced: that happens above promising nodes only, where the answer is not infinite. -/
theorem Move.answered (hmove : Move setup top index p q) (hsearch : setup.search = .semiOnDemand)
    (hdisciplined : p.history.Disciplined setup.analysis top)
    (hp : p.history.Provided setup.analysis top) (ha : p.history.Answered) : q.history.Answered := by
  have hwritten : ∀ {gen gen' : Generation S P K}, p.history.get? index = some gen →
      gen.DistanceWrites gen' → gen'.Grounded → (p.put index gen').history.Answered := by
    intro gen gen' hgen hwrites hgrounded
    exact ha.set_of_keeps hp hgen (.of_distanceWrites hwrites) hgrounded fun _ _ _ _ hinherits =>
      hinherits.carries (Generation.carries_of_distanceWrites (hp.node hgen) hwrites)
  have hgrown : ∀ {gen : Generation S P K} {graph : Graph S}, p.history.get? index = some gen →
      gen.graph.Grows graph → Generation.Grounded { gen with graph } →
        (p.put index { gen with graph }).history.Answered := by
    intro gen graph hgen hgrows hgrounded
    exact ha.set_of_keeps hp hgen (.of_grows hgrows) hgrounded fun _ _ _ _ hinherits =>
      hinherits.carries (Generation.carries_of_grows (hp.node hgen) hgrows)
  cases hmove with
  | nested _ => exact ha
  | @heuristic gen gen' id value hgen hsource hset =>
    obtain ⟨-, k, -, hk, -, hrewrites, -⟩ := Generation.setHeuristic_ok hset
    have hkeeps := Generation.keeps_of_setHeuristic hset
    exact ha.set_of_keeps hp hgen hkeeps ((ha.grounded hgen).rewrites hkeeps hrewrites
      fun _ => Generation.distance_eq_ok.2 ⟨k, hk, rfl⟩) fun _ _ hbelow holder hinherits =>
        hinherits.rewrites hrewrites fun _ _ hq hn htarget _ =>
          hsource.answers hsearch hp ha hgen hbelow holder hk hq hn htarget
  | @repoint gen gen' older below id provider coverer k m hgen hbelow holder hk hprovider hpromising hm
      hcovering hset =>
    obtain ⟨k', hk', hrewrites⟩ := Generation.setProvider_ok hset
    obtain rfl := Option.some.inj (hk.symm.trans hk')
    have hkeeps := Generation.keeps_of_setProvider hset
    refine ha.set_of_keeps hp hgen hkeeps ((ha.grounded hgen).rewrites hkeeps hrewrites
      fun _ => Generation.distance_eq_ok.2 ⟨k, hk, rfl⟩) fun p' older' hp' holder' hinherits =>
        hinherits.rewrites hrewrites fun q n hq hn htarget hknown => ?_
    obtain rfl := Option.some.inj (hbelow.symm.trans hp')
    obtain rfl := Option.some.inj (holder.symm.trans holder')
    obtain rfl := Option.some.inj hq
    have hanswers := hinherits id k provider n hk hprovider hn htarget hknown
    refine (ha.grounded holder).answers_coverer (hdisciplined.graph holder) hm hcovering hanswers
      hknown ?_
    obtain ⟨d, hd, -, hfinite | ⟨n', hn', htarget'⟩⟩ := hpromising
    · obtain ⟨k', hk', rfl⟩ := Generation.heuristic_eq_ok.1 hd
      exact Option.some.inj (hk'.symm.trans hk) ▸ hfinite
    · obtain rfl := Option.some.inj (hn.symm.trans hn')
      simp [htarget] at htarget'
  | register hgen hnew hset =>
    obtain ⟨-, -, hrewrites⟩ := Generation.register_ok hset
    have hkeeps := Generation.keeps_of_register hset
    refine ha.set_of_keeps hp hgen hkeeps ((ha.grounded hgen).rewrites hkeeps hrewrites ?_)
      fun _ _ _ _ hinherits => hinherits.rewrites hrewrites ?_
    · simp [Distance.isKnown]
    · simp [Distance.isKnown]
  | cover hgen ha' hb hleaf _ htarget _ hrun =>
    exact hgrown hgen (Graph.grows_of_cover hrun)
      ((ha.grounded hgen).cover (hdisciplined.graph hgen).wellFormed ha' hb hleaf htarget hrun)
  | expand hgen hn _ hopen _ hrun =>
    have hadded := (Graph.expand_leaves hn hopen hrun).1
    exact hgrown hgen hadded.grows ((ha.grounded hgen).of_addedLeaves (hp.node hgen) hadded)
  | seed hgen hopen hrun =>
    have hadded := Graph.seed_leaves hopen hrun
    exact hgrown hgen hadded.grows ((ha.grounded hgen).of_addedLeaves (hp.node hgen) hadded)
  | settle hsettle =>
    cases hsettle with
    | target hgen hn htarget hset =>
      exact hwritten hgen (.of_setDistance hset)
        ((ha.grounded hgen).of_deduction (hdisciplined.graph hgen) (.target hn htarget hset))
    | start hgen _ hset =>
      exact hwritten hgen (.of_setDistance hset) ((ha.grounded hgen).setInfinite hset)
    | guided hgen hsettle =>
      have hdeductions :=
        Generation.settleGuided_deductions (hdisciplined.graph hgen).wellFormed hsettle
      exact hwritten hgen hdeductions.writes
        ((ha.grounded hgen).of_deductions (hdisciplined.graph hgen) hdeductions)
  | exhaustive _ hfull _ => simp [hsearch] at hfull

end Exploration

/-! ## Histories that checks lead to -/

/-- What is left of a graph was there before, with the same states. -/
theorem Graph.CutBack.node {g g' : Graph S} (h : g.CutBack g') (hwf : g.WellFormed) :
    g'.WellFormed ∧ ∀ {i n'}, g'.get? i = some n' →
      ∃ n, g.get? i = some n ∧ n'.state = n.state ∧ n'.isTarget = n.isTarget := by
  induction h with
  | refl => exact ⟨hwf, fun hn => ⟨_, hn, rfl, rfl⟩⟩
  | tail _ hlast ih =>
    obtain ⟨hwf, hnode⟩ := ih
    obtain ⟨id, hprune⟩ | rfl := hlast
    · have hpruned := Graph.prune_ok hwf hprune
      refine ⟨hpruned.wellFormed hwf, fun {i n'} hn' => ?_⟩
      obtain ⟨-, n, hn, rfl⟩ := hpruned.exists_of_get? hn'
      obtain ⟨m, hm, hstate, htarget⟩ := hnode hn
      exact ⟨m, hm, hstate, htarget⟩
    · exact ⟨{ hwf with }, hnode⟩

section

variable [DecidableEq K] {analysis : Analysis S P K} {gen gen' : Generation S P K}

/-- What the caller has left of a generation carries on what it had. -/
theorem Generation.carries_of_dropPruned {g : Graph S} {prec : P} (hwf : gen.graph.WellFormed)
    (hcut : gen.graph.CutBack g)
    (hdrop : Generation.dropPruned { gen with graph := g, prec } analysis = .ok gen') :
    gen.Carries gen' := by
  obtain ⟨hgraph, -, -, hget⟩ := Generation.dropPruned_ok hdrop
  intro i k hk
  rw [hget] at hk
  split at hk
  · rename_i hcontains
    obtain ⟨n', hn'⟩ := Graph.contains_iff.1 hcontains
    obtain ⟨n, hn, hstate, htarget⟩ := (hcut.node hwf).2 hn'
    exact ⟨k, n, n', hk, rfl, rfl, hn, hgraph ▸ hn', hstate, htarget⟩
  · cases hk

end

namespace History.Evolves

variable [DecidableEq S] [DecidableEq K] {analysis : Analysis S P K} {search : SearchType} {top : Nat}
variable {history : History S P K}

/-- **Every provider is there and subsumes.** -/
theorem provided (h : Evolves analysis search top history)
    (hrefl : ∀ a, analysis.isLeq a a = true)
    (htrans : ∀ {a b c}, analysis.isLeq a b = true → analysis.isLeq b c = true →
      analysis.isLeq a c = true) : history.Provided analysis top := by
  induction h with
  | first prec =>
    refine ⟨fun hgen _ _ hk => ?_, fun hgen hp => ?_⟩
    · simp [History.eq_of_get?_first hgen, NodeMap.get?_empty] at hk
    · simp [History.eq_of_get?_first hgen] at hp
  | move hevolves _ hmove ih => exact hmove.provided htrans (hevolves.disciplined htrans) ih
  | uncover hevolves _ hgen _ hrun ih =>
    obtain ⟨_, -, hrewritten⟩ :=
      Graph.uncover_ok ((hevolves.disciplined htrans).graph hgen).wellFormed hrun
    refine ih.set_live hevolves.length hgen rfl fun j k hk => ?_
    obtain ⟨n, hn⟩ := ih.node hgen hk
    exact ⟨k, n, _, hk, rfl, rfl, hn, hrewritten.get?_of_get? hn, rfl, rfl⟩
  | install hevolves hgen _ hcut hdrop ih =>
    obtain ⟨-, -, hsame, -⟩ := Generation.dropPruned_ok hdrop
    exact ih.set_live hevolves.length hgen hsame (Generation.carries_of_dropPruned
      ((hevolves.disciplined htrans).graph hgen).wellFormed hcut hdrop)
  | freeze hevolves hfreeze ih =>
    obtain ⟨live, hlive, -, rfl⟩ := History.freezeLive_ok hfreeze
    rw [hevolves.length, Nat.add_sub_cancel] at hlive ⊢
    exact ih.freeze hevolves.length hrefl hlive
  | retain hevolves ih => exact ih.applyRetention hevolves.length

/-- **With semi-on-demand heuristics, every provider answers what was taken over.** -/
theorem answered (h : Evolves analysis search top history) (hsearch : search = .semiOnDemand)
    (hrefl : ∀ a, analysis.isLeq a a = true)
    (htrans : ∀ {a b c}, analysis.isLeq a b = true → analysis.isLeq b c = true →
      analysis.isLeq a c = true) : history.Answered := by
  induction h with
  | first prec =>
    refine ⟨fun hgen => .of_unknown fun {i d} hd => ?_, fun hgen hp => ?_⟩
    · obtain ⟨k, hk, -⟩ := Generation.distance_eq_ok.1 hd
      simp [History.eq_of_get?_first hgen, NodeMap.get?_empty] at hk
    · simp [History.eq_of_get?_first hgen] at hp
  | move hevolves _ hmove ih =>
    exact hmove.answered hsearch (hevolves.disciplined htrans) (hevolves.provided hrefl htrans) ih
  | uncover _ hdecreasing => simp [hsearch] at hdecreasing
  | install hevolves hgen hrenewed hcut hdrop ih =>
    have hprovided := hevolves.provided hrefl htrans
    have hcarries := Generation.carries_of_dropPruned
      ((hevolves.disciplined htrans).graph hgen).wellFormed hcut hdrop
    obtain ⟨-, -, hsame, hget⟩ := Generation.dropPruned_ok hdrop
    refine ih.set hprovided hgen hsame (.of_unknown fun {i d} hd => ?_)
      (fun _ _ _ _ hinherits => hinherits.carries hcarries) fun i younger hlt hi => ?_
    · obtain ⟨k, hk, rfl⟩ := Generation.distance_eq_ok.1 hd
      rw [hget] at hk
      split at hk
      · exact (hrenewed.searchNode hk).2
      · cases hk
    · have := History.lt_length hi
      have := hevolves.length
      omega
  | freeze hevolves hfreeze ih =>
    obtain ⟨live, -, -, rfl⟩ := History.freezeLive_ok hfreeze
    exact ih.freeze (hevolves.provided hrefl htrans) live _
  | @retain top history hevolves ih =>
    have hall : history.retention = .all := hevolves.retention.trans (by rw [hsearch]; rfl)
    rw [History.applyRetention_of_all hall]
    exact ih

end History.Evolves

/-! ## Runs -/

namespace Abstractor

variable [DecidableEq S] [DecidableEq K] {analysis : Analysis S P K} {config : Config}
variable {mayFollow : Option P → P → Prop} {lastPrec : Option P}
variable {abstractor abstractor' : Abstractor S P K} {g g' : Graph S} {prec : P} {fuel : Nat}
variable {verdict : Verdict}

/-- After a check with full searches, no heuristics have been taken over yet: the live generation was
reset, and no other one has a provider. -/
theorem Underway.heuristic_unknown (h : Underway abstractor.analysis abstractor.config abstractor g)
    (hfull : abstractor.config.search = .full)
    (hcheck : abstractor.check fuel g prec = .ok (verdict, abstractor', g')) {i p : Nat}
    {gen : Generation S P K} (hgen : (abstractor'.generations g').get? i = some gen)
    (hp : gen.provider = some p) {j : NodeId} {k : SearchNode}
    (hk : gen.searchNodes.get? j = some k) : k.heuristic = .unknown := by
  obtain ⟨index, fresh, begun, solved, frozen, resumed, last, live, hcourse, -, -, -, -, hhistory,
    rfl⟩ := check_ok hcheck
  have hevolution := hcourse.evolution h
  have hlength := hevolution.resumes.evolves.length
  have hretention : resumed.history.retention = .previous :=
    hevolution.resumes.evolves.retention.trans (by simp [setup, hfull, SearchType.retention])
  rw [get?_generations (by rw [History.length_applyRetention, hlength]) hhistory] at hgen
  split at hgen
  · have hresume := hcourse.resume
    simp only [Exploration.resumeLive, setup, hfull] at hresume
    obtain ⟨-, rfl⟩ := Explore.run_pure_ok.1 hresume
    have hlive := hevolution.isLive
    have hsolved := hevolution.solves.length.trans hevolution.evolves.length
    rw [hevolution.freezes, History.get?_push, if_pos hsolved.symm] at hlive
    obtain rfl := Option.some.inj hlive
    obtain rfl := Option.some.inj hgen
    rw [(Generation.exists_of_resetOnto hk).1]
  · rename_i hne
    rw [History.get?_applyRetention_of_previous hretention, hlength] at hgen
    split at hgen
    · cases hgen
    · split at hgen
      · obtain ⟨_, -, rfl⟩ := Option.map_eq_some_iff.1 hgen
        simp [Generation.releaseProvider] at hp
      · have := History.lt_length hgen
        omega

/-- **Providers are older nodes that subsume, and their answers were taken over.** After every check, the
generation that provides for another one is an older one, and is held; the provider of a node is there
and subsumes it. Unless heuristics are decreasing, each known heuristic of a node that is no target is
0, if its provider is a target, and otherwise the distance of the provider, which is known. -/
theorem providers_sound (h : Run analysis config mayFollow lastPrec abstractor g)
    (hrefl : ∀ a, analysis.isLeq a a = true)
    (htrans : ∀ a b c, analysis.isLeq a b = true → analysis.isLeq b c = true →
      analysis.isLeq a c = true)
    (hcheck : abstractor.check fuel g prec = .ok (verdict, abstractor', g')) {index p : Nat}
    {gen : Generation S P K} (hgen : (abstractor'.generations g').get? index = some gen)
    (hp : gen.provider = some p) :
    p < index ∧ ∃ older, (abstractor'.generations g').get? p = some older ∧
      ∀ {i k q}, gen.searchNodes.get? i = some k → k.provider = some q → ∃ n m,
        gen.graph.get? i = some n ∧ older.graph.get? q = some m ∧
        analysis.isLeq n.state m.state = true ∧
        (config.search ≠ .decreasing → n.isTarget = false → k.heuristic.isKnown = true →
          m.isTarget = true ∧ k.heuristic = .zero ∨
            m.isTarget = false ∧ older.distance q = .ok k.heuristic) := by
  obtain ⟨history, live, hevolves, hheld, -⟩ := h.evolves hcheck
  have hgen' := hgen
  rw [hheld] at hgen'
  obtain ⟨hlt, -, older, holder, hprovided⟩ :=
    (hevolves.provided hrefl (htrans _ _ _)).provider hgen' hp
  refine ⟨hlt, older, (hheld p).trans holder, fun {i k q} hk hq => ?_⟩
  obtain ⟨n, m, hn, hm, hleq⟩ := hprovided i k q hk hq
  refine ⟨n, m, hn, hm, hleq, fun hsearch htarget hknown => ?_⟩
  obtain ⟨hunderway, rfl, rfl⟩ := h.underway
  cases hsearch' : abstractor.config.search with
  | decreasing => exact absurd hsearch' hsearch
  | full =>
    rw [hunderway.heuristic_unknown hsearch' hcheck hgen hp hk] at hknown
    simp [Distance.isKnown] at hknown
  | semiOnDemand =>
    obtain ⟨m', hm', hanswer⟩ := (hevolves.answered hsearch' hrefl (htrans _ _ _)).inherits hgen' hp
      holder i k q n hk hq hn htarget hknown
    obtain rfl := Option.some.inj (hm.symm.trans hm')
    exact hanswer

/-- In the second of two rounds, node 4 gets its heuristic from node 0 of the first one, where a nested
search finds the distance. -/
theorem providers_sound_forked :
    let config : Config := ⟨.semiOnDemand, .firstCounterexample, by decide, by decide⟩
    let analysis := TransitionSystem.forked.blockAnalysis
    (∀ a, analysis.isLeq a a = true) ∧
    (∀ a b c, analysis.isLeq a b = true → analysis.isLeq b c = true → analysis.isLeq a c = true) ∧
    ∃ last abstractor abstractor' g g' partition gen older k n m,
      RefinementRun TransitionSystem.forked config last abstractor g ∧
      abstractor.check 9 g partition = .ok (.counterexample, abstractor', g') ∧
      (abstractor'.generations g').get? 1 = some gen ∧ gen.provider = some 0 ∧ 0 < 1 ∧
      (abstractor'.generations g').get? 0 = some older ∧
      gen.searchNodes.get? 4 = some k ∧ k.provider = some 0 ∧ gen.graph.get? 4 = some n ∧
      older.graph.get? 0 = some m ∧ analysis.isLeq n.state m.state = true ∧
      n.isTarget = false ∧ k.heuristic = .finite 1 ∧ older.distance 0 = .ok (.finite 1) := by
  intro config analysis
  let partition := (Partition.initial TransitionSystem.forked).split (.ofList [0])
  have hrefl : ∀ a, analysis.isLeq a a = true := fun a =>
    TransitionSystem.forked.blockAnalysis_lawful.isLeq_refl a
  have htrans : ∀ a b c, analysis.isLeq a b = true → analysis.isLeq b c = true →
      analysis.isLeq a c = true := fun _ _ _ =>
    TransitionSystem.forked.blockAnalysis_lawful.isLeq_trans
  have hrounds : (check { analysis, config } 9 {} (.initial TransitionSystem.forked)).map (fun first =>
      Graph.pruneAll.result first.2.2 |>.map fun pruned =>
        (first.2.1.check 9 pruned.2 partition).map fun second => do
          let gen ← (second.2.1.generations second.2.2).get? 1
          let k ← gen.searchNodes.get? 4
          let n ← gen.graph.get? 4
          let older ← (second.2.1.generations second.2.2).get? 0
          let m ← older.graph.get? 0
          return decide (second.1 = .counterexample ∧ gen.provider = some 0 ∧ k.provider = some 0 ∧
            k.heuristic = .finite 1 ∧ n.isTarget = false ∧ m.isTarget = false)) =
      .ok (.ok (.ok (some true))) := by
    decide +kernel
  obtain ⟨⟨_, abstractor, g⟩, hfirst, hrounds⟩ := map_eq_ok.1 hrounds
  obtain ⟨⟨⟨⟩, g'⟩, hprune, hrounds⟩ := map_eq_ok.1 hrounds
  obtain ⟨⟨verdict, abstractor', g''⟩, hsecond, hrounds⟩ := map_eq_ok.1 hrounds
  simp only [Option.bind_eq_bind, Option.bind_eq_some_iff, Option.pure_def, Option.some.injEq,
    decide_eq_true_eq] at hrounds
  obtain ⟨gen, hgen, k, hk, n, hn, older, holder, m, hm, rfl, hprovider, hq, hheuristic, htarget,
    htarget'⟩ := hrounds
  have hrun : RefinementRun TransitionSystem.forked config
      (some (.initial TransitionSystem.forked)) abstractor g' :=
    .pruneAll (.check .start .refl hfirst) (Edit.result_eq_ok.1 hprune)
  obtain ⟨hlt, older', holder', hsound⟩ :=
    providers_sound hrun hrefl htrans hsecond hgen hprovider
  obtain rfl := Option.some.inj (holder.symm.trans holder')
  obtain ⟨n', m', hn', hm', hleq, hanswer⟩ := hsound hk hq
  obtain rfl := Option.some.inj (hn.symm.trans hn')
  obtain rfl := Option.some.inj (hm.symm.trans hm')
  have hdistance : older.distance 0 = .ok (.finite 1) := by
    obtain ⟨ht, -⟩ | ⟨-, hd⟩ := hanswer (by decide) htarget (by rw [hheuristic]; rfl)
    · simp [htarget'] at ht
    · rw [hd, hheuristic]
  exact ⟨hrefl, htrans, _, abstractor, abstractor', g', g'', partition, gen, older, k, n, m, hrun,
    hsecond, hgen, hprovider, hlt, holder, hk, hq, hn, hm, hleq, htarget, hheuristic, hdistance⟩

end Abstractor

end GuidedReach
