import GuidedReach.Proofs.Exploration.Keeps
import GuidedReach.Proofs.Graph.Grown

/-!
# What all work on a history has in common

Whatever an exploration is about, it only takes `Step`s and `Settle`s in some generations. So what
holds for these holds for every exploration, and also for one that has not come to its end.

* `Exploration.Works` — any number of changes of any generations.
* `Exploration.Upto.works`, `Exploration.Below.works` — every exploration works.
* `Exploration.Works.keeps` — what is known stays as it is.
* `Exploration.Works.grownFrom` — each graph grows under the precision of its generation.
-/

namespace GuidedReach.Exploration

variable {S P K : Type} [DecidableEq S] [DecidableEq K]
variable {setup : Setup S P K} {index bound i : Nat} {p q r : Progress S P K} {allowed : P → Prop}

/-- A change of some generation. -/
def Work (setup : Setup S P K) (p q : Progress S P K) : Prop :=
  ∃ index, Step setup index p q ∨ Settle setup index p q

/-- Any number of changes of any generations. -/
def Works (setup : Setup S P K) : Progress S P K → Progress S P K → Prop :=
  Relation.ReflTransGen (Work setup)

theorem Works.refl (p : Progress S P K) : Works setup p p := Relation.ReflTransGen.refl

theorem Works.trans (h : Works setup p q) (h' : Works setup q r) : Works setup p r :=
  Relation.ReflTransGen.trans h h'

theorem Step.works (h : Step setup index p q) : Works setup p q := .single ⟨index, .inl h⟩

theorem Settle.works (h : Settle setup index p q) : Works setup p q := .single ⟨index, .inr h⟩

theorem Below.works (h : Below setup bound p q) : Works setup p q := by
  induction h with
  | refl => exact .refl p
  | tail _ hlast ih =>
    obtain ⟨-, j, -, hstep | hsettle⟩ := hlast
    · exact ih.trans hstep.works
    · exact ih.trans hsettle.works

theorem Quiet.works (h : Quiet setup index p q) : Works setup p q := by
  induction h with
  | refl => exact .refl p
  | tail _ hlast ih =>
    obtain hstep | hbelow := hlast
    · exact ih.trans hstep.works
    · exact ih.trans hbelow.works

theorem Upto.works (h : Upto setup index p q) : Works setup p q := by
  induction h with
  | refl => exact .refl p
  | tail _ hlast ih =>
    obtain hsettle | hquiet := hlast
    · exact ih.trans hsettle.works
    · exact ih.trans hquiet.works

/-! ## What is kept -/

section

variable (hlaws : setup.analysis.Lawful) (hp : p.history.Faithful setup.analysis allowed)

include hlaws hp

theorem Work.keeps (h : Work setup p q) :
    q.history.Faithful setup.analysis allowed ∧ p.history.Keeps q.history := by
  obtain ⟨_, hstep | hsettle⟩ := h
  · exact hstep.keeps hlaws hp
  · exact hsettle.keeps hp

/-- **Work keeps what is known**, in all generations. -/
theorem Works.keeps (h : Works setup p q) :
    q.history.Faithful setup.analysis allowed ∧ p.history.Keeps q.history := by
  induction h with
  | refl => exact ⟨hp, .refl _⟩
  | tail _ hlast ih =>
    obtain ⟨hfaithful, hkeeps⟩ := hlast.keeps hlaws ih.1
    exact ⟨hfaithful, ih.2.trans hkeeps⟩

/-! ## Growth -/

/-- A step only adds what the analysis asks for. -/
theorem Step.grownFrom (h : Step setup index p q) {base : Graph S} {gen gen' : Generation S P K}
    (hgen : p.history.get? i = some gen) (hgen' : q.history.get? i = some gen')
    (hbase : base.GrownFrom setup.analysis gen.prec gen.graph) :
    base.GrownFrom setup.analysis gen.prec gen'.graph := by
  by_cases hi : i = index
  swap
  · rw [h.frame hi, hgen] at hgen'
    exact Option.some.inj hgen' ▸ hbase
  subst hi
  -- a generation whose graph stays as it is
  have hsame : ∀ {old new : Generation S P K}, p.history.get? i = some old → new.graph = old.graph →
      (p.put i new).history.get? i = some gen' →
      base.GrownFrom setup.analysis gen.prec gen'.graph := by
    intro old new hold hgraph hnew
    obtain rfl := Option.some.inj (hgen.symm.trans hold)
    rw [Progress.get?_put_self hgen] at hnew
    obtain rfl := Option.some.inj hnew
    exact hgraph ▸ hbase
  -- a generation with another graph
  have hother : ∀ {old : Generation S P K} {graph : Graph S}, p.history.get? i = some old →
      base.GrownFrom setup.analysis gen.prec graph →
      (p.put i { old with graph }).history.get? i = some gen' →
      base.GrownFrom setup.analysis gen.prec gen'.graph := by
    intro old graph hold hgraph hnew
    rw [Progress.get?_put_self hold] at hnew
    exact Option.some.inj hnew ▸ hgraph
  cases h with
  | count hq =>
    rw [hq, hgen] at hgen'
    exact Option.some.inj hgen' ▸ hbase
  | heuristic hold _ hset =>
    obtain ⟨_, _, -, -, -, hrewrites, -⟩ := Generation.setHeuristic_ok hset
    exact hsame hold hrewrites.graph hgen'
  | provider hold _ _ _ _ _ _ _ hset =>
    obtain ⟨_, -, hrewrites⟩ := Generation.setProvider_ok hset
    exact hsame hold hrewrites.graph hgen'
  | register hold _ hset =>
    obtain ⟨-, -, hrewrites⟩ := Generation.register_ok hset
    exact hsame hold hrewrites.graph hgen'
  | cover hold _ _ _ _ _ _ _ _ _ _ _ _ hrun =>
    obtain rfl := Option.some.inj (hgen.symm.trans hold)
    have hwf := (hp i gen hgen).1.wellFormed
    obtain ⟨-, _, _, -, -, -, -, hrewritten⟩ := Graph.cover_ok hwf hrun
    exact hother hgen (hbase.of_rewritten hrewritten (Graph.grows_of_cover hrun)
      fun _ _ => ⟨rfl, rfl, rfl, rfl⟩) hgen'
  | expand hold hn hfree hopen hfeasible _ _ _ _ hrun =>
    obtain rfl := Option.some.inj (hgen.symm.trans hold)
    obtain ⟨hfaithful, hprec⟩ := hp i gen hgen
    have hfeasible := hfeasible.elim (hfaithful.isFeasible_of_isTarget hlaws hn) id
    exact hother hgen (hbase.expand hfaithful hprec hn hfree hfeasible hopen hrun) hgen'
  | seed hold hopen hrun =>
    obtain rfl := Option.some.inj (hgen.symm.trans hold)
    obtain ⟨hfaithful, hprec⟩ := hp i gen hgen
    exact hother hgen (hbase.seed hfaithful hprec hopen hrun) hgen'

omit [DecidableEq S] [DecidableEq K] hlaws hp in
/-- Settling only writes distances. -/
theorem Settle.writes (h : Settle setup index p q) {gen gen' : Generation S P K}
    (hgen : p.history.get? i = some gen) (hgen' : q.history.get? i = some gen') :
    gen.DistanceWrites gen' := by
  by_cases hi : i = index
  swap
  · rw [h.frame hi, hgen] at hgen'
    exact Option.some.inj hgen' ▸ .refl gen
  subst hi
  have hwrites : ∀ {old new : Generation S P K}, p.history.get? i = some old →
      old.DistanceWrites new → (p.put i new).history.get? i = some gen' →
      gen.DistanceWrites gen' := by
    intro old new hold hnew hput
    obtain rfl := Option.some.inj (hgen.symm.trans hold)
    rw [Progress.get?_put_self hgen] at hput
    exact Option.some.inj hput ▸ hnew
  cases h with
  | target hold _ _ hset => exact hwrites hold (.of_setDistance hset) hgen'
  | start hold _ hset => exact hwrites hold (.of_setDistance hset) hgen'
  | guided hold hsettle =>
    have hsettles : Generation.Settles (fun _ => True) _ _ :=
      Generation.settleGuided_settles (fun _ _ => trivial) hsettle
    exact hwrites hold hsettles.toDistanceWrites hgen'

theorem Work.grownFrom (h : Work setup p q) {base : Graph S} {gen gen' : Generation S P K}
    (hgen : p.history.get? i = some gen) (hgen' : q.history.get? i = some gen')
    (hbase : base.GrownFrom setup.analysis gen.prec gen.graph) :
    base.GrownFrom setup.analysis gen.prec gen'.graph := by
  obtain ⟨_, hstep | hsettle⟩ := h
  · exact hstep.grownFrom hlaws hp hgen hgen' hbase
  · rw [(hsettle.writes hgen hgen').graph]
    exact hbase

/-- **Each graph grows under the precision of its generation**, whatever work is done. -/
theorem Works.grownFrom (h : Works setup p q) {gen gen' : Generation S P K}
    (hgen : p.history.get? i = some gen) (hgen' : q.history.get? i = some gen') :
    gen.graph.GrownFrom setup.analysis gen.prec gen'.graph := by
  induction h generalizing gen' with
  | refl =>
    obtain rfl := Option.some.inj (hgen.symm.trans hgen')
    exact .refl gen.graph
  | tail hbefore hlast ih =>
    obtain ⟨hfaithful, hkeeps⟩ := Works.keeps hlaws hp hbefore
    obtain ⟨mid, hmid, hkept⟩ := hkeeps i gen hgen
    exact hkept.prec ▸ hlast.grownFrom hlaws hfaithful hmid hgen' (hkept.prec ▸ ih hmid)

end

end GuidedReach.Exploration
