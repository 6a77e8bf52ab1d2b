import GuidedReach.Exploration.Basic
import Mathlib

/-!
# Computations that ended in a result

Computations of three kinds may fail: `Except`, `Edit` and `Explore`. The lemmas here say, for each
way of building one, what is known once it has ended in a result.

* `bind_eq_ok`, `forM_eq_ok`, `foldlM_induct`, `mapM_eq_ok`, `mem_filterM` — for plain results.
* `Edit.run_bind_ok`, `Edit.run_forM_induct`, `Edit.result_eq_ok` — for changes of a graph or a
  search.
* `Explore.run_bind_ok` and what follows it — for explorations, one lemma for each primitive and
  each loop.
-/

namespace GuidedReach

/-! ## Plain results -/

section Plain

variable {ε α β : Type}

theorem bind_eq_ok {x : Except ε α} {f : α → Except ε β} {b : β} :
    (x >>= f) = .ok b ↔ ∃ a, x = .ok a ∧ f a = .ok b := by
  cases x <;> simp [bind, Except.bind]

theorem ok_bind (a : α) (f : α → Except ε β) : (.ok a >>= f) = f a := rfl

theorem map_eq_ok {x : Except ε α} {f : α → β} {b : β} :
    (f <$> x) = .ok b ↔ ∃ a, x = .ok a ∧ f a = b := by
  cases x <;> simp [Functor.map, Except.map]

@[simp] theorem pure_eq_ok {a b : α} : (pure a : Except ε α) = .ok b ↔ a = b := by
  simp [pure, Except.pure]

@[simp] theorem throw_ne_ok {e : ε} {a : α} : (throw e : Except ε α) ≠ .ok a := by
  simp [throw, throwThe, MonadExceptOf.throw]

/-- A fault halts a computation. -/
@[simp] theorem lift_eq_ok {x : Except Fault α} {a : α} :
    (liftM x : Except Halt α) = .ok a ↔ x = .ok a := by
  cases x <;> simp [liftM, monadLift, MonadLift.monadLift, Except.mapError]

theorem forM_eq_ok {f : α → Except ε Unit} {l : List α} {u : Unit} :
    l.forM f = .ok u ↔ ∀ a ∈ l, f a = .ok () := by
  induction l with
  | nil => simp
  | cons a l ih =>
    have hcons : (a :: l).forM f = (f a >>= fun _ => l.forM f) := rfl
    rw [hcons, bind_eq_ok]
    simp only [ih, List.mem_cons, forall_eq_or_imp]
    exact ⟨fun ⟨_, h⟩ => h, fun h => ⟨(), h⟩⟩

/-- What every step of a fold keeps true holds of its result. -/
theorem foldlM_induct {motive : β → Prop} {f : β → α → Except ε β} {l : List α} {b b' : β}
    (hstep : ∀ c a c', a ∈ l → motive c → f c a = .ok c' → motive c') (hb : motive b)
    (h : l.foldlM f b = .ok b') : motive b' := by
  induction l generalizing b with
  | nil =>
    simp only [List.foldlM_nil, pure_eq_ok] at h
    exact h ▸ hb
  | cons a l ih =>
    simp only [List.foldlM_cons, bind_eq_ok] at h
    obtain ⟨c, hc, h⟩ := h
    exact ih (fun b a b' ha => hstep b a b' (List.mem_cons_of_mem _ ha))
      (hstep b a c List.mem_cons_self hb hc) h

theorem mapM_eq_ok {f : α → Except ε β} {l : List α} {bs : List β} :
    l.mapM f = .ok bs ↔ List.Forall₂ (fun a b => f a = .ok b) l bs := by
  induction l generalizing bs with
  | nil => simp only [List.mapM_nil, pure_eq_ok, List.forall₂_nil_left_iff, @eq_comm _ bs]
  | cons a l ih =>
    simp only [List.mapM_cons, bind_eq_ok, pure_eq_ok, ih, List.forall₂_cons_left_iff]
    grind

/-- What is read for the members of a list, and the members it is read for. -/
theorem exists_of_mapM_ok {f : α → Except ε β} {l : List α} {bs : List β} (h : l.mapM f = .ok bs) :
    (∀ a ∈ l, ∃ b ∈ bs, f a = .ok b) ∧ ∀ b ∈ bs, ∃ a ∈ l, f a = .ok b := by
  induction mapM_eq_ok.1 h with
  | nil => simp
  | cons hab hrest ih =>
    have ih := ih (mapM_eq_ok.2 hrest)
    refine ⟨List.forall_mem_cons.2 ⟨⟨_, List.mem_cons_self, hab⟩, fun a ha => ?_⟩,
      List.forall_mem_cons.2 ⟨⟨_, List.mem_cons_self, hab⟩, fun b hb => ?_⟩⟩
    · obtain ⟨b, hb, hf⟩ := ih.1 a ha
      exact ⟨b, List.mem_cons_of_mem _ hb, hf⟩
    · obtain ⟨a, ha, hf⟩ := ih.2 b hb
      exact ⟨a, List.mem_cons_of_mem _ ha, hf⟩

theorem filterAuxM_eq_ok {f : α → Except ε Bool} {l acc r : List α}
    (h : l.filterAuxM f acc = .ok r) (a : α) :
    a ∈ r ↔ a ∈ acc ∨ a ∈ l ∧ f a = .ok true := by
  induction l generalizing acc with
  | nil => simp at h; simp [h]
  | cons b l ih =>
    simp only [List.filterAuxM, bind_eq_ok] at h
    obtain ⟨keep, hkeep, h⟩ := h
    rw [ih h]
    cases keep <;> grind

theorem mem_filterM {f : α → Except ε Bool} {l r : List α} (h : l.filterM f = .ok r) (a : α) :
    a ∈ r ↔ a ∈ l ∧ f a = .ok true := by
  simp only [List.filterM, bind_eq_ok, pure_eq_ok] at h
  obtain ⟨kept, hkept, rfl⟩ := h
  simp [filterAuxM_eq_ok hkept]

/-- A search that found something was told so by a member. -/
theorem exists_of_anyM_ok {f : α → Except ε Bool} {l : List α}
    (h : l.anyM f = .ok true) : ∃ a ∈ l, f a = .ok true := by
  induction l with
  | nil => cases h
  | cons a l ih =>
    simp only [List.anyM, bind_eq_ok] at h
    obtain ⟨b, hb, h⟩ := h
    cases b with
    | true => exact ⟨a, List.mem_cons_self, hb⟩
    | false =>
      obtain ⟨c, hc, hf⟩ := ih h
      exact ⟨c, List.mem_cons_of_mem _ hc, hf⟩

theorem exists_of_filterAuxM_ok {f : α → Except ε Bool} {l acc r : List α}
    (h : l.filterAuxM f acc = .ok r) : ∀ a ∈ l, ∃ b, f a = .ok b := by
  induction l generalizing acc with
  | nil => simp
  | cons a l ih =>
    simp only [List.filterAuxM, bind_eq_ok] at h
    obtain ⟨keep, hkeep, h⟩ := h
    exact List.forall_mem_cons.2 ⟨⟨keep, hkeep⟩, ih h⟩

/-- A filter that ended in a result has tested every member. -/
theorem exists_of_filterM_ok {f : α → Except ε Bool} {l r : List α} (h : l.filterM f = .ok r) :
    ∀ a ∈ l, ∃ b, f a = .ok b := by
  simp only [List.filterM, bind_eq_ok] at h
  obtain ⟨kept, hkept, -⟩ := h
  exact exists_of_filterAuxM_ok hkept

end Plain

/-! ## Changes -/

namespace Edit

variable {σ α β : Type}

theorem run_bind_ok {x : Edit σ α} {f : α → Edit σ β} {s s' : σ} {b : β} :
    (x >>= f).run s = .ok b s' ↔ ∃ a t, x.run s = .ok a t ∧ (f a).run t = .ok b s' := by
  simp only [EStateM.run, bind, EStateM.bind]
  cases x s <;> simp

theorem run_bind_of_ok {x : Edit σ α} {f : α → Edit σ β} {a : α} {s s' : σ}
    (h : x.run s = .ok a s') : (x >>= f).run s = (f a).run s' := by
  simp only [EStateM.run, bind, EStateM.bind] at h ⊢
  rw [h]

theorem run_bind_of_error {x : Edit σ α} {f : α → Edit σ β} {fault : Fault} {s s' : σ}
    (h : x.run s = .error fault s') : (x >>= f).run s = .error fault s' := by
  simp only [EStateM.run, bind, EStateM.bind] at h ⊢
  rw [h]

@[simp] theorem run_pure_ok {a b : α} {s s' : σ} :
    (pure a : Edit σ α).run s = .ok b s' ↔ a = b ∧ s = s' := by
  simp [EStateM.run, pure, EStateM.pure]

@[simp] theorem run_get_ok {s s' t : σ} :
    (get : Edit σ σ).run s = .ok t s' ↔ s = t ∧ s = s' := by
  simp [EStateM.run, get, getThe, MonadStateOf.get, EStateM.get]

@[simp] theorem run_set_ok {s s' t : σ} {u : PUnit} :
    (set t : Edit σ PUnit).run s = .ok u s' ↔ s' = t := by
  simp [EStateM.run, set, EStateM.set, eq_comm]

@[simp] theorem run_modify_ok {f : σ → σ} {s s' : σ} {u : PUnit} :
    (modify f : Edit σ PUnit).run s = .ok u s' ↔ s' = f s := by
  simp [EStateM.run, modify, modifyGet, MonadStateOf.modifyGet, EStateM.modifyGet, eq_comm]

@[simp] theorem run_throw_ok {fault : Fault} {a : α} {s s' : σ} :
    (throw fault : Edit σ α).run s = .ok a s' ↔ False := by
  simp [EStateM.run, throw, throwThe, MonadExceptOf.throw, EStateM.throw]

@[simp] theorem run_lift_ok {x : Except Fault α} {a : α} {s s' : σ} :
    (liftM x : Edit σ α).run s = .ok a s' ↔ x = .ok a ∧ s = s' := by
  cases x <;>
    simp [liftM, monadLift, MonadLift.monadLift, EStateM.run, pure, EStateM.pure, throw, throwThe,
      MonadExceptOf.throw, EStateM.throw]

theorem run_forM_cons_ok {f : α → Edit σ PUnit} {a : α} {l : List α} {s s' : σ} {u : PUnit} :
    ((a :: l).forM f).run s = .ok u s' ↔
      ∃ t, (f a).run s = .ok ⟨⟩ t ∧ (l.forM f).run t = .ok u s' := by
  change (f a >>= fun _ => l.forM f).run s = .ok u s' ↔ _
  rw [run_bind_ok]
  exact ⟨fun ⟨_, t, ht, h⟩ => ⟨t, ht, h⟩, fun ⟨t, ht, h⟩ => ⟨⟨⟩, t, ht, h⟩⟩

/-- What every step of a loop keeps true holds when it has ended. -/
theorem run_forM_induct {motive : σ → Prop} {f : α → Edit σ PUnit} {l : List α} {s s' : σ}
    {u : PUnit} (hstep : ∀ a t t', a ∈ l → motive t → (f a).run t = .ok ⟨⟩ t' → motive t')
    (hs : motive s) (h : (l.forM f).run s = .ok u s') : motive s' := by
  induction l generalizing s with
  | nil =>
    obtain ⟨-, rfl⟩ : () = u ∧ s = s' := run_pure_ok.1 h
    exact hs
  | cons a l ih =>
    obtain ⟨t, ht, h⟩ := run_forM_cons_ok.1 h
    exact ih (fun b t t' hb => hstep b t t' (List.mem_cons_of_mem _ hb))
      (hstep a s t List.mem_cons_self hs ht) h

theorem result_eq_ok {x : Edit σ α} {s s' : σ} {a : α} :
    x.result s = .ok (a, s') ↔ x.run s = .ok a s' := by
  unfold result
  split <;> simp_all

end Edit

/-! ## Explorations -/

/-- The progress after writing a generation. -/
def Progress.put {S P K : Type} (p : Progress S P K) (index : Nat) (gen : Generation S P K) :
    Progress S P K :=
  { p with history := p.history.set index gen }

namespace Explore

variable {S P K α β : Type} {p p' : Progress S P K}

theorem run_bind_ok {x : Explore S P K α} {f : α → Explore S P K β} {b : β} :
    (x >>= f).run p = .ok (b, p') ↔
      ∃ a q, x.run p = .ok (a, q) ∧ (f a).run q = .ok (b, p') := by
  simp [StateT.run_bind, bind_eq_ok]

@[simp] theorem run_pure_ok {a b : α} :
    (pure a : Explore S P K α).run p = .ok (b, p') ↔ a = b ∧ p = p' := by
  rw [StateT.run_pure, pure_eq_ok, Prod.mk.injEq]

@[simp] theorem run_throw_ok {halt : Halt} {a : α} :
    (throw halt : Explore S P K α).run p = .ok (a, p') ↔ False := by
  simp [throw, throwThe, MonadExceptOf.throw, StateT.lift, StateT.run, bind, Except.bind]

@[simp] theorem run_fail_ok {fault : Fault} {a : α} :
    (fail fault : Explore S P K α).run p = .ok (a, p') ↔ False :=
  run_throw_ok

@[simp] theorem run_get_ok {q : Progress S P K} :
    (get : Explore S P K (Progress S P K)).run p = .ok (q, p') ↔ p = q ∧ p = p' := by
  rw [StateT.run_get, pure_eq_ok, Prod.mk.injEq]

@[simp] theorem run_modify_ok {f : Progress S P K → Progress S P K} {u : PUnit} :
    (modify f : Explore S P K PUnit).run p = .ok (u, p') ↔ p' = f p := by
  rw [StateT.run_modify, pure_eq_ok, Prod.mk.injEq, @eq_comm _ (f p)]
  simp

@[simp] theorem run_lift_ok {x : Except Fault α} {a : α} :
    (liftM x : Explore S P K α).run p = .ok (a, p') ↔ x = .ok a ∧ p = p' := by
  cases x <;>
    simp [liftM, monadLift, MonadLift.monadLift, Except.mapError, StateT.run, StateT.lift, bind,
      Except.bind, pure, Except.pure]

@[simp] theorem run_generation_ok {index : Nat} {gen : Generation S P K} :
    (generation index).run p = .ok (gen, p') ↔ p.history.get? index = some gen ∧ p = p' := by
  unfold generation
  simp only [run_bind_ok, run_get_ok]
  constructor
  · rintro ⟨_, _, ⟨rfl, rfl⟩, h⟩
    split at h
    · rename_i found hfound
      obtain ⟨rfl, rfl⟩ := run_pure_ok.1 h
      exact ⟨hfound, rfl⟩
    · exact absurd h (by simp)
  · rintro ⟨hgen, rfl⟩
    exact ⟨p, p, ⟨rfl, rfl⟩, by simp [hgen]⟩

@[simp] theorem run_putGeneration_ok {index : Nat} {gen : Generation S P K} {u : Unit} :
    (putGeneration index gen).run p = .ok (u, p') ↔ p' = p.put index gen :=
  run_modify_ok

@[simp] theorem run_count_ok {f : Stats → Stats} {u : Unit} :
    (count f).run p = .ok (u, p') ↔ p' = { p with stats := f p.stats } :=
  run_modify_ok

@[simp] theorem run_node_ok {index : Nat} {id : NodeId} {node : Node S} :
    (Explore.node index id).run p = .ok (node, p') ↔
      ∃ gen, p.history.get? index = some gen ∧ gen.graph.node id = .ok node ∧ p = p' := by
  simp only [Explore.node, run_bind_ok, run_generation_ok, run_lift_ok]
  constructor
  · rintro ⟨gen, _, ⟨hgen, rfl⟩, hnode, rfl⟩
    exact ⟨gen, hgen, hnode, rfl⟩
  · rintro ⟨gen, hgen, hnode, rfl⟩
    exact ⟨gen, p, ⟨hgen, rfl⟩, hnode, rfl⟩

@[simp] theorem run_setHeuristic_ok {index : Nat} {id : NodeId} {value : Distance} {u : Unit} :
    (setHeuristic index id value).run p = .ok (u, p') ↔
      ∃ gen gen', p.history.get? index = some gen ∧ gen.setHeuristic id value = .ok gen' ∧
        p' = p.put index gen' := by
  simp only [setHeuristic, run_bind_ok, run_generation_ok, run_lift_ok, run_putGeneration_ok]
  constructor
  · rintro ⟨gen, _, ⟨hgen, rfl⟩, gen', _, ⟨hset, rfl⟩, rfl⟩
    exact ⟨gen, gen', hgen, hset, rfl⟩
  · rintro ⟨gen, gen', hgen, hset, rfl⟩
    exact ⟨gen, p, ⟨hgen, rfl⟩, gen', p, ⟨hset, rfl⟩, rfl⟩

@[simp] theorem run_setDistance_ok {index : Nat} {id : NodeId} {value : Distance} {u : Unit} :
    (setDistance index id value).run p = .ok (u, p') ↔
      ∃ gen gen', p.history.get? index = some gen ∧ gen.setDistance id value = .ok gen' ∧
        p' = p.put index gen' := by
  simp only [setDistance, run_bind_ok, run_generation_ok, run_lift_ok, run_putGeneration_ok]
  constructor
  · rintro ⟨gen, _, ⟨hgen, rfl⟩, gen', _, ⟨hset, rfl⟩, rfl⟩
    exact ⟨gen, gen', hgen, hset, rfl⟩
  · rintro ⟨gen, gen', hgen, hset, rfl⟩
    exact ⟨gen, p, ⟨hgen, rfl⟩, gen', p, ⟨hset, rfl⟩, rfl⟩

@[simp] theorem run_editGraph_ok {index : Nat} {edit : Edit (Graph S) α} {a : α} :
    (editGraph index edit).run p = .ok (a, p') ↔
      ∃ gen graph, p.history.get? index = some gen ∧ edit.run gen.graph = .ok a graph ∧
        p' = p.put index { gen with graph } := by
  simp only [editGraph, run_bind_ok, run_generation_ok, run_lift_ok, run_putGeneration_ok,
    run_pure_ok, Prod.exists, Edit.result_eq_ok]
  constructor
  · rintro ⟨gen, _, ⟨hgen, rfl⟩, _, graph, _, ⟨hrun, rfl⟩, _, _, rfl, rfl, rfl⟩
    exact ⟨gen, graph, hgen, hrun, rfl⟩
  · rintro ⟨gen, graph, hgen, hrun, rfl⟩
    exact ⟨gen, p, ⟨hgen, rfl⟩, a, graph, p, ⟨hrun, rfl⟩, (), _, rfl, rfl, rfl⟩

theorem run_forM_cons_ok {f : α → Explore S P K PUnit} {a : α} {l : List α} {u : PUnit} :
    ((a :: l).forM f).run p = .ok (u, p') ↔
      ∃ q, (f a).run p = .ok (⟨⟩, q) ∧ (l.forM f).run q = .ok (u, p') := by
  change (f a >>= fun _ => l.forM f).run p = .ok (u, p') ↔ _
  rw [run_bind_ok]
  exact ⟨fun ⟨_, q, hq, h⟩ => ⟨q, hq, h⟩, fun ⟨q, hq, h⟩ => ⟨⟨⟩, q, hq, h⟩⟩

/-- What every step of a loop keeps true holds when it has ended. -/
theorem run_forM_induct {motive : Progress S P K → Prop} {f : α → Explore S P K PUnit}
    {l : List α} {u : PUnit}
    (hstep : ∀ a q q', a ∈ l → motive q → (f a).run q = .ok (⟨⟩, q') → motive q')
    (hp : motive p) (h : (l.forM f).run p = .ok (u, p')) : motive p' := by
  induction l generalizing p with
  | nil =>
    obtain ⟨-, rfl⟩ : () = u ∧ p = p' := run_pure_ok.1 h
    exact hp
  | cons a l ih =>
    obtain ⟨q, hq, h⟩ := run_forM_cons_ok.1 h
    exact ih (fun b q q' hb => hstep b q q' (List.mem_cons_of_mem _ hb))
      (hstep a p q List.mem_cons_self hp hq) h

/-- What every step of a fold keeps true, of what is carried along as well, holds of its result. -/
theorem run_foldlM_induct {motive : β → Progress S P K → Prop} {f : β → α → Explore S P K β}
    {l : List α} {b b' : β}
    (hstep : ∀ c a c' q q', a ∈ l → motive c q → (f c a).run q = .ok (c', q') → motive c' q')
    (hb : motive b p) (h : (l.foldlM f b).run p = .ok (b', p')) : motive b' p' := by
  induction l generalizing b p with
  | nil =>
    obtain ⟨rfl, rfl⟩ := run_pure_ok.1 h
    exact hb
  | cons a l ih =>
    rw [List.foldlM_cons] at h
    obtain ⟨c, q, hq, h⟩ := run_bind_ok.1 h
    exact ih (fun c a c' q q' ha => hstep c a c' q q' (List.mem_cons_of_mem _ ha))
      (hstep b a c p q List.mem_cons_self hb hq) h

section Looking

variable {f : α → Explore S P K Bool} {l : List α}

/-- A search through a list with a test that changes nothing. -/
theorem run_anyM_ok {found : Bool} (hlook : ∀ a b q q', (f a).run q = .ok (b, q') → q = q')
    (h : (l.anyM f).run p = .ok (found, p')) :
    p = p' ∧ (found = true → ∃ a ∈ l, (f a).run p = .ok (true, p)) ∧
      (found = false → ∀ a ∈ l, (f a).run p = .ok (false, p)) := by
  induction l with
  | nil =>
    obtain ⟨rfl, rfl⟩ := run_pure_ok.1 h
    simp
  | cons a l ih =>
    obtain ⟨here, q, hq, h⟩ := run_bind_ok.1 h
    obtain rfl := hlook a here p q hq
    cases here with
    | true =>
      obtain ⟨rfl, rfl⟩ := run_pure_ok.1 h
      exact ⟨rfl, fun _ => ⟨a, by simp, hq⟩, by simp⟩
    | false =>
      obtain ⟨rfl, htrue, hfalse⟩ := ih h
      refine ⟨rfl, fun hf => ?_, fun hf => List.forall_mem_cons.2 ⟨hq, hfalse hf⟩⟩
      obtain ⟨b, hb, hrun⟩ := htrue hf
      exact ⟨b, List.mem_cons_of_mem _ hb, hrun⟩

/-- A test of all members of a list that changes nothing. -/
theorem run_allM_ok {all : Bool} (hlook : ∀ a b q q', (f a).run q = .ok (b, q') → q = q')
    (h : (l.allM f).run p = .ok (all, p')) :
    p = p' ∧ (all = true → ∀ a ∈ l, (f a).run p = .ok (true, p)) := by
  induction l with
  | nil =>
    obtain ⟨rfl, rfl⟩ := run_pure_ok.1 h
    simp
  | cons a l ih =>
    obtain ⟨here, q, hq, h⟩ := run_bind_ok.1 h
    obtain rfl := hlook a here p q hq
    cases here with
    | false =>
      obtain ⟨rfl, rfl⟩ := run_pure_ok.1 h
      simp
    | true =>
      obtain ⟨rfl, htrue⟩ := ih h
      exact ⟨rfl, fun hall => List.forall_mem_cons.2 ⟨hq, htrue hall⟩⟩

theorem run_filterAuxM_ok {acc r : List α}
    (hlook : ∀ a b q q', (f a).run q = .ok (b, q') → q = q')
    (h : (l.filterAuxM f acc).run p = .ok (r, p')) :
    p = p' ∧ ∀ a, a ∈ r ↔ a ∈ acc ∨ a ∈ l ∧ (f a).run p = .ok (true, p) := by
  induction l generalizing acc with
  | nil =>
    obtain ⟨rfl, rfl⟩ := run_pure_ok.1 h
    simp
  | cons b l ih =>
    obtain ⟨keep, q, hq, hrest⟩ := run_bind_ok.1 h
    obtain rfl := hlook b keep p q hq
    obtain ⟨rfl, hmem⟩ := ih hrest
    refine ⟨rfl, fun a => ?_⟩
    rw [hmem]
    cases keep <;> grind

/-- The members of a list that pass a test which changes nothing. -/
theorem run_filterM_ok {r : List α} (hlook : ∀ a b q q', (f a).run q = .ok (b, q') → q = q')
    (h : (l.filterM f).run p = .ok (r, p')) :
    p = p' ∧ ∀ a, a ∈ r ↔ a ∈ l ∧ (f a).run p = .ok (true, p) := by
  obtain ⟨kept, q, hq, h⟩ := run_bind_ok.1 h
  obtain ⟨rfl, rfl⟩ := run_pure_ok.1 h
  obtain ⟨rfl, hmem⟩ := run_filterAuxM_ok hlook hq
  simp [hmem]

end Looking

/-- What is read for the members of a list, by looks that change nothing. -/
theorem run_mapM_ok {f : α → Explore S P K β} {l : List α} {bs : List β}
    (hlook : ∀ a b q q', (f a).run q = .ok (b, q') → q = q')
    (h : (l.mapM f).run p = .ok (bs, p')) :
    p = p' ∧ ∀ b ∈ bs, ∃ a ∈ l, (f a).run p = .ok (b, p) := by
  induction l generalizing bs with
  | nil =>
    obtain ⟨rfl, rfl⟩ := run_pure_ok.1 h
    simp
  | cons a l ih =>
    rw [List.mapM_cons] at h
    obtain ⟨b, q, hq, hrest⟩ := run_bind_ok.1 h
    obtain rfl := hlook a b p q hq
    obtain ⟨cs, q', hcs, hend⟩ := run_bind_ok.1 hrest
    obtain ⟨rfl, rfl⟩ := run_pure_ok.1 hend
    obtain ⟨rfl, hall⟩ := ih hcs
    refine ⟨rfl, List.forall_mem_cons.2 ⟨⟨a, List.mem_cons_self, hq⟩, fun c hc => ?_⟩⟩
    obtain ⟨x, hx, hrun⟩ := hall c hc
    exact ⟨x, List.mem_cons_of_mem _ hx, hrun⟩

end Explore

end GuidedReach
