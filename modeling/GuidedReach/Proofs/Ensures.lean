import GuidedReach.Proofs.Graph.Links

/-!
# Computations that meet no fault

The lemmas here show that a computation ends in a result. For an exploration, `Explore.Ensures` says
that it meets no fault and that whatever it ends in satisfies a condition; it may still run out of
fuel. It is reduced to the parts of an exploration, one lemma for each way of building one.

* `filterM_of_forall`, `anyM_of_forall`, `mapM_of_forall` — filtering by a test that may fail, and
  other passes over a list.
* `Edit.exists_run_forM` — a loop of changes with an invariant.
* `EndsIn` — a computation ends in a result that satisfies a condition, or runs out of fuel.
* `EndsIn.not_fault` — it does not end in a fault.
* `Explore.Ensures` — the exploration meets no fault, and its result satisfies a condition.
* `Explore.ensures_bind`, `Explore.ensures_lift` — sequences, and steps that may fail.
* `Explore.ensures_forM`, `Explore.ensures_foldlM` — loops with an invariant.
-/

namespace GuidedReach

/-! ## Plain results -/

section Plain

variable {ε α β : Type} {l : List α}

theorem filterAuxM_of_forall {f : α → Except ε Bool} {g : α → Bool} {acc : List α}
    (h : ∀ a ∈ l, f a = .ok (g a)) :
    l.filterAuxM f acc = .ok ((l.filter g).reverse ++ acc) := by
  induction l generalizing acc with
  | nil => rfl
  | cons a l ih =>
    rw [List.forall_mem_cons] at h
    simp only [List.filterAuxM, h.1, bind, Except.bind, ih h.2]
    cases hg : g a <;> simp [hg]

theorem filterM_of_forall {f : α → Except ε Bool} {g : α → Bool} (h : ∀ a ∈ l, f a = .ok (g a)) :
    l.filterM f = .ok (l.filter g) := by
  simp [List.filterM, filterAuxM_of_forall h, bind, Except.bind, pure, Except.pure]

theorem exists_filterM {f : α → Except ε Bool} (h : ∀ a ∈ l, ∃ b, f a = .ok b) :
    ∃ r, l.filterM f = .ok r := by
  refine ⟨_, filterM_of_forall (g := fun a => (f a).toOption.getD false) fun a ha => ?_⟩
  obtain ⟨b, hb⟩ := h a ha
  rw [hb]
  rfl

theorem anyM_of_forall {f : α → Except ε Bool} {g : α → Bool} (h : ∀ a ∈ l, f a = .ok (g a)) :
    l.anyM f = .ok (l.any g) := by
  induction l with
  | nil => rfl
  | cons a l ih =>
    rw [List.forall_mem_cons] at h
    cases hg : g a <;> simp [List.anyM, h.1, hg, ih h.2, bind, Except.bind, pure, Except.pure]

theorem mapM_of_forall {f : α → Except ε β} {g : α → β} (h : ∀ a ∈ l, f a = .ok (g a)) :
    l.mapM f = .ok (l.map g) := by
  induction l with
  | nil => rfl
  | cons a l ih =>
    rw [List.forall_mem_cons] at h
    simp [List.mapM_cons, h.1, ih h.2, bind, Except.bind, pure, Except.pure]

end Plain

/-! ## Changes -/

/-- A loop whose steps succeed, given what is left to do. -/
theorem Edit.exists_run_forM {σ α : Type} {motive : List α → σ → Prop} {f : α → Edit σ PUnit}
    {l : List α} {s : σ} (hstep : ∀ a rest t, motive (a :: rest) t →
      ∃ t', (f a).run t = .ok ⟨⟩ t' ∧ motive rest t') (hs : motive l s) :
    ∃ s', (l.forM f).run s = .ok ⟨⟩ s' ∧ motive [] s' := by
  induction l generalizing s with
  | nil => exact ⟨s, rfl, hs⟩
  | cons a rest ih =>
    obtain ⟨t, ht, hmotive⟩ := hstep a rest s hs
    obtain ⟨s', hs', hend⟩ := ih hmotive
    exact ⟨s', Edit.run_forM_cons_ok.2 ⟨t, ht, hs'⟩, hend⟩

/-! ## Computations that may be halted -/

section Halting

variable {α β : Type} {x : Except Halt α} {f : α → Except Halt β}

/-- The computation ends in a result that satisfies `post`, or runs out of fuel. -/
def EndsIn (x : Except Halt α) (post : α → Prop) : Prop :=
  x = .error .outOfFuel ∨ ∃ a, x = .ok a ∧ post a

theorem endsIn_ok {a : α} {post : α → Prop} (h : x = .ok a) : EndsIn x post ↔ post a := by
  subst h
  simp [EndsIn]

@[simp] theorem endsIn_outOfFuel {post : α → Prop} : EndsIn (.error .outOfFuel) post :=
  .inl rfl

@[simp] theorem not_endsIn_fault {fault : Fault} {post : α → Prop} :
    ¬ EndsIn (.error (.fault fault)) post := by
  simp [EndsIn]

theorem endsIn_bind {post : β → Prop} :
    EndsIn (x >>= f) post ↔ EndsIn x fun a => EndsIn (f a) post := by
  cases x with
  | ok a => rw [endsIn_ok (a := a) rfl]; rfl
  | error halt =>
    cases halt with
    | outOfFuel => exact iff_of_true endsIn_outOfFuel endsIn_outOfFuel
    | fault fault => exact iff_of_false not_endsIn_fault not_endsIn_fault

/-- Steps that may fail, but do not. -/
theorem endsIn_lift {y : Except Fault α} {post : α → Prop} :
    EndsIn (liftM y) post ↔ ∃ a, y = .ok a ∧ post a := by
  simp only [EndsIn, lift_eq_ok, or_iff_right_iff_imp]
  intro hfuel
  cases y <;> cases hfuel

theorem EndsIn.mono {post post' : α → Prop} (h : EndsIn x post)
    (hle : ∀ a, x = .ok a → post a → post' a) : EndsIn x post' := by
  rcases h with hfuel | ⟨a, hok, ha⟩
  · exact .inl hfuel
  · exact .inr ⟨a, hok, hle a hok ha⟩

theorem EndsIn.not_fault {post : α → Prop} (h : EndsIn x post) (fault : Fault) :
    x ≠ .error (.fault fault) := by
  rintro rfl
  exact not_endsIn_fault h

end Halting

/-! ## Explorations -/

namespace Explore

variable {S P K α β : Type} {p q : Progress S P K}

/-- The exploration meets no fault, and what it ends in satisfies `post`. -/
def Ensures (x : Explore S P K α) (p : Progress S P K) (post : α → Progress S P K → Prop) : Prop :=
  EndsIn (x.run p) fun result => post result.1 result.2

theorem ensures_of_ok {x : Explore S P K α} {post : α → Progress S P K → Prop} {a : α}
    (h : x.run p = .ok (a, q)) : x.Ensures p post ↔ post a q :=
  endsIn_ok h

theorem Ensures.mono {x : Explore S P K α} {post post' : α → Progress S P K → Prop}
    (h : x.Ensures p post) (hle : ∀ a q, x.run p = .ok (a, q) → post a q → post' a q) :
    x.Ensures p post' :=
  EndsIn.mono h fun result => hle result.1 result.2

/-! ## Building explorations -/

section

variable {post : α → Progress S P K → Prop}

theorem ensures_bind {x : Explore S P K β} {f : β → Explore S P K α} :
    (x >>= f).Ensures p post ↔ x.Ensures p fun b q => (f b).Ensures q post := by
  unfold Ensures
  rw [StateT.run_bind]
  exact endsIn_bind

@[simp] theorem ensures_pure {a : α} :
    (pure a : Explore S P K α).Ensures p post ↔ post a p :=
  ensures_of_ok rfl

@[simp] theorem ensures_lift {x : Except Fault α} :
    (liftM x : Explore S P K α).Ensures p post ↔ ∃ a, x = .ok a ∧ post a p := by
  cases x with
  | ok a => simpa using ensures_of_ok (run_lift_ok.2 ⟨rfl, rfl⟩)
  | error fault => simp [Ensures, liftM, monadLift, MonadLift.monadLift, Except.mapError, StateT.run,
      StateT.lift, bind, Except.bind]

theorem ensures_outOfFuel : (throw Halt.outOfFuel : Explore S P K α).Ensures p post := by
  simp [Ensures, throw, throwThe, MonadExceptOf.throw, StateT.lift, StateT.run, bind, Except.bind]

end

@[simp] theorem ensures_generation {index : Nat} {post : Generation S P K → Progress S P K → Prop} :
    (generation index).Ensures p post ↔ ∃ gen, p.history.get? index = some gen ∧ post gen p := by
  cases hgen : p.history.get? index with
  | some gen => simpa using ensures_of_ok (run_generation_ok.2 ⟨hgen, rfl⟩)
  | none =>
    have hfault : (generation index).run p = .error (.fault (.noSuchGeneration index)) := by
      simp only [generation, StateT.run_bind, StateT.run_get, pure_bind, hgen]
      rfl
    simp [Ensures, hfault]

@[simp] theorem ensures_putGeneration {index : Nat} {gen : Generation S P K}
    {post : Unit → Progress S P K → Prop} :
    (putGeneration index gen).Ensures p post ↔ post () (p.put index gen) :=
  ensures_of_ok rfl

@[simp] theorem ensures_count {f : Stats → Stats} {post : Unit → Progress S P K → Prop} :
    (count f).Ensures p post ↔ post () { p with stats := f p.stats } :=
  ensures_of_ok rfl

@[simp] theorem ensures_node {index : Nat} {id : NodeId} {post : Node S → Progress S P K → Prop} :
    (node index id).Ensures p post ↔ ∃ gen, p.history.get? index = some gen ∧
      ∃ n, gen.graph.get? id = some n ∧ post n p := by
  simp only [Explore.node, ensures_bind, ensures_generation, ensures_lift, Graph.node_eq_ok]

@[simp] theorem ensures_setHeuristic {index : Nat} {id : NodeId} {value : Distance}
    {post : Unit → Progress S P K → Prop} :
    (setHeuristic index id value).Ensures p post ↔ ∃ gen, p.history.get? index = some gen ∧
      ∃ gen', gen.setHeuristic id value = .ok gen' ∧ post () (p.put index gen') := by
  simp only [setHeuristic, ensures_bind, ensures_generation, ensures_lift, ensures_putGeneration]

@[simp] theorem ensures_setDistance {index : Nat} {id : NodeId} {value : Distance}
    {post : Unit → Progress S P K → Prop} :
    (setDistance index id value).Ensures p post ↔ ∃ gen, p.history.get? index = some gen ∧
      ∃ gen', gen.setDistance id value = .ok gen' ∧ post () (p.put index gen') := by
  simp only [setDistance, ensures_bind, ensures_generation, ensures_lift, ensures_putGeneration]

@[simp] theorem ensures_editGraph {index : Nat} {edit : Edit (Graph S) α}
    {post : α → Progress S P K → Prop} :
    (editGraph index edit).Ensures p post ↔ ∃ gen, p.history.get? index = some gen ∧
      ∃ a graph, edit.run gen.graph = .ok a graph ∧
        post a (p.put index { gen with graph }) := by
  simp only [editGraph, ensures_bind, ensures_generation, ensures_lift, ensures_putGeneration,
    ensures_pure, Prod.exists, Edit.result_eq_ok]

/-! ## Loops -/

theorem ensures_forM {motive : List α → Progress S P K → Prop} {f : α → Explore S P K PUnit}
    {l : List α} (hstep : ∀ a rest q, motive (a :: rest) q → (f a).Ensures q fun _ => motive rest)
    (hp : motive l p) : (l.forM f).Ensures p fun _ => motive [] := by
  induction l generalizing p with
  | nil => exact ensures_pure.2 hp
  | cons a rest ih =>
    change (f a >>= fun _ => rest.forM f).Ensures p _
    exact ensures_bind.2 ((hstep a rest p hp).mono fun _ q _ hq => ih hq)

theorem ensures_foldlM {motive : β → List α → Progress S P K → Prop}
    {f : β → α → Explore S P K β} {l : List α} {b : β}
    (hstep : ∀ c a rest q, motive c (a :: rest) q →
      (f c a).Ensures q fun c' q' => motive c' rest q') (hp : motive b l p) :
    (l.foldlM f b).Ensures p fun c q => motive c [] q := by
  induction l generalizing b p with
  | nil => exact ensures_pure.2 hp
  | cons a rest ih =>
    rw [List.foldlM_cons]
    exact ensures_bind.2 ((hstep b a rest p hp).mono fun _ q _ hq => ih hq)

/-! ## Tests that change nothing -/

section Looking

variable {f : α → Explore S P K Bool} {g : α → Bool} {l : List α}

theorem run_anyM_of_forall (h : ∀ a ∈ l, (f a).run p = .ok (g a, p)) :
    (l.anyM f).run p = .ok (l.any g, p) := by
  induction l with
  | nil => rfl
  | cons a l ih =>
    rw [List.forall_mem_cons] at h
    refine run_bind_ok.2 ⟨g a, p, h.1, ?_⟩
    cases hg : g a with
    | true => simp [hg]
    | false => simpa [hg] using ih h.2

theorem run_allM_of_forall (h : ∀ a ∈ l, (f a).run p = .ok (g a, p)) :
    (l.allM f).run p = .ok (l.all g, p) := by
  induction l with
  | nil => rfl
  | cons a l ih =>
    rw [List.forall_mem_cons] at h
    refine run_bind_ok.2 ⟨g a, p, h.1, ?_⟩
    cases hg : g a with
    | false => simp [hg]
    | true => simpa [hg] using ih h.2

theorem run_filterAuxM_of_forall {acc : List α} (h : ∀ a ∈ l, (f a).run p = .ok (g a, p)) :
    (l.filterAuxM f acc).run p = .ok ((l.filter g).reverse ++ acc, p) := by
  induction l generalizing acc with
  | nil => rfl
  | cons a l ih =>
    rw [List.forall_mem_cons] at h
    refine run_bind_ok.2 ⟨g a, p, h.1, ?_⟩
    rw [ih h.2]
    cases hg : g a <;> simp [hg]

theorem run_filterM_of_forall (h : ∀ a ∈ l, (f a).run p = .ok (g a, p)) :
    (l.filterM f).run p = .ok (l.filter g, p) := by
  refine run_bind_ok.2 ⟨_, p, run_filterAuxM_of_forall h, ?_⟩
  simp

theorem run_mapM_of_forall {f : α → Explore S P K β} {g : α → β}
    (h : ∀ a ∈ l, (f a).run p = .ok (g a, p)) : (l.mapM f).run p = .ok (l.map g, p) := by
  induction l with
  | nil => rfl
  | cons a l ih =>
    rw [List.forall_mem_cons] at h
    rw [List.mapM_cons]
    exact run_bind_ok.2 ⟨g a, p, h.1, run_bind_ok.2 ⟨l.map g, p, ih h.2, rfl⟩⟩

end Looking

end Explore

end GuidedReach
