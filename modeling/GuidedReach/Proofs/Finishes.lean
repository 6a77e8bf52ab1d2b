import GuidedReach.Proofs.Graph.Links

/-!
# Explorations that have enough fuel

The lemmas here show that an exploration comes to an end before its fuel runs out, be it in a result
or in a fault. It is reduced to the parts of an exploration, one lemma for each way of building one;
what is known about the state in between can be taken from the run so far.

* `Explore.Finishes` — the exploration does not run out of fuel.
* `Explore.finishes_bind` — sequences.
* `Explore.finishes_lift`, `Explore.finishes_generation` and what follows them — single operations
  need no fuel.
* `Explore.finishes_forM`, `Explore.finishes_foldlM` — loops.
* `Explore.finishes_mapM`, `Explore.finishes_anyM`, `Explore.finishes_allM`,
  `Explore.finishes_filterM` — passes over a list that finish wherever they start.
-/

namespace GuidedReach

/-! ## Plain computations -/

section Plain

variable {α β : Type}

theorem bind_ne_outOfFuel {x : Except Halt β} {f : β → Except Halt α} (hx : x ≠ .error .outOfFuel)
    (hf : ∀ b, x = .ok b → f b ≠ .error .outOfFuel) : (x >>= f) ≠ .error .outOfFuel := by
  cases x with
  | ok b => exact hf b rfl
  | error halt => exact fun hout => hx (congrArg _ (Except.error.inj hout))

theorem lift_ne_outOfFuel {x : Except Fault α} : (liftM x : Except Halt α) ≠ .error .outOfFuel := by
  cases x <;> simp [liftM, monadLift, MonadLift.monadLift, Except.mapError]

/-- A step that may fail needs no fuel. -/
theorem lift_bind_ne_outOfFuel {x : Except Fault β} {f : β → Except Halt α}
    (hf : ∀ b, x = .ok b → f b ≠ .error .outOfFuel) : (liftM x >>= f) ≠ .error .outOfFuel :=
  bind_ne_outOfFuel lift_ne_outOfFuel fun b hb => hf b (lift_eq_ok.1 hb)

end Plain

namespace Explore

variable {S P K α β : Type} {p q : Progress S P K}

/-- The exploration ends in a result or in a fault, but does not run out of fuel. -/
def Finishes (x : Explore S P K α) (p : Progress S P K) : Prop := x.run p ≠ .error .outOfFuel

theorem finishes_of_ok {x : Explore S P K α} {a : α} (h : x.run p = .ok (a, q)) : x.Finishes p := by
  simp [Finishes, h]

theorem finishes_of_fault {x : Explore S P K α} {fault : Fault}
    (h : x.run p = .error (.fault fault)) : x.Finishes p := by
  simp [Finishes, h]

/-! ## Explorations -/

/-- What comes second has to finish from where the first part ends, if that ends in a result. -/
theorem finishes_bind {x : Explore S P K β} {f : β → Explore S P K α} (hx : x.Finishes p)
    (hf : ∀ b q, x.run p = .ok (b, q) → (f b).Finishes q) : (x >>= f).Finishes p := by
  unfold Finishes at hx ⊢
  rw [StateT.run_bind]
  exact bind_ne_outOfFuel hx fun result hrun => hf result.1 result.2 hrun

/-! ## Single operations -/

theorem finishes_pure {a : α} : (pure a : Explore S P K α).Finishes p := finishes_of_ok (q := p) rfl

theorem finishes_lift {x : Except Fault α} : (liftM x : Explore S P K α).Finishes p := by
  cases x with
  | ok a => exact finishes_of_ok (run_lift_ok.2 ⟨rfl, rfl⟩)
  | error fault =>
    simp [Finishes, liftM, monadLift, MonadLift.monadLift, Except.mapError, StateT.run, StateT.lift,
      bind, Except.bind]

theorem finishes_fail {fault : Fault} : (fail fault : Explore S P K α).Finishes p :=
  finishes_of_fault rfl

/-- A step that may fail changes nothing. -/
theorem finishes_lift_bind {x : Except Fault β} {f : β → Explore S P K α}
    (hf : ∀ b, x = .ok b → (f b).Finishes p) : (liftM x >>= f).Finishes p := by
  refine finishes_bind finishes_lift fun b q hrun => ?_
  obtain ⟨hb, rfl⟩ := run_lift_ok.1 hrun
  exact hf b hb

theorem finishes_generation {index : Nat} :
    (generation index : Explore S P K (Generation S P K)).Finishes p := by
  cases hgen : p.history.get? index with
  | some gen => exact finishes_of_ok (run_generation_ok.2 ⟨hgen, rfl⟩)
  | none =>
    have hfault : (generation index : Explore S P K (Generation S P K)).run p =
        .error (.fault (.noSuchGeneration index)) := by
      simp only [generation, StateT.run_bind, StateT.run_get, pure_bind, hgen]
      rfl
    exact finishes_of_fault hfault

/-- Reading a generation changes nothing. -/
theorem finishes_generation_bind {index : Nat} {f : Generation S P K → Explore S P K α}
    (hf : ∀ gen, p.history.get? index = some gen → (f gen).Finishes p) :
    (generation index >>= f).Finishes p := by
  refine finishes_bind finishes_generation fun gen q hrun => ?_
  obtain ⟨hgen, rfl⟩ := run_generation_ok.1 hrun
  exact hf gen hgen

theorem finishes_putGeneration {index : Nat} {gen : Generation S P K} :
    (putGeneration index gen).Finishes p :=
  have hrun : (putGeneration index gen).run p = .ok ((), p.put index gen) := rfl
  finishes_of_ok hrun

theorem finishes_count {f : Stats → Stats} : (count f : Explore S P K Unit).Finishes p :=
  have hrun : (count f : Explore S P K Unit).run p = .ok ((), { p with stats := f p.stats }) := rfl
  finishes_of_ok hrun

theorem finishes_node {index : Nat} {id : NodeId} :
    (node index id : Explore S P K (Node S)).Finishes p :=
  finishes_generation_bind fun _ _ => finishes_lift

/-- Reading a node changes nothing. -/
theorem finishes_node_bind {index : Nat} {id : NodeId} {f : Node S → Explore S P K α}
    (hf : ∀ gen n, p.history.get? index = some gen → gen.graph.get? id = some n → (f n).Finishes p) :
    (node index id >>= f).Finishes p := by
  refine finishes_bind finishes_node fun n q hrun => ?_
  obtain ⟨gen, hgen, hn, rfl⟩ := run_node_ok.1 hrun
  exact hf gen n hgen (Graph.node_eq_ok.1 hn)

theorem finishes_setHeuristic {index : Nat} {id : NodeId} {value : Distance} :
    (setHeuristic index id value : Explore S P K Unit).Finishes p :=
  finishes_generation_bind fun _ _ => finishes_lift_bind fun _ _ => finishes_putGeneration

theorem finishes_setDistance {index : Nat} {id : NodeId} {value : Distance} :
    (setDistance index id value : Explore S P K Unit).Finishes p :=
  finishes_generation_bind fun _ _ => finishes_lift_bind fun _ _ => finishes_putGeneration

theorem finishes_editGraph {index : Nat} {edit : Edit (Graph S) α} :
    (editGraph index edit : Explore S P K α).Finishes p :=
  finishes_generation_bind fun _ _ => finishes_lift_bind fun _ _ =>
    finishes_bind finishes_putGeneration fun _ _ _ => finishes_pure

/-! ## Loops -/

/-- A loop finishes if each pass does, from where the passes before it lead. -/
theorem finishes_forM {f : α → Explore S P K PUnit} {l : List α}
    (h : ∀ before a after q, l = before ++ a :: after → (before.forM f).run p = .ok (⟨⟩, q) →
      (f a).Finishes q) : (l.forM f).Finishes p := by
  induction l generalizing p with
  | nil => exact finishes_pure
  | cons a l ih =>
    refine finishes_bind (h [] a l p rfl rfl) fun _ r hfirst => ih ?_
    intro before b after q heq hrun
    exact h (a :: before) b after q (by rw [heq]; rfl) (run_forM_cons_ok.2 ⟨r, hfirst, hrun⟩)

theorem finishes_foldlM {f : β → α → Explore S P K β} {l : List α} {b : β}
    (h : ∀ before a after c q, l = before ++ a :: after →
      (before.foldlM f b).run p = .ok (c, q) → (f c a).Finishes q) : (l.foldlM f b).Finishes p := by
  induction l generalizing p b with
  | nil => exact finishes_pure
  | cons a l ih =>
    rw [List.foldlM_cons]
    refine finishes_bind (h [] a l b p rfl rfl) fun c r hfirst => ih ?_
    intro before x after d q heq hrun
    refine h (a :: before) x after d q (by rw [heq]; rfl) ?_
    rw [List.foldlM_cons]
    exact run_bind_ok.2 ⟨c, r, hfirst, hrun⟩

section Looking

variable {f : α → Explore S P K β} {l : List α} (hf : ∀ a q, (f a).Finishes q)

include hf

theorem finishes_mapM : (l.mapM f).Finishes p := by
  induction l generalizing p with
  | nil => exact finishes_pure
  | cons a l ih =>
    rw [List.mapM_cons]
    exact finishes_bind (hf a p) fun _ _ _ => finishes_bind ih fun _ _ _ => finishes_pure

end Looking

section Testing

variable {f : α → Explore S P K Bool} {l : List α} (hf : ∀ a q, (f a).Finishes q)

include hf

theorem finishes_anyM : (l.anyM f).Finishes p := by
  induction l generalizing p with
  | nil => exact finishes_pure
  | cons a l ih =>
    refine finishes_bind (hf a p) fun found q _ => ?_
    cases found with
    | true => exact finishes_pure
    | false => exact ih

theorem finishes_allM : (l.allM f).Finishes p := by
  induction l generalizing p with
  | nil => exact finishes_pure
  | cons a l ih =>
    refine finishes_bind (hf a p) fun holds q _ => ?_
    cases holds with
    | true => exact ih
    | false => exact finishes_pure

theorem finishes_filterAuxM {acc : List α} : (l.filterAuxM f acc).Finishes p := by
  induction l generalizing p acc with
  | nil => exact finishes_pure
  | cons a l ih => exact finishes_bind (hf a p) fun _ _ _ => ih

theorem finishes_filterM : (l.filterM f).Finishes p :=
  finishes_bind (finishes_filterAuxM hf) fun _ _ _ => finishes_pure

end Testing

end Explore

end GuidedReach
