import GuidedReach.Proofs.Graph.Links

/-!
# Computations that find their search nodes

A computation may be refused for many reasons. The lemmas here show that one of them does not occur:
that a search node is looked up which is not there. Whatever the computation ends in satisfies a
condition, so that the next one can be shown to find its search nodes as well.

* `Fault.IsMissing` — a search node was not found.
* `Spares` — the computation does not end in some bad way, and its result satisfies a condition.
* `Finds`, `Edit.Finds`, `Explore.Finds` — the three kinds of computations find their search nodes.
* `Spares.bind`, `Edit.Finds.bind`, `Explore.Finds.bind` — sequences; each is also told what the first
  part ended in.
* `Spares.forM`, `Explore.finds_forM` and what follows them — loops.
-/

namespace GuidedReach

/-- A search node was not found. -/
def Fault.IsMissing : Fault → Prop
  | .noSearchNode _ => True
  | _ => False

def Halt.IsMissing : Halt → Prop
  | .fault cause => cause.IsMissing
  | .outOfFuel => False

/-! ## Plain computations -/

section

variable {ε α β : Type} {bad : ε → Prop} {post post' : α → Prop} {x : Except ε α} {l : List α}

/-- The computation ends in none of the bad ways, and its result satisfies `post`. -/
def Spares (bad : ε → Prop) (x : Except ε α) (post : α → Prop) : Prop :=
  match x with
  | .ok a => post a
  | .error e => ¬ bad e

theorem spares_pure {a : α} (h : post a) : Spares bad (pure a) post := h

namespace Spares

theorem mono (h : Spares bad x post) (hle : ∀ a, x = .ok a → post a → post' a) :
    Spares bad x post' := by
  cases x with
  | ok a => exact hle a rfl h
  | error e => exact h

theorem bind {f : β → Except ε α} {y : Except ε β} {between : β → Prop} (h : Spares bad y between)
    (hf : ∀ b, y = .ok b → between b → Spares bad (f b) post) : Spares bad (y >>= f) post := by
  cases y with
  | ok b => exact hf b rfl h
  | error e => exact h

theorem result {a : α} (h : Spares bad x post) (hx : x = .ok a) : post a := by
  subst hx
  exact h

theorem ne_error (h : Spares bad x post) {e : ε} (he : bad e) : x ≠ .error e := by
  rintro rfl
  exact h he

theorem forM {f : α → Except ε Unit} (h : ∀ a ∈ l, Spares bad (f a) fun _ => True) :
    Spares bad (l.forM f) fun _ => True := by
  induction l with
  | nil => exact trivial
  | cons a l ih =>
    obtain ⟨ha, hl⟩ := List.forall_mem_cons.1 h
    exact bind (f := fun _ => l.forM f) ha fun _ _ _ => ih hl

theorem foldlM {motive : β → Prop} {f : β → α → Except ε β} {b : β}
    (hstep : ∀ c a, a ∈ l → motive c → Spares bad (f c a) motive) (hb : motive b) :
    Spares bad (l.foldlM f b) motive := by
  induction l generalizing b with
  | nil => exact hb
  | cons a l ih =>
    rw [List.foldlM_cons]
    exact bind (hstep b a List.mem_cons_self hb) fun c _ hc =>
      ih (fun c a ha => hstep c a (List.mem_cons_of_mem _ ha)) hc

theorem mapM {f : α → Except ε β} (h : ∀ a ∈ l, Spares bad (f a) fun _ => True) :
    Spares bad (l.mapM f) fun _ => True := by
  induction l with
  | nil => exact trivial
  | cons a l ih =>
    obtain ⟨ha, hl⟩ := List.forall_mem_cons.1 h
    rw [List.mapM_cons]
    exact bind ha fun _ _ _ => bind (ih hl) fun _ _ _ => trivial

theorem anyM {f : α → Except ε Bool} (h : ∀ a ∈ l, Spares bad (f a) fun _ => True) :
    Spares bad (l.anyM f) fun _ => True := by
  induction l with
  | nil => exact trivial
  | cons a l ih =>
    obtain ⟨ha, hl⟩ := List.forall_mem_cons.1 h
    refine bind ha fun b _ _ => ?_
    cases b with
    | true => exact trivial
    | false => exact ih hl

theorem filterAuxM {f : α → Except ε Bool} {acc : List α}
    (h : ∀ a ∈ l, Spares bad (f a) fun _ => True) :
    Spares bad (l.filterAuxM f acc) fun _ => True := by
  induction l generalizing acc with
  | nil => exact trivial
  | cons a l ih =>
    obtain ⟨ha, hl⟩ := List.forall_mem_cons.1 h
    exact bind ha fun _ _ _ => ih hl

/-- What passes a test is in the list. -/
theorem filterM {f : α → Except ε Bool} (h : ∀ a ∈ l, Spares bad (f a) fun _ => True) :
    Spares bad (l.filterM f) fun kept => ∀ a ∈ kept, a ∈ l := by
  have hall : Spares bad (l.filterM f) fun _ => True :=
    bind (filterAuxM h) fun _ _ _ => spares_pure trivial
  exact hall.mono fun kept hkept _ a ha => ((mem_filterM hkept a).1 ha).1

end Spares

end

/-- The computation finds its search nodes, and its result satisfies `post`. -/
abbrev Finds {α : Type} (x : Except Fault α) (post : α → Prop) : Prop :=
  Spares Fault.IsMissing x post

theorem spares_lift {α : Type} {x : Except Fault α} {post : α → Prop} (h : Finds x post) :
    Spares Halt.IsMissing (liftM x : Except Halt α) post := by
  cases x with
  | ok a => exact h
  | error fault => exact h

theorem finds_demand {condition : Bool} {fault : Fault} (hfault : ¬ fault.IsMissing) :
    Finds (demand condition fault) fun _ => condition = true := by
  cases condition with
  | true => exact rfl
  | false => exact hfault

theorem finds_throw {α : Type} {fault : Fault} {post : α → Prop} (hfault : ¬ fault.IsMissing) :
    Finds (throw fault) post :=
  hfault

/-! ## Changes -/

namespace Edit

variable {σ α β : Type} {post : α → σ → Prop} {s : σ}

/-- The change finds its search nodes, and its result satisfies `post`. -/
def Finds (edit : Edit σ α) (s : σ) (post : α → σ → Prop) : Prop :=
  GuidedReach.Finds (edit.result s) fun result => post result.1 result.2

theorem Finds.mono {edit : Edit σ α} {post' : α → σ → Prop} (h : edit.Finds s post)
    (hle : ∀ a t, edit.run s = .ok a t → post a t → post' a t) : edit.Finds s post' :=
  Spares.mono h fun result hresult => hle result.1 result.2 (result_eq_ok.1 hresult)

theorem Finds.bind {edit : Edit σ β} {f : β → Edit σ α} {between : β → σ → Prop}
    (h : edit.Finds s between)
    (hf : ∀ b t, edit.run s = .ok b t → between b t → (f b).Finds t post) :
    (edit >>= f).Finds s post := by
  have hbind : (edit >>= f).result s =
      edit.result s >>= fun result => (f result.1).result result.2 := by
    simp only [result, EStateM.run, Bind.bind, EStateM.bind]
    cases edit s <;> rfl
  unfold Finds
  rw [hbind]
  exact Spares.bind h fun result hresult => hf result.1 result.2 (result_eq_ok.1 hresult)

theorem finds_pure {a : α} (h : post a s) : (pure a : Edit σ α).Finds s post := h

theorem finds_get : (get : Edit σ σ).Finds s fun a t => a = s ∧ t = s := ⟨rfl, rfl⟩

theorem finds_set {t : σ} : (set t : Edit σ PUnit).Finds s fun _ t' => t' = t := rfl

theorem finds_modify {f : σ → σ} : (modify f : Edit σ PUnit).Finds s fun _ t => t = f s := rfl

theorem finds_lift {x : Except Fault α} {between : α → Prop} (h : GuidedReach.Finds x between) :
    (liftM x : Edit σ α).Finds s fun a t => x = .ok a ∧ between a ∧ t = s := by
  cases x with
  | ok a => exact ⟨rfl, h, rfl⟩
  | error fault => exact h

theorem finds_forM {motive : σ → Prop} {f : α → Edit σ PUnit} {l : List α}
    (hstep : ∀ a ∈ l, ∀ t, motive t → (f a).Finds t fun _ => motive) (hs : motive s) :
    (l.forM f).Finds s fun _ => motive := by
  induction l generalizing s with
  | nil => exact hs
  | cons a l ih =>
    obtain ⟨ha, hl⟩ := List.forall_mem_cons.1 hstep
    exact Finds.bind (f := fun _ => l.forM f) (ha s hs) fun _ _ _ ht => ih hl ht

end Edit

/-! ## Explorations -/

namespace Explore

variable {S P K α β : Type} {p : Progress S P K}

/-- The exploration finds its search nodes, and what it ends in satisfies `post`. -/
def Finds (x : Explore S P K α) (p : Progress S P K) (post : α → Progress S P K → Prop) : Prop :=
  Spares Halt.IsMissing (x.run p) fun result => post result.1 result.2

section

variable {post : α → Progress S P K → Prop} {x : Explore S P K α}

theorem Finds.mono {post' : α → Progress S P K → Prop} (h : x.Finds p post)
    (hle : ∀ a q, x.run p = .ok (a, q) → post a q → post' a q) : x.Finds p post' :=
  Spares.mono h fun result hresult => hle result.1 result.2 hresult

theorem Finds.bind {y : Explore S P K β} {f : β → Explore S P K α}
    {between : β → Progress S P K → Prop} (h : y.Finds p between)
    (hf : ∀ b q, y.run p = .ok (b, q) → between b q → (f b).Finds q post) :
    (y >>= f).Finds p post := by
  unfold Finds
  rw [StateT.run_bind]
  exact Spares.bind h fun result hresult => hf result.1 result.2 hresult

theorem finds_pure {a : α} (h : post a p) : (pure a : Explore S P K α).Finds p post := h

theorem finds_outOfFuel : (throw Halt.outOfFuel : Explore S P K α).Finds p post := id

theorem finds_fail {fault : Fault} (hfault : ¬ fault.IsMissing) :
    (fail fault : Explore S P K α).Finds p post :=
  hfault

theorem finds_lift {x : Except Fault α} {between : α → Prop} (h : GuidedReach.Finds x between) :
    (liftM x : Explore S P K α).Finds p fun a q => between a ∧ q = p := by
  cases x with
  | ok a => exact ⟨h, rfl⟩
  | error fault => exact h

/-- A step that changes nothing. -/
theorem finds_lift_bind {x : Except Fault β} {f : β → Explore S P K α} {between : β → Prop}
    (h : GuidedReach.Finds x between)
    (hf : ∀ b, x = .ok b → between b → (f b).Finds p post) : (liftM x >>= f).Finds p post :=
  (finds_lift h).bind fun b _ hrun ⟨hb, hq⟩ => hq ▸ hf b (run_lift_ok.1 hrun).1 hb

end

theorem finds_generation {index : Nat} : (generation index : Explore S P K _).Finds p fun gen q =>
    p.history.get? index = some gen ∧ q = p := by
  cases hgen : p.history.get? index with
  | some gen =>
    have hrun : (generation index).run p = .ok (gen, p) := run_generation_ok.2 ⟨hgen, rfl⟩
    unfold Finds
    rw [hrun]
    exact ⟨rfl, rfl⟩
  | none =>
    have hfault : (generation index : Explore S P K (Generation S P K)).run p =
        .error (.fault (.noSuchGeneration index)) := by
      simp only [generation, StateT.run_bind, StateT.run_get, pure_bind, hgen]
      rfl
    unfold Finds
    rw [hfault]
    exact id

section

variable {post : α → Progress S P K → Prop} {index : Nat}

/-- Reading a generation changes nothing. -/
theorem finds_generation_bind {f : Generation S P K → Explore S P K α}
    (hf : ∀ gen, p.history.get? index = some gen → (f gen).Finds p post) :
    (generation index >>= f).Finds p post :=
  finds_generation.bind fun gen _ _ ⟨hgen, hq⟩ => hq ▸ hf gen hgen

theorem finds_putGeneration {gen : Generation S P K} :
    (putGeneration index gen).Finds p fun _ q => q = p.put index gen := rfl

theorem finds_count {f : Stats → Stats} :
    (count f : Explore S P K Unit).Finds p fun _ q => q = { p with stats := f p.stats } := rfl

end

/-! ## Loops -/

theorem finds_forM {motive : List α → Progress S P K → Prop} {f : α → Explore S P K PUnit}
    {l : List α} (hstep : ∀ a rest q, motive (a :: rest) q → (f a).Finds q fun _ => motive rest)
    (hp : motive l p) : (l.forM f).Finds p fun _ => motive [] := by
  induction l generalizing p with
  | nil => exact hp
  | cons a rest ih =>
    exact Finds.bind (f := fun _ => rest.forM f) (hstep a rest p hp) fun _ _ _ hq => ih hq

theorem finds_foldlM {motive : β → List α → Progress S P K → Prop}
    {f : β → α → Explore S P K β} {l : List α} {b : β}
    (hstep : ∀ c a rest q, motive c (a :: rest) q →
      (f c a).Finds q fun c' q' => motive c' rest q') (hp : motive b l p) :
    (l.foldlM f b).Finds p fun c q => motive c [] q := by
  induction l generalizing b p with
  | nil => exact hp
  | cons a rest ih =>
    rw [List.foldlM_cons]
    exact (hstep b a rest p hp).bind fun _ _ _ hq => ih hq

/-! ## Tests that change nothing -/

section Looking

variable {f : α → Explore S P K Bool} {l : List α}

theorem finds_anyM (h : ∀ a ∈ l, (f a).Finds p fun _ q => q = p) :
    (l.anyM f).Finds p fun _ q => q = p := by
  induction l with
  | nil => exact finds_pure rfl
  | cons a l ih =>
    obtain ⟨ha, hl⟩ := List.forall_mem_cons.1 h
    refine ha.bind fun b q _ hq => ?_
    subst hq
    cases b with
    | true => exact finds_pure rfl
    | false => exact ih hl

theorem finds_allM (h : ∀ a ∈ l, (f a).Finds p fun _ q => q = p) :
    (l.allM f).Finds p fun _ q => q = p := by
  induction l with
  | nil => exact finds_pure rfl
  | cons a l ih =>
    obtain ⟨ha, hl⟩ := List.forall_mem_cons.1 h
    refine ha.bind fun b q _ hq => ?_
    subst hq
    cases b with
    | true => exact ih hl
    | false => exact finds_pure rfl

theorem finds_mapM {f : α → Explore S P K β} (h : ∀ a ∈ l, (f a).Finds p fun _ q => q = p) :
    (l.mapM f).Finds p fun _ q => q = p := by
  induction l with
  | nil => exact finds_pure rfl
  | cons a l ih =>
    obtain ⟨ha, hl⟩ := List.forall_mem_cons.1 h
    rw [List.mapM_cons]
    refine ha.bind fun b q _ hq => ?_
    subst hq
    exact (ih hl).bind fun _ _ _ hr => finds_pure hr

theorem finds_filterAuxM {acc : List α} (h : ∀ a ∈ l, (f a).Finds p fun _ q => q = p) :
    (l.filterAuxM f acc).Finds p fun kept q => q = p ∧ ∀ a ∈ kept, a ∈ acc ∨ a ∈ l := by
  induction l generalizing acc with
  | nil => exact finds_pure ⟨rfl, fun a ha => .inl ha⟩
  | cons a l ih =>
    obtain ⟨ha, hl⟩ := List.forall_mem_cons.1 h
    refine ha.bind fun b q _ hq => ?_
    subst hq
    refine (ih hl).mono fun kept q _ ⟨hq, hkept⟩ => ⟨hq, fun i hi => ?_⟩
    cases b <;> grind

/-- What passes a test is in the list. -/
theorem finds_filterM (h : ∀ a ∈ l, (f a).Finds p fun _ q => q = p) :
    (l.filterM f).Finds p fun kept q => q = p ∧ ∀ a ∈ kept, a ∈ l := by
  refine (finds_filterAuxM h).bind fun kept q _ ⟨hq, hkept⟩ => finds_pure ⟨hq, fun a ha => ?_⟩
  simpa using hkept a (List.mem_reverse.1 ha)

end Looking

end Explore

end GuidedReach
