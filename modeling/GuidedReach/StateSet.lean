/-!
# Finite sets of states

States of a transition system are numbers. A `StateSet` lists its members in strictly ascending
order, so two sets with the same members are equal (`StateSet.ext_mem`).

* `StateSet.ofList`, `StateSet.below` — the members of a list; all numbers below a bound.
* `StateSet.inter`, `StateSet.sdiff` — the members shared with, or missing from, another set.
* `StateSet.meets`, `StateSet.subset` — whether two sets share a member; inclusion.
-/

namespace GuidedReach

/-- A finite set of states. -/
structure StateSet where
  toList : List Nat
  ascending : toList.Pairwise (· < ·)
  deriving DecidableEq, Repr

namespace StateSet

def empty : StateSet := ⟨[], List.Pairwise.nil⟩

instance : Inhabited StateSet := ⟨empty⟩

instance : Membership Nat StateSet := ⟨fun set s => s ∈ set.toList⟩

theorem mem_def {s : Nat} {set : StateSet} : s ∈ set ↔ s ∈ set.toList := Iff.rfl

instance (s : Nat) (set : StateSet) : Decidable (s ∈ set) :=
  inferInstanceAs (Decidable (s ∈ set.toList))

def contains (set : StateSet) (s : Nat) : Bool := set.toList.contains s

def isEmpty (set : StateSet) : Bool := set.toList.isEmpty

/-- Put a number into its place in an ascending list, once. -/
def insertAscending (s : Nat) : List Nat → List Nat
  | [] => [s]
  | t :: rest =>
    if s < t then s :: t :: rest
    else if s = t then t :: rest
    else t :: insertAscending s rest

theorem mem_insertAscending {s x : Nat} {l : List Nat} :
    x ∈ insertAscending s l ↔ x = s ∨ x ∈ l := by
  induction l with
  | nil => simp [insertAscending]
  | cons t rest ih =>
    unfold insertAscending
    split
    · simp
    · split
      · rename_i h; subst h; simp
      · simp only [List.mem_cons, ih]
        constructor
        · rintro (h | h | h) <;> simp [h]
        · rintro (h | h | h) <;> simp [h]

theorem pairwise_insertAscending {s : Nat} {l : List Nat} (h : l.Pairwise (· < ·)) :
    (insertAscending s l).Pairwise (· < ·) := by
  induction l with
  | nil => simp [insertAscending]
  | cons t rest ih =>
    obtain ⟨ht, hrest⟩ := List.pairwise_cons.1 h
    unfold insertAscending
    split
    · rename_i hlt
      refine List.pairwise_cons.2 ⟨fun x hx => ?_, h⟩
      rcases List.mem_cons.1 hx with rfl | hx
      · exact hlt
      · exact Nat.lt_trans hlt (ht x hx)
    · split
      · exact h
      · rename_i hlt hne
        refine List.pairwise_cons.2 ⟨fun x hx => ?_, ih hrest⟩
        rcases mem_insertAscending.1 hx with rfl | hx
        · omega
        · exact ht x hx

def insert (s : Nat) (set : StateSet) : StateSet :=
  ⟨insertAscending s set.toList, pairwise_insertAscending set.ascending⟩

/-- The set of the members of a list. -/
def ofList (l : List Nat) : StateSet := l.foldr insert empty

/-- All numbers below `n`. -/
def below (n : Nat) : StateSet := ⟨List.range n, List.pairwise_lt_range⟩

/-- The members that satisfy a test. -/
def filter (p : Nat → Bool) (set : StateSet) : StateSet :=
  ⟨set.toList.filter p, set.ascending.filter p⟩

/-- The members that are also in `other`. -/
def inter (set other : StateSet) : StateSet := set.filter other.contains

/-- The members that are not in `other`. -/
def sdiff (set other : StateSet) : StateSet := set.filter fun s => !other.contains s

/-- Whether the two sets share a member. -/
def meets (set other : StateSet) : Bool := set.toList.any other.contains

/-- Whether every member is also in `other`. -/
def subset (set other : StateSet) : Bool := set.toList.all other.contains

/-- The written form of a set: its members between braces. -/
def text (set : StateSet) : String :=
  "\x7b" ++ ", ".intercalate (set.toList.map toString) ++ "\x7d"

@[simp] theorem contains_iff {s : Nat} {set : StateSet} : set.contains s = true ↔ s ∈ set := by
  simp [contains, mem_def]

theorem mem_insert {s x : Nat} {set : StateSet} : x ∈ insert s set ↔ x = s ∨ x ∈ set :=
  mem_insertAscending

@[simp] theorem not_mem_empty {s : Nat} : ¬ s ∈ empty := by simp [mem_def, empty]

@[simp] theorem mem_ofList {s : Nat} {l : List Nat} : s ∈ ofList l ↔ s ∈ l := by
  induction l with
  | nil => simp [ofList]
  | cons t rest ih =>
    have hcons : ofList (t :: rest) = insert t (ofList rest) := rfl
    rw [hcons, mem_insert, ih, List.mem_cons]

@[simp] theorem mem_below {s : Nat} {n : Nat} : s ∈ below n ↔ s < n := by
  simp [mem_def, below]

@[simp] theorem mem_filter {s : Nat} {p : Nat → Bool} {set : StateSet} :
    s ∈ set.filter p ↔ s ∈ set ∧ p s = true := by
  simp [mem_def, filter]

@[simp] theorem mem_inter {s : Nat} {a b : StateSet} : s ∈ a.inter b ↔ s ∈ a ∧ s ∈ b := by
  simp [inter]

@[simp] theorem mem_sdiff {s : Nat} {a b : StateSet} : s ∈ a.sdiff b ↔ s ∈ a ∧ ¬ s ∈ b := by
  simp only [sdiff, mem_filter, Bool.not_eq_true', ← Bool.not_eq_true, contains_iff]

theorem meets_iff {a b : StateSet} : a.meets b = true ↔ ∃ s, s ∈ a ∧ s ∈ b := by
  simp only [meets, List.any_eq_true, contains_iff, mem_def]

theorem subset_iff {a b : StateSet} : a.subset b = true ↔ ∀ s, s ∈ a → s ∈ b := by
  simp only [subset, List.all_eq_true, contains_iff, mem_def]

theorem isEmpty_iff {a : StateSet} : a.isEmpty = true ↔ ∀ s, ¬ s ∈ a := by
  simp only [isEmpty, List.isEmpty_iff, mem_def]
  exact List.eq_nil_iff_forall_not_mem

/-- Sets with the same members are equal: an ascending list is determined by its members. -/
theorem ext_mem {a b : StateSet} (h : ∀ s, s ∈ a ↔ s ∈ b) : a = b := by
  have hlist : ∀ {l m : List Nat}, l.Pairwise (· < ·) → m.Pairwise (· < ·) →
      (∀ s, s ∈ l ↔ s ∈ m) → l = m := by
    intro l
    induction l with
    | nil =>
      intro m _ _ hmem
      exact (List.eq_nil_iff_forall_not_mem.2 fun s hs => by simpa using (hmem s).2 hs).symm
    | cons x xs ih =>
      intro m hl hm hmem
      cases m with
      | nil => simpa using (hmem x).1 (by simp)
      | cons y ys =>
        obtain ⟨hx, hxs⟩ := List.pairwise_cons.1 hl
        obtain ⟨hy, hys⟩ := List.pairwise_cons.1 hm
        have hxy : x = y := by
          rcases List.mem_cons.1 ((hmem x).1 (by simp)) with h1 | h1
          · exact h1
          · rcases List.mem_cons.1 ((hmem y).2 (by simp)) with h2 | h2
            · exact h2.symm
            · have := hx y h2; have := hy x h1; omega
        subst hxy
        congr 1
        refine ih hxs hys fun s => ⟨fun hs => ?_, fun hs => ?_⟩
        · rcases List.mem_cons.1 ((hmem s).1 (by simp [hs])) with h1 | h1
          · have := hx s hs; omega
          · exact h1
        · rcases List.mem_cons.1 ((hmem s).2 (by simp [hs])) with h1 | h1
          · have := hy s hs; omega
          · exact h1
  have hab := hlist a.ascending b.ascending h
  cases a; cases b; cases hab; rfl

theorem ofList_toList (set : StateSet) : ofList set.toList = set := ext_mem fun _ => mem_ofList

end StateSet

end GuidedReach
