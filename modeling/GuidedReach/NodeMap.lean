/-!
# Maps keyed by node number

Nodes are numbered from 0 in the order of their creation and a number is never given out twice.
A `NodeMap` holds at most one value per number.

* `NodeMap.push` — stores a value under the next fresh number.
* `NodeMap.insert`, `NodeMap.erase` — write and vacate the slot of a number.
* `NodeMap.toList` — the held values, in ascending order of their numbers.

Vacating a slot keeps it, so `NodeMap.slotCount`, the next fresh number, never shrinks.
-/

namespace GuidedReach

/-- The number of a node. -/
abbrev NodeId := Nat

/-- The written name of a node. -/
def NodeId.text (id : NodeId) : String := "n" ++ toString id

/-- A finite map from node numbers. -/
structure NodeMap (α : Type) where
  slots : Array (Option α) := #[]
  deriving Repr, DecidableEq

namespace NodeMap

variable {α β : Type}

instance : Inhabited (NodeMap α) := ⟨{}⟩

/-- The number of slots, vacant ones included; also the next fresh number. -/
abbrev slotCount (m : NodeMap α) : Nat := m.slots.size

def get? (m : NodeMap α) (id : NodeId) : Option α := m.slots[id]?.join

def contains (m : NodeMap α) (id : NodeId) : Bool := (m.get? id).isSome

/-- Store a value under the next fresh number, which is `m.slotCount`. -/
def push (m : NodeMap α) (a : α) : NodeMap α := ⟨m.slots.push (some a)⟩

/-- Store a value under a given number, making room for it if need be. -/
def insert (m : NodeMap α) (id : NodeId) (a : α) : NodeMap α :=
  if id < m.slotCount then
    ⟨m.slots.set! id (some a)⟩
  else
    ⟨(m.slots ++ Array.replicate (id - m.slotCount) none).push (some a)⟩

/-- Vacate the slot of a number. -/
def erase (m : NodeMap α) (id : NodeId) : NodeMap α := ⟨m.slots.set! id none⟩

/-- The numbers with a value, ascending. -/
def ids (m : NodeMap α) : List NodeId := (List.range m.slotCount).filter m.contains

/-- The held values with their numbers, ascending. -/
def toList (m : NodeMap α) : List (NodeId × α) :=
  (List.range m.slotCount).filterMap fun id => (m.get? id).map (id, ·)

/-- Change every value, knowing its number. -/
def mapWithId (f : NodeId → α → β) (m : NodeMap α) : NodeMap β :=
  ⟨m.slots.mapIdx fun id slot => slot.map (f id)⟩

/-- Keep the values whose numbers satisfy `keep`. -/
def filterIds (keep : NodeId → Bool) (m : NodeMap α) : NodeMap α :=
  ⟨m.slots.mapIdx fun id slot => if keep id then slot else none⟩

theorem get?_empty (id : NodeId) : ({} : NodeMap α).get? id = none := by
  simp [get?]

theorem get?_push (m : NodeMap α) (a : α) (id : NodeId) :
    (m.push a).get? id = if id = m.slotCount then some a else m.get? id := by
  simp only [get?, push, slotCount, Array.getElem?_push]
  split <;> simp

theorem get?_insert (m : NodeMap α) (id : NodeId) (a : α) (i : NodeId) :
    (m.insert id a).get? i = if i = id then some a else m.get? i := by
  unfold insert slotCount
  split
  · rename_i h
    simp only [get?, Array.set!_eq_setIfInBounds, Array.getElem?_setIfInBounds]
    by_cases hi : id = i
    · subst hi; simp [h]
    · simp [hi, Ne.symm hi]
  · rename_i h
    have hle : m.slots.size ≤ id := Nat.le_of_not_lt h
    have hsize : (m.slots ++ Array.replicate (id - m.slots.size) (none : Option α)).size = id := by
      rw [Array.size_append, Array.size_replicate]; omega
    simp only [get?, Array.getElem?_push, hsize]
    by_cases hi : i = id
    · simp [hi]
    · simp only [hi, if_false, Array.getElem?_append]
      split
      · rfl
      · rename_i hlt
        rw [Array.getElem?_eq_none (Nat.le_of_not_lt hlt), Array.getElem?_replicate]
        split <;> rfl

theorem get?_erase (m : NodeMap α) (id i : NodeId) :
    (m.erase id).get? i = if i = id then none else m.get? i := by
  simp only [get?, erase, Array.set!_eq_setIfInBounds, Array.getElem?_setIfInBounds]
  by_cases hi : id = i
  · subst hi
    simp only [if_true]
    split <;> rfl
  · simp [hi, Ne.symm hi]

theorem get?_mapWithId (f : NodeId → α → β) (m : NodeMap α) (id : NodeId) :
    (m.mapWithId f).get? id = (m.get? id).map (f id) := by
  simp only [get?, mapWithId, Array.getElem?_mapIdx]
  cases m.slots[id]? with
  | none => rfl
  | some slot => cases slot <;> rfl

theorem get?_filterIds (keep : NodeId → Bool) (m : NodeMap α) (id : NodeId) :
    (m.filterIds keep).get? id = if keep id then m.get? id else none := by
  simp only [get?, filterIds, Array.getElem?_mapIdx]
  cases m.slots[id]? with
  | none => simp
  | some slot => cases keep id <;> simp

theorem lt_slotCount_of_get? {m : NodeMap α} {id : NodeId} {a : α} (h : m.get? id = some a) :
    id < m.slotCount := by
  by_cases hlt : id < m.slots.size
  · exact hlt
  · simp [get?, Array.getElem?_eq_none (Nat.le_of_not_lt hlt)] at h

@[simp] theorem slotCount_push (m : NodeMap α) (a : α) :
    (m.push a).slotCount = m.slotCount + 1 := by
  simp [push, slotCount]

theorem slotCount_insert {m : NodeMap α} {id : NodeId} {a : α} (h : id < m.slotCount) :
    (m.insert id a).slotCount = m.slotCount := by
  simp [insert, h, slotCount]

@[simp] theorem slotCount_mapWithId (f : NodeId → α → β) (m : NodeMap α) :
    (m.mapWithId f).slotCount = m.slotCount := by
  simp [mapWithId, slotCount]

/-- A map is determined by its values and the number of its slots. -/
theorem ext_get? {m m' : NodeMap α} (hslots : m.slotCount = m'.slotCount)
    (hget : ∀ id, m.get? id = m'.get? id) : m = m' := by
  obtain ⟨slots⟩ := m
  obtain ⟨slots'⟩ := m'
  congr 1
  refine Array.ext hslots fun i hi hi' => ?_
  simpa [get?, hi, hi'] using hget i

theorem mem_ids {m : NodeMap α} {id : NodeId} : id ∈ m.ids ↔ m.contains id = true := by
  simp only [ids, List.mem_filter, List.mem_range, and_iff_right_iff_imp]
  intro h
  obtain ⟨a, ha⟩ := Option.isSome_iff_exists.1 h
  exact lt_slotCount_of_get? ha

theorem mem_toList {m : NodeMap α} {id : NodeId} {a : α} :
    (id, a) ∈ m.toList ↔ m.get? id = some a := by
  simp only [toList, List.mem_filterMap, List.mem_range, Option.map_eq_some_iff, Prod.mk.injEq]
  constructor
  · rintro ⟨_, _, _, h, rfl, rfl⟩
    exact h
  · intro h
    exact ⟨id, lt_slotCount_of_get? h, a, h, rfl, rfl⟩

end NodeMap

end GuidedReach
