import Ebacs.Lib.BoundedMap

/-! # Hash tables with elements

A lookup in a hash table of the kernel returns a pointer to an element. An
update links an element that no key is linked to and copies the value into it,
so a pointer keeps naming its element after the key has been deleted or
updated, and the element may come back under another key.
-/
namespace Ebacs.Lib
set_option autoImplicit false

abbrev Slot := Nat

structure ElementMap (κ ν : Type) [DecidableEq κ] (n : Nat) where
  slots : BoundedMap κ Slot n
  elements : Slot → ν
  distinct : (slots.entries.map Prod.snd).Nodup

namespace ElementMap

variable {κ ν : Type} [DecidableEq κ] {n : Nat}

def empty (bucket : κ → Nat) (elements : Slot → ν) : ElementMap κ ν n :=
  ⟨.empty bucket, elements, List.nodup_nil⟩

def value (m : ElementMap κ ν n) (k : κ) : Option ν := (m.slots.lookupElem k).map m.elements

def Linked (m : ElementMap κ ν n) (slot : Slot) : Prop := slot ∈ m.slots.entries.map Prod.snd

instance (m : ElementMap κ ν n) (slot : Slot) : Decidable (m.Linked slot) :=
  inferInstanceAs (Decidable (slot ∈ m.slots.entries.map Prod.snd))

abbrev Room (m : ElementMap κ ν n) (k : κ) : Prop := k ∈ m.slots ∨ m.slots.size < n

def deleteElem (m : ElementMap κ ν n) (k : κ) : ElementMap κ ν n where
  slots := m.slots.deleteElem k
  elements := m.elements
  distinct := m.distinct.sublist (List.filter_sublist.map _)

/-- `BPF_ANY` into an element that is not linked. A full map refuses a new key. -/
def updateElem (m : ElementMap κ ν n) (k : κ) (v : ν) (slot : Slot) (hSlot : ¬m.Linked slot) :
    ElementMap κ ν n :=
  if h : m.Room k then
    { slots := m.slots.put k slot h
      elements := Function.update m.elements slot v
      distinct := by
        have hPerm := (List.perm_orderedInsert
          (fun a b => m.slots.bucket a.1 ≤ m.slots.bucket b.1) (k, slot)
          (m.slots.deleteElem k).entries).map Prod.snd
        refine hPerm.nodup_iff.mpr (List.nodup_cons.mpr ⟨?_, (m.deleteElem k).distinct⟩)
        intro hMem
        exact hSlot ((List.filter_sublist.map Prod.snd).subset hMem) }
  else m

/-- The element of a key, with its value. -/
def Points (m : ElementMap κ ν n) (k : κ) (slot : Slot) (v : ν) : Prop :=
  m.slots.lookupElem k = some slot ∧ m.elements slot = v

variable {m : ElementMap κ ν n} {k : κ}

theorem value_eq_none_iff : m.value k = none ↔ m.slots.lookupElem k = none :=
  Option.map_eq_none_iff

theorem value_eq_some_iff {v : ν} : m.value k = some v ↔ ∃ slot, m.Points k slot v :=
  Option.map_eq_some_iff

theorem mem_slots_iff : k ∈ m.slots ↔ ∃ v, m.value k = some v := by
  rw [BoundedMap.mem_iff_lookupElem]
  constructor
  · rintro ⟨slot, hSlot⟩
    exact ⟨m.elements slot, by rw [value, hSlot]; rfl⟩
  · rintro ⟨v, hv⟩
    obtain ⟨slot, hSlot, -⟩ := value_eq_some_iff.mp hv
    exact ⟨slot, hSlot⟩

@[simp] theorem value_empty (bucket : κ → Nat) (elements : Slot → ν) (k : κ) :
    (empty bucket elements : ElementMap κ ν n).value k = none := rfl

theorem ne_of_not_linked {slot slot' : Slot} (h : ¬m.Linked slot)
    (hSlot : m.slots.lookupElem k = some slot') : slot' ≠ slot := by
  rintro rfl
  exact h (List.mem_map.mpr ⟨(k, slot'), BoundedMap.lookupElem_eq_some_iff.mp hSlot, rfl⟩)

@[simp] theorem value_deleteElem (m : ElementMap κ ν n) (k k' : κ) :
    (m.deleteElem k).value k' = if k' = k then none else m.value k' := by
  simp only [value, deleteElem, BoundedMap.lookupElem_deleteElem]
  split <;> rfl

/-- A key has the same element, with the same value. -/
structure Keeps (m m' : ElementMap κ ν n) (k : κ) : Prop where
  slot : m'.slots.lookupElem k = m.slots.lookupElem k
  element : ∀ slot, m.slots.lookupElem k = some slot → m'.elements slot = m.elements slot

theorem Keeps.refl (m : ElementMap κ ν n) (k : κ) : Keeps m m k := ⟨rfl, fun _ _ => rfl⟩

theorem Keeps.points {m' : ElementMap κ ν n} {slot : Slot} {v : ν} (h : Keeps m m' k)
    (hPoints : m.Points k slot v) : m'.Points k slot v :=
  ⟨h.slot.trans hPoints.1, (h.element slot hPoints.1).trans hPoints.2⟩

theorem Keeps.value {m' : ElementMap κ ν n} (h : Keeps m m' k) : m'.value k = m.value k := by
  rw [ElementMap.value, ElementMap.value, h.slot]
  exact Option.map_congr h.element

theorem keeps_deleteElem (m : ElementMap κ ν n) {k k' : κ} (hk : k ≠ k') :
    Keeps m (m.deleteElem k') k := by
  refine ⟨?_, fun _ _ => rfl⟩
  rw [deleteElem, BoundedMap.lookupElem_deleteElem, if_neg hk]

theorem keeps_updateElem (m : ElementMap κ ν n) {k k' : κ} (hk : k ≠ k') (v : ν) (slot : Slot)
    (hSlot : ¬m.Linked slot) : Keeps m (m.updateElem k' v slot hSlot) k := by
  rw [updateElem]
  split
  · constructor
    · dsimp only
      rw [BoundedMap.lookupElem_put, if_neg hk]
    · intro slot' hSlot'
      exact Function.update_of_ne (ne_of_not_linked hSlot hSlot') _ _
  · exact .refl m k

theorem value_updateElem (m : ElementMap κ ν n) (k k' : κ) (v : ν) (slot : Slot)
    (hSlot : ¬m.Linked slot) :
    (m.updateElem k v slot hSlot).value k' =
      if k' = k ∧ m.Room k then some v else m.value k' := by
  by_cases hk : k' = k
  · subst hk
    rw [updateElem]
    split
    · rename_i hRoom
      simp [value, hRoom]
    · rename_i hFull
      simp [hFull]
  · rw [if_neg (fun h => hk h.1), (m.keeps_updateElem hk v slot hSlot).value]

theorem value_updateElem_self {v : ν} {slot : Slot} (hSlot : ¬m.Linked slot) (hRoom : m.Room k) :
    (m.updateElem k v slot hSlot).value k = some v := by
  rw [value_updateElem, if_pos ⟨rfl, hRoom⟩]

theorem value_deleteElem_self (m : ElementMap κ ν n) (k : κ) : (m.deleteElem k).value k = none := by
  rw [value_deleteElem, if_pos rfl]

section Room

variable {ω : Type} {b : BoundedMap κ ω n}

/-- A table that holds no more keys has room for a key as well. -/
theorem Room.of_subset (hRoom : m.Room k) (hKeys : ∀ k', k' ∈ b → k' ∈ m.slots) :
    k ∈ b ∨ b.size < n := by
  refine BoundedMap.room_of_subset (insert k m.slots.keys.toFinset) ?_ ?_
    (Finset.mem_insert_self _ _)
  · obtain hMem | hSize := hRoom
    · rw [Finset.insert_eq_self.mpr (List.mem_toFinset.mpr hMem)]
      calc m.slots.keys.toFinset.card ≤ m.slots.keys.length := List.toFinset_card_le _
        _ = m.slots.entries.length := m.slots.length_keys
        _ ≤ n := m.slots.bounded
    · calc (insert k m.slots.keys.toFinset).card ≤ m.slots.keys.toFinset.card + 1 :=
            Finset.card_insert_le _ _
        _ ≤ m.slots.keys.length + 1 := Nat.succ_le_succ (List.toFinset_card_le _)
        _ = m.slots.size + 1 := by rw [BoundedMap.length_keys]
        _ ≤ n := hSize
  · intro k' hk'
    exact Finset.mem_insert_of_mem (List.mem_toFinset.mpr (hKeys k' hk'))

theorem mem_slots_iff_of_value {b : BoundedMap κ ν n} (h : ∀ k, b.lookupElem k = m.value k)
    (k : κ) : k ∈ b ↔ k ∈ m.slots := by
  rw [BoundedMap.mem_iff_lookupElem, mem_slots_iff, h]

theorem room_iff_of_value {b : BoundedMap κ ν n} (h : ∀ k, b.lookupElem k = m.value k) (k : κ) :
    (k ∈ b ∨ b.size < n) ↔ m.Room k := by
  rw [Room, mem_slots_iff_of_value h, BoundedMap.size_eq_of_mem_iff (mem_slots_iff_of_value h)]

end Room

end ElementMap

end Ebacs.Lib
