import Mathlib.Data.List.Sort
import Mathlib.Data.List.Nodup
import Mathlib.Data.Finset.Card

/-! # Bounded hash tables with a visible enumeration

A table is the list of its entries in the order in which a cursor meets them.
Buckets come in increasing order, and a stored element is linked at the head
of its bucket, also when it replaces an older element of the same key. A
lookup, a deletion and the replacement of a present key always work; a new
key is refused exactly when the table is full.
-/
namespace Ebacs.Lib
set_option autoImplicit false

variable {κ ν : Type} [DecidableEq κ] {n : Nat}

/-- `bucket` is the table's own hash, fixed when the table is created. -/
structure BoundedMap (κ ν : Type) (n : Nat) where
  bucket : κ → Nat
  entries : List (κ × ν)
  nodup : (entries.map Prod.fst).Nodup
  sorted : entries.Pairwise (fun a b => bucket a.1 ≤ bucket b.1)
  bounded : entries.length ≤ n

namespace BoundedMap

def empty (bucket : κ → Nat) : BoundedMap κ ν n :=
  ⟨bucket, [], List.nodup_nil, List.Pairwise.nil, Nat.zero_le n⟩

def keys (m : BoundedMap κ ν n) : List κ := m.entries.map Prod.fst

def size (m : BoundedMap κ ν n) : Nat := m.entries.length

instance : Membership κ (BoundedMap κ ν n) := ⟨fun m k => k ∈ m.keys⟩

instance (k : κ) (m : BoundedMap κ ν n) : Decidable (k ∈ m) :=
  inferInstanceAs (Decidable (k ∈ m.keys))

def lookupElem (m : BoundedMap κ ν n) (k : κ) : Option ν := m.entries.lookup k

def deleteElem (m : BoundedMap κ ν n) (k : κ) : BoundedMap κ ν n where
  bucket := m.bucket
  entries := m.entries.filter (fun e => e.1 ≠ k)
  nodup := m.nodup.sublist (List.filter_sublist.map _)
  sorted := m.sorted.sublist List.filter_sublist
  bounded := (List.length_filter_le _ _).trans m.bounded

omit [DecidableEq κ] in
theorem mem_iff {m : BoundedMap κ ν n} {k : κ} : k ∈ m ↔ ∃ v, (k, v) ∈ m.entries := by
  change k ∈ m.entries.map Prod.fst ↔ _
  simp

theorem deleteElem_room {m : BoundedMap κ ν n} {k : κ} (h : k ∈ m ∨ m.size < n) :
    (m.deleteElem k).entries.length < n := by
  rcases h with h | h
  · obtain ⟨v, hv⟩ := mem_iff.mp h
    have hlt : (m.deleteElem k).entries.length < m.entries.length :=
      List.length_filter_lt_length_iff_exists.mpr ⟨(k, v), hv, by simp⟩
    exact hlt.trans_le m.bounded
  · exact (List.length_filter_le _ _).trans_lt h

instance bucketTrans (bucket : κ → Nat) :
    IsTrans (κ × ν) (fun a b => bucket a.1 ≤ bucket b.1) := ⟨fun _ _ _ => le_trans⟩

instance bucketTotal (bucket : κ → Nat) :
    Std.Total (fun a b : κ × ν => bucket a.1 ≤ bucket b.1) := ⟨fun _ _ => le_total _ _⟩

/-- The new element goes before every element of its bucket. -/
def put (m : BoundedMap κ ν n) (k : κ) (v : ν) (h : k ∈ m ∨ m.size < n) : BoundedMap κ ν n where
  bucket := m.bucket
  entries := (m.deleteElem k).entries.orderedInsert
    (fun a b => m.bucket a.1 ≤ m.bucket b.1) (k, v)
  nodup := by
    have hPerm := (List.perm_orderedInsert (fun a b => m.bucket a.1 ≤ m.bucket b.1) (k, v)
      (m.deleteElem k).entries).map Prod.fst
    rw [hPerm.nodup_iff, List.map_cons, List.nodup_cons]
    exact ⟨by simp [deleteElem], (m.deleteElem k).nodup⟩
  sorted := (m.deleteElem k).sorted.orderedInsert (k, v) _
  bounded := by
    rw [List.orderedInsert_length]
    exact deleteElem_room h

/-- `none` is the refusal of a new key by a full table. -/
def updateElem (m : BoundedMap κ ν n) (k : κ) (v : ν) : Option (BoundedMap κ ν n) :=
  if h : k ∈ m ∨ m.size < n then some (m.put k v h) else none

def modify (m : BoundedMap κ ν n) (k : κ) (f : ν → ν) : BoundedMap κ ν n where
  bucket := m.bucket
  entries := m.entries.map (fun e => if e.1 = k then (e.1, f e.2) else e)
  nodup := by
    have hKeys : (m.entries.map (fun e => if e.1 = k then (e.1, f e.2) else e)).map Prod.fst =
        m.entries.map Prod.fst := by
      rw [List.map_map]
      apply List.map_congr_left
      intro e _
      simp only [Function.comp_apply]
      split <;> rfl
    rw [hKeys]
    exact m.nodup
  sorted := by
    rw [List.pairwise_map]
    refine m.sorted.imp (fun {a b} h => ?_)
    split <;> split <;> exact h
  bounded := by
    rw [List.length_map]
    exact m.bounded

def mapValues {ω : Type} (m : BoundedMap κ ν n) (f : ν → ω) : BoundedMap κ ω n where
  bucket := m.bucket
  entries := m.entries.map (fun e => (e.1, f e.2))
  nodup := by
    rw [List.map_map]
    exact m.nodup
  sorted := List.pairwise_map.mpr m.sorted
  bounded := by
    rw [List.length_map]
    exact m.bounded

def keysAfter (m : BoundedMap κ ν n) (k : κ) : List κ := (m.keys.dropWhile (· ≠ k)).tail

/-- The successor of a present key, the first key for an absent one. -/
def getNextKey (m : BoundedMap κ ν n) (k : κ) : Option κ :=
  if k ∈ m then (m.keysAfter k).head? else m.keys.head?

omit [DecidableEq κ] in
theorem entries_unique {m : BoundedMap κ ν n} {k : κ} {v w : ν} (hv : (k, v) ∈ m.entries)
    (hw : (k, w) ∈ m.entries) : v = w := by
  have h := List.inj_on_of_nodup_map m.nodup hv hw rfl
  exact (Prod.mk.inj h).2

theorem lookupElem_eq_some_iff {m : BoundedMap κ ν n} {k : κ} {v : ν} :
    m.lookupElem k = some v ↔ (k, v) ∈ m.entries := by
  constructor
  · intro h
    obtain ⟨before, after, hEntries, _⟩ := List.lookup_eq_some_iff.mp h
    rw [hEntries]
    exact List.mem_append_right _ List.mem_cons_self
  · intro h
    have hSome : (m.entries.lookup k).isSome := by
      rw [List.lookup_isSome_iff]
      exact ⟨(k, v), h, by simp⟩
    obtain ⟨w, hw⟩ := Option.isSome_iff_exists.mp hSome
    obtain ⟨before, after, hEntries, _⟩ := List.lookup_eq_some_iff.mp hw
    have hMem : (k, w) ∈ m.entries := by
      rw [hEntries]
      exact List.mem_append_right _ List.mem_cons_self
    rw [lookupElem, hw, entries_unique hMem h]

theorem mem_iff_lookupElem {m : BoundedMap κ ν n} {k : κ} :
    k ∈ m ↔ ∃ v, m.lookupElem k = some v := by
  simp only [mem_iff, lookupElem_eq_some_iff]

theorem lookupElem_eq_none_iff {m : BoundedMap κ ν n} {k : κ} :
    m.lookupElem k = none ↔ k ∉ m := by
  rw [mem_iff_lookupElem, Option.eq_none_iff_forall_ne_some]
  exact not_exists.symm

@[simp] theorem not_mem_empty (bucket : κ → Nat) (k : κ) :
    k ∉ (empty bucket : BoundedMap κ ν n) := by
  rw [← lookupElem_eq_none_iff]
  rfl

@[simp] theorem lookupElem_deleteElem (m : BoundedMap κ ν n) (k k' : κ) :
    (m.deleteElem k).lookupElem k' = if k' = k then none else m.lookupElem k' := by
  ext v
  rw [lookupElem_eq_some_iff]
  simp only [deleteElem, List.mem_filter, decide_eq_true_eq]
  split
  · rename_i h
    simp [h]
  · rename_i h
    rw [lookupElem_eq_some_iff]
    simp [h]

theorem deleteElem_of_not_mem {m : BoundedMap κ ν n} {k : κ} (h : k ∉ m) : m.deleteElem k = m := by
  have hEntries : m.entries.filter (fun e => e.1 ≠ k) = m.entries := by
    rw [List.filter_eq_self]
    intro e he
    refine decide_eq_true (fun hEq => h ?_)
    exact mem_iff.mpr ⟨e.2, hEq ▸ he⟩
  cases m
  simp only [deleteElem, hEntries]

@[simp] theorem lookupElem_put (m : BoundedMap κ ν n) (k k' : κ) (v : ν)
    (h : k ∈ m ∨ m.size < n) :
    (m.put k v h).lookupElem k' = if k' = k then some v else m.lookupElem k' := by
  ext w
  have hDelete : (k', w) ∈ (m.deleteElem k).entries ↔ k' ≠ k ∧ m.lookupElem k' = some w := by
    rw [← lookupElem_eq_some_iff, lookupElem_deleteElem]
    split <;> simp_all
  rw [lookupElem_eq_some_iff]
  simp only [put, List.mem_orderedInsert, hDelete, Prod.mk.injEq]
  split
  · rename_i hk
    simp [hk, eq_comm]
  · rename_i hk
    simp [hk]

@[simp] theorem lookupElem_modify (m : BoundedMap κ ν n) (k k' : κ) (f : ν → ν) :
    (m.modify k f).lookupElem k' = if k' = k then (m.lookupElem k').map f
      else m.lookupElem k' := by
  ext w
  rw [lookupElem_eq_some_iff]
  simp only [modify, List.mem_map]
  constructor
  · rintro ⟨⟨a, v⟩, hMem, hEq⟩
    have hLookup := lookupElem_eq_some_iff.mpr hMem
    dsimp only at hEq
    split at hEq
    · rename_i ha
      obtain ⟨rfl, rfl⟩ := Prod.mk.inj hEq
      rw [if_pos ha, hLookup]
      rfl
    · rename_i ha
      obtain ⟨rfl, rfl⟩ := Prod.mk.inj hEq
      rw [if_neg ha, hLookup]
  · intro h
    split at h
    · rename_i hk
      obtain ⟨v, hv, rfl⟩ := Option.map_eq_some_iff.mp h
      exact ⟨(k', v), lookupElem_eq_some_iff.mp hv, by simp [hk]⟩
    · rename_i hk
      exact ⟨(k', w), lookupElem_eq_some_iff.mp h, by simp [hk]⟩

@[simp] theorem lookupElem_mapValues {ω : Type} (m : BoundedMap κ ν n) (f : ν → ω) (k : κ) :
    (m.mapValues f).lookupElem k = (m.lookupElem k).map f := by
  ext w
  rw [lookupElem_eq_some_iff, Option.map_eq_some_iff]
  simp only [lookupElem_eq_some_iff, mapValues, List.mem_map, Prod.mk.injEq]
  constructor
  · rintro ⟨⟨a, v⟩, hMem, rfl, rfl⟩
    exact ⟨v, hMem, rfl⟩
  · rintro ⟨v, hMem, rfl⟩
    exact ⟨(k, v), hMem, rfl, rfl⟩

theorem modify_modify (m : BoundedMap κ ν n) (k : κ) (f g : ν → ν) :
    (m.modify k f).modify k g = m.modify k (g ∘ f) := by
  simp only [modify, List.map_map, mk.injEq, true_and]
  apply List.map_congr_left
  intro e _
  by_cases h : e.1 = k <;> simp [h]

@[simp] theorem mem_put {m : BoundedMap κ ν n} {k k' : κ} {v : ν} {h : k ∈ m ∨ m.size < n} :
    k' ∈ m.put k v h ↔ k' = k ∨ k' ∈ m := by
  simp only [mem_iff_lookupElem, lookupElem_put]
  split <;> simp_all

@[simp] theorem mem_deleteElem {m : BoundedMap κ ν n} {k k' : κ} :
    k' ∈ m.deleteElem k ↔ k' ≠ k ∧ k' ∈ m := by
  simp only [mem_iff_lookupElem, lookupElem_deleteElem]
  split <;> simp_all

@[simp] theorem mem_modify {m : BoundedMap κ ν n} {k k' : κ} {f : ν → ν} :
    k' ∈ m.modify k f ↔ k' ∈ m := by
  simp only [mem_iff_lookupElem, lookupElem_modify]
  split <;> simp

theorem lookupElem_updateElem (m : BoundedMap κ ν n) (k k' : κ) (v : ν) :
    ((m.updateElem k v).getD m).lookupElem k' =
      if k' = k ∧ (k ∈ m ∨ m.size < n) then some v else m.lookupElem k' := by
  unfold updateElem
  split
  · rename_i h
    simp [h]
  · rename_i h
    simp [h]

omit [DecidableEq κ] in
theorem keys_nodup (m : BoundedMap κ ν n) : m.keys.Nodup := m.nodup

omit [DecidableEq κ] in
theorem length_keys (m : BoundedMap κ ν n) : m.keys.length = m.size := List.length_map _

omit [DecidableEq κ] in
theorem size_eq_of_mem_iff {ω : Type} {m : BoundedMap κ ν n} {m' : BoundedMap κ ω n}
    (h : ∀ k, k ∈ m ↔ k ∈ m') : m.size = m'.size := by
  rw [← length_keys, ← length_keys]
  exact ((List.perm_ext_iff_of_nodup m.keys_nodup m'.keys_nodup).mpr h).length_eq

/-- Tables that hold the same differ in the order of their entries only. -/
theorem perm_entries {m m' : BoundedMap κ ν n} (h : ∀ k, m.lookupElem k = m'.lookupElem k) :
    m.entries.Perm m'.entries := by
  rw [List.perm_ext_iff_of_nodup (m.nodup.of_map _) (m'.nodup.of_map _)]
  rintro ⟨k, v⟩
  rw [← lookupElem_eq_some_iff, ← lookupElem_eq_some_iff, h]

theorem mem_updateElem {m : BoundedMap κ ν n} {k k' : κ} {v : ν} (hRoom : k ∈ m ∨ m.size < n) :
    k' ∈ (m.updateElem k v).getD m ↔ k' = k ∨ k' ∈ m := by
  simp only [updateElem, dif_pos hRoom, Option.getD_some, mem_put]

/-- A key of a small set finds room in a table that holds only keys of that set. -/
theorem room_of_subset {m : BoundedMap κ ν n} {k : κ} (S : Finset κ) (hCard : S.card ≤ n)
    (hKeys : ∀ k' ∈ m, k' ∈ S) (hk : k ∈ S) : k ∈ m ∨ m.size < n := by
  by_cases hMem : k ∈ m
  · exact Or.inl hMem
  · refine Or.inr (lt_of_lt_of_le ?_ hCard)
    have hLt : m.keys.toFinset.card < S.card := by
      apply Finset.card_lt_card
      refine ⟨fun k' hk' => hKeys k' (List.mem_toFinset.mp hk'), fun hSub => ?_⟩
      exact hMem (List.mem_toFinset.mp (hSub hk))
    rwa [List.toFinset_card_of_nodup m.keys_nodup, length_keys] at hLt

end BoundedMap
end Ebacs.Lib
