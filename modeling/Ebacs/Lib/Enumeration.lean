import Ebacs.Lib.BoundedMap

/-! # Walking a table with a cursor

One key precedes another when the two stand in this order in the enumeration.
A deletion keeps the order of the other keys, and a stored key only comes to
stand behind keys of earlier buckets, so a key that does not follow the cursor
does not come to follow it unless the cursor itself moves.
-/
namespace Ebacs.Lib.BoundedMap
open List
set_option autoImplicit false

variable {κ ν : Type} [DecidableEq κ] {n : Nat}

def Precedes (m : BoundedMap κ ν n) (a b : κ) : Prop := [a, b] <+ m.keys

instance (m : BoundedMap κ ν n) (a b : κ) : Decidable (m.Precedes a b) :=
  inferInstanceAs (Decidable ([a, b] <+ m.keys))

theorem keysAfter_eq {m : BoundedMap κ ν n} {c : κ} {before after : List κ}
    (h : m.keys = before ++ c :: after) : m.keysAfter c = after := by
  have hNodup := m.keys_nodup
  rw [h, nodup_append] at hNodup
  have hBefore : ∀ k ∈ before, decide (k ≠ c) = true := by
    intro k hk
    exact decide_eq_true (hNodup.2.2 k hk c mem_cons_self)
  rw [keysAfter, h, dropWhile_append_of_pos hBefore, dropWhile_cons_of_neg (by simp)]
  rfl

theorem getNextKey_eq {m : BoundedMap κ ν n} {c : κ} {before after : List κ}
    (h : m.keys = before ++ c :: after) : m.getNextKey c = after.head? := by
  have hMem : c ∈ m := by
    change c ∈ m.keys
    rw [h]
    exact mem_append_right _ mem_cons_self
  rw [getNextKey, if_pos hMem, keysAfter_eq h]

theorem getNextKey_absent {m : BoundedMap κ ν n} {c : κ} (h : c ∉ m) :
    m.getNextKey c = m.keys.head? := if_neg h

omit [DecidableEq κ] in
theorem precedes_iff {m : BoundedMap κ ν n} {c k : κ} {before after : List κ}
    (h : m.keys = before ++ c :: after) : m.Precedes c k ↔ k ∈ after := by
  have hNodup := m.keys_nodup
  rw [Precedes, h]
  rw [h, nodup_append, nodup_cons] at hNodup
  obtain ⟨_, ⟨hAfter, _⟩, hBefore⟩ := hNodup
  constructor
  · intro hSub
    obtain ⟨l₁, l₂, hSplit, h₁, h₂⟩ := sublist_append_iff.mp hSub
    cases l₁ with
    | nil =>
      rw [nil_append] at hSplit
      rw [← hSplit] at h₂
      exact singleton_sublist.mp (cons_sublist_cons.mp h₂)
    | cons a l₁ =>
      have ha : a = c := (cons.inj hSplit).1.symm
      exact absurd (ha ▸ h₁.subset mem_cons_self) (fun hc => hBefore c hc c mem_cons_self rfl)
  · intro hk
    exact ((singleton_sublist.mpr hk).cons_cons c).trans (sublist_append_right _ _)

omit [DecidableEq κ] in
theorem exists_split {m : BoundedMap κ ν n} {c : κ} (h : c ∈ m) :
    ∃ before after, m.keys = before ++ c :: after := append_of_mem h

theorem getNextKey_precedes {m : BoundedMap κ ν n} {c c' : κ} (hMem : c ∈ m)
    (h : m.getNextKey c = some c') :
    m.Precedes c c' ∧ ∀ k, m.Precedes c' k → m.Precedes c k := by
  obtain ⟨before, after, hKeys⟩ := exists_split hMem
  rw [getNextKey_eq hKeys, head?_eq_some_iff] at h
  obtain ⟨rest, rfl⟩ := h
  have hKeys' : m.keys = (before ++ [c]) ++ c' :: rest := by simp [hKeys]
  refine ⟨(precedes_iff hKeys).mpr mem_cons_self, fun k hk => ?_⟩
  exact (precedes_iff hKeys).mpr (mem_cons_of_mem _ ((precedes_iff hKeys').mp hk))

omit [DecidableEq κ] in
theorem Precedes.mem_right {m : BoundedMap κ ν n} {a b : κ} (h : m.Precedes a b) : b ∈ m :=
  h.subset (mem_cons_of_mem _ mem_cons_self)

omit [DecidableEq κ] in
theorem Precedes.irrefl {m : BoundedMap κ ν n} {a : κ} : ¬m.Precedes a a := by
  intro h
  simpa using m.keys_nodup.sublist h

omit [DecidableEq κ] in
theorem Precedes.bucket_le {m : BoundedMap κ ν n} {a b : κ} (h : m.Precedes a b) :
    m.bucket a ≤ m.bucket b := by
  have hSorted : m.keys.Pairwise (fun a b => m.bucket a ≤ m.bucket b) :=
    pairwise_map.mpr m.sorted
  simpa using hSorted.sublist h

omit [DecidableEq κ] in
theorem precedes_total {m : BoundedMap κ ν n} {a b : κ} (ha : a ∈ m) (hb : b ∈ m) (hNe : a ≠ b) :
    m.Precedes a b ∨ m.Precedes b a := by
  obtain ⟨before, after, hKeys⟩ := exists_split ha
  have hb' : b ∈ before ++ a :: after := hKeys ▸ hb
  rcases mem_append.mp hb' with hb' | hb'
  · refine Or.inr ?_
    rw [Precedes, hKeys]
    exact (singleton_sublist.mpr hb').append (singleton_sublist.mpr mem_cons_self)
  · rcases mem_cons.mp hb' with hEq | hb'
    · exact absurd hEq.symm hNe
    · exact Or.inl ((precedes_iff hKeys).mpr hb')

theorem Precedes.of_deleteElem {m : BoundedMap κ ν n} {k a b : κ}
    (h : (m.deleteElem k).Precedes a b) : m.Precedes a b :=
  h.trans (filter_sublist.map _)

theorem keys_put (m : BoundedMap κ ν n) (k : κ) (v : ν) (h : k ∈ m ∨ m.size < n) :
    (m.put k v h).keys =
      (m.deleteElem k).keys.orderedInsert (fun a b => m.bucket a ≤ m.bucket b) k :=
  map_orderedInsert _ (fun a b => m.bucket a ≤ m.bucket b) Prod.fst _ (k, v)
    (fun _ _ => Iff.rfl) (fun _ _ => Iff.rfl)

omit [DecidableEq κ] in
theorem bucket_lt_of_inserted {bucket : κ → Nat} {a k : κ} {l : List κ} (hk : k ∉ l) (ha : a ≠ k)
    (h : [a, k] <+ l.orderedInsert (fun a b => bucket a ≤ bucket b) k) : bucket a < bucket k := by
  induction l with
  | nil =>
    have := h.length_le
    simp at this
  | cons b l ih =>
    rw [orderedInsert_cons] at h
    split at h
    · rcases sublist_cons_iff.mp h with h | ⟨r, hr, h⟩
      · exact absurd (h.subset (mem_cons_of_mem _ mem_cons_self)) hk
      · exact absurd (cons.inj hr).1 ha
    · rename_i hBucket
      rcases sublist_cons_iff.mp h with h | ⟨r, hr, h⟩
      · exact ih (fun hMem => hk (mem_cons_of_mem _ hMem)) h
      · rw [(cons.inj hr).1]
        omega

theorem Precedes.of_put {m : BoundedMap κ ν n} {k a b : κ} {v : ν} {hRoom : k ∈ m ∨ m.size < n}
    (ha : a ≠ k) (h : (m.put k v hRoom).Precedes a b) :
    m.Precedes a b ∨ m.bucket a < m.bucket b := by
  rw [Precedes, keys_put] at h
  have hk : k ∉ (m.deleteElem k).keys := by
    change ¬(k ∈ m.deleteElem k)
    simp
  by_cases hb : b = k
  · rw [hb] at h ⊢
    exact Or.inr (bucket_lt_of_inserted hk ha h)
  · refine Or.inl (Precedes.of_deleteElem (k := k) ?_)
    have hErase := h.erase k
    rw [erase_orderedInsert_of_notMem hk] at hErase
    rwa [erase_of_not_mem (by simp [Ne.symm ha, Ne.symm hb])] at hErase

theorem Precedes.of_put_self {m : BoundedMap κ ν n} {a b : κ} {v : ν} (hMem : a ∈ m)
    (hFirst : ∀ k, m.Precedes k a → m.bucket k ≠ m.bucket a)
    (h : (m.put a v (Or.inl hMem)).Precedes a b) : m.Precedes a b := by
  have hNe : a ≠ b := by
    rintro rfl
    exact Precedes.irrefl h
  have hb : b ∈ m := by
    rcases mem_put.mp h.mem_right with hEq | hb
    · exact absurd hEq.symm hNe
    · exact hb
  have hLe : m.bucket a ≤ m.bucket b := h.bucket_le
  rcases precedes_total hMem hb hNe with hAfter | hBefore
  · exact hAfter
  · have hLt := lt_of_le_of_ne hBefore.bucket_le (hFirst b hBefore)
    omega

@[simp] theorem keys_modify (m : BoundedMap κ ν n) (k : κ) (f : ν → ν) :
    (m.modify k f).keys = m.keys := by
  rw [keys, modify, map_map]
  apply map_congr_left
  intro e _
  by_cases h : e.1 = k <;> simp [h]

end Ebacs.Lib.BoundedMap
