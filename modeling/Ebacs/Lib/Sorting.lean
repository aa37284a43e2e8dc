import Mathlib.Data.List.Sort

/-! # Lists sorted by a relation that is an order on their members only

A relation that is total and transitive on the members of a list can sort it,
and two members may come to stand in any order that the relation allows.
-/
namespace Ebacs.Lib
set_option autoImplicit false

variable {α : Type}

structure OrdersMembers (r : α → α → Prop) (l : List α) : Prop where
  total : ∀ a ∈ l, ∀ b ∈ l, r a b ∨ r b a
  trans : ∀ a ∈ l, ∀ b ∈ l, ∀ c ∈ l, r a b → r b c → r a c

theorem OrdersMembers.exists_sorted {r : α → α → Prop} {l : List α} (h : OrdersMembers r l)
    {c : List α} (hc : c.Pairwise r) (hSub : c.Sublist l) :
    ∃ sorted : List α, sorted.Perm l ∧ sorted.Pairwise r ∧ c.Sublist sorted := by
  classical
  let onMembers : {a // a ∈ l} → {a // a ∈ l} → Prop := fun a b => r a.1 b.1
  have : Std.Total onMembers := ⟨fun a b => h.total a.1 a.2 b.1 b.2⟩
  have : IsTrans {a // a ∈ l} onMembers := ⟨fun a b c => h.trans a.1 a.2 b.1 b.2 c.1 c.2⟩
  have hAttached : c.Sublist (l.attach.map Subtype.val) := by rwa [List.attach_map_subtype_val]
  obtain ⟨members, hMembers, rfl⟩ := List.sublist_map_iff.mp hAttached
  refine ⟨(l.attach.insertionSort onMembers).map Subtype.val, ?_, ?_, ?_⟩
  · have hPerm := (List.perm_insertionSort onMembers l.attach).map Subtype.val
    rwa [List.attach_map_subtype_val] at hPerm
  · exact List.pairwise_map.mpr (List.pairwise_insertionSort onMembers l.attach)
  · exact (List.sublist_insertionSort (List.pairwise_map.mp hc) hMembers).map Subtype.val

end Ebacs.Lib
