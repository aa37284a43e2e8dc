import Mathlib.Algebra.Order.Group.Multiset
import Mathlib.Data.Finset.Card
import Mathlib.Data.Fintype.EquivFin

/-! # Handles that are acquired and released

A system keeps the set of handles in use. An owner acquires fresh ones and gives
them back, each once: as bags, what is in use is what was in use before together
with what the owner holds, so no handle is held twice or taken from anyone else.
-/
namespace Ebacs.Lib
set_option autoImplicit false

variable {α : Type} {base held : Finset α} {own : List α} {a : α}

def Owns (base held : Finset α) (own : List α) : Prop :=
  held.val = base.val + (own : Multiset α)

theorem owns_nil (base : Finset α) : Owns base base [] := by
  rw [Owns, Multiset.coe_nil, add_zero]

theorem Owns.eq (h : Owns base held []) : held = base := by
  rw [Owns, Multiset.coe_nil, add_zero] at h
  exact Finset.val_injective h

theorem Owns.mem (h : Owns base held (a :: own)) : a ∈ held := by
  rw [← Finset.mem_val, h]
  exact Multiset.mem_add.mpr (Or.inr List.mem_cons_self)

variable [DecidableEq α]

theorem Owns.acquire (h : Owns base held own) (hFresh : a ∉ held) :
    Owns base (insert a held) (own ++ [a]) := by
  rw [Owns] at h ⊢
  rw [Finset.insert_val_of_notMem hFresh, h, ← Multiset.coe_add, ← add_assoc,
    Multiset.coe_singleton, ← Multiset.singleton_add, add_comm]

theorem Owns.release (h : Owns base held (a :: own)) : Owns base (held.erase a) own := by
  have hOwn : ((a :: own : List α) : Multiset α) = a ::ₘ (own : Multiset α) := rfl
  rw [Owns] at h ⊢
  rw [Finset.erase_val, h, hOwn, Multiset.add_cons, Multiset.erase_cons_head]

/-- A handle that is not given back is held by nobody. -/
theorem Owns.leak (h : Owns base held (a :: own)) :
    a ∉ base ∧ Owns (insert a base) held own := by
  have hOwn : ((a :: own : List α) : Multiset α) = a ::ₘ (own : Multiset α) := rfl
  have hFresh : a ∉ base := by
    intro hMem
    have hNodup := held.nodup
    rw [h, hOwn, Multiset.add_cons, Multiset.nodup_cons] at hNodup
    exact hNodup.1 (Multiset.mem_add.mpr (Or.inl hMem))
  refine ⟨hFresh, ?_⟩
  rw [Owns] at h ⊢
  rw [h, Finset.insert_val_of_notMem hFresh, hOwn, Multiset.add_cons, Multiset.cons_add]

/-- The number that `open` returns. -/
def lowestUnused (used : Finset Nat) : Nat := Nat.find (Infinite.exists_notMem_finset used)

theorem lowestUnused_not_mem (used : Finset Nat) : lowestUnused used ∉ used :=
  Nat.find_spec (Infinite.exists_notMem_finset used)

end Ebacs.Lib
