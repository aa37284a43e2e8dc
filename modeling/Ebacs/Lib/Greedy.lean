import Mathlib.Algebra.Order.BigOperators.Group.List
import Mathlib.Algebra.BigOperators.Group.Multiset.Basic
import Mathlib.Algebra.Order.Ring.Defs
import Mathlib.Data.Nat.Cast.Order.Ring
import Mathlib.Tactic.Abel
import Mathlib.Tactic.Ring

/-! # Prefixes of a decreasing list

The first `k` elements of a list sorted downwards sum up to at least as much
as any other `k` elements, and to at least the average of `k` elements.
-/
namespace Ebacs.Lib
set_option autoImplicit false

section Dominance

variable {α : Type} [AddCommMonoid α] [PartialOrder α] [IsOrderedAddMonoid α]

theorem sum_take_succ_le {l : List α} {a : α} (hHead : ∀ b ∈ l, b ≤ a) (m : Nat)
    (hLength : m < l.length) : (l.take (m + 1)).sum ≤ a + (l.take m).sum := by
  rw [List.take_succ_eq_append_getElem hLength, List.sum_append, List.sum_singleton, add_comm]
  exact add_le_add_left (hHead _ (List.getElem_mem hLength)) _

theorem sum_sublist_le_sum_take {l t : List α} (hSorted : l.Pairwise (· ≥ ·))
    (h : t.Sublist l) : t.sum ≤ (l.take t.length).sum := by
  induction h with
  | slnil => exact le_rfl
  | @cons t l a hSub ih =>
    obtain ⟨hHead, hTail⟩ := List.pairwise_cons.mp hSorted
    cases t with
    | nil => exact le_rfl
    | cons b t =>
      refine (ih hTail).trans ?_
      rw [List.length_cons, List.take_succ_cons, List.sum_cons]
      exact sum_take_succ_le hHead _ hSub.length_le
  | @cons_cons t l a hSub ih =>
    rw [List.length_cons, List.take_succ_cons, List.sum_cons, List.sum_cons]
    exact add_le_add_right (ih (List.pairwise_cons.mp hSorted).2) a

theorem sum_le_sum_take {l : List α} {s : Multiset α} (hSorted : l.Pairwise (· ≥ ·))
    (h : s ≤ (l : Multiset α)) : s.sum ≤ (l.take s.card).sum := by
  induction s using Quotient.inductionOn with
  | h t =>
    obtain ⟨t', hPerm, hSub⟩ := Multiset.coe_le.mp h
    change (t : Multiset α).sum ≤ (l.take (t : Multiset α).card).sum
    rw [Multiset.sum_coe, Multiset.coe_card, ← hPerm.sum_eq, ← hPerm.length_eq]
    exact sum_sublist_le_sum_take hSorted hSub

end Dominance

section Average

variable {α : Type} [CommRing α] [LinearOrder α] [IsStrictOrderedRing α]

theorem mul_sum_le_mul_sum_take {l : List α} (hSorted : l.Pairwise (· ≥ ·)) {k : Nat}
    (hk : k ≤ l.length) : (k : α) * l.sum ≤ (l.length : α) * (l.take k).sum := by
  rcases Nat.eq_or_lt_of_le hk with rfl | hLt
  · rw [List.take_length]
  · have hSplit : l.sum = (l.take k).sum + (l.drop k).sum := by
      rw [← List.sum_append, List.take_append_drop]
    have hPairs := hSorted
    rw [← List.take_append_drop k l, List.pairwise_append] at hPairs
    obtain ⟨_, hRest, hAcross⟩ := hPairs
    have hPivot : l[k] ∈ l.drop k := by
      rw [List.drop_eq_getElem_cons hLt]
      exact List.mem_cons_self
    have hTake : (k : α) * l[k] ≤ (l.take k).sum := by
      have h := List.card_nsmul_le_sum (l.take k) l[k] (fun a ha => hAcross a ha _ hPivot)
      rwa [List.length_take_of_le hk, nsmul_eq_mul] at h
    have hDrop : (l.drop k).sum ≤ ((l.length : α) - k) * l[k] := by
      have hAll : ∀ a ∈ l.drop k, a ≤ l[k] := by
        rw [List.drop_eq_getElem_cons hLt] at hRest ⊢
        intro a ha
        rcases List.mem_cons.mp ha with rfl | ha
        · exact le_rfl
        · exact (List.pairwise_cons.mp hRest).1 a ha
      have h := List.sum_le_card_nsmul (l.drop k) l[k] hAll
      rwa [List.length_drop, nsmul_eq_mul, Nat.cast_sub hk] at h
    have hGap : (0 : α) ≤ (l.length : α) - k := sub_nonneg.mpr (Nat.cast_le.mpr hk)
    have hNonneg : (0 : α) ≤ k := Nat.cast_nonneg k
    calc
      (k : α) * l.sum = k * (l.take k).sum + k * (l.drop k).sum := by rw [hSplit, mul_add]
      _ ≤ k * (l.take k).sum + k * (((l.length : α) - k) * l[k]) :=
        add_le_add_right (mul_le_mul_of_nonneg_left hDrop hNonneg) _
      _ = k * (l.take k).sum + ((l.length : α) - k) * (k * l[k]) := by ring
      _ ≤ k * (l.take k).sum + ((l.length : α) - k) * (l.take k).sum :=
        add_le_add_right (mul_le_mul_of_nonneg_left hTake hGap) _
      _ = (l.length : α) * (l.take k).sum := by ring

end Average

section Transfer

variable {α : Type}

theorem le_cons_cases [DecidableEq α] {s t : Multiset α} {a : α} (h : s ≤ a ::ₘ t) :
    s ≤ t ∨ ∃ s', s = a ::ₘ s' ∧ s' ≤ t := by
  by_cases hMem : a ∈ s
  · right
    refine ⟨s.erase a, (Multiset.cons_erase hMem).symm, ?_⟩
    exact Multiset.erase_le_iff_le_cons.mpr h
  · exact Or.inl ((Multiset.le_cons_of_notMem hMem).mp h)

variable [AddCommGroup α] [LinearOrder α] [IsOrderedAddMonoid α]

/-- Where the smaller of two elements gives to the larger one, no choice of elements gets less
than a choice of as many had before. -/
theorem exists_le_sum_of_transfer {x y n : α} {rest s : Multiset α} (hxy : y ≤ x) (hn : 0 ≤ n)
    (h : s ≤ x ::ₘ y ::ₘ rest) :
    ∃ t ≤ (x + n) ::ₘ (y - n) ::ₘ rest, t.card = s.card ∧ s.sum ≤ t.sum := by
  have hWiden : ∀ u ≤ rest, u ≤ (y - n) ::ₘ rest := by
    intro u hu
    exact hu.trans (Multiset.le_cons_self _ _)
  obtain hBoth | ⟨u, rfl, hu⟩ := le_cons_cases h
  · obtain hNone | ⟨u, rfl, hu⟩ := le_cons_cases hBoth
    · exact ⟨s, (hWiden s hNone).trans (Multiset.le_cons_self _ _), rfl, le_rfl⟩
    -- only the smaller one is chosen: the larger one takes its place
    · refine ⟨(x + n) ::ₘ u, Multiset.cons_le_cons _ (hWiden u hu), ?_, ?_⟩
      · rw [Multiset.card_cons, Multiset.card_cons]
      · rw [Multiset.sum_cons, Multiset.sum_cons]
        exact add_le_add_left (hxy.trans (le_add_of_nonneg_right hn)) _
  · obtain hOne | ⟨v, rfl, hv⟩ := le_cons_cases hu
    · refine ⟨(x + n) ::ₘ u, Multiset.cons_le_cons _ (hWiden u hOne), ?_, ?_⟩
      · rw [Multiset.card_cons, Multiset.card_cons]
      · rw [Multiset.sum_cons, Multiset.sum_cons]
        exact add_le_add_left (le_add_of_nonneg_right hn) _
    · refine ⟨(x + n) ::ₘ (y - n) ::ₘ v,
        Multiset.cons_le_cons _ (Multiset.cons_le_cons _ hv), ?_, ?_⟩
      · simp only [Multiset.card_cons]
      · simp only [Multiset.sum_cons]
        exact le_of_eq (by abel)

end Transfer

end Ebacs.Lib
