import Mathlib.Algebra.Ring.Int.Defs
import Mathlib.Algebra.Ring.Nat
import Ebacs.Lib.Sorting

/-! # Sorting the latencies

`main` of `benchmark.c` sorts an array of `long long` with a comparator that
reads an `int` at the place of each element, the low half of it on a
little-endian machine, and subtracts. Its sign depends on the difference of
the two latencies modulo 2^32 only.
-/
namespace Ebacs.Benchmark
open Lib
set_option autoImplicit false

def compare (a b : Int64) : Int32 := a.toInt32 - b.toInt32

/-- What `qsort` leaves in the array: its elements, in the order of the comparator where this
is an order at all. -/
structure QsortResult (compare : Int64 → Int64 → Int32) (base result : List Int64) : Prop where
  perm : result.Perm base
  sorted : OrdersMembers (fun a b => compare a b ≤ 0) base →
    result.Pairwise (fun a b => compare a b ≤ 0)

/-- The sign of the comparator is that of the difference. -/
def SignAgrees (a b : Int64) : Prop :=
  (compare a b < 0 ↔ a < b) ∧ (compare a b = 0 ↔ a = b) ∧ (0 < compare a b ↔ b < a)

/-- The latencies are equal, or their difference modulo 2^32 is positive as an `int`. -/
def Comparable (a b : Int64) : Prop :=
  a ≠ b → 0 < (a.toInt - b.toInt).natAbs % 2 ^ 32 ∧ (a.toInt - b.toInt).natAbs % 2 ^ 32 < 2 ^ 31

instance (a b : Int64) : Decidable (Comparable a b) := inferInstanceAs (Decidable (_ → _))

theorem compare_toInt (a b : Int64) :
    (compare a b).toInt = (a.toInt - b.toInt).bmod (2 ^ 32) := by
  rw [compare, Int32.toInt_sub, Int64.toInt_toInt32, Int64.toInt_toInt32, ← Int.sub_bmod]

/-- The sign of a remainder against that of the number. -/
theorem sign_bmod_iff (x : Int) :
    ((x.bmod (2 ^ 32) < 0 ↔ x < 0) ∧ (x.bmod (2 ^ 32) = 0 ↔ x = 0) ∧
      (0 < x.bmod (2 ^ 32) ↔ 0 < x)) ↔
    x = 0 ∨ (0 < x ∧ 0 < x % 2 ^ 32 ∧ x % 2 ^ 32 < 2 ^ 31) ∨ (x < 0 ∧ 2 ^ 31 ≤ x % 2 ^ 32) := by
  have hBmod : x.bmod (2 ^ 32) = if x % 2 ^ 32 < 2 ^ 31 then x % 2 ^ 32 else x % 2 ^ 32 - 2 ^ 32 :=
    rfl
  rw [hBmod]
  split <;> omega

theorem signAgrees_iff (a b : Int64) :
    SignAgrees a b ↔ (((a.toInt - b.toInt).bmod (2 ^ 32) < 0 ↔ a.toInt - b.toInt < 0) ∧
      ((a.toInt - b.toInt).bmod (2 ^ 32) = 0 ↔ a.toInt - b.toInt = 0) ∧
      (0 < (a.toInt - b.toInt).bmod (2 ^ 32) ↔ 0 < a.toInt - b.toInt)) := by
  have hZero : (0 : Int32).toInt = 0 := rfl
  rw [SignAgrees, Int32.lt_iff_toInt_lt, Int32.lt_iff_toInt_lt, ← Int32.toInt_inj, compare_toInt,
    hZero, Int64.lt_iff_toInt_lt, Int64.lt_iff_toInt_lt, ← Int64.toInt_inj]
  omega

theorem comparable_iff (a b : Int64) : Comparable a b ↔ SignAgrees a b ∧ SignAgrees b a := by
  rw [signAgrees_iff, signAgrees_iff, sign_bmod_iff, sign_bmod_iff, Comparable, ne_eq,
    ← Int64.toInt_inj]
  omega

theorem Comparable.symm {a b : Int64} (h : Comparable a b) : Comparable b a := by
  rw [comparable_iff] at h ⊢
  exact h.symm

/-- The larger latency may be put first. -/
theorem compare_le_of_not_comparable {a b : Int64} (hLt : a < b) (h : ¬Comparable a b) :
    compare b a ≤ 0 := by
  have hZero : (0 : Int32).toInt = 0 := rfl
  have hBmod : (b.toInt - a.toInt).bmod (2 ^ 32) =
      if (b.toInt - a.toInt) % 2 ^ 32 < 2 ^ 31 then (b.toInt - a.toInt) % 2 ^ 32
      else (b.toInt - a.toInt) % 2 ^ 32 - 2 ^ 32 := rfl
  rw [Comparable, ne_eq, ← Int64.toInt_inj] at h
  rw [Int64.lt_iff_toInt_lt] at hLt
  rw [Int32.le_iff_toInt_le, compare_toInt, hZero, hBmod]
  split <;> omega

section Sorting

variable {latencies : List Int64}

theorem compare_le_iff {a b : Int64} (h : Comparable a b) : compare a b ≤ 0 ↔ a ≤ b := by
  obtain ⟨_, _, hPos⟩ := ((comparable_iff a b).mp h).1
  rw [← Int32.not_lt, hPos, Int64.not_lt]

theorem QsortResult.ascending {result : List Int64} (hResult : QsortResult compare latencies result)
    (h : ∀ a ∈ latencies, ∀ b ∈ latencies, Comparable a b) : result.Pairwise (· ≤ ·) := by
  have hOrders : OrdersMembers (fun a b => compare a b ≤ 0) latencies := by
    constructor
    · intro a ha b hb
      rw [compare_le_iff (h a ha b hb), compare_le_iff (h b hb a ha)]
      exact Int64.le_total a b
    · intro a ha b hb c hc
      rw [compare_le_iff (h a ha b hb), compare_le_iff (h b hb c hc),
        compare_le_iff (h a ha c hc)]
      exact Int64.le_trans
  refine (hResult.sorted hOrders).imp_of_mem ?_
  intro a b ha hb hCompare
  exact (compare_le_iff (h a (hResult.perm.subset ha) b (hResult.perm.subset hb))).mp hCompare

theorem not_ascending_of_sublist {result : List Int64} {a b : Int64} (hLt : a < b)
    (hSub : [b, a].Sublist result) : ¬result.Pairwise (· ≤ ·) := by
  intro hPairwise
  have hLe := List.pairwise_pair.mp (hPairwise.sublist hSub)
  rw [Int64.le_iff_toInt_le] at hLe
  rw [Int64.lt_iff_toInt_lt] at hLt
  omega

theorem exists_result_not_ascending {a b : Int64} (ha : a ∈ latencies) (hb : b ∈ latencies)
    (hLt : a < b) (h : ¬Comparable a b) :
    ∃ result, QsortResult compare latencies result ∧ ¬result.Pairwise (· ≤ ·) := by
  have hNe : a ≠ b := fun hEq => h (fun hNe => absurd hEq hNe)
  have hPerm : (b :: a :: (latencies.erase b).erase a).Perm latencies := by
    have hErase := List.perm_cons_erase ((List.mem_erase_of_ne hNe).mpr ha)
    exact ((hErase.cons b).symm).trans (List.perm_cons_erase hb).symm
  have hFirst : [b, a].Sublist (b :: a :: (latencies.erase b).erase a) :=
    (List.prefix_append [b, a] _).sublist
  rcases Classical.em (OrdersMembers (fun a b => compare a b ≤ 0) latencies) with hOrders | hNot
  · have hMembers : OrdersMembers (fun a b => compare a b ≤ 0)
        (b :: a :: (latencies.erase b).erase a) :=
      ⟨fun x hx y hy => hOrders.total x (hPerm.subset hx) y (hPerm.subset hy),
        fun x hx y hy z hz => hOrders.trans x (hPerm.subset hx) y (hPerm.subset hy) z
          (hPerm.subset hz)⟩
    obtain ⟨result, hResult, hSorted, hSub⟩ := hMembers.exists_sorted
      (List.pairwise_pair.mpr (compare_le_of_not_comparable hLt h)) hFirst
    exact ⟨result, ⟨hResult.trans hPerm, fun _ => hSorted⟩, not_ascending_of_sublist hLt hSub⟩
  · exact ⟨_, ⟨hPerm, fun hOrders => absurd hOrders hNot⟩, not_ascending_of_sublist hLt hFirst⟩

/-- The array is in ascending order after the sort, and the comparator has the right sign, exactly
when the differences between its latencies modulo 2^32 are positive as an `int`. -/
theorem latencies_sorted_iff (latencies : List Int64) :
    ((∀ result, QsortResult compare latencies result → result.Pairwise (· ≤ ·)) ↔
      ∀ a ∈ latencies, ∀ b ∈ latencies, Comparable a b) ∧
    ((∀ a ∈ latencies, ∀ b ∈ latencies, SignAgrees a b) ↔
      ∀ a ∈ latencies, ∀ b ∈ latencies, Comparable a b) := by
  constructor
  · constructor
    · intro h a ha b hb
      by_contra hNot
      have hNe : ¬a.toInt = b.toInt := by
        intro hEq
        exact hNot (fun hNe => absurd (Int64.toInt_inj.mp hEq) hNe)
      rcases Int.lt_or_gt_of_ne hNe with hLt | hLt
      · obtain ⟨result, hResult, hBad⟩ :=
          exists_result_not_ascending ha hb (Int64.lt_iff_toInt_lt.mpr hLt) hNot
        exact hBad (h result hResult)
      · obtain ⟨result, hResult, hBad⟩ :=
          exists_result_not_ascending hb ha (Int64.lt_iff_toInt_lt.mpr hLt)
            (fun hComparable => hNot hComparable.symm)
        exact hBad (h result hResult)
    · intro h result hResult
      exact hResult.ascending h
  · constructor
    · intro h a ha b hb
      exact (comparable_iff a b).mpr ⟨h a ha b hb, h b hb a ha⟩
    · intro h a ha b hb
      exact ((comparable_iff a b).mp (h a ha b hb)).1

end Sorting

/-- One latency of 0.3 s and one of 2^32 ns, a little more than 4 s. -/
theorem compare_missorts :
    ¬(∀ latencies : List Int64, (∀ a ∈ latencies, 0 ≤ a) →
      ∀ result, QsortResult compare latencies result → result.Pairwise (· ≤ ·)) ∧
    ¬(∀ a b : Int64, 0 ≤ a → 0 ≤ b → SignAgrees a b) := by
  have hNot : ¬Comparable 300000000 4294967296 := by decide
  constructor
  · intro h
    obtain ⟨result, hResult, hBad⟩ := @exists_result_not_ascending [300000000, 4294967296]
      300000000 4294967296 (by decide) (by decide) (by decide) hNot
    exact hBad (h _ (by simp) result hResult)
  · intro h
    exact hNot ((comparable_iff _ _).mpr
      ⟨h _ _ (by decide) (by decide), h _ _ (by decide) (by decide)⟩)

end Ebacs.Benchmark
