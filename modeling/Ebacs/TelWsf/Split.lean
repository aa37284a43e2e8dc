import Mathlib.Data.List.Sort
import Mathlib.Data.Rat.Floor
import Mathlib.Order.Bounds.Basic
import Mathlib.Tactic.FieldSimp
import Mathlib.Tactic.Linarith
import Ebacs.Lib.Greedy

/-! # The working-set split

The loop of `tel_wsf.py` that walks the access counts downwards until they
make up seven tenths of all accesses. Floating point is read as exact
rationals. The walk is greedy, and no choice of fewer pages reaches as far.
-/
namespace Ebacs.TelWsf
open Lib
set_option autoImplicit false

def totalAccesses (accessCounts : List Int) : Int := accessCounts.sum

/-- `sorted(access_counts, reverse=True)` -/
def descending (accessCounts : List Int) : List Int := accessCounts.insertionSort (· ≥ ·)

/-- The index at which the loop breaks, if it does. -/
def splitLoop (threshold : ℚ) : Nat → Int → List Int → Option Nat
  | _, _, [] => none
  | i, cumulativeSum, count :: counts =>
    if ((cumulativeSum + count : Int) : ℚ) ≥ threshold then some i
    else splitLoop threshold (i + 1) (cumulativeSum + count) counts

def splitBreak (accessCounts : List Int) : Option Nat :=
  splitLoop (7 / 10 * totalAccesses accessCounts) 0 0 (descending accessCounts)

def splitIndex (accessCounts : List Int) : Nat := (splitBreak accessCounts).getD 0

def workingSetSplit (accessCounts : List Int) : ℚ :=
  1 - (splitIndex accessCounts + 1 : ℚ) / accessCounts.length

theorem add_sum_take_cons (c count : Int) (counts : List Int) (d : Nat) :
    c + ((count :: counts).take (d + 1)).sum = c + count + (counts.take d).sum := by
  rw [List.take_succ_cons, List.sum_cons, add_assoc]

theorem splitLoop_eq_some_iff {threshold : ℚ} {counts : List Int} {i j : Nat} {c : Int} :
    splitLoop threshold i c counts = some j ↔
      ∃ d, j = i + d ∧ d < counts.length ∧
        threshold ≤ ((c + (counts.take (d + 1)).sum : Int) : ℚ) ∧
        ∀ e < d, ((c + (counts.take (e + 1)).sum : Int) : ℚ) < threshold := by
  induction counts generalizing i c with
  | nil => simp [splitLoop]
  | cons count counts ih =>
    rw [splitLoop]
    split
    · rename_i hReached
      constructor
      · intro h
        refine ⟨0, (Option.some.inj h).symm, Nat.succ_pos _, ?_, nofun⟩
        simpa using hReached
      · rintro ⟨d, rfl, _, _, hBelow⟩
        cases d with
        | zero => rfl
        | succ d =>
          have hFirst := hBelow 0 (Nat.succ_pos d)
          rw [add_sum_take_cons, List.take_zero, List.sum_nil, add_zero] at hFirst
          exact absurd hReached (not_le.mpr hFirst)
    · rename_i hBelow
      rw [ih]
      constructor
      · rintro ⟨d, rfl, hLength, hReached, hBefore⟩
        refine ⟨d + 1, by omega, Nat.succ_lt_succ hLength, ?_, fun e he => ?_⟩
        · rwa [add_sum_take_cons]
        · cases e with
          | zero =>
            rw [add_sum_take_cons, List.take_zero, List.sum_nil, add_zero]
            exact not_le.mp hBelow
          | succ e =>
            rw [add_sum_take_cons]
            exact hBefore e (Nat.lt_of_succ_lt_succ he)
      · rintro ⟨d, rfl, hLength, hReached, hBefore⟩
        cases d with
        | zero =>
          rw [add_sum_take_cons, List.take_zero, List.sum_nil, add_zero] at hReached
          exact absurd hReached hBelow
        | succ d =>
          refine ⟨d, by omega, Nat.lt_of_succ_lt_succ hLength, ?_, fun e he => ?_⟩
          · rwa [add_sum_take_cons] at hReached
          · have h := hBefore (e + 1) (Nat.succ_lt_succ he)
            rwa [add_sum_take_cons] at h

theorem perm_descending (accessCounts : List Int) :
    (descending accessCounts).Perm accessCounts := List.perm_insertionSort _ _

theorem pairwise_descending (accessCounts : List Int) :
    (descending accessCounts).Pairwise (· ≥ ·) := List.pairwise_insertionSort _ _

theorem length_descending (accessCounts : List Int) :
    (descending accessCounts).length = accessCounts.length :=
  (perm_descending accessCounts).length_eq

theorem sum_descending (accessCounts : List Int) :
    (descending accessCounts).sum = totalAccesses accessCounts :=
  (perm_descending accessCounts).sum_eq

theorem descending_eq_of_perm {accessCounts other : List Int} (h : other.Perm accessCounts) :
    descending other = descending accessCounts := by
  refine List.Perm.eq_of_pairwise ?_ (pairwise_descending other) (pairwise_descending accessCounts)
    ((perm_descending other).trans (h.trans (perm_descending accessCounts).symm))
  intro a b _ _ hab hba
  exact le_antisymm hba hab

/-- The accesses to the `k` pages that have most of them. -/
def topSum (accessCounts : List Int) (k : Nat) : Int := ((descending accessCounts).take k).sum

/-- Seven tenths of all accesses, or more. -/
def Reaches (accessCounts : List Int) (sum : Int) : Prop :=
  (7 / 10 * totalAccesses accessCounts : ℚ) ≤ sum

theorem reaches_iff {accessCounts : List Int} {sum : Int} :
    Reaches accessCounts sum ↔ 7 * totalAccesses accessCounts ≤ 10 * sum := by
  rw [Reaches, ← Int.cast_le (R := ℚ)]
  push_cast
  constructor
  · intro h
    linarith
  · intro h
    linarith

theorem splitBreak_eq_some_iff {accessCounts : List Int} {j : Nat} :
    splitBreak accessCounts = some j ↔ j < accessCounts.length ∧
      Reaches accessCounts (topSum accessCounts (j + 1)) ∧
      ∀ e < j, ¬Reaches accessCounts (topSum accessCounts (e + 1)) := by
  rw [splitBreak, splitLoop_eq_some_iff]
  simp only [zero_add, exists_eq_left', length_descending, Reaches, topSum, not_le]

theorem exists_splitBreak {accessCounts : List Int} {k : Nat} (hPos : 0 < k)
    (hLength : k ≤ accessCounts.length) (h : Reaches accessCounts (topSum accessCounts k)) :
    ∃ j < k, splitBreak accessCounts = some j := by
  classical
  have hExists : ∃ d, Reaches accessCounts (topSum accessCounts (d + 1)) :=
    ⟨k - 1, by rwa [Nat.sub_add_cancel hPos]⟩
  have hLe : Nat.find hExists ≤ k - 1 :=
    Nat.find_min' hExists (by rwa [Nat.sub_add_cancel hPos])
  refine ⟨Nat.find hExists, by omega, splitBreak_eq_some_iff.mpr ⟨by omega, ?_, ?_⟩⟩
  · exact Nat.find_spec hExists
  · intro e he
    exact Nat.find_min hExists he

theorem reaches_topSum_of_reaches {accessCounts : List Int} {s : Multiset Int}
    (hSub : s ≤ accessCounts) (h : Reaches accessCounts s.sum) :
    Reaches accessCounts (topSum accessCounts s.card) := by
  have hSub' : s ≤ (descending accessCounts : Multiset Int) := by
    rwa [Multiset.coe_eq_coe.mpr (perm_descending accessCounts)]
  have hLe := sum_le_sum_take (pairwise_descending accessCounts) hSub'
  rw [reaches_iff] at h ⊢
  rw [topSum]
  omega

theorem topSum_of_multiset (accessCounts : List Int) {k : Nat} (hk : k ≤ accessCounts.length) :
    ∃ s : Multiset Int, s ≤ accessCounts ∧ s.card = k ∧ s.sum = topSum accessCounts k := by
  refine ⟨((descending accessCounts).take k : List Int), ?_, ?_, ?_⟩
  · rw [← Multiset.coe_eq_coe.mpr (perm_descending accessCounts), Multiset.coe_le]
    exact (List.take_sublist k _).subperm
  · rw [Multiset.coe_card, List.length_take_of_le (by rwa [length_descending])]
  · rw [Multiset.sum_coe, topSum]

theorem card_le_of_le {accessCounts : List Int} {s : Multiset Int} (h : s ≤ accessCounts) :
    s.card ≤ accessCounts.length := by
  rw [← Multiset.coe_card]
  exact Multiset.card_le_card h

theorem average_le_topSum (accessCounts : List Int) {k : Nat} (hk : k ≤ accessCounts.length) :
    k * totalAccesses accessCounts ≤ accessCounts.length * topSum accessCounts k := by
  have h := mul_sum_le_mul_sum_take (pairwise_descending accessCounts)
    (hk.trans_eq (length_descending accessCounts).symm)
  rwa [sum_descending, length_descending] at h

section Positive

variable {accessCounts : List Int}

theorem totalAccesses_pos (hNe : accessCounts ≠ []) (hPos : ∀ c ∈ accessCounts, 0 < c) :
    0 < totalAccesses accessCounts :=
  List.sum_pos accessCounts hPos hNe

/-- The pages down to the average of seven tenths of them always suffice. -/
theorem reaches_topSum_of_share (hTotal : 0 ≤ totalAccesses accessCounts) {k : Nat}
    (hk : k ≤ accessCounts.length) (hShare : 7 * accessCounts.length ≤ 10 * k)
    (hNe : accessCounts ≠ []) : Reaches accessCounts (topSum accessCounts k) := by
  have hLength : (0 : Int) < accessCounts.length := by
    exact_mod_cast List.length_pos_iff.mpr hNe
  have hAverage := average_le_topSum accessCounts hk
  have hShare' : (7 * accessCounts.length : Int) ≤ 10 * k := by exact_mod_cast hShare
  rw [reaches_iff]
  by_contra hBelow
  have hLess : accessCounts.length * (10 * topSum accessCounts k) <
      accessCounts.length * (7 * totalAccesses accessCounts) :=
    mul_lt_mul_of_pos_left (not_le.mp hBelow) hLength
  have hMore := mul_le_mul_of_nonneg_right hShare' hTotal
  linarith

theorem splitBreak_of_pos (hNe : accessCounts ≠ []) (hPos : ∀ c ∈ accessCounts, 0 < c) :
    ∃ j, splitBreak accessCounts = some j ∧ 10 * j < 7 * accessCounts.length := by
  have hLength := List.length_pos_iff.mpr hNe
  have hShare := reaches_topSum_of_share (totalAccesses_pos hNe hPos).le
    (k := (7 * accessCounts.length + 9) / 10) (by omega) (by omega) hNe
  obtain ⟨j, hj, hBreak⟩ := exists_splitBreak (by omega) (by omega) hShare
  exact ⟨j, hBreak, by omega⟩

theorem isLeast_splitBreak (hNe : accessCounts ≠ []) (hPos : ∀ c ∈ accessCounts, 0 < c) {j : Nat}
    (h : splitBreak accessCounts = some j) :
    IsLeast {k | ∃ s : Multiset Int, s ≤ accessCounts ∧ s.card = k ∧
      Reaches accessCounts s.sum} (j + 1) := by
  obtain ⟨hLength, hReached, hBefore⟩ := splitBreak_eq_some_iff.mp h
  constructor
  · obtain ⟨s, hSub, hCard, hSum⟩ := topSum_of_multiset accessCounts (k := j + 1) hLength
    exact ⟨s, hSub, hCard, hSum ▸ hReached⟩
  · rintro k ⟨s, hSub, rfl, hReaches⟩
    by_contra hFewer
    have hTop := reaches_topSum_of_reaches hSub hReaches
    cases hCard : s.card with
    | zero =>
      rw [Multiset.card_eq_zero.mp hCard, Multiset.sum_zero, reaches_iff] at hReaches
      have hTotal := totalAccesses_pos hNe hPos
      omega
    | succ e =>
      rw [hCard] at hTop hFewer
      exact hBefore e (by omega) hTop

end Positive

theorem workingSetSplit_bounds {accessCounts : List Int} (hNe : accessCounts ≠ []) {j : Nat}
    (h : splitBreak accessCounts = some j) (hShare : 10 * j < 7 * accessCounts.length) :
    (3 / 10 - 1 / accessCounts.length : ℚ) < workingSetSplit accessCounts ∧
    workingSetSplit accessCounts ≤ 1 - 1 / accessCounts.length := by
  have hLength : (0 : ℚ) < accessCounts.length := by
    exact_mod_cast List.length_pos_iff.mpr hNe
  have hShare' : (10 * j : ℚ) < 7 * accessCounts.length := by exact_mod_cast hShare
  have hIndex : splitIndex accessCounts = j := by rw [splitIndex, h, Option.getD_some]
  rw [workingSetSplit, hIndex, add_div]
  have hLow : (j : ℚ) / accessCounts.length < 7 / 10 := by
    rw [div_lt_div_iff₀ hLength (by norm_num)]
    linarith
  have hHigh : (0 : ℚ) ≤ (j : ℚ) / accessCounts.length := by positivity
  constructor
  · linarith
  · linarith

/-- The walk always breaks, no smaller choice of pages reaches seven tenths of the accesses,
and the split depends neither on the order of the pages nor leaves its range. -/
theorem workingSetSplit_optimal (accessCounts : List Int) (hNe : accessCounts ≠ [])
    (hPos : ∀ c ∈ accessCounts, 0 < c) :
    splitBreak accessCounts = some (splitIndex accessCounts) ∧
    IsLeast {k | ∃ s : Multiset Int, s ≤ accessCounts ∧ s.card = k ∧
      (7 / 10 * totalAccesses accessCounts : ℚ) ≤ s.sum} (splitIndex accessCounts + 1) ∧
    (∀ other : List Int, other.Perm accessCounts →
      splitIndex other = splitIndex accessCounts ∧
      workingSetSplit other = workingSetSplit accessCounts) ∧
    (3 / 10 - 1 / accessCounts.length : ℚ) < workingSetSplit accessCounts ∧
    workingSetSplit accessCounts ≤ 1 - 1 / accessCounts.length := by
  obtain ⟨j, hBreak, hShare⟩ := splitBreak_of_pos hNe hPos
  have hIndex : splitIndex accessCounts = j := by rw [splitIndex, hBreak, Option.getD_some]
  refine ⟨by rw [hIndex, hBreak], ?_, fun other hPerm => ?_,
    workingSetSplit_bounds hNe hBreak hShare⟩
  · rw [hIndex]
    exact isLeast_splitBreak hNe hPos hBreak
  · have hSame : splitIndex other = splitIndex accessCounts := by
      rw [splitIndex, splitIndex, splitBreak, splitBreak, descending_eq_of_perm hPerm,
        totalAccesses, totalAccesses, hPerm.sum_eq]
    exact ⟨hSame, by rw [workingSetSplit, workingSetSplit, hSame, hPerm.length_eq]⟩

theorem split_of_skewedPages :
    splitIndex [5, 60, 1, 30] = 1 ∧ (3 / 10 - 1 / 4 : ℚ) < workingSetSplit [5, 60, 1, 30] := by
  have h := workingSetSplit_optimal [5, 60, 1, 30] (by decide) (by decide)
  refine ⟨by decide +kernel, ?_⟩
  exact_mod_cast h.2.2.2.1

end Ebacs.TelWsf
