import Mathlib.Algebra.Order.Field.Basic
import Ebacs.Lib.Rounding

/-! # From memory statistics and a split to a watermark scale factor

The arithmetic of one iteration of `tel_wsf.py`, read as exact rationals: the
largest factor that the free memory allows, seven thresholds up to it, and the
search for the bucket of the split.
-/
namespace Ebacs.TelWsf
open Lib
set_option autoImplicit false

def usedMemoryRatio (freePages totalPages : Nat) : ℚ :=
  let freePages : ℚ := 3 / 100 * freePages
  1 - freePages / totalPages

def maxScaleFactor (freePages totalPages : Nat) : Int :=
  let usedMemoryRatio := usedMemoryRatio freePages totalPages
  if usedMemoryRatio > 95 / 100 then
    let utilizationAboveThreshold := usedMemoryRatio - 95 / 100
    truncate (10 + 990 * (utilizationAboveThreshold / (5 / 100)))
  else 10

def calculateDynamicBuckets (maxScaleFactor : Int) : List ℚ := (linspace 10 maxScaleFactor 8).tail

def bucketStart (i : Nat) : ℚ := 3 / 10 + i * (1 / 10)

def InBucket (i : Nat) (workingSetSplit : ℚ) : Prop :=
  bucketStart i ≤ workingSetSplit ∧ workingSetSplit < bucketStart i + 1 / 10

instance (i : Nat) (workingSetSplit : ℚ) : Decidable (InBucket i workingSetSplit) :=
  inferInstanceAs (Decidable (_ ∧ _))

/-- The search through the thresholds; the factor of an earlier iteration stays when no
bucket matches. -/
def bucketSearch (workingSetSplit : ℚ) (watermarkScaleFactor : Int) : Nat → List ℚ → Int
  | _, [] => watermarkScaleFactor
  | i, threshold :: thresholds =>
    if InBucket i workingSetSplit then truncate threshold
    else bucketSearch workingSetSplit watermarkScaleFactor (i + 1) thresholds

def nextFactor (freePages totalPages : Nat) (workingSetSplit : ℚ) (watermarkScaleFactor : Int) :
    Int :=
  bucketSearch workingSetSplit watermarkScaleFactor 0
    (calculateDynamicBuckets (maxScaleFactor freePages totalPages))

/-- The factor that is logged, after the clamp. -/
def updateKernelWatermarkScaleFactor (scaleFactor : Int) : Int := max 10 (min scaleFactor 1000)

theorem length_calculateDynamicBuckets (m : Int) : (calculateDynamicBuckets m).length = 7 := by
  rw [calculateDynamicBuckets, List.length_tail, length_linspace]

theorem getElem?_calculateDynamicBuckets (m : Int) {i : Nat} (h : i < 7) :
    (calculateDynamicBuckets m)[i]? = some (10 + (m - 10) * (i + 1) / 7 : ℚ) := by
  rw [calculateDynamicBuckets, List.getElem?_tail, getElem?_linspace (by omega)]
  congr 1
  push_cast
  ring

theorem inBucket_iff {w : ℚ} {i : Nat} : InBucket i w ↔ ⌊10 * w⌋ = i + 3 := by
  rw [InBucket, bucketStart, mem_cell_iff (by norm_num)]
  have hShift : (w - 3 / 10) / (1 / 10) = 10 * w - (3 : Int) := by
    push_cast
    ring
  rw [hShift, Int.floor_sub_intCast]
  omega

theorem bucketSearch_of_inBucket {w : ℚ} {carried : Int} {thresholds : List ℚ} {start i : Nat}
    {threshold : ℚ} (hIn : InBucket (start + i) w) (hGet : thresholds[i]? = some threshold) :
    bucketSearch w carried start thresholds = truncate threshold := by
  induction thresholds generalizing start i with
  | nil => cases hGet
  | cons t thresholds ih =>
    cases i with
    | zero =>
      rw [Nat.add_zero] at hIn
      rw [bucketSearch, if_pos hIn]
      exact congrArg truncate (Option.some.inj hGet)
    | succ i =>
      have hOther : ¬InBucket start w := by
        rw [inBucket_iff] at hIn ⊢
        push_cast at hIn
        omega
      rw [bucketSearch, if_neg hOther]
      exact ih (by rwa [Nat.add_right_comm]) hGet

theorem bucketSearch_of_none {w : ℚ} {carried : Int} {thresholds : List ℚ} {start : Nat}
    (h : ∀ i < thresholds.length, ¬InBucket (start + i) w) :
    bucketSearch w carried start thresholds = carried := by
  induction thresholds generalizing start with
  | nil => rfl
  | cons t thresholds ih =>
    have hFirst : ¬InBucket start w := h 0 (Nat.succ_pos _)
    rw [bucketSearch, if_neg hFirst]
    apply ih
    intro i hi
    rw [Nat.add_right_comm]
    exact h (i + 1) (Nat.succ_lt_succ hi)

theorem exists_bucket {w : ℚ} (hLow : 3 / 10 ≤ w) (hHigh : w < 1) : ∃ i < 7, InBucket i w := by
  have hFloorLow : 3 ≤ ⌊10 * w⌋ := Int.le_floor.mpr (by push_cast; linarith)
  have hFloorHigh : ⌊10 * w⌋ < 10 := Int.floor_lt.mpr (by push_cast; linarith)
  refine ⟨(⌊10 * w⌋ - 3).toNat, by omega, inBucket_iff.mpr ?_⟩
  omega

theorem inBucket_bounds {w : ℚ} {i : Nat} (hi : i < 7) (h : InBucket i w) :
    3 / 10 ≤ w ∧ w < 1 := by
  have hi' : (i : ℚ) ≤ 6 := by exact_mod_cast Nat.lt_succ_iff.mp hi
  have hi'' : (0 : ℚ) ≤ i := Nat.cast_nonneg i
  obtain ⟨hLow, hHigh⟩ := h
  rw [bucketStart] at hLow hHigh
  exact ⟨by linarith, by linarith⟩

section Memory

variable {freePages totalPages : Nat}

theorem usedMemoryRatio_le_one : usedMemoryRatio freePages totalPages ≤ 1 := by
  have h : (0 : ℚ) ≤ 3 / 100 * freePages / totalPages := by positivity
  rw [usedMemoryRatio]
  linarith

theorem le_usedMemoryRatio (hTotal : 1 ≤ totalPages) (hFree : freePages ≤ totalPages) :
    97 / 100 ≤ usedMemoryRatio freePages totalPages := by
  have hPos : (0 : ℚ) < totalPages := by exact_mod_cast hTotal
  have hFree' : (freePages : ℚ) ≤ totalPages := by exact_mod_cast hFree
  have h : 3 / 100 * (freePages : ℚ) / totalPages ≤ 3 / 100 := by
    rw [div_le_iff₀ hPos]
    linarith
  rw [usedMemoryRatio]
  linarith

theorem usedMemoryRatio_anti {freePages' : Nat} (hFree : freePages' ≤ freePages) :
    usedMemoryRatio freePages totalPages ≤ usedMemoryRatio freePages' totalPages := by
  have hFree' : (freePages' : ℚ) ≤ freePages := by exact_mod_cast hFree
  have h : 3 / 100 * (freePages' : ℚ) / totalPages ≤ 3 / 100 * freePages / totalPages := by
    gcongr
  rw [usedMemoryRatio, usedMemoryRatio]
  linarith

theorem maxScaleFactor_eq (h : 95 / 100 < usedMemoryRatio freePages totalPages) :
    maxScaleFactor freePages totalPages =
      ⌊10 + 990 * (usedMemoryRatio freePages totalPages - 95 / 100) / (5 / 100)⌋ := by
  rw [maxScaleFactor, if_pos h, truncate_of_nonneg, mul_div_assoc]
  have hPos : 0 ≤ usedMemoryRatio freePages totalPages - 95 / 100 := by linarith
  positivity

/-- Whatever the memory statistics are, the largest factor is from 10 to 1000. -/
theorem maxScaleFactor_range (freePages totalPages : Nat) :
    10 ≤ maxScaleFactor freePages totalPages ∧ maxScaleFactor freePages totalPages ≤ 1000 := by
  rcases lt_or_ge (95 / 100) (usedMemoryRatio freePages totalPages) with hAbove | hBelow
  · rw [maxScaleFactor_eq hAbove]
    have hOne : usedMemoryRatio freePages totalPages ≤ 1 := usedMemoryRatio_le_one
    constructor
    · apply Int.le_floor.mpr
      push_cast
      linarith
    · apply Int.floor_le_iff.mpr
      push_cast
      linarith
  · rw [maxScaleFactor, if_neg (not_lt.mpr hBelow)]
    exact ⟨le_rfl, by norm_num⟩

theorem maxScaleFactor_ge (hTotal : 1 ≤ totalPages) (hFree : freePages ≤ totalPages) :
    406 ≤ maxScaleFactor freePages totalPages := by
  have hUsed := le_usedMemoryRatio hTotal hFree
  rw [maxScaleFactor_eq (by linarith)]
  apply Int.le_floor.mpr
  push_cast
  linarith

theorem maxScaleFactor_anti (hTotal : 1 ≤ totalPages) (hFree : freePages ≤ totalPages)
    {freePages' : Nat} (hLess : freePages' ≤ freePages) :
    maxScaleFactor freePages totalPages ≤ maxScaleFactor freePages' totalPages := by
  have hUsed := le_usedMemoryRatio hTotal hFree
  have hUsed' : usedMemoryRatio freePages totalPages ≤ usedMemoryRatio freePages' totalPages :=
    usedMemoryRatio_anti hLess
  rw [maxScaleFactor_eq (by linarith), maxScaleFactor_eq (by linarith)]
  apply Int.floor_le_floor
  gcongr

end Memory

/-- The factor of the bucket with the number `⌊10 w⌋ - 3`. -/
def bucketFactor (m : Int) (w : ℚ) : Int := ⌊(10 + (m - 10) * (⌊10 * w⌋ - 2) / 7 : ℚ)⌋

theorem nextFactor_eq {freePages totalPages : Nat} {w : ℚ} (hLow : 3 / 10 ≤ w) (hHigh : w < 1)
    (carried : Int) :
    nextFactor freePages totalPages w carried =
      bucketFactor (maxScaleFactor freePages totalPages) w := by
  obtain ⟨i, hi, hIn⟩ := exists_bucket hLow hHigh
  have hMax : (10 : ℚ) ≤ maxScaleFactor freePages totalPages := by
    exact_mod_cast (maxScaleFactor_range freePages totalPages).1
  have hIn' : InBucket (0 + i) w := by rwa [Nat.zero_add]
  rw [nextFactor, bucketSearch_of_inBucket hIn' (getElem?_calculateDynamicBuckets _ hi),
    truncate_of_nonneg]
  · rw [bucketFactor, inBucket_iff.mp hIn]
    congr 1
    push_cast
    ring
  · have hGap : (0 : ℚ) ≤ maxScaleFactor freePages totalPages - 10 := by linarith
    positivity

theorem nextFactor_of_low {freePages totalPages : Nat} {w : ℚ} (hLow : w < 3 / 10)
    (carried : Int) : nextFactor freePages totalPages w carried = carried := by
  apply bucketSearch_of_none
  intro i hi hIn
  rw [length_calculateDynamicBuckets] at hi
  rw [Nat.zero_add] at hIn
  exact absurd hLow (not_lt.mpr (inBucket_bounds hi hIn).1)

theorem bucketFactor_le {m : Int} (hm : 10 ≤ m) {w : ℚ} (hHigh : w < 1) : bucketFactor m w ≤ m := by
  have hFloor : ⌊10 * w⌋ < 10 := Int.floor_lt.mpr (by push_cast; linarith)
  have hFloor' : (⌊10 * w⌋ : ℚ) ≤ 9 := by exact_mod_cast Int.lt_add_one_iff.mp hFloor
  have hm' : (0 : ℚ) ≤ m - 10 := by
    rw [sub_nonneg]
    exact_mod_cast hm
  have hShare := mul_le_mul_of_nonneg_left hFloor' hm'
  rw [bucketFactor, Int.floor_le_iff]
  linarith

theorem bucketFactor_mono {m m' : Int} {w w' : ℚ} (hLow : 3 / 10 ≤ w) (hm : 10 ≤ m)
    (hMax : m ≤ m') (hSplit : w ≤ w') : bucketFactor m w ≤ bucketFactor m' w' := by
  have hFloorLow : 3 ≤ ⌊10 * w⌋ := Int.le_floor.mpr (by push_cast; linarith)
  have hFloor : ⌊10 * w⌋ ≤ ⌊10 * w'⌋ := Int.floor_le_floor (by linarith)
  have hBucket : (0 : ℚ) ≤ ⌊10 * w⌋ - 2 := by
    rw [sub_nonneg]
    exact_mod_cast hFloorLow.trans' (by norm_num)
  have hBuckets : (⌊10 * w⌋ - 2 : ℚ) ≤ ⌊10 * w'⌋ - 2 := by
    have h : (⌊10 * w⌋ : ℚ) ≤ ⌊10 * w'⌋ := by exact_mod_cast hFloor
    linarith
  have hGap : (0 : ℚ) ≤ m - 10 := by
    rw [sub_nonneg]
    exact_mod_cast hm
  have hGaps : (m - 10 : ℚ) ≤ m' - 10 := by
    have h : (m : ℚ) ≤ m' := by exact_mod_cast hMax
    linarith
  have hProduct := mul_le_mul hGaps hBuckets hBucket (hGap.trans hGaps)
  apply Int.floor_le_floor
  linarith

theorem le_bucketFactor {m : Int} (hm : 406 ≤ m) {w : ℚ} (hLow : 3 / 10 ≤ w) :
    66 ≤ bucketFactor m w := by
  have hLowest : bucketFactor 406 (3 / 10) = 66 := by
    rw [bucketFactor]
    norm_num
  rw [← hLowest]
  exact bucketFactor_mono le_rfl (by norm_num) hm hLow

theorem updateKernelWatermarkScaleFactor_eq {factor : Int} (hLow : 10 ≤ factor)
    (hHigh : factor ≤ 1000) : updateKernelWatermarkScaleFactor factor = factor := by
  rw [updateKernelWatermarkScaleFactor, min_eq_left hHigh, max_eq_right hLow]

/-- For a split from 3/10 up to 1 the factor of an iteration is the threshold of the one bucket
that matches. It stays within the clamp and grows with the split and with the used memory. -/
theorem controller_monotone (freePages totalPages : Nat) (w : ℚ) (hTotal : 1 ≤ totalPages)
    (hFree : freePages ≤ totalPages) (hLow : 3 / 10 ≤ w) (hHigh : w < 1) (carried : Int) :
    (calculateDynamicBuckets (maxScaleFactor freePages totalPages)).length = 7 ∧
    (∃! i, i < 7 ∧ InBucket i w) ∧
    let used : ℚ := 1 - 3 / 100 * freePages / totalPages
    let maximum : Int := ⌊10 + 990 * (used - 95 / 100) / (5 / 100)⌋
    let factor := nextFactor freePages totalPages w carried
    factor = ⌊(10 + (maximum - 10) * (⌊10 * w⌋ - 2) / 7 : ℚ)⌋ ∧
    66 ≤ factor ∧ factor ≤ 1000 ∧ updateKernelWatermarkScaleFactor factor = factor ∧
    (∀ w' carried', w ≤ w' → w' < 1 → factor ≤ nextFactor freePages totalPages w' carried') ∧
    (∀ freePages' carried', freePages' ≤ freePages →
      factor ≤ nextFactor freePages' totalPages w carried') := by
  refine ⟨length_calculateDynamicBuckets _, ?_, ?_⟩
  · obtain ⟨i, hi, hIn⟩ := exists_bucket hLow hHigh
    refine ⟨i, ⟨hi, hIn⟩, ?_⟩
    rintro j ⟨_, hIn'⟩
    rw [inBucket_iff] at hIn hIn'
    omega
  intro used maximum factor
  have hUsed := le_usedMemoryRatio hTotal hFree
  have hMaximum : maxScaleFactor freePages totalPages = maximum :=
    maxScaleFactor_eq (by linarith)
  have hFactor : factor = bucketFactor maximum w := by
    rw [← hMaximum]
    exact nextFactor_eq hLow hHigh carried
  have hMost := maxScaleFactor_ge hTotal hFree
  have hRange := maxScaleFactor_range freePages totalPages
  rw [hMaximum] at hMost hRange
  have hLeast : 66 ≤ factor := hFactor ▸ le_bucketFactor hMost hLow
  have hTop : factor ≤ 1000 := hFactor ▸ (bucketFactor_le hRange.1 hHigh).trans hRange.2
  refine ⟨hFactor, hLeast, hTop, updateKernelWatermarkScaleFactor_eq (by omega) hTop, ?_, ?_⟩
  · intro w' carried' hSplit hHigh'
    rw [hFactor, nextFactor_eq (hLow.trans hSplit) hHigh', hMaximum]
    exact bucketFactor_mono hLow hRange.1 le_rfl hSplit
  · intro freePages' carried' hLess
    rw [hFactor, nextFactor_eq hLow hHigh, ← hMaximum]
    refine bucketFactor_mono hLow ?_ (maxScaleFactor_anti hTotal hFree hLess) le_rfl
    rw [hMaximum]
    exact hRange.1

theorem controller_at_half :
    nextFactor 0 1 (1 / 2) 10 = 434 ∧ 66 ≤ nextFactor 1 1 (1 / 2) 10 := by
  have h := controller_monotone 1 1 (1 / 2) (by decide) (by decide) (by norm_num) (by norm_num) 10
  exact ⟨by decide +kernel, h.2.2.2.1⟩

end Ebacs.TelWsf
