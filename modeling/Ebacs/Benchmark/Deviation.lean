import Mathlib.Algebra.Order.BigOperators.Group.List
import Mathlib.Algebra.Order.Ring.Int
import Mathlib.Data.List.Induction
import Mathlib.Data.Nat.Sqrt
import Mathlib.Tactic.Positivity
import Ebacs.Benchmark.Latencies

/-! # Average and standard deviation of the latencies

`calculate_average` and `calculate_standard_deviation` of `benchmark.c` in
the arithmetic of their `long long` variables. With 100 latencies the sum of
the squares leaves this range from a deviation of a third of a second on.
-/
namespace Ebacs.Benchmark
open Lib
set_option autoImplicit false

def calculateAverage (arr : List Int64) : Int64 :=
  arr.foldl (fun sum x => sum + x) 0 / Int64.ofNat arr.length

/-- `sum_squared_diff` after the given part of the array. -/
def sumSquaredDiff (mean : Int64) (arr : List Int64) : Int64 :=
  arr.foldl (fun sumSquaredDiff x =>
    let diff := x - mean
    sumSquaredDiff + diff * diff) 0

/-- The root is read as exact; `none` is that of a negative number. -/
def calculateStandardDeviation (arr : List Int64) (mean : Int64) : Option Int64 :=
  let variance := sumSquaredDiff mean arr / Int64.ofNat arr.length
  if 0 ≤ variance then some (Int64.ofNat variance.toInt.toNat.sqrt) else none

/-- Every difference, square and partial sum of the loop is the exact one. -/
structure Exact (mean : Int64) (arr : List Int64) : Prop where
  diffs : ∀ x ∈ arr, (x - mean).toInt = x.toInt - mean.toInt
  squares : ∀ x ∈ arr, ((x - mean) * (x - mean)).toInt = (x.toInt - mean.toInt) ^ 2
  sums : ∀ part, part <+: arr → (sumSquaredDiff mean part).toInt =
    (part.map (fun x => (x.toInt - mean.toInt) ^ 2)).sum

def exactAverage (arr : List Int64) : Int := (arr.map Int64.toInt).sum / arr.length

/-- The squared distances of the latencies from their truncated average, as integers. -/
def squaredSpread (arr : List Int64) : Int :=
  (arr.map (fun x => (x.toInt - exactAverage arr) ^ 2)).sum

theorem sum_map_nonneg {g : Int64 → Int} {l : List Int64} (h : ∀ x ∈ l, 0 ≤ g x) :
    0 ≤ (l.map g).sum := by
  apply List.sum_nonneg
  intro y hy
  obtain ⟨x, hx, rfl⟩ := List.mem_map.mp hy
  exact h x hx

theorem toInt_foldl_add {f : Int64 → Int64} {g : Int64 → Int} (l : List Int64)
    (hExact : ∀ x ∈ l, (f x).toInt = g x) (hNonneg : ∀ x ∈ l, 0 ≤ g x)
    (hFits : (l.map g).sum < 2 ^ 63) :
    (l.foldl (fun sum x => sum + f x) 0).toInt = (l.map g).sum := by
  induction l using List.reverseRecOn with
  | nil => rfl
  | append_singleton l x ih =>
    have hx : x ∈ l ++ [x] := List.mem_append_right _ (List.mem_singleton_self x)
    have hLast := hNonneg x hx
    have hFirst : 0 ≤ (l.map g).sum :=
      sum_map_nonneg (fun y hy => hNonneg y (List.mem_append_left _ hy))
    have hSum : ((l ++ [x]).map g).sum = (l.map g).sum + g x := by simp
    rw [hSum] at hFits ⊢
    have hBefore := ih (fun y hy => hExact y (List.mem_append_left _ hy))
      (fun y hy => hNonneg y (List.mem_append_left _ hy)) (by omega)
    rw [List.foldl_append, List.foldl_cons, List.foldl_nil, Int64.toInt_add, hBefore, hExact x hx]
    exact Int.bmod_eq_of_le (by omega) (by omega)

section Statistics

variable {arr : List Int64}

theorem toInt_div_length (hLength : arr.length = 100) {sum : Int64} (h : 0 ≤ sum.toInt) :
    (sum / Int64.ofNat arr.length).toInt = sum.toInt / 100 := by
  have hNumber : (Int64.ofNat arr.length).toInt = 100 := by rw [hLength]; rfl
  have hNotMinusOne : Int64.ofNat arr.length ≠ -1 := by rw [hLength]; decide
  rw [Int64.toInt_div_of_ne_right _ _ hNotMinusOne, hNumber, Int.tdiv_eq_ediv_of_nonneg h]

theorem toInt_calculateAverage (hLength : arr.length = 100) (hNonneg : ∀ x ∈ arr, 0 ≤ x)
    (hSum : (arr.map Int64.toInt).sum < 2 ^ 63) :
    (calculateAverage arr).toInt = exactAverage arr := by
  have hNonneg' : ∀ x ∈ arr, 0 ≤ x.toInt :=
    fun x hx => Int64.le_iff_toInt_le.mp (hNonneg x hx)
  have hTotal : (arr.foldl (fun sum x => sum + x) 0).toInt = (arr.map Int64.toInt).sum :=
    toInt_foldl_add (f := id) arr (fun _ _ => rfl) hNonneg' hSum
  rw [calculateAverage, toInt_div_length hLength (hTotal ▸ sum_map_nonneg hNonneg'), hTotal,
    exactAverage, hLength]
  rfl

theorem diff_exact {mean x : Int64} (hMean : 0 ≤ mean.toInt) (hx : 0 ≤ x.toInt) :
    (x - mean).toInt = x.toInt - mean.toInt := by
  have hMeanMax := Int64.toInt_lt mean
  have hMax := Int64.toInt_lt x
  rw [Int64.toInt_sub]
  exact Int.bmod_eq_of_le (by omega) (by omega)

theorem square_exact {mean x : Int64} (hDiff : (x - mean).toInt = x.toInt - mean.toInt)
    (hFits : (x.toInt - mean.toInt) ^ 2 < 2 ^ 63) :
    ((x - mean) * (x - mean)).toInt = (x.toInt - mean.toInt) ^ 2 := by
  have hNonneg := sq_nonneg (x.toInt - mean.toInt)
  rw [Int64.toInt_mul, hDiff, ← pow_two]
  exact Int.bmod_eq_of_le (by omega) (by omega)

theorem sum_squares_le {mean : Int} {part : List Int64} (hPart : part <+: arr) :
    (part.map (fun x => (x.toInt - mean) ^ 2)).sum ≤
      (arr.map (fun x => (x.toInt - mean) ^ 2)).sum := by
  obtain ⟨rest, rfl⟩ := hPart
  rw [List.map_append, List.sum_append]
  exact le_add_of_nonneg_right (sum_map_nonneg (fun _ _ => sq_nonneg _))

theorem exact_iff {mean : Int64} (hMean : 0 ≤ mean.toInt) (hNonneg : ∀ x ∈ arr, 0 ≤ x.toInt) :
    Exact mean arr ↔ (arr.map (fun x => (x.toInt - mean.toInt) ^ 2)).sum < 2 ^ 63 := by
  constructor
  · intro h
    rw [← h.sums arr List.prefix_rfl]
    exact Int64.toInt_lt _
  · intro hFits
    have hDiffs : ∀ x ∈ arr, (x - mean).toInt = x.toInt - mean.toInt :=
      fun x hx => diff_exact hMean (hNonneg x hx)
    have hSquares : ∀ x ∈ arr,
        ((x - mean) * (x - mean)).toInt = (x.toInt - mean.toInt) ^ 2 := by
      intro x hx
      apply square_exact (hDiffs x hx)
      apply lt_of_le_of_lt _ hFits
      apply List.single_le_sum
      · intro y hy
        obtain ⟨z, _, rfl⟩ := List.mem_map.mp hy
        exact sq_nonneg _
      · exact List.mem_map_of_mem hx
    refine ⟨hDiffs, hSquares, ?_⟩
    intro part hPart
    exact toInt_foldl_add part (fun x hx => hSquares x (hPart.subset hx))
      (fun x _ => sq_nonneg _) ((sum_squares_le hPart).trans_lt hFits)

/-- An exact loop leads to the truncated root of the truncated variance. -/
theorem calculateStandardDeviation_eq {mean : Int64} (hLength : arr.length = 100)
    (h : Exact mean arr) :
    calculateStandardDeviation arr mean = some (Int64.ofNat
      ((arr.map (fun x : Int64 => (x.toInt - mean.toInt) ^ 2)).sum / 100).toNat.sqrt) := by
  have hSum := h.sums arr List.prefix_rfl
  have hNonneg : 0 ≤ (sumSquaredDiff mean arr).toInt := by
    rw [hSum]
    exact sum_map_nonneg (fun _ _ => sq_nonneg _)
  have hVariance := toInt_div_length hLength hNonneg
  have hPositive : 0 ≤ sumSquaredDiff mean arr / Int64.ofNat arr.length := by
    rw [Int64.le_iff_toInt_le, hVariance]
    exact Int.ediv_nonneg hNonneg (by decide)
  change (if 0 ≤ sumSquaredDiff mean arr / Int64.ofNat arr.length then _ else none) = _
  rw [if_pos hPositive, hVariance, hSum]

end Statistics

/-- The loop is exact just for the latencies whose squared distances from their average add up
to less than 2^63. -/
theorem deviation_exact_iff (latencies : List Int64) (hLength : latencies.length = 100)
    (hNonneg : ∀ x ∈ latencies, 0 ≤ x) (hSum : (latencies.map Int64.toInt).sum < 2 ^ 63) :
    Exact (calculateAverage latencies) latencies ↔ squaredSpread latencies < 2 ^ 63 := by
  have hNonneg' : ∀ x ∈ latencies, 0 ≤ x.toInt :=
    fun x hx => Int64.le_iff_toInt_le.mp (hNonneg x hx)
  have hAverage := toInt_calculateAverage hLength hNonneg hSum
  have hMean : 0 ≤ (calculateAverage latencies).toInt := by
    rw [hAverage, exactAverage]
    exact Int.ediv_nonneg (sum_map_nonneg hNonneg') (Int.natCast_nonneg _)
  rw [exact_iff hMean hNonneg', hAverage, squaredSpread]

/-- Half of the latencies are of one second, half of this value. -/
def halfAndHalf (x : Int64) : List Int64 := List.replicate 50 1000000000 ++ List.replicate 50 x

theorem length_halfAndHalf (x : Int64) : (halfAndHalf x).length = 100 := by
  simp [halfAndHalf]

theorem halfAndHalf_nonneg {x : Int64} (hx : 0 ≤ x) : ∀ y ∈ halfAndHalf x, 0 ≤ y := by
  intro y hy
  rcases List.mem_append.mp hy with hy | hy
  · rw [List.eq_of_mem_replicate hy]
    decide
  · rw [List.eq_of_mem_replicate hy]
    exact hx

/-- Latencies of 1.0 s and of 1.2 s. -/
theorem deviation_exact_smallSpread :
    Exact (calculateAverage (halfAndHalf 1200000000)) (halfAndHalf 1200000000) :=
  (deviation_exact_iff _ (length_halfAndHalf _) (halfAndHalf_nonneg (by decide))
    (by decide +kernel)).mpr (by decide +kernel)

/-- Latencies of one and of two seconds. -/
theorem deviation_overflows :
    ¬(∀ latencies : List Int64, latencies.length = 100 → (∀ x ∈ latencies, 0 ≤ x) →
      (latencies.map Int64.toInt).sum < 2 ^ 63 →
      Exact (calculateAverage latencies) latencies) := by
  intro h
  have hExact := h (halfAndHalf 2000000000) (length_halfAndHalf _) (halfAndHalf_nonneg (by decide))
    (by decide +kernel)
  have hSum := hExact.sums _ List.prefix_rfl
  exact absurd hSum (by decide +kernel)

end Ebacs.Benchmark
