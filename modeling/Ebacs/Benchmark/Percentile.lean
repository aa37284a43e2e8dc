import Mathlib.Data.List.GetD
import Ebacs.Benchmark.Latencies
import Ebacs.Lib.Rounding

/-! # Median and percentiles of the latencies

`calculate_median` and `calculate_percentile` of `benchmark.c`, with their
`double` arithmetic read as exact and truncated at the end. An index outside
the array is a failure of the function.
-/
namespace Ebacs.Benchmark
open Lib
set_option autoImplicit false

/-- `none` is an access outside the array. -/
def index (arr : List Int64) (i : Int) : Option Int64 :=
  if 0 ≤ i then arr[i.toNat]? else none

def calculateMedian (arr : List Int64) : Option Int64 :=
  let n : Int := arr.length
  if n % 2 = 0 then do
    let lower ← index arr (n / 2 - 1)
    let upper ← index arr (n / 2)
    some (Int64.ofInt (truncate ((lower + upper).toInt / 2)))
  else index arr (n / 2)

def rank (n percentile : Int) : ℚ := percentile / 100 * (n - 1)

def calculatePercentile (arr : List Int64) (percentile : Int) : Option Int64 :=
  let n : Int := arr.length
  let lowerIndex := truncate (rank n percentile)
  let upperIndex := lowerIndex + 1
  if upperIndex ≥ n then index arr lowerIndex
  else do
    let weight : ℚ := rank n percentile - lowerIndex
    let lower ← index arr lowerIndex
    let upper ← index arr upperIndex
    some (Int64.ofInt (truncate (lower.toInt * (1 - weight) + upper.toInt * weight)))

/-- The value at a rank; the last one goes on behind the array. -/
def level (arr : List Int64) (k : Nat) : ℚ := (arr.getD (min k (arr.length - 1)) 0).toInt

section Levels

variable {arr : List Int64}

theorem index_of_lt {k : Nat} (hk : k < arr.length) : index arr k = some arr[k] := by
  rw [index, if_pos (Int.natCast_nonneg k), Int.toNat_natCast, List.getElem?_eq_getElem hk]

theorem level_eq {k : Nat} (hk : k < arr.length) : level arr k = arr[k].toInt := by
  rw [level, Nat.min_eq_left (by omega), List.getD_eq_getElem arr 0 hk]

theorem level_nonneg (hNonneg : ∀ a ∈ arr, 0 ≤ a) (k : Nat) : 0 ≤ level arr k := by
  have hValue : (0 : Int) ≤ (arr.getD (min k (arr.length - 1)) 0).toInt := by
    rcases Nat.lt_or_ge (min k (arr.length - 1)) arr.length with hLt | hGe
    · rw [List.getD_eq_getElem arr 0 hLt]
      exact Int64.le_iff_toInt_le.mp (hNonneg _ (List.getElem_mem hLt))
    · rw [List.getD_eq_default arr 0 hGe]
      rfl
  rw [level]
  exact_mod_cast hValue

theorem getElem_le (hAscending : arr.Pairwise (· ≤ ·)) {i j : Nat} (hij : i ≤ j)
    (hj : j < arr.length) : (arr[i]).toInt ≤ (arr[j]).toInt := by
  rcases hij.eq_or_lt with rfl | hLt
  · exact le_rfl
  · exact Int64.le_iff_toInt_le.mp
      (List.pairwise_iff_getElem.mp hAscending i j (by omega) hj hLt)

theorem level_mono (hAscending : arr.Pairwise (· ≤ ·)) : Monotone (level arr) := by
  intro i j hij
  rcases Nat.eq_zero_or_pos arr.length with hZero | hPos
  · rw [List.length_eq_zero_iff.mp hZero]
    rfl
  · have hi : min i (arr.length - 1) < arr.length := by omega
    have hj : min j (arr.length - 1) < arr.length := by omega
    rw [level, level, List.getD_eq_getElem arr 0 hi, List.getD_eq_getElem arr 0 hj]
    exact_mod_cast getElem_le hAscending (by omega) hj

theorem rank_nonneg (hPos : 0 < arr.length) {p : Int} (hLow : 0 ≤ p) : 0 ≤ rank arr.length p := by
  have hLength : (1 : ℚ) ≤ arr.length := by exact_mod_cast hPos
  have hPercentile : (0 : ℚ) ≤ p := by exact_mod_cast hLow
  rw [rank]
  push_cast
  exact mul_nonneg (by positivity) (by linarith)

theorem rank_mono (hPos : 0 < arr.length) {p q : Int} (hpq : p ≤ q) :
    rank arr.length p ≤ rank arr.length q := by
  have hLength : (1 : ℚ) ≤ arr.length := by exact_mod_cast hPos
  have hPercentiles : (p : ℚ) ≤ q := by exact_mod_cast hpq
  rw [rank, rank]
  push_cast
  exact mul_le_mul_of_nonneg_right (by linarith) (by linarith)

theorem rank_hundred (hPos : 0 < arr.length) : rank arr.length 100 = (arr.length - 1 : Nat) := by
  rw [rank, Nat.cast_sub hPos]
  push_cast
  ring

theorem interpolate_level_nonneg (hPos : 0 < arr.length) (hAscending : arr.Pairwise (· ≤ ·))
    (hNonneg : ∀ a ∈ arr, 0 ≤ a) {p : Int} (hLow : 0 ≤ p) :
    0 ≤ interpolate (level arr) (rank arr.length p) :=
  (level_nonneg hNonneg _).trans (le_interpolate (level_mono hAscending) (rank_nonneg hPos hLow))

theorem calculatePercentile_eq (hPos : 0 < arr.length) (hAscending : arr.Pairwise (· ≤ ·))
    (hNonneg : ∀ a ∈ arr, 0 ≤ a) {p : Int} (hLow : 0 ≤ p) (hHigh : p ≤ 100) :
    calculatePercentile arr p =
      some (Int64.ofInt ⌊interpolate (level arr) (rank arr.length p)⌋) := by
  have hRank := rank_nonneg hPos hLow
  have hTop : rank arr.length p ≤ (arr.length - 1 : Nat) := rank_hundred hPos ▸ rank_mono hPos hHigh
  have hLower : truncate (rank arr.length p) = (⌊rank arr.length p⌋₊ : Int) := by
    rw [truncate_of_nonneg hRank, ← Int.natCast_floor_eq_floor hRank]
  have hk : ⌊rank arr.length p⌋₊ ≤ arr.length - 1 := Nat.floor_le_of_le hTop
  simp only [calculatePercentile, hLower]
  split
  · rename_i hLast
    have hEq : rank arr.length p = ⌊rank arr.length p⌋₊ := by
      apply le_antisymm _ (Nat.floor_le hRank)
      have hIndex : ⌊rank arr.length p⌋₊ = arr.length - 1 := by omega
      rwa [hIndex]
    have hValue := interpolate_natCast (level arr) ⌊rank arr.length p⌋₊
    rw [← hEq, level_eq (by omega)] at hValue
    rw [index_of_lt (by omega), hValue, Int.floor_intCast, Int64.ofInt_toInt]
  · rename_i hInside
    have hUpper : ⌊rank arr.length p⌋₊ + 1 < arr.length := by omega
    have hUpperIndex : index arr (⌊rank arr.length p⌋₊ + 1) =
        some arr[⌊rank arr.length p⌋₊ + 1] := index_of_lt hUpper
    have hValue : ((arr[⌊rank arr.length p⌋₊]).toInt : ℚ) *
          (1 - (rank arr.length p - (⌊rank arr.length p⌋₊ : Int))) +
        ((arr[⌊rank arr.length p⌋₊ + 1]).toInt : ℚ) *
          (rank arr.length p - (⌊rank arr.length p⌋₊ : Int)) =
        interpolate (level arr) (rank arr.length p) := by
      rw [interpolate, level_eq hUpper, level_eq (by omega)]
      push_cast
      ring
    rw [index_of_lt (by omega), hUpperIndex]
    change some (Int64.ofInt (truncate _)) = _
    rw [hValue, truncate_of_nonneg (interpolate_level_nonneg hPos hAscending hNonneg hLow)]

theorem calculateMedian_odd {m : Nat} (hLength : arr.length = 2 * m + 1) :
    calculateMedian arr = some (Int64.ofInt ⌊interpolate (level arr) (rank arr.length 50)⌋) := by
  have hRank : rank arr.length 50 = m := by
    rw [rank, hLength]
    push_cast
    ring
  have hOdd : ((arr.length : Nat) : Int) % 2 ≠ 0 := by omega
  have hMiddle : ((arr.length : Nat) : Int) / 2 = m := by omega
  simp only [calculateMedian]
  rw [if_neg hOdd, hMiddle, index_of_lt (by omega), hRank, interpolate_natCast,
    level_eq (by omega), Int.floor_intCast, Int64.ofInt_toInt]

theorem calculateMedian_even (hAscending : arr.Pairwise (· ≤ ·)) (hNonneg : ∀ a ∈ arr, 0 ≤ a)
    (hSums : arr.Pairwise (fun a b => a.toInt + b.toInt < 2 ^ 63)) {m : Nat}
    (hLength : arr.length = 2 * m + 2) :
    calculateMedian arr = some (Int64.ofInt ⌊interpolate (level arr) (rank arr.length 50)⌋) := by
  have hRank : rank arr.length 50 = m + 1 / 2 := by
    rw [rank, hLength]
    push_cast
    ring
  have hFloor : ⌊rank arr.length 50⌋₊ = m := by
    rw [hRank, Nat.floor_eq_iff (by positivity)]
    constructor <;> linarith
  have hm : m < arr.length := by omega
  have hm' : m + 1 < arr.length := by omega
  have hLower : (0 : Int) ≤ arr[m].toInt :=
    Int64.le_iff_toInt_le.mp (hNonneg _ (List.getElem_mem hm))
  have hUpper : (0 : Int) ≤ arr[m + 1].toInt :=
    Int64.le_iff_toInt_le.mp (hNonneg _ (List.getElem_mem hm'))
  have hSum : (arr[m] + arr[m + 1]).toInt = arr[m].toInt + arr[m + 1].toInt := by
    have hFits := List.pairwise_iff_getElem.mp hSums m (m + 1) hm hm' (Nat.lt_succ_self m)
    rw [Int64.toInt_add]
    exact Int.bmod_eq_of_le (by omega) (by omega)
  have hValue : (((arr[m] + arr[m + 1]).toInt : Int) : ℚ) / 2 =
      interpolate (level arr) (rank arr.length 50) := by
    rw [interpolate, hFloor, hRank, level_eq hm, level_eq hm', hSum]
    push_cast
    ring
  have hEven : ((arr.length : Nat) : Int) % 2 = 0 := by omega
  have hFirst : ((arr.length : Nat) : Int) / 2 - 1 = m := by omega
  have hSecond : ((arr.length : Nat) : Int) / 2 = (m + 1 : Nat) := by omega
  have hNonnegValue : 0 ≤ interpolate (level arr) (rank arr.length 50) :=
    interpolate_level_nonneg (by omega) hAscending hNonneg (by decide)
  simp only [calculateMedian]
  rw [if_pos hEven, hFirst, hSecond, index_of_lt hm, index_of_lt hm']
  change some (Int64.ofInt (truncate _)) = _
  rw [hValue, truncate_of_nonneg hNonnegValue]

/-- The truncated value at a rank lies between the first and the last latency. -/
theorem floor_interpolate_range (hPos : 0 < arr.length) (hAscending : arr.Pairwise (· ≤ ·))
    {p : Int} (hLow : 0 ≤ p) (hHigh : p ≤ 100) :
    arr[0].toInt ≤ ⌊interpolate (level arr) (rank arr.length p)⌋ ∧
    ⌊interpolate (level arr) (rank arr.length p)⌋ ≤ (arr[arr.length - 1]).toInt := by
  have hRank := rank_nonneg hPos hLow
  have hMono := level_mono hAscending
  constructor
  · rw [Int.le_floor, ← level_eq hPos]
    have hZero := interpolate_mono hMono le_rfl hRank
    have hFirst := interpolate_natCast (level arr) 0
    rw [Nat.cast_zero] at hFirst
    rwa [hFirst] at hZero
  · have hTop := interpolate_mono hMono hRank (rank_mono hPos hHigh)
    rw [rank_hundred hPos, interpolate_natCast, level_eq (by omega)] at hTop
    rw [← Int.floor_intCast (R := ℚ) (arr[arr.length - 1]).toInt]
    exact Int.floor_le_floor hTop

theorem calculateMedian_eq (hPos : 0 < arr.length) (hAscending : arr.Pairwise (· ≤ ·))
    (hNonneg : ∀ a ∈ arr, 0 ≤ a)
    (hSums : arr.Pairwise (fun a b => a.toInt + b.toInt < 2 ^ 63)) :
    calculateMedian arr = some (Int64.ofInt ⌊interpolate (level arr) (rank arr.length 50)⌋) := by
  rcases Nat.even_or_odd' (arr.length - 1) with ⟨m, hm | hm⟩
  · exact calculateMedian_odd (m := m) (by omega)
  · exact calculateMedian_even hAscending hNonneg hSums (m := m) (by omega)

/-- A percentile as an exact integer that the conversion to `long long` keeps. -/
theorem toInt_percentile (hPos : 0 < arr.length) (hAscending : arr.Pairwise (· ≤ ·))
    (hNonneg : ∀ a ∈ arr, 0 ≤ a) {p : Int} (hLow : 0 ≤ p) (hHigh : p ≤ 100) :
    (Int64.ofInt ⌊interpolate (level arr) (rank arr.length p)⌋).toInt =
      ⌊interpolate (level arr) (rank arr.length p)⌋ := by
  obtain ⟨hFirst, hLast⟩ := floor_interpolate_range hPos hAscending hLow hHigh
  have hZero : (0 : Int) ≤ arr[0].toInt :=
    Int64.le_iff_toInt_le.mp (hNonneg _ (List.getElem_mem hPos))
  have hMax := Int64.toInt_lt (arr[arr.length - 1])
  exact Int64.toInt_ofInt_of_le (by omega) (by omega)

end Levels

/-- No percentile indexes outside the array, the percentiles ascend between the first and the
last latency, and the fiftieth is the median. -/
theorem percentiles_ordered (arr : List Int64) (hNe : arr ≠ [])
    (hAscending : arr.Pairwise (· ≤ ·)) (hNonneg : ∀ a ∈ arr, 0 ≤ a)
    (hSums : arr.Pairwise (fun a b => a.toInt + b.toInt < 2 ^ 63)) :
    (∀ p, 0 ≤ p → p ≤ 100 → (calculatePercentile arr p).isSome = true) ∧
    (∀ p q x y, 0 ≤ p → p ≤ q → q ≤ 100 → calculatePercentile arr p = some x →
      calculatePercentile arr q = some y → arr.head hNe ≤ x ∧ x ≤ y ∧ y ≤ arr.getLast hNe) ∧
    calculatePercentile arr 50 = calculateMedian arr := by
  have hPos : 0 < arr.length := List.length_pos_iff.mpr hNe
  have hEq : ∀ p : Int, 0 ≤ p → p ≤ 100 → calculatePercentile arr p =
      some (Int64.ofInt ⌊interpolate (level arr) (rank arr.length p)⌋) :=
    fun p hLow hHigh => calculatePercentile_eq hPos hAscending hNonneg hLow hHigh
  refine ⟨?_, ?_, ?_⟩
  · intro p hLow hHigh
    rw [hEq p hLow hHigh]
    rfl
  · intro p q x y hLow hpq hHigh hx hy
    have hp := hpq.trans hHigh
    have hq := hLow.trans hpq
    rw [hEq p hLow hp, Option.some.injEq] at hx
    rw [hEq q hq hHigh, Option.some.injEq] at hy
    subst hx hy
    rw [Int64.le_iff_toInt_le, Int64.le_iff_toInt_le, Int64.le_iff_toInt_le,
      toInt_percentile hPos hAscending hNonneg hLow hp,
      toInt_percentile hPos hAscending hNonneg hq hHigh, List.head_eq_getElem,
      List.getLast_eq_getElem]
    refine ⟨(floor_interpolate_range hPos hAscending hLow hp).1, ?_,
      (floor_interpolate_range hPos hAscending hq hHigh).2⟩
    exact Int.floor_le_floor
      (interpolate_mono (level_mono hAscending) (rank_nonneg hPos hLow) (rank_mono hPos hpq))
  · rw [hEq 50 (by decide) (by decide), calculateMedian_eq hPos hAscending hNonneg hSums]

theorem percentiles_of_four :
    calculatePercentile [10, 20, 30, 45] 50 = calculateMedian [10, 20, 30, 45] ∧
    calculatePercentile [10, 20, 30, 45] 50 = some 25 := by
  have hOrdered := percentiles_ordered [10, 20, 30, 45] (by decide) (by decide) (by simp)
    (by simp)
  exact ⟨hOrdered.2.2, by decide +kernel⟩

end Ebacs.Benchmark
