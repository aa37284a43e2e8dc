import Mathlib.Data.List.Sort
import Mathlib.Data.Nat.Cast.Order.Field
import Ebacs.Avgscale.ScaleFactor
import Ebacs.Lib.FloatingPoint

/-! # The scale factor in doubles

The loop over the tracked PIDs with the numbers that Python computes with, for
any `np.percentile`. Up to 1000 a multiplied factor is truncated to what exact
rationals give. Which way a ratio near 1.2 or 0.8 falls is up to the rounding.
-/
namespace Ebacs.Avgscale.Doubles
open Lib
open BinaryFormat.Number (ofRat ofRat_of_small toInt?_ofRat)
set_option autoImplicit false

/-- What `np.percentile` yields for some numbers, whose order it ignores; `none` is an exception. -/
abbrev NpPercentile := Multiset Int → Int → Option Double

/-- An integer as a factor of a product of doubles. One that is too large is an `OverflowError`. -/
def float (n : Int) : Option Double := (ofRat n : Double).finite?

def calculatePercentile (npPercentile : NpPercentile) (data : Multiset Int) (percentile : Int) :
    Option Double :=
  if data = 0 then some (ofRat 0) else npPercentile data percentile

/-- The factor after a decision, where no conversion is refused. -/
def adjustScaleFactor (watermarkScaleFactor : Int) (percentileRatio : Double) : Option Int :=
  if percentileRatio > ofRat (12 / 10) then
    (float watermarkScaleFactor).bind (fun factor => (factor * ofRat (10 / 9)).toInt?)
  else if percentileRatio < ofRat (8 / 10) then
    (float watermarkScaleFactor).bind (fun factor => (factor * ofRat (9 / 10)).toInt?)
  else some watermarkScaleFactor

def churn (current previous : Pages) : Double :=
  let previousPages := filteredPreviousPages current previous
  if previousPages = ∅ then ofRat 0
  else ofRat ((newPages current previous).card / previousPages.card)

/-- The ratio on which the factor is adjusted, where the code gets that far; `none` is an
exception. -/
def percentileRatio (npPercentile : NpPercentile) (current previous : Pages) :
    Option (Option Double) :=
  if churn current previous > ofRat 2 then do
    let newPages80th ← calculatePercentile npPercentile
      (accessCountsOf current (newPages current previous)) 80
    let repeatedPages80th ← calculatePercentile npPercentile
      (accessCountsOf current (filteredPreviousPages current previous)) 80
    if repeatedPages80th > ofRat 0 then some (some (newPages80th / repeatedPages80th))
    else some none
  else some none

/-- The script, which an exception ends. -/
structure Script extends ScaleFactor where
  raised : Bool

def Script.init : Script := ⟨ScaleFactor.init, false⟩

def Script.adjust (s : Script) (ratio : Double) : Script :=
  match adjustScaleFactor s.watermarkScaleFactor ratio with
  | some factor => { s with toScaleFactor := s.update factor }
  | none => { s with raised := true }

/-- The analysis of a tracked PID with these current and previous pages. -/
def analyzePages (npPercentile : NpPercentile) (s : Script) (pages : Pages × Pages) : Script :=
  if s.raised then s
  else match percentileRatio npPercentile pages.1 pages.2 with
    | some (some ratio) => s.adjust ratio
    | some none => s
    | none => { s with raised := true }

def analyzePid (npPercentile : NpPercentile) (current previous : PageTable) (s : Script)
    (pid : Int) : Script :=
  analyzePages npPercentile s (current pid, previous pid)

/-- The snapshots that were processed, each with its tracked PIDs in the order of the loop. -/
def scaleFactorRun (npPercentile : NpPercentile) (snapshots : List (List Int × PageTable)) :
    Script × PageTable :=
  snapshots.foldl (fun s snapshot =>
    (snapshot.1.foldl (analyzePid npPercentile snapshot.2 s.2) s.1, snapshot.2))
    (Script.init, fun _ => ∅)

def ascending (data : Multiset Int) : List Int :=
  Quot.liftOn data (List.insertionSort (· ≤ ·)) (fun a b h => by
    refine List.Perm.eq_of_pairwise (fun _ _ _ _ hab hba => le_antisymm hab hba)
      (List.pairwise_insertionSort (· ≤ ·) a) (List.pairwise_insertionSort (· ≤ ·) b) ?_
    exact (List.perm_insertionSort _ a).trans (h.trans (List.perm_insertionSort _ b).symm))

/-- The linear interpolation that `np.percentile` makes by default, for counts that fit `int64`
and a percentile from 0 to 100. -/
def linearPercentile (data : Multiset Int) (percentile : Int) : Option Double := do
  let sorted := ascending data
  let index : Double := ofRat (sorted.length - 1 : Int) * ofRat (percentile / 100)
  let previous ← index.toInt?
  let gamma := index - ofRat previous
  match sorted[previous.toNat]?, sorted[previous.toNat + 1]? with
  | some a, some b =>
    if gamma < ofRat (1 / 2) then some (ofRat a + ofRat (b - a : Int) * gamma)
    else some (ofRat b - ofRat (b - a : Int) * (ofRat 1 - gamma))
  | some a, none => some (ofRat a)
  | none, _ => none

section Factors

theorem round_natCast {n : Nat} (h : n ≤ 2 ^ 53) : binary64.round n = n := by
  have hDigits : |(n : Int)| ≤ 2 ^ binary64.digits := by
    rw [Nat.abs_cast]
    exact_mod_cast h
  have hRound := BinaryFormat.round_intCast_mul hDigits (e := 0) (by decide)
  rwa [zpow_zero, mul_one, Int.cast_natCast] at hRound

/-- Fifteen sixteenths above an integer there is a double. -/
theorem round_sixteenths {n : Nat} (h : n ≤ 2 ^ 40) :
    binary64.round (n + 15 / 16) = n + 15 / 16 := by
  have hDigits : |((16 * n + 15 : Nat) : Int)| ≤ 2 ^ binary64.digits := by
    rw [Nat.abs_cast]
    have hBound : 16 * n + 15 ≤ 2 ^ 53 := by omega
    exact_mod_cast hBound
  have hRound := BinaryFormat.round_intCast_mul hDigits (e := -4) (by decide)
  have hValue : (((16 * n + 15 : Nat) : Int) : ℚ) * 2 ^ (-4 : Int) = n + 15 / 16 := by
    push_cast
    ring
  rwa [hValue] at hRound

theorem small_of_le {q : ℚ} (hNonneg : 0 ≤ q) (h : q ≤ 2 ^ 41) : |q| < 2 ^ binary64.top := by
  have hPower : (2 : ℚ) ^ 42 ≤ 2 ^ binary64.top := by
    rw [← zpow_natCast]
    exact BinaryFormat.two_zpow_le_iff.mpr (by decide)
  rw [abs_of_nonneg hNonneg]
  linarith

theorem toInt?_of_between {q : ℚ} {n : Nat} (hn : n ≤ 2 ^ 40) (hLow : n ≤ q)
    (hHigh : q ≤ n + 15 / 16) : (ofRat q : Double).toInt? = some (n : Int) := by
  have hBound : (n : ℚ) ≤ 2 ^ 40 := by exact_mod_cast hn
  have hNonneg : (0 : ℚ) ≤ n := Nat.cast_nonneg n
  have hTop : (n : ℚ) + 15 / 16 < 2 ^ binary64.top :=
    lt_of_abs_lt (small_of_le (by linarith) (by linarith))
  exact toInt?_ofRat (round_natCast (by omega)) (round_sixteenths hn) hLow hHigh (by linarith) hTop

/-- A product with a double just above a fraction is truncated to the exact quotient. -/
theorem toInt?_mul {n a b : Nat} {c : ℚ} (hn : n ≤ 1000) (ha : a ≤ 10) (hb : 0 < b) (hb' : b ≤ 10)
    (hLow : (a / b : ℚ) ≤ c) (hHigh : c ≤ a / b + 1 / 2 ^ 50) :
    (ofRat (n * c) : Double).toInt? = some ((n * a / b : Nat) : Int) := by
  have hPos : (0 : ℚ) < b := by exact_mod_cast hb
  have hQuotient : n * a / b ≤ 2 ^ 40 := by
    calc
      n * a / b ≤ n * a := Nat.div_le_self _ _
      _ ≤ 1000 * 10 := Nat.mul_le_mul hn ha
      _ ≤ 2 ^ 40 := by norm_num
  have hExact : (n : ℚ) * (a / b) = (n * a : Nat) / b := by
    push_cast
    ring
  have hCount : (n : ℚ) ≤ 1000 := by exact_mod_cast hn
  apply toInt?_of_between hQuotient
  · calc
      ((n * a / b : Nat) : ℚ) ≤ (n * a : Nat) / b := Nat.cast_div_le
      _ = n * (a / b) := hExact.symm
      _ ≤ n * c := mul_le_mul_of_nonneg_left hLow (Nat.cast_nonneg n)
  · have hRemainder : n * a + 1 ≤ b * (n * a / b) + b := by
      have hDivMod := Nat.div_add_mod (n * a) b
      have hMod := Nat.mod_lt (n * a) hb
      omega
    have hRemainder' : ((n * a : Nat) : ℚ) + 1 ≤ b * (n * a / b : Nat) + b := by
      exact_mod_cast hRemainder
    have hNext : ((n * a : Nat) : ℚ) / b ≤ (n * a / b : Nat) + 9 / 10 := by
      have hTen : (b : ℚ) ≤ 10 := by exact_mod_cast hb'
      rw [div_le_iff₀ hPos]
      linarith
    calc
      n * c ≤ n * (a / b + 1 / 2 ^ 50) := mul_le_mul_of_nonneg_left hHigh (Nat.cast_nonneg n)
      _ = (n * a : Nat) / b + n / 2 ^ 50 := by rw [mul_add, hExact]; ring
      _ ≤ (n * a / b : Nat) + 15 / 16 := by linarith

theorem float_mul {n : Nat} (hn : n ≤ 1000) (c : ℚ) (hc : |binary64.round c| < 2 ^ binary64.top) :
    (float n).bind (fun factor => (factor * ofRat c).toInt?) =
      (ofRat (n * binary64.round c) : Double).toInt? := by
  have hRound : binary64.round ((n : Int) : ℚ) = n := round_natCast (by omega)
  have hSmall : |binary64.round ((n : Int) : ℚ)| < 2 ^ binary64.top := by
    have hBound : (n : ℚ) ≤ 1000 := by exact_mod_cast hn
    rw [hRound]
    exact small_of_le (Nat.cast_nonneg n) (by linarith)
  rw [float, ofRat_of_small hSmall, ofRat_of_small hc]
  change (ofRat (binary64.round ((n : Int) : ℚ) * binary64.round c) : Double).toInt? = _
  rw [hRound]

/-- A factor times a fraction whose double lies just above it. -/
theorem float_mul_fraction {w : Int} (hw : 0 ≤ w) (hMax : w ≤ 1000) {a b : Nat} (ha : a ≤ 10)
    (hb : 0 < b) (hb' : b ≤ 10) (hLow : (a / b : ℚ) ≤ binary64.round (a / b))
    (hHigh : binary64.round (a / b) ≤ a / b + 1 / 2 ^ 50) :
    (float w).bind (fun factor => (factor * ofRat (a / b)).toInt?) = some (w * a / b) := by
  obtain ⟨n, rfl⟩ := Int.eq_ofNat_of_zero_le hw
  have hn : n ≤ 1000 := by omega
  have hPos : (0 : ℚ) < b := by exact_mod_cast hb
  have hNonneg : (0 : ℚ) ≤ a / b := div_nonneg (Nat.cast_nonneg a) hPos.le
  have hTen : (a / b : ℚ) ≤ 10 := by
    have hNumerator : (a : ℚ) ≤ 10 := by exact_mod_cast ha
    have hDenominator : (1 : ℚ) ≤ b := by exact_mod_cast hb
    rw [div_le_iff₀ hPos]
    linarith
  have hSmall : |binary64.round (a / b)| < 2 ^ binary64.top :=
    small_of_le (hNonneg.trans hLow) (hHigh.trans (by linarith))
  rw [float_mul hn _ hSmall, toInt?_mul hn ha hb hb' hLow hHigh]
  push_cast
  rfl

theorem round_tenNinths : binary64.round (10 / 9) = 5003999585967218 / 2 ^ 52 := by decide +kernel

theorem round_nineTenths : binary64.round (9 / 10) = 8106479329266893 / 2 ^ 53 := by decide +kernel

section Decisions

variable {w : Int} {ratio : Double}

theorem adjustScaleFactor_increase (hw : 0 ≤ w) (hMax : w ≤ 1000) (h : ratio > ofRat (12 / 10)) :
    adjustScaleFactor w ratio = some (w * 10 / 9) := by
  have hFraction := float_mul_fraction hw hMax (a := 10) (b := 9) (by decide) (by decide)
    (by decide)
  push_cast [round_tenNinths] at hFraction
  rw [adjustScaleFactor, if_pos h]
  exact hFraction (by norm_num) (by norm_num)

theorem adjustScaleFactor_decrease (hw : 0 ≤ w) (hMax : w ≤ 1000) (hMore : ¬ratio > ofRat (12 / 10))
    (h : ratio < ofRat (8 / 10)) : adjustScaleFactor w ratio = some (w * 9 / 10) := by
  have hFraction := float_mul_fraction hw hMax (a := 9) (b := 10) (by decide) (by decide)
    (by decide)
  push_cast [round_nineTenths] at hFraction
  rw [adjustScaleFactor, if_neg hMore, if_pos h]
  exact hFraction (by norm_num) (by norm_num)

theorem adjustScaleFactor_keep (hMore : ¬ratio > ofRat (12 / 10))
    (hLess : ¬ratio < ofRat (8 / 10)) : adjustScaleFactor w ratio = some w := by
  rw [adjustScaleFactor, if_neg hMore, if_neg hLess]

end Decisions

end Factors

end Ebacs.Avgscale.Doubles
