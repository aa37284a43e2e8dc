import Ebacs.Avgscale.Activity
import Ebacs.Lib.Rounding
import Ebacs.Lib.Trace

/-! # The scale factor of `get_avgscale.py`

What the loop over the tracked PIDs does to the watermark scale factor, read
as exact rationals: a ratio of two percentiles decides whether the factor is
multiplied by 10/9, by 9/10 or kept, and the result is truncated. Below 9 a
multiplication by 10/9 is lost in the truncation.
-/
namespace Ebacs.Avgscale
open Lib
set_option autoImplicit false

/-- `np.percentile` between the two nearest ranks, 0 for no data. -/
def calculatePercentile (data : List Int) (percentile : ℚ) : ℚ :=
  let sorted := data.insertionSort (· ≤ ·)
  let index : ℚ := percentile / 100 * ((data.length : ℚ) - 1)
  let low := ⌊index⌋.toNat
  match sorted[low]?, sorted[low + 1]? with
  | some a, some b => a + (index - low) * (b - a)
  | some a, none => a
  | none, _ => 0

/-- The factor after a decision; it is made an integer also when it is kept. -/
def adjustScaleFactor (watermarkScaleFactor : Int) (percentileRatio : ℚ) : Int :=
  truncate (
    if percentileRatio > 12 / 10 then watermarkScaleFactor * (10 / 9)
    else if percentileRatio < 8 / 10 then watermarkScaleFactor * (9 / 10)
    else watermarkScaleFactor)

def churn (current previous : Pages) : ℚ :=
  let previousPages := filteredPreviousPages current previous
  if previousPages = ∅ then 0
  else (newPages current previous).card / previousPages.card

def accessCountsOf (current : Pages) (pages : Finset Text) : List Int :=
  (current.keys.filter (· ∈ pages)).filterMap (fun page => current.lookup page)

/-- The ratio on which the factor is adjusted, where the code gets that far. -/
def percentileRatio (current previous : Pages) : Option ℚ :=
  if churn current previous > 2 then
    let newPages80th := calculatePercentile
      (accessCountsOf current (newPages current previous)) 80
    let repeatedPages80th := calculatePercentile
      (accessCountsOf current (filteredPreviousPages current previous)) 80
    if repeatedPages80th > 0 then some (newPages80th / repeatedPages80th) else none
  else none

/-- `writes` are the values that `update_kernel_watermark_scale_factor` hands to the kernel. -/
structure ScaleFactor where
  watermarkScaleFactor : Int
  writes : List Int

def ScaleFactor.init : ScaleFactor := ⟨10, []⟩

def ScaleFactor.update (s : ScaleFactor) (factor : Int) : ScaleFactor :=
  ⟨factor, if factor < 1 then s.writes else s.writes ++ [factor]⟩

/-- The analysis of one tracked PID. -/
def analyzePid (current previous : PageTable) (s : ScaleFactor) (pid : Int) : ScaleFactor :=
  match percentileRatio (current pid) (previous pid) with
  | some ratio => s.update (adjustScaleFactor s.watermarkScaleFactor ratio)
  | none => s

/-- The snapshots that were processed, each with its tracked PIDs in the order of the loop. -/
def scaleFactorRun (snapshots : List (List Int × PageTable)) : ScaleFactor × PageTable :=
  snapshots.foldl (fun s snapshot =>
    (snapshot.1.foldl (analyzePid snapshot.2 s.2) s.1, snapshot.2)) (ScaleFactor.init, fun _ => ∅)

theorem foldl_analyzePid (current previous : PageTable) (s : ScaleFactor) (pids : List Int) :
    (pids.foldl (analyzePid current previous) s).watermarkScaleFactor =
      (pids.filterMap (fun pid => percentileRatio (current pid) (previous pid))).foldl
        adjustScaleFactor s.watermarkScaleFactor := by
  induction pids generalizing s with
  | nil => rfl
  | cons pid pids ih =>
    rw [List.foldl_cons, ih, analyzePid, List.filterMap_cons]
    cases percentileRatio (current pid) (previous pid) with
    | none => rfl
    | some ratio => rfl

/-- Every run of the loop adjusts the factor by some sequence of ratios, from the initial 10. -/
theorem scaleFactorRun_eq (snapshots : List (List Int × PageTable)) :
    ∃ ratios : List ℚ, (scaleFactorRun snapshots).1.watermarkScaleFactor =
      ratios.foldl adjustScaleFactor 10 := by
  induction snapshots using List.reverseRecOn with
  | nil => exact ⟨[], rfl⟩
  | append_singleton snapshots snapshot ih =>
    obtain ⟨ratios, hRatios⟩ := ih
    rw [scaleFactorRun, List.foldl_append, List.foldl_cons, List.foldl_nil, foldl_analyzePid]
    change ∃ ratios, List.foldl _ (scaleFactorRun snapshots).1.watermarkScaleFactor _ = _
    rw [hRatios]
    exact ⟨ratios ++ _, (List.foldl_append ..).symm⟩

theorem truncate_mul_div (w : Int) (hw : 0 ≤ w) (a b : Nat) :
    truncate (w * (a / b : ℚ)) = w * a / b := by
  have hNonneg : (0 : ℚ) ≤ w := by exact_mod_cast hw
  rw [truncate_of_nonneg (by positivity), ← mul_div_assoc]
  have hCast : (w * a / b : ℚ) = ((w * a : Int) : ℚ) / b := by push_cast; rfl
  rw [hCast, Rat.floor_intCast_div_natCast]

theorem adjustScaleFactor_increase {w : Int} (hw : 0 ≤ w) {r : ℚ} (hr : 12 / 10 < r) :
    adjustScaleFactor w r = w * 10 / 9 := by
  rw [adjustScaleFactor, if_pos hr]
  exact_mod_cast truncate_mul_div w hw 10 9

theorem adjustScaleFactor_decrease {w : Int} (hw : 0 ≤ w) {r : ℚ} (hr : r < 8 / 10) :
    adjustScaleFactor w r = w * 9 / 10 := by
  rw [adjustScaleFactor, if_neg (by linarith), if_pos hr]
  exact_mod_cast truncate_mul_div w hw 9 10

theorem adjustScaleFactor_keep {w : Int} {r : ℚ} (hLow : 8 / 10 ≤ r) (hHigh : r ≤ 12 / 10) :
    adjustScaleFactor w r = w := by
  rw [adjustScaleFactor, if_neg (not_lt.mpr hHigh), if_neg (not_lt.mpr hLow), truncate_intCast]

theorem adjustScaleFactor_cases {w : Int} (hw : 0 ≤ w) (r : ℚ) :
    (12 / 10 < r ∧ ¬r < 8 / 10 ∧ adjustScaleFactor w r = w * 10 / 9) ∨
    (r < 8 / 10 ∧ ¬12 / 10 < r ∧ adjustScaleFactor w r = w * 9 / 10) ∨
    (¬12 / 10 < r ∧ ¬r < 8 / 10 ∧ adjustScaleFactor w r = w) := by
  rcases lt_or_ge (12 / 10) r with hMore | hLe
  · exact Or.inl ⟨hMore, by linarith, adjustScaleFactor_increase hw hMore⟩
  · right
    rcases lt_or_ge r (8 / 10) with hLess | hGe
    · exact Or.inl ⟨hLess, not_lt.mpr hLe, adjustScaleFactor_decrease hw hLess⟩
    · exact Or.inr ⟨not_lt.mpr hLe, not_lt.mpr hGe, adjustScaleFactor_keep hGe hLe⟩

/-- An increase has an effect, and a decrease leaves a factor that the kernel takes. -/
def Unstuck (w : Int) : Prop :=
  (∀ r : ℚ, 12 / 10 < r → w < adjustScaleFactor w r) ∧
  (∀ r : ℚ, r < 8 / 10 → 1 ≤ adjustScaleFactor w r)

theorem unstuck_iff {w : Int} (hw : 0 ≤ w) : Unstuck w ↔ 9 ≤ w := by
  constructor
  · intro h
    have hMore := h.1 2 (by norm_num)
    rw [adjustScaleFactor_increase hw (by norm_num)] at hMore
    omega
  · intro h
    constructor
    · intro r hr
      rw [adjustScaleFactor_increase hw hr]
      omega
    · intro r hr
      rw [adjustScaleFactor_decrease hw hr]
      omega

theorem nine_le_adjustScaleFactor_iff {w : Int} (hw : 9 ≤ w) (r : ℚ) :
    9 ≤ adjustScaleFactor w r ↔ (r < 8 / 10 → w ≠ 9) := by
  have hNonneg : 0 ≤ w := by omega
  obtain ⟨_, hNot, hEq⟩ | ⟨hLess, _, hEq⟩ | ⟨_, hNot, hEq⟩ := adjustScaleFactor_cases hNonneg r
  · rw [hEq]
    exact iff_of_true (by omega) (fun hLess => absurd hLess hNot)
  · rw [hEq, imp_iff_right hLess]
    omega
  · rw [hEq]
    exact iff_of_true hw (fun hLess => absurd hLess hNot)

theorem adjustScaleFactor_nonneg {w : Int} (hw : 0 ≤ w) (r : ℚ) : 0 ≤ adjustScaleFactor w r := by
  obtain ⟨_, _, hEq⟩ | ⟨_, _, hEq⟩ | ⟨_, _, hEq⟩ := adjustScaleFactor_cases hw r
  all_goals
    rw [hEq]
    omega

theorem foldl_adjustScaleFactor_nonneg (ratios : List ℚ) :
    0 ≤ ratios.foldl adjustScaleFactor 10 :=
  foldl_invariant (0 ≤ ·) (fun _ _ => True) (fun _ r _ h => adjustScaleFactor_nonneg h r) ratios
    (by norm_num) (fun _ _ => trivial)

/-- In every run from 10 the controller can still move, in all states that are reached, exactly
when no decrease is decided at the factor 9. -/
theorem controller_unstuck_iff (ratios : List ℚ) :
    (∀ reached, reached <+: ratios → Unstuck (reached.foldl adjustScaleFactor 10)) ↔
      ∀ x ∈ trace adjustScaleFactor 10 ratios, x.2 < 8 / 10 → x.1 ≠ 9 := by
  have hUnstuck : ∀ reached : List ℚ, Unstuck (reached.foldl adjustScaleFactor 10) ↔
      9 ≤ reached.foldl adjustScaleFactor 10 :=
    fun reached => unstuck_iff (foldl_adjustScaleFactor_nonneg reached)
  simp only [hUnstuck]
  induction ratios using List.reverseRecOn with
  | nil =>
    refine iff_of_true (fun reached hReached => ?_) nofun
    rw [List.prefix_nil.mp hReached]
    exact by norm_num
  | append_singleton ratios r ih =>
    rw [trace_concat]
    constructor
    · intro h x hx
      rcases List.mem_append.mp hx with hx | hx
      · exact ih.mp (fun reached hReached =>
          h reached (hReached.trans (List.prefix_append _ _))) x hx
      · rw [List.mem_singleton.mp hx]
        apply (nine_le_adjustScaleFactor_iff (h ratios (List.prefix_append _ _)) r).mp
        have hLast := h (ratios ++ [r]) List.prefix_rfl
        rwa [List.foldl_append] at hLast
    · intro h reached hReached
      have hBefore := ih.mpr (fun x hx => h x (List.mem_append_left _ hx))
      rcases List.prefix_concat_iff.mp hReached with rfl | hReached
      · rw [List.foldl_append]
        exact (nine_le_adjustScaleFactor_iff (hBefore ratios List.prefix_rfl) r).mpr
          (h _ (List.mem_append_right _ (List.mem_singleton_self _)))
      · exact hBefore reached hReached

/-- Two decreases lead to 8, where increases are lost, and nine lead to 0. -/
theorem controller_gets_stuck :
    ¬(∀ ratios : List ℚ, Unstuck (ratios.foldl adjustScaleFactor 10)) ∧
    [1 / 2, 1 / 2].foldl adjustScaleFactor 10 = 8 ∧ adjustScaleFactor 8 (3 / 2) = 8 ∧
    (List.replicate 9 (1 / 2)).foldl adjustScaleFactor 10 = 1 ∧ adjustScaleFactor 1 (1 / 2) = 0 := by
  have hEight : [1 / 2, 1 / 2].foldl adjustScaleFactor 10 = 8 := by decide +kernel
  refine ⟨fun h => ?_, hEight, by decide +kernel, by decide +kernel, by decide +kernel⟩
  have hStuck := h [1 / 2, 1 / 2]
  rw [hEight, unstuck_iff (by norm_num)] at hStuck
  exact absurd hStuck (by norm_num)

end Ebacs.Avgscale
