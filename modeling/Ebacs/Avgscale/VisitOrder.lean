import Ebacs.Avgscale.ScaleFactor

/-! # The order in which the PIDs are visited

`tracked_pids` is a Python set, whose enumeration order is not specified. The
factor is truncated after each PID, so an increase followed by a decrease
leads back to a multiple of 9 only, and a decrease followed by an increase
back to a multiple of 10 only; from all other factors they lead one below.
-/
namespace Ebacs.Avgscale
open Lib
set_option autoImplicit false

structure Enumerates (pids : List Int) (trackedPids : Finset Int) : Prop where
  nodup : pids.Nodup
  toFinset_eq : pids.toFinset = trackedPids

theorem Enumerates.perm {pids pids' : List Int} {trackedPids : Finset Int}
    (h : Enumerates pids trackedPids) (h' : Enumerates pids' trackedPids) : pids.Perm pids' :=
  List.perm_of_nodup_nodup_toFinset_eq h.nodup h'.nodup (h.toFinset_eq.trans h'.toFinset_eq.symm)

theorem Enumerates.of_perm {pids pids' : List Int} {trackedPids : Finset Int}
    (h : Enumerates pids trackedPids) (hPerm : pids'.Perm pids) : Enumerates pids' trackedPids :=
  ⟨hPerm.nodup_iff.mpr h.nodup, (List.toFinset_eq_of_perm _ _ hPerm).trans h.toFinset_eq⟩

/-- The factor after one PID has been visited. -/
def visit (current previous : PageTable) (factor : Int) (pid : Int) : Int :=
  ((percentileRatio (current pid) (previous pid)).map (adjustScaleFactor factor)).getD factor

/-- The factor after a snapshot whose PIDs are visited in this order. -/
def factorAfter (snapshots : List (List Int × PageTable)) (current : PageTable)
    (pids : List Int) : Int :=
  (scaleFactorRun (snapshots ++ [(pids, current)])).1.watermarkScaleFactor

def Increases (pages : Pages × Pages) : Prop :=
  ∃ ratio, percentileRatio pages.1 pages.2 = some ratio ∧ 12 / 10 < ratio

def Decreases (pages : Pages × Pages) : Prop :=
  ∃ ratio, percentileRatio pages.1 pages.2 = some ratio ∧ ratio < 8 / 10

theorem foldl_visit (current previous : PageTable) (s : ScaleFactor) (pids : List Int) :
    (pids.foldl (analyzePid current previous) s).watermarkScaleFactor =
      pids.foldl (visit current previous) s.watermarkScaleFactor := by
  induction pids generalizing s with
  | nil => rfl
  | cons pid pids ih =>
    rw [List.foldl_cons, ih, List.foldl_cons, analyzePid, visit]
    cases percentileRatio (current pid) (previous pid) with
    | none => rfl
    | some ratio => rfl

theorem factorAfter_eq (snapshots : List (List Int × PageTable)) (current : PageTable)
    (pids : List Int) :
    factorAfter snapshots current pids =
      pids.foldl (visit current (scaleFactorRun snapshots).2)
        (scaleFactorRun snapshots).1.watermarkScaleFactor := by
  rw [← foldl_visit, factorAfter, scaleFactorRun, List.foldl_append]
  rfl

section Visits

variable {current previous : PageTable} {pid : Int}

theorem visit_increase (h : Increases (current pid, previous pid)) {v : Int} (hv : 0 ≤ v) :
    visit current previous v pid = v * 10 / 9 := by
  obtain ⟨ratio, hSome, hMore⟩ := h
  rw [visit, hSome]
  exact adjustScaleFactor_increase hv hMore

theorem visit_decrease (h : Decreases (current pid, previous pid)) {v : Int} (hv : 0 ≤ v) :
    visit current previous v pid = v * 9 / 10 := by
  obtain ⟨ratio, hSome, hLess⟩ := h
  rw [visit, hSome]
  exact adjustScaleFactor_decrease hv hLess

theorem visit_keep (hMore : ¬Increases (current pid, previous pid))
    (hLess : ¬Decreases (current pid, previous pid)) (v : Int) :
    visit current previous v pid = v := by
  rw [visit]
  cases hSome : percentileRatio (current pid) (previous pid) with
  | none => rfl
  | some ratio =>
    exact adjustScaleFactor_keep (not_lt.mp (fun h => hLess ⟨ratio, hSome, h⟩))
      (not_lt.mp (fun h => hMore ⟨ratio, hSome, h⟩))

/-- A visit increases the factor, decreases it or keeps it. -/
theorem visit_cases (current previous : PageTable) (pid : Int) :
    Increases (current pid, previous pid) ∨ Decreases (current pid, previous pid) ∨
      ∀ v, visit current previous v pid = v := by
  rcases Classical.em (Increases (current pid, previous pid)) with hMore | hMore
  · exact Or.inl hMore
  · rcases Classical.em (Decreases (current pid, previous pid)) with hLess | hLess
    · exact Or.inr (Or.inl hLess)
    · exact Or.inr (Or.inr (visit_keep hMore hLess))

theorem visit_nonneg {v : Int} (hv : 0 ≤ v) : 0 ≤ visit current previous v pid := by
  rw [visit]
  cases percentileRatio (current pid) (previous pid) with
  | none => exact hv
  | some ratio => exact adjustScaleFactor_nonneg hv ratio

theorem foldl_visit_nonneg (pids : List Int) {v : Int} (hv : 0 ≤ v) :
    0 ≤ pids.foldl (visit current previous) v :=
  foldl_invariant (0 ≤ ·) (fun _ _ => True) (fun _ _ _ h => visit_nonneg h) pids hv
    (fun _ _ => trivial)

theorem increase_decrease (v : Int) :
    v * 10 / 9 * 9 / 10 = if 9 ∣ v then v else v - 1 := by
  have hMore : v * 10 / 9 = v + v / 9 := by omega
  rw [hMore]
  split <;> omega

theorem decrease_increase (v : Int) :
    v * 9 / 10 * 10 / 9 = if 10 ∣ v then v else v - 1 := by
  split
  · omega
  · have hLess : v * 9 / 10 = v - v / 10 - 1 := by omega
    rw [hLess]
    omega

/-- An increase and a decrease next to each other may be swapped. -/
theorem swap_opposite_iff {p q : Int} (hp : Increases (current p, previous p))
    (hq : Decreases (current q, previous q)) {v : Int} (hv : 0 ≤ v) (after : List Int) :
    (p :: q :: after).foldl (visit current previous) v =
        (q :: p :: after).foldl (visit current previous) v ↔
      ((9 ∣ v ↔ 10 ∣ v) ∨
        after.foldl (visit current previous) (v - 1) = after.foldl (visit current previous) v) := by
  simp only [List.foldl_cons]
  rw [visit_increase hp hv, visit_decrease hq (by omega), visit_decrease hq hv,
    visit_increase hp (by omega), increase_decrease v, decrease_increase v]
  split <;> split
  · simp [*]
  · simp [*, eq_comm]
  · simp [*]
  · simp [*]

/-- Visits that do not go in opposite directions may always be swapped. -/
theorem visit_comm {p q : Int}
    (hpq : ¬(Increases (current p, previous p) ∧ Decreases (current q, previous q)))
    (hqp : ¬(Increases (current q, previous q) ∧ Decreases (current p, previous p)))
    {v : Int} (hv : 0 ≤ v) :
    visit current previous (visit current previous v p) q =
      visit current previous (visit current previous v q) p := by
  rcases visit_cases current previous p with hp | hp | hp
  · rcases visit_cases current previous q with hq | hq | hq
    · rw [visit_increase hp hv, visit_increase hq hv, visit_increase hp (by omega),
        visit_increase hq (by omega)]
    · exact absurd ⟨hp, hq⟩ hpq
    · rw [hq, hq]
  · rcases visit_cases current previous q with hq | hq | hq
    · exact absurd ⟨hq, hp⟩ hqp
    · rw [visit_decrease hp hv, visit_decrease hq hv, visit_decrease hp (by omega),
        visit_decrease hq (by omega)]
    · rw [hq, hq]
  · rw [hp, hp]

end Visits

theorem scaleFactorRun_nonneg (snapshots : List (List Int × PageTable)) :
    0 ≤ (scaleFactorRun snapshots).1.watermarkScaleFactor := by
  obtain ⟨ratios, hRatios⟩ := scaleFactorRun_eq snapshots
  rw [hRatios]
  exact foldl_adjustScaleFactor_nonneg ratios

/-- The factor after a snapshot does not depend on the order of the visits exactly when, in every
order, an increase directly before a decrease is decided at a factor that is divisible by both 9
and 10 or by neither, or the visits after the two make up for the difference of 1. -/
theorem visit_order_irrelevant_iff (snapshots : List (List Int × PageTable)) (current : PageTable)
    (trackedPids : Finset Int) :
    (∀ pids pids', Enumerates pids trackedPids → Enumerates pids' trackedPids →
      factorAfter snapshots current pids = factorAfter snapshots current pids') ↔
    ∀ before p q after, Enumerates (before ++ p :: q :: after) trackedPids →
      Increases (current p, (scaleFactorRun snapshots).2 p) →
      Decreases (current q, (scaleFactorRun snapshots).2 q) →
      ((9 ∣ factorAfter snapshots current before ↔ 10 ∣ factorAfter snapshots current before) ∨
        after.foldl (visit current (scaleFactorRun snapshots).2)
            (factorAfter snapshots current before - 1) =
          after.foldl (visit current (scaleFactorRun snapshots).2)
            (factorAfter snapshots current before)) := by
  simp only [factorAfter_eq]
  have hFactor := scaleFactorRun_nonneg snapshots
  generalize (scaleFactorRun snapshots).1.watermarkScaleFactor = w at *
  generalize (scaleFactorRun snapshots).2 = previous at *
  constructor
  · intro h before p q after hOrder hp hq
    have hSwapped := h _ _ hOrder (hOrder.of_perm ((List.Perm.swap p q after).append_left before))
    rw [List.foldl_append, List.foldl_append] at hSwapped
    exact (swap_opposite_iff hp hq (foldl_visit_nonneg before hFactor) after).mp hSwapped
  · intro h pids pids' hPids hPids'
    refine foldl_eq_of_perm ?_ (List.Perm.refl pids) (hPids'.perm hPids)
    intro before p q after hOrder
    have hBefore := @foldl_visit_nonneg current previous before w hFactor
    rw [List.foldl_append, List.foldl_append]
    rcases Classical.em (Increases (current p, previous p) ∧ Decreases (current q, previous q))
      with ⟨hp, hq⟩ | hpq
    · exact (swap_opposite_iff hp hq hBefore after).mpr
        (h before p q after (hPids.of_perm hOrder) hp hq)
    · rcases Classical.em (Increases (current q, previous q) ∧ Decreases (current p, previous p))
        with ⟨hq, hp⟩ | hqp
      · have hOther := hPids.of_perm (((List.Perm.swap p q after).append_left before).trans hOrder)
        exact ((swap_opposite_iff hq hp hBefore after).mpr
          (h before q p after hOther hq hp)).symm
      · simp only [List.foldl_cons]
        rw [visit_comm hpq hqp hBefore]

def tableOf (lines : List (Int × Char × Int)) : PageTable :=
  lines.foldl (fun table line => table.set line.1 [line.2.1] line.2.2) (fun _ => ∅)

/-- Process 1 then accesses its new pages often, and process 2 its old one. -/
theorem visit_order_matters :
    ¬(∀ snapshots current trackedPids pids pids', Enumerates pids trackedPids →
      Enumerates pids' trackedPids →
      factorAfter snapshots current pids = factorAfter snapshots current pids') := by
  intro h
  have hEq := h [([1, 2], tableOf [(1, '9', 1), (2, '8', 1)])]
    (tableOf [(1, '9', 2), (1, 'a', 100), (1, 'b', 100), (1, 'c', 100),
      (2, '8', 100), (2, 'd', 1), (2, 'e', 1), (2, 'f', 1)])
    {1, 2} [1, 2] [2, 1] ⟨by decide, by decide⟩ ⟨by decide, by decide⟩
  -- 10 goes to 11 and 9 in the one order, to 9 and 10 in the other
  exact absurd hEq (by decide +kernel)

end Ebacs.Avgscale
