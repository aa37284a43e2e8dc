import Ebacs.TelWsf.Controller

/-! # More skew, larger factor

The split is meant to tell skewed access patterns from even ones. Moving
accesses from a page to one that already has more of them never shrinks the
sum of the `k` most accessed pages, so the walk breaks no later, the split
does not shrink, and the controller answers with a factor that is no smaller.
-/
namespace Ebacs.TelWsf
open Lib
open HandOff (readAccessCounts lruMetrics)
set_option autoImplicit false

/-- Accesses move from pages that have fewer to pages that have more of them. -/
inductive Skewed : List Int → List Int → Prop where
  | perm {counts other : List Int} (h : counts.Perm other) : Skewed counts other
  | transfer (x y n : Int) (rest : List Int) (hxy : y ≤ x) (hn : 0 ≤ n) :
    Skewed (x :: y :: rest) ((x + n) :: (y - n) :: rest)
  | trans {a b c : List Int} (h : Skewed a b) (h' : Skewed b c) : Skewed a c

/-- As many pages and accesses, with at least as many of them on the `k` top pages. -/
structure Majorized (counts other : List Int) : Prop where
  length : other.length = counts.length
  total : totalAccesses other = totalAccesses counts
  top : ∀ k, topSum counts k ≤ topSum other k

theorem topSum_of_length_le {counts : List Int} {k : Nat} (h : counts.length ≤ k) :
    topSum counts k = totalAccesses counts := by
  rw [topSum, List.take_of_length_le (by rwa [length_descending]), sum_descending]

theorem le_topSum {counts : List Int} {s : Multiset Int} (h : s ≤ counts) :
    s.sum ≤ topSum counts s.card := by
  refine sum_le_sum_take (pairwise_descending counts) ?_
  rwa [Multiset.coe_eq_coe.mpr (perm_descending counts)]

theorem Majorized.of_transfer (x y n : Int) (rest : List Int) (hxy : y ≤ x) (hn : 0 ≤ n) :
    Majorized (x :: y :: rest) ((x + n) :: (y - n) :: rest) := by
  have hTotal : totalAccesses ((x + n) :: (y - n) :: rest) = totalAccesses (x :: y :: rest) := by
    simp only [totalAccesses, List.sum_cons]
    ring
  refine ⟨rfl, hTotal, ?_⟩
  intro k
  rcases Nat.le_total (x :: y :: rest).length k with hAll | hk
  · have hAll' : ((x + n) :: (y - n) :: rest).length ≤ k := hAll
    rw [topSum_of_length_le hAll, topSum_of_length_le hAll', hTotal]
  · obtain ⟨s, hSub, hCard, hSum⟩ := topSum_of_multiset (x :: y :: rest) hk
    have hSub' : s ≤ x ::ₘ y ::ₘ (rest : Multiset Int) := hSub
    obtain ⟨t, ht, hSame, hLe⟩ := exists_le_sum_of_transfer hxy hn hSub'
    calc
      topSum (x :: y :: rest) k = s.sum := hSum.symm
      _ ≤ t.sum := hLe
      _ ≤ topSum ((x + n) :: (y - n) :: rest) t.card := le_topSum ht
      _ = topSum ((x + n) :: (y - n) :: rest) k := by rw [hSame, hCard]

theorem Skewed.majorized {counts other : List Int} (h : Skewed counts other) :
    Majorized counts other := by
  induction h with
  | perm h =>
    refine ⟨h.length_eq.symm, h.sum_eq.symm, ?_⟩
    intro k
    rw [topSum, topSum, descending_eq_of_perm h]
  | transfer x y n rest hxy hn => exact .of_transfer x y n rest hxy hn
  | trans _ _ ih ih' =>
    refine ⟨ih'.length.trans ih.length, ih'.total.trans ih.total, ?_⟩
    intro k
    exact (ih.top k).trans (ih'.top k)

/-- Where the pages are concentrated the walk over the skewed ones breaks no later. -/
theorem Majorized.splitIndex_le {counts other : List Int} (h : Majorized counts other)
    (hNe : counts ≠ []) (hLow : 3 / 10 ≤ workingSetSplit counts) :
    splitIndex other ≤ splitIndex counts := by
  cases hBreak : splitBreak counts with
  | none =>
    have hShort := length_le_one_of_no_break hBreak
    have hShare := (le_workingSetSplit_iff hNe).mp hLow
    omega
  | some j =>
    obtain ⟨hLength, hReached, _⟩ := splitBreak_eq_some_iff.mp hBreak
    have hOther : Reaches other (topSum other (j + 1)) := by
      have hTop := h.top (j + 1)
      rw [reaches_iff] at hReached ⊢
      rw [h.total]
      omega
    obtain ⟨j', hj', hBreak'⟩ := exists_splitBreak j.succ_pos (by rw [h.length]; omega) hOther
    rw [splitIndex, splitIndex, hBreak, hBreak', Option.getD_some, Option.getD_some]
    omega

theorem Majorized.workingSetSplit_le {counts other : List Int} (h : Majorized counts other)
    (hNe : counts ≠ []) (hLow : 3 / 10 ≤ workingSetSplit counts) :
    workingSetSplit counts ≤ workingSetSplit other := by
  have hIndex : (splitIndex other : ℚ) ≤ splitIndex counts := by
    exact_mod_cast h.splitIndex_le hNe hLow
  rw [workingSetSplit, workingSetSplit, h.length]
  gcongr

theorem maxScaleFactor_mono {freePages freePages' : Nat} (totalPages : Nat)
    (hLess : freePages' ≤ freePages) :
    maxScaleFactor freePages totalPages ≤ maxScaleFactor freePages' totalPages := by
  have hUsed : usedMemoryRatio freePages totalPages ≤ usedMemoryRatio freePages' totalPages :=
    usedMemoryRatio_anti hLess
  rcases lt_or_ge (95 / 100) (usedMemoryRatio freePages totalPages) with hAbove | hBelow
  · rw [maxScaleFactor_eq hAbove, maxScaleFactor_eq (hAbove.trans_le hUsed)]
    apply Int.floor_le_floor
    gcongr
  · have hTen : maxScaleFactor freePages totalPages = 10 := by
      rw [maxScaleFactor, if_neg (not_lt.mpr hBelow)]
    rw [hTen]
    exact (maxScaleFactor_range freePages' totalPages).1

/-- Of two iterations, in any runs, the one that finds the accesses more skewed and no more free
memory logs a factor that is at least as large, if the other one finds them concentrated. -/
theorem skew_raises_factor {freePages freePages' totalPages : Nat} (hTotal : totalPages ≠ 0)
    (hFree : freePages' ≤ freePages) {snapshot snapshot' : Text} {counts counts' : List Int}
    (hRead : readAccessCounts snapshot = some counts)
    (hRead' : readAccessCounts snapshot' = some counts') (hSkew : Skewed counts counts')
    (hConcentrated : Concentrated counts) (directory directory' : Text)
    (history history' : List Telemetry) (t t' : Telemetry)
    (hPolling : (run directory history).pc = .polling)
    (hPolling' : (run directory' history').pc = .polling)
    (hFinds : Finds directory t freePages totalPages snapshot)
    (hFinds' : Finds directory' t' freePages' totalPages snapshot') :
    ∃ factor factor', factor ≤ factor' ∧
      (run directory (history ++ [t])).log = (run directory history).log ++ [factor] ∧
      (run directory' (history' ++ [t'])).log = (run directory' history').log ++ [factor'] := by
  have hMajor := hSkew.majorized
  have hNe : counts ≠ [] := by
    rintro rfl
    obtain ⟨s, hSub, hNonempty, _⟩ := hConcentrated
    exact hNonempty (Multiset.le_zero.mp hSub)
  have hNe' : counts' ≠ [] := by
    rw [← List.length_pos_iff, hMajor.length]
    exact List.length_pos_iff.mpr hNe
  have hLow := (le_workingSetSplit_iff_concentrated hNe).mpr hConcentrated
  have hSplit := hMajor.workingSetSplit_le hNe hLow
  refine ⟨_, _, ?_, log_of_finds hPolling hTotal hFinds hRead hNe,
    log_of_finds hPolling' hTotal hFinds' hRead' hNe'⟩
  rw [nextFactor_eq hLow (workingSetSplit_lt_one counts hNe),
    nextFactor_eq (hLow.trans hSplit) (workingSetSplit_lt_one counts' hNe')]
  have hBucket := bucketFactor_mono hLow (maxScaleFactor_range freePages totalPages).1
    (maxScaleFactor_mono totalPages hFree) hSplit
  exact max_le_max_left _ (min_le_min_right _ hBucket)

/-- One page takes accesses from the other one while memory gets scarcer. -/
theorem skew_raises_factor_twoPages :
    ∃ factor factor', factor ≤ factor' ∧
      (run lruMetrics ([warm] ++ [telemetryOf 100 1000 "a 7 7 \nb 7 3 \n".toList])).log =
        (run lruMetrics [warm]).log ++ [factor] ∧
      (run lruMetrics ([] ++ [telemetryOf 50 1000 skewed])).log = [] ++ [factor'] := by
  have hSkew : Skewed [7, 3] [9, 1] := .transfer 7 3 2 [] (by decide) (by decide)
  have hConcentrated : Concentrated [7, 3] := ⟨{7}, by decide, by decide, by decide, by decide⟩
  have hWarm : (run lruMetrics [warm]).pc = .polling := by rw [run_warm]
  exact skew_raises_factor (by decide) (by decide) (by decide) readAccessCounts_skewed hSkew
    hConcentrated lruMetrics lruMetrics [warm] [] _ _ hWarm rfl (finds_telemetryOf 100 1000 _)
    (finds_telemetryOf 50 1000 skewed)

end Ebacs.TelWsf
