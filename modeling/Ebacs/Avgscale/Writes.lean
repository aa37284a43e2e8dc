import Ebacs.Avgscale.Doubles

/-! # The values written to the kernel

A run of `get_avgscale.py` is one sequence of analyses, each of the current
and the previous pages of a PID. The values written are bounded below by the
guard of `update_kernel_watermark_scale_factor`. Nothing bounds them above:
an increase that is decided above 900 writes more than 1000.
-/
namespace Ebacs.Avgscale.Doubles
open Lib
open BinaryFormat.Number (ofRat)
set_option autoImplicit false

/-- The analyses of a run that starts with the given previous table, in their order. -/
def analyses (previous : PageTable) : List (List Int × PageTable) → List (Pages × Pages)
  | [] => []
  | (pids, current) :: rest =>
    pids.map (fun pid => (current pid, previous pid)) ++ analyses current rest

section Runs

variable (npPercentile : NpPercentile)

def Increases (pages : Pages × Pages) : Prop :=
  ∃ ratio, percentileRatio npPercentile pages.1 pages.2 = some (some ratio) ∧
    ratio > ofRat (12 / 10)

theorem foldl_analyses (snapshots : List (List Int × PageTable)) (s : Script)
    (previous : PageTable) :
    (snapshots.foldl (fun s snapshot =>
      (snapshot.1.foldl (analyzePid npPercentile snapshot.2 s.2) s.1, snapshot.2))
      (s, previous)).1 =
      (analyses previous snapshots).foldl (analyzePages npPercentile) s := by
  induction snapshots generalizing s previous with
  | nil => rfl
  | cons snapshot snapshots ih =>
    rw [List.foldl_cons, ih, analyses, List.foldl_append, List.foldl_map]
    rfl

theorem scaleFactorRun_fst (snapshots : List (List Int × PageTable)) :
    (scaleFactorRun npPercentile snapshots).1 =
      (analyses (fun _ => ∅) snapshots).foldl (analyzePages npPercentile) Script.init :=
  foldl_analyses npPercentile snapshots Script.init (fun _ => ∅)

variable {npPercentile}

/-- An analysis ends the script or keeps the factor, or it adjusts the factor by a ratio. -/
theorem analyzePages_cases {s : Script} (hRunning : s.raised = false) (pages : Pages × Pages) :
    (¬Increases npPercentile pages ∧
      ∃ raised, analyzePages npPercentile s pages = { s with raised := raised }) ∨
    ∃ ratio, (Increases npPercentile pages ↔ ratio > ofRat (12 / 10)) ∧
      analyzePages npPercentile s pages = s.adjust ratio := by
  have hGuard : ¬s.raised = true := by rw [hRunning]; exact Bool.false_ne_true
  rw [analyzePages, if_neg hGuard, Increases]
  cases percentileRatio npPercentile pages.1 pages.2 with
  | none =>
    refine Or.inl ⟨?_, true, rfl⟩
    rintro ⟨_, hNone, _⟩
    cases hNone
  | some ratio? =>
    cases ratio? with
    | none =>
      refine Or.inl ⟨?_, s.raised, rfl⟩
      rintro ⟨_, hNone, _⟩
      cases hNone
    | some ratio =>
      refine Or.inr ⟨ratio, ?_, rfl⟩
      constructor
      · rintro ⟨_, hSome, hRatio⟩
        cases hSome
        exact hRatio
      · intro hRatio
        exact ⟨ratio, rfl, hRatio⟩

theorem mem_writes_update {s : ScaleFactor} {factor v : Int} :
    v ∈ (s.update factor).writes ↔ v ∈ s.writes ∨ (1 ≤ factor ∧ v = factor) := by
  rw [ScaleFactor.update]
  split
  · rename_i hLow
    constructor
    · exact Or.inl
    · rintro (hv | ⟨hOne, _⟩)
      · exact hv
      · omega
  · rename_i hLow
    rw [List.mem_append, List.mem_singleton]
    constructor
    · rintro (hv | hv)
      · exact Or.inl hv
      · exact Or.inr ⟨by omega, hv⟩
    · rintro (hv | ⟨_, hv⟩)
      · exact Or.inl hv
      · exact Or.inr hv

/-- What has been written stays written. -/
theorem writes_subset_analyzePages (s : Script) (pages : Pages × Pages) :
    s.writes ⊆ (analyzePages npPercentile s pages).writes := by
  cases hRaised : s.raised with
  | true =>
    rw [analyzePages, if_pos hRaised]
    exact List.Subset.refl _
  | false =>
    have hCases := @analyzePages_cases npPercentile s hRaised pages
    obtain ⟨_, raised, hEq⟩ | ⟨ratio, _, hEq⟩ := hCases
    · rw [hEq]
      exact List.Subset.refl _
    · rw [hEq, Script.adjust]
      split
      · exact fun v hv => mem_writes_update.mpr (Or.inl hv)
      · exact List.Subset.refl _

/-- The factor and everything written so far. -/
structure InRange (s : Script) : Prop where
  nonneg : 0 ≤ s.watermarkScaleFactor
  le_max : s.watermarkScaleFactor ≤ 1000
  writes : ∀ v ∈ s.writes, 1 ≤ v ∧ v ≤ 1000

theorem inRange_init : InRange Script.init := by
  refine ⟨by decide, by decide, ?_⟩
  intro v hv
  cases hv

theorem InRange.update_iff {s : Script} (h : InRange s) {factor : Int} (hFactor : 0 ≤ factor) :
    InRange { s with toScaleFactor := s.update factor } ↔ factor ≤ 1000 := by
  constructor
  · exact fun hUpdate => hUpdate.le_max
  · intro hMax
    refine ⟨hFactor, hMax, ?_⟩
    intro v hv
    rcases mem_writes_update.mp hv with hv | ⟨hOne, rfl⟩
    · exact h.writes v hv
    · exact ⟨hOne, hMax⟩

theorem InRange.adjust_iff {s : Script} (h : InRange s) (ratio : Double) :
    InRange (s.adjust ratio) ↔ (ratio > ofRat (12 / 10) → s.watermarkScaleFactor ≤ 900) := by
  have hLow := h.nonneg
  have hHigh := h.le_max
  rw [Script.adjust]
  rcases Classical.em (ratio > ofRat (12 / 10)) with hMore | hMore
  · rw [adjustScaleFactor_increase hLow hHigh hMore, imp_iff_right hMore]
    refine (h.update_iff (by omega)).trans ?_
    omega
  · refine iff_of_true ?_ (fun h => absurd h hMore)
    rcases Classical.em (ratio < ofRat (8 / 10)) with hLess | hLess
    · rw [adjustScaleFactor_decrease hLow hHigh hMore hLess]
      exact (h.update_iff (by omega)).mpr (by omega)
    · rw [adjustScaleFactor_keep hMore hLess]
      exact (h.update_iff hLow).mpr hHigh

theorem InRange.analyzePages_iff {s : Script} (h : InRange s) (pages : Pages × Pages) :
    InRange (analyzePages npPercentile s pages) ↔
      (s.raised = false → Increases npPercentile pages → s.watermarkScaleFactor ≤ 900) := by
  cases hRaised : s.raised with
  | true =>
    rw [analyzePages, if_pos hRaised]
    exact iff_of_true h nofun
  | false =>
    rw [imp_iff_right rfl]
    obtain ⟨hNot, raised, hEq⟩ | ⟨ratio, hIff, hEq⟩ := analyzePages_cases hRaised pages
    · rw [hEq]
      exact iff_of_true ⟨h.nonneg, h.le_max, h.writes⟩ (fun hIncreases => absurd hIncreases hNot)
    · rw [hEq, h.adjust_iff, hIff]

/-- A value above the maximum has been written. -/
def Exceeded (s : Script) : Prop := ∃ v ∈ s.writes, 1000 < v

theorem Exceeded.foldl {s : Script} (h : Exceeded s) (analyzed : List (Pages × Pages)) :
    Exceeded (analyzed.foldl (analyzePages npPercentile) s) := by
  refine foldl_invariant Exceeded (fun _ _ => True) ?_ analyzed h (fun _ _ => trivial)
  rintro s pages _ ⟨v, hv, hMax⟩
  exact ⟨v, writes_subset_analyzePages s pages hv, hMax⟩

theorem InRange.exceeded {s : Script} (h : InRange s) {pages : Pages × Pages}
    (hRunning : s.raised = false) (hIncreases : Increases npPercentile pages)
    (hFactor : 900 < s.watermarkScaleFactor) : Exceeded (analyzePages npPercentile s pages) := by
  obtain ⟨hNot, _⟩ | ⟨ratio, hIff, hEq⟩ := analyzePages_cases hRunning pages
  · exact absurd hIncreases hNot
  · rw [hEq, Script.adjust, adjustScaleFactor_increase h.nonneg h.le_max (hIff.mp hIncreases)]
    refine ⟨_, mem_writes_update.mpr (Or.inr ⟨?_, rfl⟩), ?_⟩ <;> omega

theorem InRange.writes_foldl_iff {s : Script} (h : InRange s) (analyzed : List (Pages × Pages)) :
    (∀ v ∈ (analyzed.foldl (analyzePages npPercentile) s).writes, 1 ≤ v ∧ v ≤ 1000) ↔
      ∀ x ∈ trace (analyzePages npPercentile) s analyzed,
        x.1.raised = false → Increases npPercentile x.2 → x.1.watermarkScaleFactor ≤ 900 := by
  induction analyzed generalizing s with
  | nil => exact iff_of_true h.writes nofun
  | cons pages analyzed ih =>
    rw [List.foldl_cons, trace, List.forall_mem_cons]
    rcases Classical.em (s.raised = false → Increases npPercentile pages →
      s.watermarkScaleFactor ≤ 900) with hOk | hNot
    · rw [ih ((h.analyzePages_iff pages).mpr hOk)]
      exact (and_iff_right hOk).symm
    · refine iff_of_false (fun hWrites => ?_) (fun hTrace => hNot hTrace.1)
      obtain ⟨hRunning, hRest⟩ := Classical.not_imp.mp hNot
      obtain ⟨hIncreases, hFactor⟩ := Classical.not_imp.mp hRest
      obtain ⟨v, hv, hMax⟩ := (h.exceeded hRunning hIncreases (not_le.mp hFactor)).foldl analyzed
      exact absurd (hWrites v hv).2 (not_le.mpr hMax)

end Runs

/-- Everything a run writes lies between 1 and 1000 exactly when no increase is decided
at a factor above 900. -/
theorem writes_in_range_iff (npPercentile : NpPercentile)
    (snapshots : List (List Int × PageTable)) :
    (∀ v ∈ (scaleFactorRun npPercentile snapshots).1.writes, 1 ≤ v ∧ v ≤ 1000) ↔
      ∀ x ∈ trace (analyzePages npPercentile) Script.init (analyses (fun _ => ∅) snapshots),
        x.1.raised = false → Increases npPercentile x.2 → x.1.watermarkScaleFactor ≤ 900 := by
  rw [scaleFactorRun_fst]
  exact inRange_init.writes_foldl_iff _

/-- One page that is accessed once between two snapshots, and three pages that come and go. -/
def churningTable (t : Nat) : PageTable :=
  let new := if t % 2 = 0 then ['a', 'b', 'c'] else ['d', 'e', 'f']
  new.foldl (fun table page => PageTable.set table 7 [page] 100)
    (PageTable.set (fun _ => ∅) 7 ['9'] (t + 1))

/-- Fifty snapshots of one process, each of which increases the factor. -/
theorem writes_out_of_range :
    ¬(∀ snapshots : List (List Int × PageTable),
      ∀ v ∈ (scaleFactorRun linearPercentile snapshots).1.writes, 1 ≤ v ∧ v ≤ 1000) ∧
    1092 ∈ (scaleFactorRun linearPercentile
      ((List.range 50).map (fun t => ([7], churningTable t)))).1.writes := by
  have hWritten : 1092 ∈ (scaleFactorRun linearPercentile
      ((List.range 50).map (fun t => ([7], churningTable t)))).1.writes := by
    decide +kernel
  refine ⟨fun h => ?_, hWritten⟩
  exact absurd (h _ 1092 hWritten).2 (by decide)

end Ebacs.Avgscale.Doubles
