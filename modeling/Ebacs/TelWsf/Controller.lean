import Ebacs.HandOff.System
import Ebacs.TelWsf.Buckets
import Ebacs.TelWsf.Split

/-! # The watermark controller over whole runs

The loop of `process_logs` in `tel_wsf.py`. The factor is a variable that
lives across iterations and is assigned only when a bucket matches, so an
iteration forgets the past exactly when its split lies in a bucket.
-/
namespace Ebacs.TelWsf
open Lib
open HandOff (Directory ReaderPc pickFile openFile readAccessCounts time60 fileName filePath
  lruMetrics resolve_filePath)
set_option autoImplicit false

/-- What one iteration finds: the memory statistics, the listing and the files. -/
structure Telemetry where
  freePages : Nat
  totalPages : Nat
  listdir : List Text
  files : Directory

structure Controller where
  pc : ReaderPc
  watermarkScaleFactor : Int
  log : List Int
  deriving DecidableEq, Repr

def Controller.init : Controller := ⟨.polling, 10, []⟩

def adjust (s : Controller) (t : Telemetry) (accessCounts : List Int) : Controller :=
  let watermarkScaleFactor :=
    nextFactor t.freePages t.totalPages (workingSetSplit accessCounts) s.watermarkScaleFactor
  { s with
    watermarkScaleFactor := watermarkScaleFactor
    log := s.log ++ [updateKernelWatermarkScaleFactor watermarkScaleFactor] }

def processLogs (directory : Text) (s : Controller) (t : Telemetry) : Controller :=
  if s.pc ≠ .polling then s
  else if t.totalPages = 0 then { s with pc := .returned }
  else match pickFile directory t.listdir with
    | .picked currentFile =>
      if time60 <:+: currentFile then { s with pc := .returned }
      else match (openFile directory t.files currentFile).bind readAccessCounts with
        | none => { s with pc := .raised }
        | some [] => s
        | some accessCounts => adjust s t accessCounts
    | pc => { s with pc := pc }

def run (directory : Text) (history : List Telemetry) : Controller :=
  history.foldl (processLogs directory) Controller.init

/-- An iteration that reads these memory statistics and this snapshot. -/
structure Finds (directory : Text) (t : Telemetry) (freePages totalPages : Nat)
    (snapshot : Text) : Prop where
  free : t.freePages = freePages
  total : t.totalPages = totalPages
  read : ∃ currentFile, pickFile directory t.listdir = .picked currentFile ∧
    ¬time60 <:+: currentFile ∧ openFile directory t.files currentFile = some snapshot

/-- Any two runs that read the same in an iteration log the same factor in it, and one that
is not above the largest factor of the iteration. -/
def Forgets (freePages totalPages : Nat) (snapshot : Text) : Prop :=
  ∀ directory₁ directory₂ history₁ history₂ t₁ t₂,
    (run directory₁ history₁).pc = .polling → (run directory₂ history₂).pc = .polling →
    Finds directory₁ t₁ freePages totalPages snapshot →
    Finds directory₂ t₂ freePages totalPages snapshot →
    ∃ factor ≤ maxScaleFactor freePages totalPages,
      (run directory₁ (history₁ ++ [t₁])).log = (run directory₁ history₁).log ++ [factor] ∧
      (run directory₂ (history₂ ++ [t₂])).log = (run directory₂ history₂).log ++ [factor]

/-- At least one page and at most seven tenths of them make up seven tenths of the accesses. -/
def Concentrated (accessCounts : List Int) : Prop :=
  ∃ s : Multiset Int, s ≤ accessCounts ∧ s ≠ 0 ∧ 10 * s.card ≤ 7 * accessCounts.length ∧
    7 * totalAccesses accessCounts ≤ 10 * s.sum

theorem workingSetSplit_lt_one (accessCounts : List Int) (hNe : accessCounts ≠ []) :
    workingSetSplit accessCounts < 1 := by
  have hLength : (0 : ℚ) < accessCounts.length := by
    exact_mod_cast List.length_pos_iff.mpr hNe
  have h : (0 : ℚ) < (splitIndex accessCounts + 1 : ℚ) / accessCounts.length := by positivity
  rw [workingSetSplit]
  linarith

theorem le_workingSetSplit_iff {accessCounts : List Int} (hNe : accessCounts ≠ []) :
    3 / 10 ≤ workingSetSplit accessCounts ↔
      10 * (splitIndex accessCounts + 1) ≤ 7 * accessCounts.length := by
  have hLength : (0 : ℚ) < accessCounts.length := by
    exact_mod_cast List.length_pos_iff.mpr hNe
  have hShare : 3 / 10 ≤ workingSetSplit accessCounts ↔
      (splitIndex accessCounts + 1 : ℚ) / accessCounts.length ≤ 7 / 10 := by
    rw [workingSetSplit]
    constructor
    · intro h
      linarith
    · intro h
      linarith
  rw [hShare, div_le_div_iff₀ hLength (by norm_num), ← Nat.cast_le (α := ℚ)]
  push_cast
  constructor
  · intro h
    linarith
  · intro h
    linarith

/-- Only a single page with a negative count escapes every break. -/
theorem length_le_one_of_no_break {accessCounts : List Int}
    (h : splitBreak accessCounts = none) : accessCounts.length ≤ 1 := by
  by_contra hLong
  have hBelow : ∀ k, 0 < k → k ≤ accessCounts.length →
      10 * topSum accessCounts k < 7 * totalAccesses accessCounts := by
    intro k hPos hk
    by_contra hReached
    obtain ⟨j, _, hBreak⟩ := exists_splitBreak hPos hk (reaches_iff.mpr (not_lt.mp hReached))
    rw [h] at hBreak
    cases hBreak
  have hAll := hBelow accessCounts.length (by omega) le_rfl
  have hFirst := hBelow 1 Nat.one_pos (by omega)
  have hSum : topSum accessCounts accessCounts.length = totalAccesses accessCounts := by
    rw [topSum, List.take_of_length_le (length_descending accessCounts).le, sum_descending]
  have hAverage := average_le_topSum accessCounts (k := 1) (by omega)
  have hTwo : (2 : Int) ≤ accessCounts.length := by omega
  rw [hSum] at hAll
  have hTop : topSum accessCounts 1 < 0 := by omega
  have hMany := mul_le_mul_of_nonpos_right hTwo hTop.le
  push_cast at hAverage
  linarith

theorem le_workingSetSplit_iff_concentrated {accessCounts : List Int} (hNe : accessCounts ≠ []) :
    3 / 10 ≤ workingSetSplit accessCounts ↔ Concentrated accessCounts := by
  rw [le_workingSetSplit_iff hNe]
  constructor
  · intro h
    cases hBreak : splitBreak accessCounts with
    | none =>
      have hShort := length_le_one_of_no_break hBreak
      omega
    | some j =>
      have hIndex : splitIndex accessCounts = j := by rw [splitIndex, hBreak, Option.getD_some]
      obtain ⟨hLength, hReached, _⟩ := splitBreak_eq_some_iff.mp hBreak
      obtain ⟨s, hSub, hCard, hSum⟩ := topSum_of_multiset accessCounts (k := j + 1) hLength
      refine ⟨s, hSub, ?_, by omega, by rwa [hSum, ← reaches_iff]⟩
      rintro rfl
      rw [Multiset.card_zero] at hCard
      omega
  · rintro ⟨s, hSub, hNonempty, hCard, hSum⟩
    have hTop := reaches_topSum_of_reaches hSub (reaches_iff.mpr hSum)
    obtain ⟨j, hj, hBreak⟩ := exists_splitBreak (Multiset.card_pos.mpr hNonempty)
      (card_le_of_le hSub) hTop
    have hIndex : splitIndex accessCounts = j := by rw [splitIndex, hBreak, Option.getD_some]
    omega

section Iteration

variable {directory snapshot : Text} {t : Telemetry} {freePages totalPages : Nat}
  {accessCounts : List Int}

theorem processLogs_of_finds {s : Controller} (hPolling : s.pc = .polling)
    (hTotal : totalPages ≠ 0) (hFinds : Finds directory t freePages totalPages snapshot)
    (hRead : readAccessCounts snapshot = some accessCounts) (hNe : accessCounts ≠ []) :
    processLogs directory s t = adjust s t accessCounts := by
  obtain ⟨currentFile, hPicked, hName, hOpen⟩ := hFinds.read
  have hTotal' : t.totalPages ≠ 0 := by rwa [hFinds.total]
  rw [processLogs, if_neg (not_not_intro hPolling), if_neg hTotal']
  simp only [hPicked, if_neg hName, hOpen, Option.bind_some, hRead]

theorem log_of_finds {history : List Telemetry} (hPolling : (run directory history).pc = .polling)
    (hTotal : totalPages ≠ 0) (hFinds : Finds directory t freePages totalPages snapshot)
    (hRead : readAccessCounts snapshot = some accessCounts) (hNe : accessCounts ≠ []) :
    (run directory (history ++ [t])).log = (run directory history).log ++
      [updateKernelWatermarkScaleFactor (nextFactor freePages totalPages
        (workingSetSplit accessCounts) (run directory history).watermarkScaleFactor)] := by
  have hStep : run directory (history ++ [t]) = processLogs directory (run directory history) t := by
    rw [run, List.foldl_append]
    rfl
  rw [hStep, processLogs_of_finds hPolling hTotal hFinds hRead hNe, adjust, hFinds.free,
    hFinds.total]

end Iteration

theorem ten_le_bucketFactor {m : Int} (hm : 10 ≤ m) {w : ℚ} (hLow : 3 / 10 ≤ w) :
    10 ≤ bucketFactor m w := by
  have hLeast : bucketFactor 10 w = 10 := by
    rw [bucketFactor]
    norm_num
  rw [← hLeast]
  exact bucketFactor_mono hLow le_rfl hm le_rfl

theorem forgets_of_le {freePages totalPages : Nat} (hTotal : totalPages ≠ 0) {snapshot : Text}
    {accessCounts : List Int} (hRead : readAccessCounts snapshot = some accessCounts)
    (hNe : accessCounts ≠ []) (hLow : 3 / 10 ≤ workingSetSplit accessCounts) :
    Forgets freePages totalPages snapshot := by
  intro directory₁ directory₂ history₁ history₂ t₁ t₂ hPolling₁ hPolling₂ hFinds₁ hFinds₂
  have hHigh := workingSetSplit_lt_one accessCounts hNe
  obtain ⟨hTen, hThousand⟩ := maxScaleFactor_range freePages totalPages
  have hLeast := ten_le_bucketFactor hTen hLow
  have hMost := bucketFactor_le hTen hHigh
  refine ⟨bucketFactor (maxScaleFactor freePages totalPages) (workingSetSplit accessCounts), hMost,
    ?_, ?_⟩
  · rw [log_of_finds hPolling₁ hTotal hFinds₁ hRead hNe, nextFactor_eq hLow hHigh,
      updateKernelWatermarkScaleFactor_eq hLeast (hMost.trans hThousand)]
  · rw [log_of_finds hPolling₂ hTotal hFinds₂ hRead hNe, nextFactor_eq hLow hHigh,
      updateKernelWatermarkScaleFactor_eq hLeast (hMost.trans hThousand)]

/-- Two files, of which the older one is read. -/
def telemetryOf (freePages totalPages : Nat) (snapshot : Text) : Telemetry :=
  ⟨freePages, totalPages, [fileName 0, fileName 1],
    (AList.insert (fileName 0) snapshot (AList.insert (fileName 1) [] ∅))⟩

theorem finds_telemetryOf (freePages totalPages : Nat) (snapshot : Text) :
    Finds lruMetrics (telemetryOf freePages totalPages snapshot) freePages totalPages snapshot := by
  have hPicked : pickFile lruMetrics [fileName 0, fileName 1] =
      .picked (filePath lruMetrics 0) := by decide
  refine ⟨rfl, rfl, filePath lruMetrics 0, hPicked, by decide, ?_⟩
  rw [openFile, resolve_filePath, Option.bind_some]
  exact AList.lookup_insert _

/-- One page has nine of ten accesses. -/
def skewed : Text := "a 7 9 \nb 7 1 \n".toList

theorem readAccessCounts_skewed : readAccessCounts skewed = some [9, 1] := by decide

def warm : Telemetry := telemetryOf 0 1 skewed

theorem run_warm : run lruMetrics [warm] = ⟨.polling, 434, [434]⟩ := by
  change processLogs lruMetrics Controller.init (telemetryOf 0 1 skewed) = _
  have hInit : Controller.init.pc = .polling := rfl
  rw [processLogs_of_finds hInit Nat.one_ne_zero (finds_telemetryOf 0 1 skewed)
    readAccessCounts_skewed (by decide)]
  decide +kernel

/-- Below the lowest bucket a fresh run and a warm one log different factors. -/
theorem not_forgets_of_lt {freePages totalPages : Nat} (hTotal : totalPages ≠ 0) {snapshot : Text}
    {accessCounts : List Int} (hRead : readAccessCounts snapshot = some accessCounts)
    (hNe : accessCounts ≠ []) (hLow : workingSetSplit accessCounts < 3 / 10) :
    ¬Forgets freePages totalPages snapshot := by
  intro h
  have hFinds := finds_telemetryOf freePages totalPages snapshot
  have hWarm : (run lruMetrics [warm]).pc = .polling := by rw [run_warm]
  obtain ⟨factor, _, hFresh, hLater⟩ := h lruMetrics lruMetrics [] [warm] _ _ rfl hWarm hFinds hFinds
  rw [log_of_finds rfl hTotal hFinds hRead hNe, nextFactor_of_low hLow] at hFresh
  rw [log_of_finds hWarm hTotal hFinds hRead hNe, nextFactor_of_low hLow, run_warm] at hLater
  have hTen := List.singleton_inj.mp (List.append_cancel_left hFresh)
  have hWas := List.singleton_inj.mp (List.append_cancel_left hLater)
  rw [← hTen] at hWas
  exact absurd hWas (by decide)

/-- The logged factor depends on the current telemetry alone exactly when at most seven tenths
of the pages make up seven tenths of the accesses. -/
theorem factor_forgets_history_iff (freePages totalPages : Nat) (hTotal : totalPages ≠ 0)
    (snapshot : Text) (accessCounts : List Int)
    (hRead : readAccessCounts snapshot = some accessCounts) (hNe : accessCounts ≠ []) :
    Forgets freePages totalPages snapshot ↔ Concentrated accessCounts := by
  rw [← le_workingSetSplit_iff_concentrated hNe]
  constructor
  · intro h
    by_contra hLow
    exact not_forgets_of_lt hTotal hRead hNe (not_le.mp hLow) h
  · exact forgets_of_le hTotal hRead hNe

theorem skewed_forgets_history : Concentrated [9, 1] ∧ Forgets 100 1000 skewed := by
  have hConcentrated : Concentrated [9, 1] := ⟨{9}, by decide, by decide, by decide, by decide⟩
  exact ⟨hConcentrated, (factor_forgets_history_iff 100 1000 (by decide) skewed [9, 1]
    readAccessCounts_skewed (by decide)).mpr hConcentrated⟩

def singlePage : Text := "ffff888012340170 7 5 \n".toList

theorem singlePage_keeps_history : ¬Forgets 100 1000 singlePage := by
  have hRead : readAccessCounts singlePage = some [5] := by decide
  exact not_forgets_of_lt (by decide) hRead (by decide) (by decide +kernel)

end Ebacs.TelWsf
