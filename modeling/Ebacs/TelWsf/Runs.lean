import Ebacs.Lib.Trace
import Ebacs.TelWsf.Controller

/-! # What a run of the controller logs

Every run, whatever it finds in the directory and however it ends, is a
sequence of readings: iterations that got access counts to work with. Each of
them logs one factor, which is that of the last reading so far with a split
in a bucket, and the initial 10 before the first of these. The numbers are
read as exact rationals, as in the search for a bucket.
-/
namespace Ebacs.TelWsf
open Lib
open HandOff (ReaderPc pickFile openFile readAccessCounts time60 lruMetrics)
set_option autoImplicit false

/-- The counts that an iteration of a running controller gets as far as to use. -/
def reading (directory : Text) (t : Telemetry) : Option (List Int) :=
  if t.totalPages = 0 then none
  else match pickFile directory t.listdir with
    | .picked currentFile =>
      if time60 <:+: currentFile then none
      else match (openFile directory t.files currentFile).bind readAccessCounts with
        | some (count :: counts) => some (count :: counts)
        | _ => none
    | _ => none

/-- The iteration leaves the loop running. -/
def Continues (directory : Text) (t : Telemetry) : Prop :=
  (processLogs directory .init t).pc = .polling

instance (directory : Text) : DecidablePred (Continues directory) := fun t =>
  inferInstanceAs (Decidable ((processLogs directory .init t).pc = .polling))

/-- The readings of a run, up to the iteration that ends it. -/
def readings (directory : Text) (history : List Telemetry) : List (Telemetry × List Int) :=
  (history.takeWhile (fun t => Continues directory t)).filterMap
    (fun t => (reading directory t).map (fun counts => (t, counts)))

/-- One of the tests of the search matches. -/
def InSomeBucket (r : Telemetry × List Int) : Prop := ∃ i < 7, InBucket i (workingSetSplit r.2)

instance : DecidablePred InSomeBucket := fun r =>
  inferInstanceAs (Decidable (∃ i < 7, InBucket i (workingSetSplit r.2)))

/-- What the search finds, of interest where a bucket matches. -/
def readingFactor (r : Telemetry × List Int) : Int :=
  nextFactor r.1.freePages r.1.totalPages (workingSetSplit r.2) 10

/-- The factor of the last reading that a bucket matches. -/
def factorOf (rs : List (Telemetry × List Int)) : Int :=
  ((rs.filter (fun r => InSomeBucket r)).getLast?.map readingFactor).getD 10

theorem InSomeBucket.bounds {r : Telemetry × List Int} (h : InSomeBucket r) :
    3 / 10 ≤ workingSetSplit r.2 ∧ workingSetSplit r.2 < 1 := by
  obtain ⟨i, hi, hIn⟩ := h
  exact inBucket_bounds hi hIn

theorem InSomeBucket.readingFactor_eq {r : Telemetry × List Int} (h : InSomeBucket r) :
    readingFactor r =
      bucketFactor (maxScaleFactor r.1.freePages r.1.totalPages) (workingSetSplit r.2) := by
  obtain ⟨hLow, hHigh⟩ := h.bounds
  exact nextFactor_eq hLow hHigh 10

theorem factorOf_concat (rs : List (Telemetry × List Int)) (r : Telemetry × List Int) :
    factorOf (rs ++ [r]) = if InSomeBucket r then readingFactor r else factorOf rs := by
  by_cases h : InSomeBucket r <;> simp [factorOf, List.filter_append, h]

/-- An iteration of a running controller adjusts the factor, or it changes at most the place
at which the program stands. -/
theorem processLogs_cases (directory : Text) {s : Controller} (hPolling : s.pc = .polling)
    (t : Telemetry) :
    (∃ counts, reading directory t = some counts ∧ counts ≠ [] ∧ Continues directory t ∧
      processLogs directory s t = adjust s t counts) ∨
    (reading directory t = none ∧
      ∃ pc, (pc = .polling ↔ Continues directory t) ∧
        processLogs directory s t = { s with pc := pc }) := by
  have hInit : Controller.init.pc = .polling := rfl
  have hSelf : s = { s with pc := .polling } := by rw [← hPolling]
  rw [reading, Continues, processLogs, processLogs, if_neg (not_not_intro hPolling),
    if_neg (not_not_intro hInit)]
  split
  · exact Or.inr ⟨rfl, _, Iff.rfl, rfl⟩
  · cases pickFile directory t.listdir with
    | polling => exact Or.inr ⟨rfl, _, Iff.rfl, rfl⟩
    | returned => exact Or.inr ⟨rfl, _, Iff.rfl, rfl⟩
    | raised => exact Or.inr ⟨rfl, _, Iff.rfl, rfl⟩
    | picked currentFile =>
      dsimp only
      split
      · exact Or.inr ⟨rfl, _, Iff.rfl, rfl⟩
      · cases (openFile directory t.files currentFile).bind readAccessCounts with
        | none => exact Or.inr ⟨rfl, _, Iff.rfl, rfl⟩
        | some counts =>
          cases counts with
          | nil => exact Or.inr ⟨rfl, .polling, iff_of_true rfl rfl, hSelf⟩
          | cons count counts => exact Or.inl ⟨_, rfl, List.cons_ne_nil _ _, rfl, rfl⟩

theorem nextFactor_of_reading (r : Telemetry × List Int) (carried : Int) :
    nextFactor r.1.freePages r.1.totalPages (workingSetSplit r.2) carried =
      if InSomeBucket r then readingFactor r else carried := by
  split
  · rename_i hIn
    obtain ⟨hLow, hHigh⟩ := hIn.bounds
    rw [hIn.readingFactor_eq, nextFactor_eq hLow hHigh]
  · rename_i hNone
    apply bucketSearch_of_none
    intro i hi hIn
    rw [length_calculateDynamicBuckets] at hi
    rw [Nat.zero_add] at hIn
    exact hNone ⟨i, hi, hIn⟩

/-- What the state says about the readings so far. -/
structure Reflects (directory : Text) (s : Controller) (history : List Telemetry) : Prop where
  running : s.pc = .polling ↔ ∀ t ∈ history, Continues directory t
  factor : s.watermarkScaleFactor = factorOf (readings directory history)
  log : s.log = (moments (readings directory history)).map
    (fun x => updateKernelWatermarkScaleFactor (factorOf (x.1 ++ [x.2])))

section Steps

variable {directory : Text} {s : Controller} {history : List Telemetry}

theorem readings_stopped (h : ¬∀ t ∈ history, Continues directory t) (t : Telemetry) :
    readings directory (history ++ [t]) = readings directory history := by
  have hSame : (history ++ [t]).takeWhile (fun t => Continues directory t) =
      history.takeWhile (fun t => Continues directory t) := by
    rw [List.takeWhile_append, if_neg]
    intro hLength
    have hAll := List.takeWhile_prefix (fun t => decide (Continues directory t)) (l := history)
    have hEq := hAll.eq_of_length hLength
    rw [List.takeWhile_eq_self_iff] at hEq
    exact h (fun t ht => of_decide_eq_true (hEq t ht))
  rw [readings, hSame]
  rfl

theorem readings_running (h : ∀ t ∈ history, Continues directory t) (t : Telemetry) :
    readings directory (history ++ [t]) = readings directory history ++
      if Continues directory t then
        ((reading directory t).map (fun counts => (t, counts))).toList
      else [] := by
  have hAll : ∀ t ∈ history, decide (Continues directory t) = true :=
    fun t ht => decide_eq_true (h t ht)
  rw [readings, List.takeWhile_append_of_pos hAll, List.filterMap_append, readings,
    List.takeWhile_eq_self_iff.mpr hAll]
  congr 1
  by_cases hLast : Continues directory t
  · rw [List.takeWhile_cons_of_pos (by simpa using hLast), List.takeWhile_nil, if_pos hLast]
    cases hRead : reading directory t with
    | none => simp [hRead]
    | some counts => simp [hRead]
  · rw [List.takeWhile_cons_of_neg (by simpa using hLast), if_neg hLast]
    rfl

theorem Reflects.stopped (h : Reflects directory s history) (hStopped : s.pc ≠ .polling)
    (t : Telemetry) : Reflects directory (processLogs directory s t) (history ++ [t]) := by
  have hEnded := h.running.not.mp hStopped
  have hReadings := readings_stopped hEnded t
  have hSame : processLogs directory s t = s := by rw [processLogs, if_pos hStopped]
  rw [hSame]
  refine ⟨iff_of_false hStopped ?_, by rw [hReadings, h.factor], by rw [hReadings, h.log]⟩
  intro hAll
  exact hEnded (fun t ht => hAll t (List.mem_append_left _ ht))

theorem Reflects.running_step (h : Reflects directory s history) (hPolling : s.pc = .polling)
    (t : Telemetry) : Reflects directory (processLogs directory s t) (history ++ [t]) := by
  have hBefore := h.running.mp hPolling
  have hReadings := readings_running hBefore t
  have hAll : (∀ u ∈ history ++ [t], Continues directory u) ↔ Continues directory t := by
    rw [List.forall_mem_append, List.forall_mem_singleton]
    exact and_iff_right hBefore
  obtain ⟨counts, hRead, hNe, hNext, hStep⟩ | ⟨hRead, pc, hPc, hStep⟩ :=
    processLogs_cases directory hPolling t
  · rw [hRead, if_pos hNext] at hReadings
    have hFactor : nextFactor t.freePages t.totalPages (workingSetSplit counts)
        s.watermarkScaleFactor = factorOf (readings directory (history ++ [t])) := by
      rw [hReadings, h.factor]
      exact (nextFactor_of_reading (t, counts) _).trans (factorOf_concat _ _).symm
    rw [hStep, adjust]
    refine ⟨iff_of_true hPolling (hAll.mpr hNext), hFactor, ?_⟩
    simp only [hFactor, h.log, hReadings]
    change _ = (moments (readings directory history ++ [(t, counts)])).map _
    rw [moments_concat, List.map_append]
    rfl
  · have hSame : readings directory (history ++ [t]) = readings directory history := by
      rw [hReadings, hRead, Option.map_none, Option.toList_none, ite_self, List.append_nil]
    rw [hStep]
    exact ⟨hPc.trans hAll.symm, by rw [hSame]; exact h.factor, by rw [hSame]; exact h.log⟩

end Steps

theorem reflects_run (directory : Text) (history : List Telemetry) :
    Reflects directory (run directory history) history := by
  induction history using List.reverseRecOn with
  | nil => exact ⟨iff_of_true rfl nofun, rfl, rfl⟩
  | append_singleton history t ih =>
    have hStep : run directory (history ++ [t]) =
        processLogs directory (run directory history) t := by
      rw [run, List.foldl_append]
      rfl
    rw [hStep]
    by_cases hPolling : (run directory history).pc = .polling
    · exact ih.running_step hPolling t
    · exact ih.stopped hPolling t

theorem factorOf_range (rs : List (Telemetry × List Int)) :
    10 ≤ factorOf rs ∧ factorOf rs ≤ 1000 := by
  induction rs using List.reverseRecOn with
  | nil => exact ⟨le_rfl, by decide⟩
  | append_singleton rs r ih =>
    rw [factorOf_concat]
    split
    · rename_i hIn
      obtain ⟨hLow, hHigh⟩ := hIn.bounds
      obtain ⟨hTen, hThousand⟩ := maxScaleFactor_range r.1.freePages r.1.totalPages
      rw [hIn.readingFactor_eq]
      exact ⟨ten_le_bucketFactor hTen hLow, (bucketFactor_le hTen hHigh).trans hThousand⟩
    · exact ih

theorem log_run (directory : Text) (history : List Telemetry) :
    (run directory history).log =
      (moments (readings directory history)).map (fun x => factorOf (x.1 ++ [x.2])) := by
  rw [(reflects_run directory history).log]
  refine List.map_congr_left ?_
  intro x _
  obtain ⟨hLow, hHigh⟩ := factorOf_range (x.1 ++ [x.2])
  exact updateKernelWatermarkScaleFactor_eq hLow hHigh

/-- In every run each reading logs the factor of the last reading so far with a split in a
bucket, or 10; all logged factors lie between 10 and 1000, so the clamp never acts. -/
theorem log_of_run (directory : Text) (history : List Telemetry) :
    let rs := readings directory history
    (run directory history).log = (moments rs).map (fun x => factorOf (x.1 ++ [x.2])) ∧
    (run directory history).watermarkScaleFactor = factorOf rs ∧
    ((run directory history).pc = .polling ↔ ∀ t ∈ history, Continues directory t) ∧
    ∀ factor ∈ (run directory history).log, 10 ≤ factor ∧ factor ≤ 1000 := by
  intro rs
  have h := reflects_run directory history
  refine ⟨log_run directory history, h.factor, h.running, ?_⟩
  rw [log_run]
  intro factor hFactor
  obtain ⟨x, _, rfl⟩ := List.mem_map.mp hFactor
  exact factorOf_range (x.1 ++ [x.2])

end Ebacs.TelWsf
