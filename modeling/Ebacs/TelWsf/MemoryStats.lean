import Mathlib.Data.List.AList
import Ebacs.TelWsf.Runs

/-! # The controller on the text of `/proc/meminfo`

`get_memory_stats` splits every line at its colon and takes the first word behind
it. Only three hundredths of the available memory count as free, so that the used
memory is never below 95 percent and the largest factor never below 406.
-/
namespace Ebacs.TelWsf
open Lib
open HandOff (Directory lruMetrics)
set_option autoImplicit false

abbrev MemInfo := AList (fun _ : Text => Int)

/-- What a line adds; `none` is an exception that nothing catches. -/
def readMemInfo (memInfo : MemInfo) (line : Text) : Option MemInfo :=
  match line.splitOn ':' with
  | [key, value] => do
    let first ← (words value).head?
    let kb ← int? first
    some (memInfo.insert (strip key) kb)
  | _ => none

def memTotal : Text := "MemTotal".toList

def memAvailable : Text := "MemAvailable".toList

/-- The file may be missing. -/
def getMemoryStats : Option Text → Option (Int × Int)
  | none => some (0, 0)
  | some meminfo => do
    let memInfo ← (fileLines meminfo).foldlM readMemInfo ∅
    let totalMemoryKb := (memInfo.lookup memTotal).getD 0
    let freeMemoryKb := (memInfo.lookup memAvailable).getD 0
    some (freeMemoryKb / 4, totalMemoryKb / 4)

/-- What an iteration finds before it has read anything. -/
structure Iteration where
  meminfo : Option Text
  listdir : List Text
  files : Directory

def iterate (directory : Text) (s : Controller) (i : Iteration) : Controller :=
  if s.pc ≠ .polling then s
  else match getMemoryStats i.meminfo with
    | some (freePages, totalPages) =>
      processLogs directory s ⟨freePages.toNat, totalPages.toNat, i.listdir, i.files⟩
    | none => { s with pc := .raised }

/-- A line as the kernel writes it: the name, blanks, a number, and a unit or none. -/
structure MemEntry where
  name : Text
  pad : Nat
  value : Nat
  unit : Bool
  isWord : IsWord name
  no_colon : ':' ∉ name

def MemEntry.tail (e : MemEntry) : Text := if e.unit then " kB".toList else []

def MemEntry.text (e : MemEntry) : Text :=
  e.name ++ ':' :: (List.replicate e.pad ' ' ++ (decimal e.value ++ e.tail))

def meminfoText (entries : List MemEntry) : Text := unlines '\n' (entries.map MemEntry.text)

def valueOf (key : Text) (entries : List MemEntry) : Nat :=
  ((entries.filter (fun e => e.name = key)).getLast?.map MemEntry.value).getD 0

section Parsing

theorem words_blanks (n : Nat) (t : Text) : words (List.replicate n ' ' ++ t) = words t := by
  induction n with
  | zero => rfl
  | succ n ih =>
    rw [List.replicate_succ, List.cons_append, ← ih]
    rfl

theorem head_words (e : MemEntry) :
    (words (List.replicate e.pad ' ' ++ (decimal e.value ++ e.tail) ++ ['\n'])).head? =
      some (decimal e.value) := by
  rw [List.append_assoc, words_blanks, List.append_assoc, MemEntry.tail]
  split
  · exact congrArg List.head? (words_cons_word (isWord_decimal _) (by decide) _)
  · exact congrArg List.head? (words_cons_word (isWord_decimal _) (by decide) _)

theorem MemEntry.not_mem_value (e : MemEntry) {c : Char} (hDigit : c.isDigit = false)
    (hc : c ∉ [' ', 'k', 'B']) :
    c ∉ List.replicate e.pad ' ' ++ (decimal e.value ++ e.tail) := by
  intro hMem
  obtain hPad | hMem := List.mem_append.mp hMem
  · exact hc ((List.mem_replicate.mp hPad).2 ▸ List.mem_cons_self)
  · obtain hValue | hTail := List.mem_append.mp hMem
    · have h := Nat.isDigit_of_mem_toDigits (by decide) (by decide) hValue
      rw [hDigit] at h
      cases h
    · rw [MemEntry.tail] at hTail
      split at hTail
      · exact hc hTail
      · cases hTail

theorem MemEntry.no_break (e : MemEntry) : '\n' ∉ e.text := by
  intro hMem
  obtain hName | hMem := List.mem_append.mp hMem
  · have hSpace := e.isWord.no_space _ hName
    cases hSpace
  · obtain hColon | hValue := List.mem_cons.mp hMem
    · cases hColon
    · exact e.not_mem_value (by decide) (by decide) hValue

theorem splitOn_text (e : MemEntry) :
    (e.text ++ ['\n']).splitOn ':' =
      [e.name, List.replicate e.pad ' ' ++ (decimal e.value ++ e.tail) ++ ['\n']] := by
  have hValue : ':' ∉ List.replicate e.pad ' ' ++ (decimal e.value ++ e.tail) ++ ['\n'] := by
    intro hMem
    obtain hMem | hBreak := List.mem_append.mp hMem
    · exact e.not_mem_value (by decide) (by decide) hMem
    · cases List.mem_singleton.mp hBreak
  rw [MemEntry.text, List.append_assoc, List.cons_append, List.splitOn,
    List.splitOnP_append_cons _ _ (by decide), ← List.splitOn, ← List.splitOn,
    List.splitOn_eq_singleton e.no_colon, List.splitOn_eq_singleton hValue]
  rfl

theorem readMemInfo_text (memInfo : MemInfo) (e : MemEntry) :
    readMemInfo memInfo (e.text ++ ['\n']) = some (memInfo.insert e.name (e.value : Int)) := by
  rw [readMemInfo, splitOn_text]
  simp only [head_words, Option.bind_eq_bind, Option.bind_some, int?_decimal, strip_word e.isWord]

theorem foldlM_readMemInfo (entries : List MemEntry) (memInfo : MemInfo) :
    ((entries.map MemEntry.text).map (· ++ ['\n'])).foldlM readMemInfo memInfo =
      some (entries.foldl (fun memInfo e => memInfo.insert e.name (e.value : Int)) memInfo) := by
  induction entries generalizing memInfo with
  | nil => rfl
  | cons e entries ih =>
    rw [List.map_cons, List.map_cons, List.foldlM_cons, readMemInfo_text, List.foldl_cons]
    exact ih _

theorem lookup_entries (entries : List MemEntry) (key : Text) :
    ((entries.foldl (fun memInfo e => memInfo.insert e.name (e.value : Int))
      (∅ : MemInfo)).lookup key).getD 0 = valueOf key entries := by
  induction entries using List.reverseRecOn with
  | nil => rfl
  | append_singleton entries e ih =>
    rw [List.foldl_append, List.foldl_cons, List.foldl_nil, valueOf, List.filter_append]
    obtain rfl | hNe := eq_or_ne e.name key
    · rw [AList.lookup_insert]
      simp
    · rw [AList.lookup_insert_ne hNe.symm, ih, valueOf]
      simp [hNe]

/-- The numbers of the two lines, in pages of four kilobytes, whatever other lines there are. -/
theorem getMemoryStats_text (entries : List MemEntry) :
    getMemoryStats (some (meminfoText entries)) =
      some (((valueOf memAvailable entries / 4 : Nat) : Int),
        ((valueOf memTotal entries / 4 : Nat) : Int)) := by
  have hBodies : Bodies '\n' (entries.map MemEntry.text) := by
    intro body hBody
    obtain ⟨e, _, rfl⟩ := List.mem_map.mp hBody
    exact e.no_break
  rw [getMemoryStats, meminfoText, fileLines_unlines hBodies, foldlM_readMemInfo]
  simp only [Option.bind_eq_bind, Option.bind_some, lookup_entries]
  push_cast
  rfl

end Parsing

/-- Memory as a kernel reports it: at least a page, and not more available than there is. -/
structure Consistent (entries : List MemEntry) : Prop where
  page : 4 ≤ valueOf memTotal entries
  available : valueOf memAvailable entries ≤ valueOf memTotal entries

/-- An iteration that finds these lines in `/proc/meminfo`. -/
structure Reported where
  entries : List MemEntry
  listdir : List Text
  files : Directory

def Reported.iteration (r : Reported) : Iteration := ⟨meminfoText r.entries, r.listdir, r.files⟩

def Reported.telemetry (r : Reported) : Telemetry where
  freePages := valueOf memAvailable r.entries / 4
  totalPages := valueOf memTotal r.entries / 4
  listdir := r.listdir
  files := r.files

theorem iterate_reported (directory : Text) (s : Controller) (r : Reported) :
    iterate directory s r.iteration = processLogs directory s r.telemetry := by
  rw [iterate, Reported.iteration, getMemoryStats_text]
  dsimp only
  rw [Int.toNat_natCast, Int.toNat_natCast]
  split
  · rename_i hStopped
    rw [processLogs, if_pos hStopped]
  · rfl

theorem run_reported (directory : Text) (history : List Reported) :
    (history.map Reported.iteration).foldl (iterate directory) .init =
      run directory (history.map Reported.telemetry) := by
  rw [run, List.foldl_map, List.foldl_map]
  simp only [iterate_reported]

theorem Consistent.maxScaleFactor_ge {r : Reported} (h : Consistent r.entries) :
    406 ≤ maxScaleFactor r.telemetry.freePages r.telemetry.totalPages :=
  TelWsf.maxScaleFactor_ge (Nat.div_pos h.page (by decide)) (Nat.div_le_div_right h.available)

/-- The initial factor up to some reading, and from then on factors from 66 to 1000. -/
def Leaves (factors : List Int) : Prop :=
  ∃ n later, factors = List.replicate n 10 ++ later ∧
    ∀ factor ∈ later, 66 ≤ factor ∧ factor ≤ 1000

section Factors

variable {rs : List (Telemetry × List Int)}

theorem leaves_factors
    (hMax : ∀ r ∈ rs, 406 ≤ maxScaleFactor r.1.freePages r.1.totalPages) :
    ∃ n later, (moments rs).map (fun x => factorOf (x.1 ++ [x.2])) = List.replicate n 10 ++ later ∧
      (∀ factor ∈ later, 66 ≤ factor ∧ factor ≤ 1000) ∧
      (if later = [] then factorOf rs = 10 else 66 ≤ factorOf rs ∧ factorOf rs ≤ 1000) := by
  induction rs using List.reverseRecOn with
  | nil => exact ⟨0, [], rfl, by simp, by simp [factorOf]⟩
  | append_singleton rs r ih =>
    obtain ⟨n, later, hFactors, hLater, hNow⟩ := ih
      (fun r hr => hMax r (List.mem_append_left _ hr))
    have hLast : r ∈ rs ++ [r] := List.mem_append_right _ (List.mem_singleton_self r)
    rw [moments_concat, List.map_append, hFactors, List.map_singleton]
    dsimp only
    by_cases hIn : InSomeBucket r
    · -- the reading sets a factor of its own
      have hFactor : factorOf (rs ++ [r]) = readingFactor r := by rw [factorOf_concat, if_pos hIn]
      have hThousand := (maxScaleFactor_range r.1.freePages r.1.totalPages).2
      have hRange : 66 ≤ readingFactor r ∧ readingFactor r ≤ 1000 := by
        obtain ⟨hLow, hHigh⟩ := hIn.bounds
        rw [hIn.readingFactor_eq]
        exact ⟨le_bucketFactor (hMax r hLast) hLow,
          (bucketFactor_le (by linarith [hMax r hLast]) hHigh).trans hThousand⟩
      refine ⟨n, later ++ [readingFactor r], ?_, ?_, ?_⟩
      · rw [hFactor, List.append_assoc]
      · rw [List.forall_mem_append, List.forall_mem_singleton]
        exact ⟨hLater, hRange⟩
      · rw [if_neg (by simp), hFactor]
        exact hRange
    · have hFactor : factorOf (rs ++ [r]) = factorOf rs := by rw [factorOf_concat, if_neg hIn]
      rw [hFactor]
      split at hNow
      · rename_i hNone
        subst hNone
        refine ⟨n + 1, [], ?_, hLater, ?_⟩
        · rw [hNow, List.append_nil, List.append_nil, List.replicate_succ']
        · rw [if_pos rfl, hNow]
      · refine ⟨n, later ++ [factorOf rs], ?_, ?_, ?_⟩
        · rw [List.append_assoc]
        · rw [List.forall_mem_append, List.forall_mem_singleton]
          exact ⟨hLater, hNow⟩
        · rw [if_neg (by simp)]
          exact hNow

end Factors

theorem reported_of_readings {directory : Text} {history : List Reported}
    {r : Telemetry × List Int} (h : r ∈ readings directory (history.map Reported.telemetry)) :
    ∃ reported ∈ history, r.1 = reported.telemetry := by
  obtain ⟨t, ht, hRead⟩ := List.mem_filterMap.mp h
  obtain ⟨counts, _, rfl⟩ := Option.map_eq_some_iff.mp hRead
  obtain ⟨reported, hMem, rfl⟩ := List.mem_map.mp ((List.takeWhile_prefix _).subset ht)
  exact ⟨reported, hMem, rfl⟩

/-- On texts of `/proc/meminfo` the controller sees the two numbers of the kernel, and however
much memory is free the factors it logs are 10 up to some reading and at least 66 after it. -/
theorem factors_from_meminfo (directory : Text) (history : List Reported)
    (hConsistent : ∀ r ∈ history, Consistent r.entries) :
    let s := (history.map Reported.iteration).foldl (iterate directory) .init
    s = run directory (history.map Reported.telemetry) ∧
    (∀ r ∈ history, 406 ≤ maxScaleFactor r.telemetry.freePages r.telemetry.totalPages) ∧
    Leaves s.log := by
  have hMax : ∀ r ∈ history, 406 ≤ maxScaleFactor r.telemetry.freePages r.telemetry.totalPages :=
    fun r hr => (hConsistent r hr).maxScaleFactor_ge
  refine ⟨run_reported directory history, hMax, ?_⟩
  have hReadings : ∀ r ∈ readings directory (history.map Reported.telemetry),
      406 ≤ maxScaleFactor r.1.freePages r.1.totalPages := by
    intro r hr
    obtain ⟨reported, hMem, hTelemetry⟩ := reported_of_readings hr
    rw [hTelemetry]
    exact hMax reported hMem
  obtain ⟨n, later, hFactors, hLater, _⟩ := leaves_factors hReadings
  rw [run_reported, log_run]
  exact ⟨n, later, hFactors, hLater⟩

theorem isWord_of_all {t : Text} (hNe : t ≠ []) (h : t.all (fun c => !isSpace c) = true) :
    IsWord t := by
  refine ⟨hNe, fun c hc => ?_⟩
  have hc' := List.all_eq_true.mp h c hc
  rwa [Bool.not_eq_true'] at hc'

/-- Nearly all of the memory is available. -/
def idleMachine : Reported where
  entries := [
    ⟨memTotal, 7, 16384, true, isWord_of_all (by decide) (by decide), by decide⟩,
    ⟨memAvailable, 3, 16000, true, isWord_of_all (by decide) (by decide), by decide⟩]
  listdir := (telemetryOf 0 0 skewed).listdir
  files := (telemetryOf 0 0 skewed).files

theorem idleMachine_leaves :
    Consistent idleMachine.entries ∧
    Leaves ((([idleMachine].map Reported.iteration).foldl (iterate lruMetrics) .init).log) := by
  have hConsistent : Consistent idleMachine.entries := ⟨by decide, by decide⟩
  refine ⟨hConsistent, (factors_from_meminfo lruMetrics [idleMachine] ?_).2.2⟩
  intro r hr
  rw [List.mem_singleton.mp hr]
  exact hConsistent

end Ebacs.TelWsf
