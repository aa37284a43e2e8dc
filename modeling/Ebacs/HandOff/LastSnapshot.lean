import Ebacs.HandOff.Safety
import Ebacs.TelWsf.Controller

/-! # The last snapshot of the telemetry

`process_logs` of `tel_wsf.py` stops when the second newest snapshot has a
name with `time_60` in it. The reader takes its own time between two polls,
so it may find a later snapshot there without having found that one.
-/
namespace Ebacs.HandOff
open Lib PageAccess Snapshot Avgscale
set_option autoImplicit false

/-- A factor was computed from this file and logged; a file without counts is skipped. -/
def LoggedFrom (s : System) (currentFile : Text) : Prop :=
  ∃ accessCounts, (currentFile, accessCounts) ∈ s.tel.reads ∧ accessCounts ≠ []

/-- An iteration of `process_logs` logs a factor exactly when it reads a file with counts. -/
theorem processLogs_logs_iff (directory : Text) {c : TelWsf.Controller} (hPolling : c.pc = .polling)
    {t : TelWsf.Telemetry} (hTotal : t.totalPages ≠ 0) :
    (TelWsf.processLogs directory c t).log ≠ c.log ↔
      ∃ currentFile accessCounts, accessCounts ≠ [] ∧
        (telRead directory t.files ⟨pickFile directory t.listdir, []⟩).reads =
          [(currentFile, accessCounts)] := by
  rw [TelWsf.processLogs, if_neg (not_not_intro hPolling), if_neg hTotal]
  cases pickFile directory t.listdir with
  | polling => simp [telRead]
  | returned => simp [telRead]
  | raised => simp [telRead]
  | picked currentFile =>
    simp only [telRead]
    split
    · simp
    · cases (openFile directory t.files currentFile).bind readAccessCounts with
      | none => simp
      | some accessCounts =>
        cases accessCounts with
        | nil => simp
        | cons count accessCounts => simp [TelWsf.adjust]

/-- The second newest file when a poll finds this many files is one of the first 60, or the
reader stops on its name: its number begins with the digits 60. -/
def InTime (snapshots : Nat) : Prop :=
  snapshots < 62 ∨ ['6', '0'] <+: Nat.toDigits 10 (snapshots - 2)

instance (snapshots : Nat) : Decidable (InTime snapshots) :=
  inferInstanceAs (Decidable (_ ∨ _))

def PollsInTime (s : System) : Act → Prop
  | .telList totalPages listdir =>
    s.tel.pc = .polling → totalPages ≠ 0 → listdir.Perm s.files.keys → InTime s.snapshots
  | _ => True

instance (s : System) : DecidablePred (PollsInTime s)
  | .writer _ => .isTrue trivial
  | .telList totalPages listdir =>
    inferInstanceAs (Decidable (s.tel.pc = .polling → totalPages ≠ 0 →
      listdir.Perm s.files.keys → InTime s.snapshots))
  | .telRead => .isTrue trivial
  | .avgscaleList _ _ => .isTrue trivial
  | .avgscaleRead => .isTrue trivial

theorem filePath_injective (directory : Text) : Function.Injective (filePath directory) := by
  intro a b h
  have hName := resolve_filePath directory a
  rw [h, resolve_filePath] at hName
  exact (fileName_injective (Option.some.inj hName)).symm

theorem time60_infix_fileName {n : Nat} :
    time60 <:+: fileName n ↔ ['6', '0'] <+: Nat.toDigits 10 n := by
  constructor
  · rintro ⟨before, after, h⟩
    have hDigits : 't' ∉ "ime_".toList ++ Nat.toDigits 10 n := by
      rw [List.mem_append]
      rintro (ht | ht)
      · exact absurd ht (by decide)
      · exact absurd (Nat.isDigit_of_mem_toDigits (by decide) (by decide) ht) (by decide)
    have hCons : before ++ time60 ++ after = 't' :: ("ime_".toList ++ Nat.toDigits 10 n) := h
    cases before with
    | nil =>
      have hRest : time ++ (['6', '0'] ++ after) = time ++ Nat.toDigits 10 n := h
      exact ⟨after, List.append_cancel_left hRest⟩
    | cons c before =>
      rw [List.cons_append, List.cons_append, List.cons.injEq] at hCons
      refine absurd ?_ hDigits
      rw [← hCons.2]
      exact List.mem_append_left _ (List.mem_append_right _ (by decide))
  · rintro ⟨after, hAfter⟩
    refine ⟨[], after, ?_⟩
    rw [fileName, ← hAfter]
    rfl

theorem time60_infix_filePath {directory : Text} (hPath : ¬time60 <:+: directory) {n : Nat} :
    time60 <:+: filePath directory n ↔ ['6', '0'] <+: Nat.toDigits 10 n := by
  have hSlash : '/' ∉ time60 := by decide
  have hJoin : directory = [] ∧ filePath directory n = fileName n ∨
      ∃ parent, (parent = directory ∨ parent ++ ['/'] = directory) ∧
        filePath directory n = parent ++ '/' :: fileName n := by
    have hHead : ([] : Text).head? ≠ some '/' := by decide
    rw [filePath, osPathJoin_fileName, osPathJoin, if_neg hHead]
    split
    · rename_i hEnds
      rcases hEnds with rfl | hLast
      · exact Or.inl ⟨rfl, rfl⟩
      · obtain ⟨parent, rfl⟩ := List.getLast?_eq_some_iff.mp hLast
        exact Or.inr ⟨parent, Or.inr rfl, by simp⟩
    · exact Or.inr ⟨directory, Or.inl rfl, by simp⟩
  rcases hJoin with ⟨_, hEq⟩ | ⟨parent, hParent, hEq⟩
  · rw [hEq, time60_infix_fileName]
  · have hNot : ¬time60 <:+: parent := by
      rcases hParent with rfl | rfl
      · exact hPath
      · exact fun h => hPath (h.trans (List.prefix_append _ _).isInfix)
    rw [hEq, infix_append_cons_iff hSlash, time60_infix_fileName, or_iff_right hNot]

/-- The system before the writer gave up on a name that does not fit its buffer. -/
def System.beforeExit (s : System) : System :=
  if s.writer.pc = .exited .bufferTooSmall then s.setPc .loop else s

/-- The writer has a name for the next file, or the file. -/
def WriterPc.busy : WriterPc → Bool
  | .loop => false
  | .exited _ => false
  | _ => true

/-- The writer invariant for runs of any length. The counter has 31 bits, and the name of the
first number that it cannot hold is too long. -/
structure Limited (s : System) : Prop where
  written : Written s.beforeExit
  le : s.finished.length ≤ 2 ^ 31
  lt : s.writer.pc.busy = true → s.finished.length < 2 ^ 31

section Limit

variable {s : System}

theorem beforeExit_of_ne (h : s.writer.pc ≠ .exited .bufferTooSmall) : s.beforeExit = s :=
  if_neg h

theorem beforeExit_files (s : System) : s.beforeExit.files = s.files := by
  rw [System.beforeExit]
  split <;> rfl

theorem beforeExit_finished (s : System) : s.beforeExit.finished = s.finished := by
  rw [System.beforeExit]
  split <;> rfl

theorem beforeExit_snapshots (s : System) : s.beforeExit.snapshots = s.snapshots := by
  rw [System.beforeExit]
  split
  · rename_i hExit
    rw [System.snapshots, System.snapshots, hExit]
    rfl
  · rfl

theorem Limited.of_written (h : Written s) (hLe : s.finished.length ≤ 2 ^ 31)
    (hLt : s.writer.pc.busy = true → s.finished.length < 2 ^ 31) : Limited s :=
  ⟨by rwa [beforeExit_of_ne h.fits], hLe, hLt⟩

theorem concatenate_path_limit :
    concatenateStringAndInteger path (Int32.ofNat (2 ^ 31)) 30 = none := by decide

theorem Limited.written_of_ne (h : Limited s) (hExit : s.writer.pc ≠ .exited .bufferTooSmall) :
    Written s := by
  have hBefore := h.written
  rwa [beforeExit_of_ne hExit] at hBefore

theorem Limited.name (h : Limited s) : Limited (writerStep s .name) := by
  obtain ⟨files, ⟨pc, i, stop, buffer⟩, printed, finished, tel, avgscale⟩ := s
  cases pc with
  | loop =>
    have hWritten := h.written_of_ne WriterPc.noConfusion
    have hi : i = Int32.ofNat finished.length := hWritten.counter
    cases stop with
    | true =>
      refine Limited.of_written ⟨hWritten.names, hWritten.contents, hi, ?_, ?_, ?_⟩ h.le ?_
      · rintro result ⟨⟩
      · rintro file ⟨⟩
      · rintro ⟨⟩
      · rintro ⟨⟩
    | false =>
      rcases Nat.lt_or_ge finished.length (2 ^ 31) with hLt | hGe
      · have hNext := hWritten.name hLt
        simp only [writerStep, hi, concatenate_path hLt] at hNext ⊢
        exact Limited.of_written hNext h.le (fun _ => hLt)
      · have hLength : finished.length = 2 ^ 31 := le_antisymm h.le hGe
        rw [hLength] at hi
        simp only [writerStep, hi, concatenate_path_limit]
        refine ⟨?_, h.le, ?_⟩
        · rw [← hi]
          exact hWritten
        · rintro ⟨⟩
  | named result => exact h
  | dumping file => exact h
  | sleeping file => exact h
  | closing file => exact h
  | exited cause => exact h

theorem writerStep_exited {cause : Exit} (hPc : s.writer.pc = .exited cause) {a : WriterAct}
    (ha : a ≠ .sigInt) : writerStep s a = s := by
  cases a with
  | sigInt => exact absurd rfl ha
  | name => simp only [writerStep, hPc]
  | fopen succeeds => simp only [writerStep, hPc]
  | fprintf nextKey value => simp only [writerStep, hPc]
  | flush n => simp only [writerStep, hPc, WriterPc.file]
  | usleep => simp only [writerStep, hPc]
  | increment => simp only [writerStep, hPc]
  | fclose => simp only [writerStep, hPc]

theorem Limited.sigInt (h : Limited s) : Limited (writerStep s .sigInt) := by
  refine ⟨?_, h.le, h.lt⟩
  have hStop := h.written.sigInt
  rw [System.beforeExit] at hStop ⊢
  change Written (if s.writer.pc = .exited .bufferTooSmall then _ else _)
  split at hStop
  · rename_i hExit
    rw [if_pos hExit]
    exact hStop
  · rename_i hExit
    rw [if_neg hExit]
    exact hStop

/-- Files are only closed after they have been named. -/
theorem length_writerStep (a : WriterAct) (hName : a ≠ .name)
    (hLe : s.finished.length ≤ 2 ^ 31)
    (hLt : s.writer.pc.busy = true → s.finished.length < 2 ^ 31) :
    (writerStep s a).finished.length ≤ 2 ^ 31 ∧
    ((writerStep s a).writer.pc.busy = true → (writerStep s a).finished.length < 2 ^ 31) := by
  obtain ⟨files, ⟨pc, i, stop, buffer⟩, printed, finished, tel, avgscale⟩ := s
  cases a with
  | sigInt => exact ⟨hLe, hLt⟩
  | name => exact absurd rfl hName
  | fopen succeeds =>
    rw [writerStep]
    split
    · rename_i result hPc
      obtain rfl : pc = .named result := hPc
      split
      · exact ⟨hLe, fun _ => hLt rfl⟩
      · refine ⟨hLe, ?_⟩
        rintro ⟨⟩
    · exact ⟨hLe, hLt⟩
  | fprintf nextKey value => cases pc <;> exact ⟨hLe, hLt⟩
  | flush n => cases pc <;> exact ⟨hLe, hLt⟩
  | usleep => cases pc <;> exact ⟨hLe, hLt⟩
  | increment => cases pc <;> exact ⟨hLe, hLt⟩
  | fclose =>
    cases pc with
    | closing file =>
      constructor
      · have hLength := hLt rfl
        change (finished ++ [printed]).length ≤ 2 ^ 31
        rw [List.length_append]
        exact hLength
      · rintro ⟨⟩
    | loop => exact ⟨hLe, hLt⟩
    | named result => exact ⟨hLe, hLt⟩
    | dumping file => exact ⟨hLe, hLt⟩
    | sleeping file => exact ⟨hLe, hLt⟩
    | exited cause => exact ⟨hLe, hLt⟩

theorem Limited.writerStep (h : Limited s) (a : WriterAct) :
    Limited (HandOff.writerStep s a) := by
  rcases eq_or_ne s.writer.pc (.exited .bufferTooSmall) with hExit | hExit
  · rcases eq_or_ne a .sigInt with rfl | ha
    · exact h.sigInt
    · rw [writerStep_exited hExit ha]
      exact h
  · rcases eq_or_ne a .name with rfl | ha
    · exact h.name
    · obtain ⟨hLe, hLt⟩ := length_writerStep a ha h.le h.lt
      exact Limited.of_written ((h.written_of_ne hExit).step_of_ne_name ha) hLe hLt

theorem Limited.readers (h : Limited s) (tel : TelWsf) (avgscale : GetAvgscale) :
    Limited { s with tel := tel, avgscale := avgscale } := by
  refine ⟨?_, h.le, h.lt⟩
  have hWritten := h.written
  rw [System.beforeExit] at hWritten ⊢
  change Written (if s.writer.pc = .exited .bufferTooSmall then _ else _)
  split at hWritten
  · rename_i hExit
    rw [if_pos hExit]
    exact ⟨hWritten.names, hWritten.contents, hWritten.counter, hWritten.named, hWritten.streams,
      hWritten.fits⟩
  · rename_i hExit
    rw [if_neg hExit]
    exact ⟨hWritten.names, hWritten.contents, hWritten.counter, hWritten.named, hWritten.streams,
      hWritten.fits⟩

theorem Limited.pickFile (h : Limited s) (directory : Text) {listdir : List Text}
    (hList : listdir.Perm s.files.keys) :
    HandOff.pickFile directory listdir =
      if s.snapshots < 2 then .polling else .picked (filePath directory (s.snapshots - 2)) := by
  rw [← beforeExit_files] at hList
  rw [← beforeExit_snapshots]
  exact pickFile_eq h.written hList

theorem Limited.openFile (h : Limited s) (directory : Text) {k : Nat}
    {entries : List (PageKey × Metric)} (hk : s.finished[k]? = some entries) :
    HandOff.openFile directory s.files (filePath directory k) = some (snapshotText entries) := by
  rw [← beforeExit_finished] at hk
  rw [← beforeExit_files]
  exact openFile_finished directory h.written hk

theorem Limited.step (h : Limited s) (directory : Text) (a : Act) :
    Limited (HandOff.step directory s a) := by
  cases a with
  | writer a => exact h.writerStep a
  | telList totalPages listdir =>
    rw [HandOff.step]
    split_ifs
    · exact h
    · exact h.readers _ _
    · exact h.readers _ _
    · exact h
  | telRead => exact h.readers _ _
  | avgscaleList trackedPids listdir =>
    rw [HandOff.step]
    split_ifs
    · exact h
    · exact h
    · exact h.readers _ _
    · exact h
  | avgscaleRead => exact h.readers _ _

theorem limited_init {files : Directory} (hNew : ∀ f ∈ files.keys, isLog f = false) :
    Limited (System.init files) :=
  Limited.of_written (@safe_init [] files hNew).written (Nat.zero_le _) nofun

theorem limited_run {files : Directory} (hNew : ∀ f ∈ files.keys, isLog f = false)
    (directory : Text) (acts : List Act) : Limited (run directory files acts) :=
  foldl_invariant Limited (fun _ _ => True) (fun _ a _ h => h.step directory a) acts
    (limited_init hNew) (fun _ _ => trivial)

end Limit

/-- Only the first 60 snapshots have been read, and no other one is about to be. -/
structure Ends (directory : Text) (r : TelWsf) : Prop where
  reads : ∀ read ∈ r.reads, ∃ k < 60, read.1 = filePath directory k
  picked : ∀ file, r.pc = .picked file →
    (∃ k < 60, file = filePath directory k) ∨ time60 <:+: file

section Run

variable {directory : Text} {s : System}

theorem Ends.leave {r : TelWsf} (h : Ends directory r) {pc : ReaderPc}
    (hPc : ∀ file, pc ≠ .picked file) : Ends directory { r with pc := pc } :=
  ⟨h.reads, fun file hFile => absurd hFile (hPc file)⟩

theorem Ends.telList (h : Ends directory s.tel) (hLimited : Limited s) {totalPages : Nat}
    {listdir : List Text} (hPolls : PollsInTime s (.telList totalPages listdir)) :
    Ends directory (step directory s (.telList totalPages listdir)).tel := by
  rw [step]
  split_ifs with hPolling hTotal hList
  · exact h
  · exact h.leave (by rintro file ⟨⟩)
  · rw [hLimited.pickFile directory hList]
    split
    · exact h.leave (by rintro file ⟨⟩)
    · refine ⟨h.reads, ?_⟩
      intro file hFile
      obtain rfl : filePath directory (s.snapshots - 2) = file := ReaderPc.picked.inj hFile
      rcases hPolls (not_not.mp hPolling) hTotal hList with hFew | hDigits
      · exact Or.inl ⟨s.snapshots - 2, by omega, rfl⟩
      · right
        rw [filePath, osPathJoin_fileName]
        exact (time60_infix_fileName.mpr hDigits).trans (List.suffix_append _ _).isInfix
  · exact h

theorem Ends.telRead {r : TelWsf} (h : Ends directory r) (files : Directory) :
    Ends directory (HandOff.telRead directory files r) := by
  cases hPc : r.pc with
  | picked currentFile =>
    simp only [HandOff.telRead, hPc]
    split
    · exact h.leave (by rintro file ⟨⟩)
    · rename_i hName
      obtain ⟨k, hk, rfl⟩ := (h.picked currentFile hPc).resolve_right hName
      split
      · constructor
        · intro read hRead
          rcases List.mem_append.mp hRead with hRead | hRead
          · exact h.reads read hRead
          · rw [List.mem_singleton.mp hRead]
            exact ⟨k, hk, rfl⟩
        · rintro file ⟨⟩
      · exact h.leave (by rintro file ⟨⟩)
  | polling => simpa only [HandOff.telRead, hPc] using h
  | returned => simpa only [HandOff.telRead, hPc] using h
  | raised => simpa only [HandOff.telRead, hPc] using h

theorem Ends.step (h : Ends directory s.tel) (hLimited : Limited s) {a : Act}
    (hPolls : PollsInTime s a) : Ends directory (HandOff.step directory s a).tel := by
  cases a with
  | writer a =>
    rw [HandOff.step, (grows_writerStep s a).tel]
    exact h
  | telList totalPages listdir => exact h.telList hLimited hPolls
  | telRead => exact h.telRead s.files
  | avgscaleList trackedPids listdir =>
    rw [HandOff.step]
    split_ifs <;> exact h
  | avgscaleRead => exact h

theorem ends_run {files : Directory} (hNew : ∀ f ∈ files.keys, isLog f = false) (acts : List Act)
    (hPolls : ∀ x ∈ trace (HandOff.step directory) (System.init files) acts,
      PollsInTime x.1 x.2) : Ends directory (run directory files acts).tel := by
  have hBoth := foldl_invariant (fun s => Limited s ∧ Ends directory s.tel) PollsInTime
    (fun s a hOk h => ⟨h.1.step directory a, h.2.step h.1 hOk⟩) acts
    ⟨limited_init hNew, ⟨nofun, nofun⟩⟩ hPolls
  exact hBoth.2

theorem telRead_picked {files : Directory} {r : TelWsf} {currentFile : Text}
    (hPc : r.pc = .picked currentFile) (hName : ¬time60 <:+: currentFile) {content : Text}
    (hOpen : openFile directory files currentFile = some content) {accessCounts : List Int}
    (hRead : readAccessCounts content = some accessCounts) :
    HandOff.telRead directory files r =
      ⟨.polling, r.reads ++ [(currentFile, accessCounts)]⟩ := by
  simp only [HandOff.telRead, hPc, if_neg hName, hOpen, Option.bind_some, hRead]

/-- A poll that comes too late is followed by a read of a snapshot after the sixtieth. -/
theorem late_poll_logs {files : Directory} (hNew : ∀ f ∈ files.keys, isLog f = false)
    (hPath : ¬time60 <:+: directory) {acts : List Act} {totalPages : Nat} {listdir : List Text}
    (hs : s = run directory files acts) (hLate : ¬PollsInTime s (.telList totalPages listdir))
    {entries : List (PageKey × Metric)} (hEntries : s.finished[s.snapshots - 2]? = some entries)
    (hCount : ∃ e ∈ entries, writtenCount e.2 < 1000) :
    62 ≤ s.snapshots ∧
    LoggedFrom (run directory files (acts ++ [.telList totalPages listdir, .telRead]))
      (filePath directory (s.snapshots - 2)) := by
  have hLimited : Limited s := hs ▸ limited_run hNew directory acts
  simp only [PollsInTime, InTime, Classical.not_imp, not_or, not_lt] at hLate
  obtain ⟨hPolling, hTotal, hList, hMany, hDigits⟩ := hLate
  refine ⟨hMany, (entries.map (fun e => writtenCount e.2)).filter (· < 1000), ?_, ?_⟩
  · have hPicked : HandOff.step directory s (.telList totalPages listdir) =
        { s with tel := { s.tel with pc := .picked (filePath directory (s.snapshots - 2)) } } := by
      rw [HandOff.step, if_neg (not_not_intro hPolling), if_neg hTotal, if_pos hList,
        hLimited.pickFile directory hList, if_neg (by omega)]
    have hRead := @telRead_picked directory s.files
      { s.tel with pc := .picked (filePath directory (s.snapshots - 2)) } _ rfl
      ((time60_infix_filePath hPath).not.mpr hDigits) _ (hLimited.openFile directory hEntries)
      _ (readAccessCounts_snapshotText entries)
    rw [List.append_cons, run_concat, run_concat, ← hs, hPicked, HandOff.step, hRead]
    exact List.mem_append_right _ (List.mem_singleton_self _)
  · obtain ⟨e, he, hLow⟩ := hCount
    exact List.ne_nil_of_mem (List.mem_filter.mpr ⟨List.mem_map_of_mem he, decide_eq_true hLow⟩)

end Run

/-- A run logs factors of the first 60 snapshots only, if every poll finds one of these or
snapshot 60. A poll that finds a later one, as it may after that one was missed, logs a factor
of it as soon as the snapshot has counts. -/
theorem telemetry_ends_when_polled_in_time (directory : Text) (files : Directory)
    (hNew : ∀ f ∈ files.keys, isLog f = false) (hPath : ¬time60 <:+: directory)
    (acts : List Act) :
    ((∀ x ∈ trace (step directory) (System.init files) acts, PollsInTime x.1 x.2) →
      ∀ k, LoggedFrom (run directory files acts) (filePath directory k) → k < 60) ∧
    ∀ totalPages listdir, ¬PollsInTime (run directory files acts) (.telList totalPages listdir) →
      (∃ entries, (run directory files acts).finished[(run directory files acts).snapshots - 2]? =
        some entries ∧ ∃ e ∈ entries, writtenCount e.2 < 1000) →
      ∃ k, 60 ≤ k ∧
        LoggedFrom (run directory files (acts ++ [.telList totalPages listdir, .telRead]))
          (filePath directory k) := by
  constructor
  · rintro hPolls k ⟨accessCounts, hRead, _⟩
    obtain ⟨j, hj, hFile⟩ := (ends_run hNew acts hPolls).reads _ hRead
    rw [filePath_injective directory hFile]
    exact hj
  · rintro totalPages listdir hLate ⟨entries, hEntries, hCount⟩
    obtain ⟨hMany, hLogged⟩ := late_poll_logs hNew hPath rfl hLate hEntries hCount
    exact ⟨_, by omega, hLogged⟩

def writeSnapshots (n : Nat) : List Act := (List.replicate n (writeSnapshot ⟨5, 1, 1, 7⟩)).flatten

def pollAt (n : Nat) : List Act := [.telList 1 ((List.range n).map fileName).reverse, .telRead]

theorem telemetry_of_twoSnapshots :
    LoggedFrom (run lruMetrics ∅ (writeSnapshots 2 ++ pollAt 2)) (filePath lruMetrics 0) ∧
    ∀ k, LoggedFrom (run lruMetrics ∅ (writeSnapshots 2 ++ pollAt 2)) (filePath lruMetrics k) →
      k < 60 := by
  constructor
  · exact ⟨[5], by decide +kernel, by decide⟩
  · exact (telemetry_ends_when_polled_in_time lruMetrics ∅ nofun (by decide)
      (writeSnapshots 2 ++ pollAt 2)).1 (by decide +kernel)

/-- The reader polls when snapshot 0 is the second newest, and then not before snapshot 61 is. -/
def slowReader : List Act := writeSnapshots 2 ++ pollAt 2 ++ writeSnapshots 61

theorem telemetry_misses_snapshot60 :
    ¬(∀ (directory : Text) (files : Directory) (acts : List Act),
      (∀ f ∈ files.keys, isLog f = false) → ¬time60 <:+: directory →
      ∀ k, LoggedFrom (run directory files acts) (filePath directory k) → k < 60) := by
  intro h
  have hNew : ∀ f ∈ (∅ : Directory).keys, isLog f = false := by decide
  have hPath : ¬time60 <:+: lruMetrics := by decide
  have hPolling : (run lruMetrics ∅ slowReader).tel.pc = .polling := by decide +kernel
  have hSnapshots : (run lruMetrics ∅ slowReader).snapshots = 63 := by decide +kernel
  have hLast : (run lruMetrics ∅ slowReader).finished[
      (run lruMetrics ∅ slowReader).snapshots - 2]? =
        some [(⟨0xffff888012340170, 0⟩, ⟨5, 1, 1, 7⟩)] := by
    rw [hSnapshots]
    decide +kernel
  have hLate : ¬PollsInTime (run lruMetrics ∅ slowReader)
      (.telList 1 (run lruMetrics ∅ slowReader).files.keys) := by
    intro hInTime
    have hFound := hInTime hPolling Nat.one_ne_zero (List.Perm.refl _)
    rw [hSnapshots] at hFound
    exact absurd hFound (by decide)
  obtain ⟨_, hLogged⟩ := late_poll_logs hNew hPath rfl hLate hLast
    ⟨_, List.mem_singleton_self _, by decide⟩
  rw [hSnapshots] at hLogged
  exact absurd (h _ _ _ hNew hPath _ hLogged) (by decide)

end Ebacs.HandOff
