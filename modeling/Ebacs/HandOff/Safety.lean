import Ebacs.HandOff.WriterInvariant
import Ebacs.Lib.Trace

/-! # The readers only see finished snapshots

Of the files that a reader finds at most the newest is still being written,
so the second newest is finished when it is picked and stays as it is. The
number of files never falls, hence neither do the indices that are picked.
-/
namespace Ebacs.HandOff
open Lib PageAccess Snapshot Avgscale
set_option autoImplicit false

theorem readCount_dumpLine (accessCounts : List Int) (e : PageKey × Metric) :
    readCount accessCounts (dumpLine e.1 e.2) =
      some (accessCounts ++ [writtenCount e.2].filter (· < 1000)) := by
  rw [readCount, dumpLine,
    words_strip_record (isWord_hex _) (isWord_decimal _) (isWord_decimal _)]
  simp only [int?_decimal]
  change (if writtenCount e.2 < 1000 then some (accessCounts ++ [writtenCount e.2])
    else some accessCounts) = _
  split <;> simp [*]

theorem readAccessCounts_snapshotText (entries : List (PageKey × Metric)) :
    readAccessCounts (snapshotText entries) =
      some ((entries.map (fun e => writtenCount e.2)).filter (· < 1000)) := by
  have hFold : ∀ accessCounts, (entries.map (fun e => dumpLine e.1 e.2)).foldlM readCount
      accessCounts = some (accessCounts ++
        (entries.map (fun e => writtenCount e.2)).filter (· < 1000)) := by
    induction entries with
    | nil => simp
    | cons e entries ih =>
      intro accessCounts
      rw [List.map_cons, List.foldlM_cons, readCount_dumpLine]
      change List.foldlM _ _ _ = _
      rw [ih, List.append_assoc, ← List.filter_append]
      rfl
  rw [readAccessCounts, fileLines_snapshotText]
  exact hFold []

/-- The reader has read the files with the indices `is`, and may have picked one more. -/
structure Reads (directory : Text) (snapshots : Nat) (pc : ReaderPc) (paths : List Text)
    (is : List Nat) : Prop where
  paths_eq : paths = is.map (filePath directory)
  older : ∀ j ∈ is, j + 2 ≤ snapshots
  picked : ∀ file, pc = .picked file →
    ∃ k, k + 2 ≤ snapshots ∧ file = filePath directory k ∧ ∀ j ∈ is, j ≤ k
  running : pc ≠ .raised

section Reader

variable {directory : Text} {s : System} {snapshots : Nat} {pc : ReaderPc} {paths : List Text}
  {is : List Nat}

theorem Reads.mono (h : Reads directory snapshots pc paths is) {snapshots' : Nat}
    (hLe : snapshots ≤ snapshots') : Reads directory snapshots' pc paths is := by
  refine ⟨h.paths_eq, fun j hj => (h.older j hj).trans hLe, ?_, h.running⟩
  intro file hFile
  obtain ⟨k, hk, hRest⟩ := h.picked file hFile
  exact ⟨k, hk.trans hLe, hRest⟩

theorem Reads.leave (h : Reads directory snapshots pc paths is) {pc' : ReaderPc}
    (hPc : pc' = .polling ∨ pc' = .returned) : Reads directory snapshots pc' paths is := by
  rcases hPc with rfl | rfl <;> exact ⟨h.paths_eq, h.older, nofun, nofun⟩

theorem pickFile_eq (hWritten : Written s) {listdir : List Text}
    (hList : listdir.Perm s.files.keys) :
    pickFile directory listdir =
      if s.snapshots < 2 then .polling else .picked (filePath directory (s.snapshots - 2)) := by
  have hLogs : getLogFiles listdir = some ((List.range s.snapshots).map fileName) := by
    apply getLogFiles_eq (hList.nodup_iff.mpr s.files.keys_nodup)
    intro f hLog
    rw [hList.mem_iff, ← AList.mem_keys]
    exact hWritten.names f hLog
  have hLast := secondToLast_range s.snapshots
  rcases Nat.lt_or_ge s.snapshots 2 with hLt | hGe
  · rw [if_pos hLt] at hLast ⊢
    simp only [pickFile, hLogs, hLast]
  · rw [if_neg (by omega)] at hLast ⊢
    simp only [pickFile, hLogs, hLast]
    rfl

theorem Reads.pick (h : Reads directory s.snapshots pc paths is) (hWritten : Written s)
    {listdir : List Text} (hList : listdir.Perm s.files.keys) :
    Reads directory s.snapshots (pickFile directory listdir) paths is := by
  rw [pickFile_eq hWritten hList]
  split
  · exact h.leave (Or.inl rfl)
  · refine ⟨h.paths_eq, h.older, ?_, nofun⟩
    intro file hFile
    refine ⟨s.snapshots - 2, by omega, (ReaderPc.picked.inj hFile).symm, ?_⟩
    intro j hj
    have hOlder := h.older j hj
    omega

theorem Reads.concat (h : Reads directory snapshots pc paths is) {k : Nat}
    (hk : k + 2 ≤ snapshots) :
    Reads directory snapshots .polling (paths ++ [filePath directory k]) (is ++ [k]) := by
  refine ⟨?_, ?_, nofun, nofun⟩
  · rw [h.paths_eq, List.map_append]
    rfl
  · intro j hj
    rcases List.mem_append.mp hj with hj | hj
    · exact h.older j hj
    · rw [List.mem_singleton.mp hj]
      exact hk

theorem finished_of_older {k : Nat} (hk : k + 2 ≤ s.snapshots) :
    ∃ entries, s.finished[k]? = some entries := by
  have hLt : k < s.finished.length := by
    rw [System.snapshots] at hk
    split at hk <;> omega
  exact ⟨s.finished[k], List.getElem?_eq_getElem hLt⟩

theorem openFile_finished (directory : Text) (hWritten : Written s) {k : Nat} {entries : List (PageKey × Metric)}
    (hk : s.finished[k]? = some entries) :
    openFile directory s.files (filePath directory k) = some (snapshotText entries) := by
  rw [openFile, resolve_filePath]
  exact hWritten.contents k entries hk

theorem not_open_of_finished (hWritten : Written s) {k : Nat}
    {entries : List (PageKey × Metric)} (hk : s.finished[k]? = some entries) :
    s.writer.pc.file ≠ some (fileName k) := by
  intro hFile
  have hName := fileName_injective (hWritten.streams _ hFile).file_eq
  have hLt := (List.getElem?_eq_some_iff.mp hk).1
  omega

end Reader

structure Safe (directory : Text) (s : System) : Prop where
  written : Written s
  tel : ∃ is, Reads directory s.snapshots s.tel.pc (s.tel.reads.map Prod.fst) is ∧
    is.Pairwise (· ≤ ·)
  avgscale : ∃ is, Reads directory s.snapshots s.avgscale.pc s.avgscale.processed is ∧
    is.Pairwise (· < ·) ∧ s.avgscale.lastProcessedFile = is.getLast?.map (filePath directory)

section Run

variable {directory : Text} {s : System}

theorem pairwise_concat {R : Nat → Nat → Prop} {is : List Nat} {k : Nat} (h : is.Pairwise R)
    (hk : ∀ j ∈ is, R j k) : (is ++ [k]).Pairwise R := by
  rw [List.pairwise_append]
  refine ⟨h, List.pairwise_singleton R k, ?_⟩
  intro j hj k' hk'
  rw [List.mem_singleton.mp hk']
  exact hk j hj

theorem Safe.writer (h : Safe directory s) (hFew : s.snapshots < 2 ^ 31) (a : WriterAct) :
    Safe directory (step directory s (.writer a)) := by
  obtain ⟨hTel, hAvgscale, _, hLe⟩ := grows_writerStep s a
  obtain ⟨is, hReads, hOrdered⟩ := h.tel
  obtain ⟨js, hProcessed, hIncreasing, hLast⟩ := h.avgscale
  rw [step]
  refine ⟨h.written.step hFew a, ⟨is, ?_, hOrdered⟩, ⟨js, ?_, hIncreasing, ?_⟩⟩
  · rw [hTel]
    exact hReads.mono hLe
  · rw [hAvgscale]
    exact hProcessed.mono hLe
  · rw [hAvgscale]
    exact hLast

theorem Safe.of_tel (h : Safe directory s) {tel : TelWsf} {is : List Nat}
    (hReads : Reads directory s.snapshots tel.pc (tel.reads.map Prod.fst) is)
    (hOrdered : is.Pairwise (· ≤ ·)) : Safe directory { s with tel := tel } :=
  ⟨⟨h.written.names, h.written.contents, h.written.counter, h.written.named, h.written.streams,
    h.written.fits⟩, ⟨is, hReads, hOrdered⟩, h.avgscale⟩

theorem Safe.of_avgscale (h : Safe directory s) {avgscale : GetAvgscale} {is : List Nat}
    (hReads : Reads directory s.snapshots avgscale.pc avgscale.processed is)
    (hIncreasing : is.Pairwise (· < ·))
    (hLast : avgscale.lastProcessedFile = is.getLast?.map (filePath directory)) :
    Safe directory { s with avgscale := avgscale } :=
  ⟨⟨h.written.names, h.written.contents, h.written.counter, h.written.named, h.written.streams,
    h.written.fits⟩, h.tel, ⟨is, hReads, hIncreasing, hLast⟩⟩

theorem Safe.telList (h : Safe directory s) (totalPages : Nat) (listdir : List Text) :
    Safe directory (step directory s (.telList totalPages listdir)) := by
  obtain ⟨is, hReads, hOrdered⟩ := h.tel
  rw [step]
  split_ifs with hPolling hTotal hList
  · exact h
  · exact h.of_tel (hReads.leave (Or.inr rfl)) hOrdered
  · exact h.of_tel (hReads.pick h.written hList) hOrdered
  · exact h

theorem Safe.telRead (h : Safe directory s) : Safe directory (step directory s .telRead) := by
  obtain ⟨is, hReads, hOrdered⟩ := h.tel
  rw [step]
  cases hPc : s.tel.pc with
  | picked currentFile =>
    obtain ⟨k, hk, rfl, hBefore⟩ := hReads.picked currentFile hPc
    obtain ⟨entries, hEntries⟩ := finished_of_older hk
    have hOpen := openFile_finished directory h.written hEntries
    simp only [HandOff.telRead, hPc, hOpen, Option.bind_some, readAccessCounts_snapshotText]
    split
    · exact h.of_tel (hReads.leave (Or.inr rfl)) hOrdered
    · apply h.of_tel _ (pairwise_concat hOrdered hBefore)
      rw [List.map_append]
      exact hReads.concat hk
  | polling => simpa only [HandOff.telRead, hPc] using h
  | returned => simpa only [HandOff.telRead, hPc] using h
  | raised => exact absurd hPc hReads.running

theorem Safe.avgscaleList (h : Safe directory s) (trackedPids : Finset Int)
    (listdir : List Text) : Safe directory (step directory s (.avgscaleList trackedPids listdir)) := by
  obtain ⟨is, hReads, hIncreasing, hLast⟩ := h.avgscale
  rw [step]
  split_ifs with hPolling hPids hList
  · exact h
  · exact h
  · exact h.of_avgscale (hReads.pick h.written hList) hIncreasing hLast
  · exact h

theorem newer_than_processed {is : List Nat} {k : Nat} (hIncreasing : is.Pairwise (· < ·))
    (hBefore : ∀ j ∈ is, j ≤ k)
    (hNe : is.getLast?.map (filePath directory) ≠ some (filePath directory k)) :
    ∀ j ∈ is, j < k := by
  induction is using List.reverseRecOn with
  | nil => nofun
  | append_singleton is last _ =>
    have hLast : last < k := by
      apply lt_of_le_of_ne (hBefore last (List.mem_append_right _ (List.mem_singleton_self _)))
      rintro rfl
      exact hNe (by rw [List.getLast?_concat, Option.map_some])
    intro j hj
    rcases List.mem_append.mp hj with hj | hj
    · exact ((List.pairwise_append.mp hIncreasing).2.2 j hj last
        (List.mem_singleton_self _)).trans hLast
    · rw [List.mem_singleton.mp hj]
      exact hLast

theorem Safe.avgscaleRead (h : Safe directory s) :
    Safe directory (step directory s .avgscaleRead) := by
  obtain ⟨is, hReads, hIncreasing, hLast⟩ := h.avgscale
  rw [step]
  cases hPc : s.avgscale.pc with
  | picked currentFile =>
    obtain ⟨k, hk, rfl, hBefore⟩ := hReads.picked currentFile hPc
    obtain ⟨entries, hEntries⟩ := finished_of_older hk
    have hOpen := openFile_finished directory h.written hEntries
    simp only [HandOff.avgscaleRead, hPc, hOpen, Option.bind_some, readSnapshot_snapshotText]
    split
    · exact h.of_avgscale (hReads.leave (Or.inl rfl)) hIncreasing hLast
    · rename_i hNe
      rw [hLast] at hNe
      apply h.of_avgscale (hReads.concat hk)
        (pairwise_concat hIncreasing (newer_than_processed hIncreasing hBefore hNe))
      rw [List.getLast?_concat, Option.map_some]
  | polling => simpa only [HandOff.avgscaleRead, hPc] using h
  | returned => simpa only [HandOff.avgscaleRead, hPc] using h
  | raised => exact absurd hPc hReads.running

theorem Safe.step (h : Safe directory s) (hFew : s.snapshots < 2 ^ 31) (a : Act) :
    Safe directory (step directory s a) := by
  cases a with
  | writer a => exact h.writer hFew a
  | telList totalPages listdir => exact h.telList totalPages listdir
  | telRead => exact h.telRead
  | avgscaleList trackedPids listdir => exact h.avgscaleList trackedPids listdir
  | avgscaleRead => exact h.avgscaleRead

theorem run_concat (files : Directory) (acts : List Act) (a : Act) :
    run directory files (acts ++ [a]) = HandOff.step directory (run directory files acts) a := by
  rw [run, List.foldl_append]
  rfl

theorem safe_init {files : Directory} (hNew : ∀ f ∈ files.keys, isLog f = false) :
    Safe directory (System.init files) := by
  refine ⟨⟨?_, nofun, rfl, nofun, nofun, nofun⟩, ⟨[], ⟨rfl, nofun, nofun, nofun⟩, .nil⟩,
    ⟨[], ⟨rfl, nofun, nofun, nofun⟩, .nil, rfl⟩⟩
  intro f hLog
  constructor
  · intro hMem
    exact absurd hLog (by rw [hNew f hMem]; exact Bool.false_ne_true)
  · rintro ⟨k, hk, _⟩
    exact absurd hk (Nat.not_lt_zero k)

theorem safe_run {files : Directory} (hNew : ∀ f ∈ files.keys, isLog f = false)
    (acts : List Act) (hFew : (run directory files acts).snapshots < 2 ^ 31) :
    Safe directory (run directory files acts) := by
  induction acts using List.reverseRecOn with
  | nil => exact safe_init hNew
  | append_singleton acts a ih =>
    rw [run_concat] at hFew ⊢
    have hBefore := (grows_finished directory (run directory files acts) a).2.trans_lt hFew
    exact (ih hBefore).step hBefore a

theorem run_grows (directory : Text) (files : Directory) (before after : List Act) :
    (run directory files before).finished <+: (run directory files (before ++ after)).finished ∧
    (run directory files before).snapshots ≤ (run directory files (before ++ after)).snapshots := by
  induction after using List.reverseRecOn with
  | nil =>
    rw [List.append_nil]
    exact ⟨List.prefix_rfl, le_rfl⟩
  | append_singleton after a ih =>
    rw [← List.append_assoc, run_concat]
    obtain ⟨hFinished, hLe⟩ := grows_finished directory (run directory files (before ++ after)) a
    exact ⟨ih.1.trans hFinished, ih.2.trans hLe⟩

theorem Safe.picked (h : Safe directory s) {file : Text}
    (hPicked : s.tel.pc = .picked file ∨ s.avgscale.pc = .picked file) :
    ∃ k entries, file = filePath directory k ∧ s.finished[k]? = some entries := by
  have hIndex : ∃ k, k + 2 ≤ s.snapshots ∧ file = filePath directory k := by
    rcases hPicked with hPc | hPc
    · obtain ⟨_, hReads, _⟩ := h.tel
      obtain ⟨k, hk, hFile, _⟩ := hReads.picked file hPc
      exact ⟨k, hk, hFile⟩
    · obtain ⟨_, hReads, _⟩ := h.avgscale
      obtain ⟨k, hk, hFile, _⟩ := hReads.picked file hPc
      exact ⟨k, hk, hFile⟩
  obtain ⟨k, hk, hFile⟩ := hIndex
  obtain ⟨entries, hEntries⟩ := finished_of_older hk
  exact ⟨k, entries, hFile, hEntries⟩

end Run

/-- Whatever the order of steps: every name fits its buffer, no reader fails, a picked file is
closed with everything that was printed to it and stays so, `tel_wsf.py` never goes back, and
`get_avgscale.py` processes every snapshot at most once and in the order of writing. -/
theorem readers_see_finished_snapshots (directory : Text) (files : Directory)
    (hNew : ∀ f ∈ files.keys, isLog f = false) (before after : List Act)
    (hFew : (run directory files (before ++ after)).snapshots < 2 ^ 31) :
    let s := run directory files before
    let t := run directory files (before ++ after)
    t.writer.pc ≠ .exited .bufferTooSmall ∧
    t.tel.pc ≠ .raised ∧ t.avgscale.pc ≠ .raised ∧
    (∀ file, (s.tel.pc = .picked file ∨ s.avgscale.pc = .picked file) →
      ∃ k entries, file = filePath directory k ∧ s.finished[k]? = some entries ∧
        s.writer.pc.file ≠ some (fileName k) ∧
        openFile directory s.files file = some (snapshotText entries) ∧
        t.writer.pc.file ≠ some (fileName k) ∧
        openFile directory t.files file = some (snapshotText entries)) ∧
    (∃ is : List Nat, t.tel.reads.map Prod.fst = is.map (filePath directory) ∧
      is.Pairwise (· ≤ ·)) ∧
    (∃ is : List Nat, t.avgscale.processed = is.map (filePath directory) ∧
      is.Pairwise (· < ·)) := by
  intro s t
  obtain ⟨hFinished, hLe⟩ := run_grows directory files before after
  have hs : Safe directory s := safe_run hNew before (hLe.trans_lt hFew)
  have ht : Safe directory t := safe_run hNew (before ++ after) hFew
  obtain ⟨is, hReads, hOrdered⟩ := ht.tel
  obtain ⟨js, hProcessed, hIncreasing, _⟩ := ht.avgscale
  refine ⟨ht.written.fits, hReads.running, hProcessed.running, ?_,
    ⟨is, hReads.paths_eq, hOrdered⟩, ⟨js, hProcessed.paths_eq, hIncreasing⟩⟩
  intro file hPicked
  obtain ⟨k, entries, rfl, hEntries⟩ := hs.picked hPicked
  have hLater : t.finished[k]? = some entries := by
    obtain ⟨rest, hRest⟩ := hFinished
    rw [← hRest, List.getElem?_append_left (List.getElem?_eq_some_iff.mp hEntries).1]
    exact hEntries
  exact ⟨k, entries, rfl, hEntries, not_open_of_finished hs.written hEntries,
    openFile_finished directory hs.written hEntries, not_open_of_finished ht.written hLater,
    openFile_finished directory ht.written hLater⟩

def writeSnapshot (value : Metric) : List Act :=
  [.writer .name, .writer (.fopen true), .writer (.fprintf ⟨0xffff888012340170, 0⟩ value),
    .writer .usleep, .writer .increment, .writer .fclose]

def pollAtSecond : List Act :=
  writeSnapshot ⟨5, 1, 1, 7⟩ ++ [.writer .name, .writer (.fopen true),
    .avgscaleList {7} [fileName 1, fileName 0]]

theorem pollAtSecond_picks_first :
    (run lruMetrics ∅ pollAtSecond).avgscale.pc = .picked (filePath lruMetrics 0) ∧
    ∃ is : List Nat, (run lruMetrics ∅ (pollAtSecond ++ [.avgscaleRead])).avgscale.processed =
      is.map (filePath lruMetrics) ∧ is.Pairwise (· < ·) :=
  ⟨by decide, (readers_see_finished_snapshots lruMetrics ∅ nofun pollAtSecond [.avgscaleRead]
    (by decide)).2.2.2.2.2⟩

end Ebacs.HandOff
