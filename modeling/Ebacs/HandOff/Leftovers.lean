import Ebacs.HandOff.Safety

/-! # Starting over without a cleanup

The directory may still hold the files of an earlier run, which the writer
overwrites from the first one on. To the writer this makes no difference, so its
run is that in an empty directory; the readers go by the highest number they find.
-/
namespace Ebacs.HandOff
open Lib PageAccess Snapshot Avgscale
set_option autoImplicit false

/-- The files of an earlier run and nothing else that counts as a log. -/
structure Leftover (files : Directory) (old : List Text) : Prop where
  names : ∀ f, isLog f = true → (f ∈ files ↔ ∃ k < old.length, f = fileName k)
  contents : ∀ (k : Nat) (text : Text), old[k]? = some text →
    files.lookup (fileName k) = some text

/-- The same writer in a directory with leftovers and in an empty one. -/
structure Overlays (old : List Text) (s t : System) : Prop where
  writer : s.writer = t.writer
  printed : s.printed = t.printed
  finished : s.finished = t.finished
  names : ∀ f ∈ s.files, isLog f = true → ∃ k, f = fileName k
  lookup : ∀ k, s.files.lookup (fileName k) =
    (t.files.lookup (fileName k)).or old[k]?

section Writer

variable {old : List Text} {s t : System}

theorem Overlays.snapshots (h : Overlays old s t) : s.snapshots = t.snapshots := by
  rw [System.snapshots, System.snapshots, h.writer, h.finished]

theorem Overlays.lookup_open (h : Overlays old s t) (hWritten : Written t) {file : Text}
    (hFile : t.writer.pc.file = some file) : s.files.lookup file = t.files.lookup file := by
  obtain ⟨rfl, content, hContent, -⟩ := hWritten.streams file hFile
  rw [h.lookup, hContent]
  rfl

/-- Both directories get the same file. -/
theorem Overlays.insert (h : Overlays old s t) {s' t' : System} {n : Nat} {content : Text}
    (hs : s'.files = s.files.insert (fileName n) content)
    (ht : t'.files = t.files.insert (fileName n) content) (hWriter : s'.writer = t'.writer)
    (hPrinted : s'.printed = t'.printed) (hFinished : s'.finished = t'.finished) :
    Overlays old s' t' := by
  refine ⟨hWriter, hPrinted, hFinished, fun f hf hLog => ?_, fun k => ?_⟩
  · rw [hs, AList.mem_insert] at hf
    obtain rfl | hf := hf
    · exact ⟨n, rfl⟩
    · exact h.names f hf hLog
  · rw [hs, ht]
    obtain rfl | hOther := eq_or_ne k n
    · rw [AList.lookup_insert, AList.lookup_insert]
      rfl
    · rw [lookup_fileName_insert _ _ hOther, lookup_fileName_insert _ _ hOther]
      exact h.lookup k

theorem Overlays.same (h : Overlays old s t) {s' t' : System} (hs : s'.files = s.files)
    (ht : t'.files = t.files) (hWriter : s'.writer = t'.writer)
    (hPrinted : s'.printed = t'.printed) (hFinished : s'.finished = t'.finished) :
    Overlays old s' t' := by
  refine ⟨hWriter, hPrinted, hFinished, ?_, ?_⟩
  · rw [hs]
    exact h.names
  · rw [hs, ht]
    exact h.lookup

theorem Overlays.flush (h : Overlays old s t) (hWritten : Written t) {file : Text}
    (hFile : t.writer.pc.file = some file) (n : Nat) :
    Overlays old (s.flush file n) (t.flush file n) := by
  have hLookup := h.lookup_open hWritten hFile
  obtain ⟨rfl, -⟩ := hWritten.streams file hFile
  refine h.insert rfl ?_ ?_ h.printed h.finished
  · rw [System.flush, h.writer, hLookup]
  · rw [System.flush, System.flush, h.writer]

theorem Overlays.setPc (h : Overlays old s t) (pc : WriterPc) :
    Overlays old (s.setPc pc) (t.setPc pc) := by
  refine h.same rfl rfl ?_ h.printed h.finished
  rw [System.setPc, System.setPc, h.writer]

theorem Overlays.name (h : Overlays old s t) :
    Overlays old (writerStep s .name) (writerStep t .name) := by
  rw [writerStep, writerStep, h.writer]
  split
  · split
    · exact h.setPc _
    · split
      · exact h.setPc _
      · exact h.setPc _
  · exact h

theorem Overlays.fopen (h : Overlays old s t) (hWritten : Written t) (succeeds : Bool) :
    Overlays old (writerStep s (.fopen succeeds)) (writerStep t (.fopen succeeds)) := by
  have hNamed := hWritten.named
  rw [writerStep, writerStep, h.writer]
  split
  · rename_i result hPc
    have hResolve : resolve lruMetrics result = some (fileName t.finished.length) := by
      rw [hNamed result hPc, ← filePath_lruMetrics]
      exact resolve_filePath _ _
    rw [hResolve]
    cases succeeds with
    | true => exact h.insert rfl rfl rfl rfl h.finished
    | false => exact h.setPc _
  · exact h

theorem Overlays.writerStep (h : Overlays old s t) (hWritten : Written t) (a : WriterAct) :
    Overlays old (writerStep s a) (writerStep t a) := by
  cases a with
  | sigInt =>
    refine h.same rfl rfl ?_ h.printed h.finished
    rw [HandOff.writerStep, HandOff.writerStep, h.writer]
  | name => exact h.name
  | fopen succeeds => exact h.fopen hWritten succeeds
  | fprintf nextKey value =>
    rw [HandOff.writerStep, HandOff.writerStep, h.writer, h.printed]
    split
    · exact h.same rfl rfl rfl rfl h.finished
    · exact h
  | flush n =>
    rw [HandOff.writerStep, HandOff.writerStep, h.writer]
    split
    · rename_i file hFile
      exact h.flush hWritten hFile n
    · exact h
  | usleep =>
    rw [HandOff.writerStep, HandOff.writerStep, h.writer]
    split
    · exact h.setPc _
    · exact h
  | increment =>
    rw [HandOff.writerStep, HandOff.writerStep, h.writer]
    split
    · exact h.same rfl rfl rfl h.printed h.finished
    · exact h
  | fclose =>
    rw [HandOff.writerStep, HandOff.writerStep, h.writer]
    split
    · rename_i file hPc
      have hFile : t.writer.pc.file = some file := by
        rw [hPc]
        rfl
      have hFlushed := h.flush hWritten hFile t.writer.buffer.length
      refine (hFlushed.setPc .loop).same rfl rfl (hFlushed.setPc .loop).writer
        (hFlushed.setPc .loop).printed ?_
      change s.finished ++ [s.printed] = t.finished ++ [t.printed]
      rw [h.finished, h.printed]
    · exact h

end Writer

def Act.isWriter : Act → Bool
  | .writer _ => true
  | _ => false

theorem writer_or_reader (directory : Text) (s : System) (a : Act) :
    (∃ w, a = .writer w) ∨
    (a.isWriter = false ∧ ∃ tel avgscale, step directory s a =
      { s with tel := tel, avgscale := avgscale }) := by
  cases a with
  | writer w => exact .inl ⟨w, rfl⟩
  | telList totalPages listdir =>
    refine .inr ⟨rfl, ?_⟩
    rw [step]
    split_ifs
    · exact ⟨s.tel, s.avgscale, rfl⟩
    · exact ⟨_, s.avgscale, rfl⟩
    · exact ⟨_, s.avgscale, rfl⟩
    · exact ⟨s.tel, s.avgscale, rfl⟩
  | telRead => exact .inr ⟨rfl, _, s.avgscale, rfl⟩
  | avgscaleList trackedPids listdir =>
    refine .inr ⟨rfl, ?_⟩
    rw [step]
    split_ifs
    · exact ⟨s.tel, s.avgscale, rfl⟩
    · exact ⟨s.tel, s.avgscale, rfl⟩
    · exact ⟨s.tel, _, rfl⟩
    · exact ⟨s.tel, s.avgscale, rfl⟩
  | avgscaleRead => exact .inr ⟨rfl, s.tel, _, rfl⟩

section Run

variable {old : List Text} {files : Directory}

theorem overlays_init (hLeft : Leftover files old) :
    Overlays old (System.init files) (System.init ∅) := by
  refine ⟨rfl, rfl, rfl, fun f hf hLog => ?_, fun k => ?_⟩
  · obtain ⟨k, -, hName⟩ := (hLeft.names f hLog).mp hf
    exact ⟨k, hName⟩
  · change files.lookup (fileName k) = (none : Option Text).or _
    rw [Option.none_or]
    cases hOld : old[k]? with
    | some text => exact hLeft.contents k text hOld
    | none =>
      rw [AList.lookup_eq_none, hLeft.names _ (isLog_fileName k)]
      rintro ⟨j, hj, hName⟩
      rw [fileName_injective hName] at hOld
      exact absurd (List.getElem?_eq_none_iff.mp hOld) (Nat.not_le_of_lt hj)

/-- The run without the readers in an empty directory. -/
def cleanRun (directory : Text) (acts : List Act) : System :=
  run directory ∅ (acts.filter Act.isWriter)

theorem overlays_run (directory : Text) (hLeft : Leftover files old) (acts : List Act)
    (hFew : (run directory files acts).snapshots < 2 ^ 31) :
    Overlays old (run directory files acts) (cleanRun directory acts) ∧
      Written (cleanRun directory acts) := by
  induction acts using List.reverseRecOn with
  | nil =>
    have hEmpty : ∀ f ∈ (∅ : Directory).keys, isLog f = false := nofun
    have hSafe : Safe directory (System.init ∅) := safe_init hEmpty
    exact ⟨overlays_init hLeft, hSafe.written⟩
  | append_singleton acts a ih =>
    rw [run_concat] at hFew ⊢
    have hBefore := (grows_finished directory (run directory files acts) a).2.trans_lt hFew
    obtain ⟨hOverlays, hWritten⟩ := ih hBefore
    have hSame : (run directory files acts).snapshots = (cleanRun directory acts).snapshots :=
      hOverlays.snapshots
    obtain ⟨a, rfl⟩ | ⟨hReader, tel, avgscale, hStep⟩ :=
      writer_or_reader directory (run directory files acts) a
    · have hClean : cleanRun directory (acts ++ [.writer a]) =
          writerStep (cleanRun directory acts) a := by
        rw [cleanRun, List.filter_append]
        exact run_concat _ _ _
      rw [hClean]
      exact ⟨hOverlays.writerStep hWritten a, hWritten.step (hSame ▸ hBefore) a⟩
    · have hClean : cleanRun directory (acts ++ [a]) = cleanRun directory acts := by
        rw [cleanRun, List.filter_append, List.filter_singleton, hReader]
        exact congrArg (run directory ∅) (List.append_nil _)
      rw [hClean, hStep]
      exact ⟨hOverlays.same rfl rfl hOverlays.writer hOverlays.printed hOverlays.finished, hWritten⟩

theorem Overlays.names_iff {s t : System} (h : Overlays old s t) (hWritten : Written t) (f : Text)
    (hLog : isLog f = true) :
    f ∈ s.files ↔ ∃ k < max old.length s.snapshots, f = fileName k := by
  have hMem : ∀ k, fileName k ∈ s.files ↔ k < max old.length s.snapshots := by
    intro k
    have hClean : (t.files.lookup (fileName k)).isSome = true ↔ k < t.snapshots := by
      rw [AList.lookup_isSome, hWritten.names _ (isLog_fileName k)]
      constructor
      · rintro ⟨j, hj, hName⟩
        rwa [fileName_injective hName]
      · intro hk
        exact ⟨k, hk, rfl⟩
    have hOld : old[k]?.isSome = true ↔ k < old.length := by
      rw [Option.isSome_iff_ne_none, ne_eq, List.getElem?_eq_none_iff,
        Nat.not_le]
    rw [← AList.lookup_isSome, h.lookup, Option.isSome_or, Bool.or_eq_true, hClean, hOld,
      h.snapshots, lt_max_iff, or_comm]
  constructor
  · intro hf
    obtain ⟨k, rfl⟩ := h.names f hf hLog
    exact ⟨k, (hMem k).mp hf, rfl⟩
  · rintro ⟨k, hk, rfl⟩
    exact (hMem k).mpr hk

theorem Overlays.openFile {s t : System} (h : Overlays old s t) (directory : Text) (k : Nat) :
    openFile directory s.files (filePath directory k) =
      (t.files.lookup (fileName k)).or old[k]? := by
  rw [HandOff.openFile, resolve_filePath, Option.bind_some, h.lookup]

end Run

/-- With `old` left over from an earlier run, a reader that lists the directory goes by the larger
of both runs' numbers of files. It is given an old file as long as this run is two files
behind, the file that is being written when this run is one file behind and has one open, and
otherwise a finished snapshot of this run. -/
theorem picked_with_leftovers (directory : Text) (files : Directory) (old : List Text)
    (hLeft : Leftover files old) (acts : List Act)
    (hFew : (run directory files acts).snapshots < 2 ^ 31) (listdir : List Text)
    (hList : listdir.Perm (run directory files acts).files.keys) :
    let s := run directory files acts
    let n := max old.length s.snapshots
    pickFile directory listdir =
        (if n < 2 then .polling else .picked (filePath directory (n - 2))) ∧
      (s.snapshots + 2 ≤ old.length → ∃ text, old[n - 2]? = some text ∧
        openFile directory s.files (filePath directory (n - 2)) = some text) ∧
      (old.length = s.snapshots + 1 → s.writer.pc.file.isSome = true →
        ∃ content, openFile directory s.files (filePath directory (n - 2)) = some content ∧
          content ++ s.writer.buffer = snapshotText s.printed) ∧
      (2 ≤ n → (old.length ≤ s.snapshots ∨
          old.length = s.snapshots + 1 ∧ s.writer.pc.file.isSome = false) →
        ∃ entries, s.finished[n - 2]? = some entries ∧
          openFile directory s.files (filePath directory (n - 2)) =
            some (snapshotText entries)) := by
  intro s n
  obtain ⟨hOverlays, hWritten⟩ := overlays_run directory hLeft acts hFew
  have hSame : s.snapshots = (cleanRun directory acts).snapshots := hOverlays.snapshots
  refine ⟨?_, fun hBehind => ?_, fun hOne hOpen => ?_, fun hTwo hAhead => ?_⟩
  · have hLogs : getLogFiles listdir = some ((List.range n).map fileName) := by
      apply getLogFiles_eq (hList.nodup_iff.mpr s.files.keys_nodup)
      intro f hLog
      rw [hList.mem_iff, ← AList.mem_keys]
      exact hOverlays.names_iff hWritten f hLog
    have hLast := secondToLast_range n
    split
    · rename_i hLt
      rw [if_pos hLt] at hLast
      simp only [pickFile, hLogs, hLast]
    · rename_i hGe
      rw [if_neg hGe] at hLast
      simp only [pickFile, hLogs, hLast]
      rfl
  · have hn : n = old.length := max_eq_left (by omega)
    have hIndex : n - 2 < old.length := by omega
    have hAbsent : (cleanRun directory acts).files.lookup (fileName (n - 2)) = none := by
      rw [AList.lookup_eq_none, hWritten.names _ (isLog_fileName _)]
      rintro ⟨k, hk, hName⟩
      have hk' := fileName_injective hName
      omega
    refine ⟨old[n - 2], List.getElem?_eq_getElem hIndex, ?_⟩
    rw [hOverlays.openFile, hAbsent, List.getElem?_eq_getElem hIndex]
    rfl
  · obtain ⟨file, hFile⟩ := Option.isSome_iff_exists.mp hOpen
    have hClean : (cleanRun directory acts).writer.pc.file = some file := by
      rw [← hOverlays.writer]
      exact hFile
    obtain ⟨hName, content, hContent, hText⟩ := hWritten.streams file hClean
    have hSnapshots := snapshots_of_open hClean
    have hIndex : n - 2 = (cleanRun directory acts).finished.length := by
      have hn : n = old.length := max_eq_left (by omega)
      omega
    refine ⟨content, ?_, ?_⟩
    · rw [hOverlays.openFile, hIndex, ← hName, hContent]
      rfl
    · rw [hOverlays.writer, hOverlays.printed]
      exact hText
  · have hIndex : n - 2 < s.finished.length := by
      have hCount : s.snapshots = s.finished.length + if s.writer.pc.file.isSome then 1 else 0 := rfl
      obtain hMore | ⟨hOne, hClosed⟩ := hAhead
      · have hn : n = s.snapshots := max_eq_right hMore
        split at hCount
        · omega
        · omega
      · have hn : n = old.length := max_eq_left (by omega)
        rw [hClosed] at hCount
        simp only [Bool.false_eq_true, if_false] at hCount
        omega
    obtain ⟨entries, hEntries⟩ : ∃ entries, s.finished[n - 2]? = some entries :=
      ⟨_, List.getElem?_eq_getElem hIndex⟩
    refine ⟨entries, hEntries, ?_⟩
    rw [hOverlays.finished] at hEntries
    rw [hOverlays.openFile, hWritten.contents _ _ hEntries]
    rfl

def oldSnapshot : Text := "ffff888012340170 7 9 \n".toList

/-- Two equal files of an earlier run. -/
def twoLeft : Directory :=
  (AList.insert (fileName 0) oldSnapshot ∅).insert (fileName 1) oldSnapshot

theorem leftover_twoLeft : Leftover twoLeft [oldSnapshot, oldSnapshot] := by
  constructor
  · intro f _
    rw [twoLeft, AList.mem_insert, AList.mem_insert]
    constructor
    · rintro (rfl | rfl | hNone)
      · exact ⟨1, by decide, rfl⟩
      · exact ⟨0, by decide, rfl⟩
      · exact absurd hNone (AList.notMem_empty f)
    · rintro ⟨k, hk, rfl⟩
      obtain rfl | rfl : k = 0 ∨ k = 1 := by
        change k < 2 at hk
        omega
      · exact .inr (.inl rfl)
      · exact .inl rfl
  · intro k text hk
    have hIndex := (List.getElem?_eq_some_iff.mp hk).1
    obtain rfl | rfl : k = 0 ∨ k = 1 := by
      change k < 2 at hIndex
      omega
    · obtain rfl : oldSnapshot = text := Option.some.inj hk
      rfl
    · obtain rfl : oldSnapshot = text := Option.some.inj hk
      rfl

/-- The first file of this run is open, and a part of its only line has reached the disk. -/
def halfWritten : List Act :=
  [.writer .name, .writer (.fopen true),
    .writer (.fprintf ⟨0xffff888012340170, 0⟩ ⟨5, 1, 1, 7⟩), .writer (.flush 5)]

/-- The readers get the five characters that are there. -/
theorem picked_with_leftovers_twoLeft :
    pickFile lruMetrics [fileName 1, fileName 0] = .picked (filePath lruMetrics 0) ∧
    ∃ content, openFile lruMetrics (run lruMetrics twoLeft halfWritten).files
        (filePath lruMetrics 0) = some content ∧ content = "ffff8".toList ∧
      content ++ (run lruMetrics twoLeft halfWritten).writer.buffer =
        snapshotText [(⟨0xffff888012340170, 0⟩, ⟨5, 1, 1, 7⟩)] := by
  have h := picked_with_leftovers lruMetrics twoLeft _ leftover_twoLeft halfWritten (by decide)
    [fileName 1, fileName 0] (by decide)
  obtain ⟨content, hOpen, hText⟩ := h.2.2.1 (by decide) (by decide)
  refine ⟨h.1, content, hOpen, ?_, hText⟩
  have hBuffer : (run lruMetrics twoLeft halfWritten).writer.buffer = "88012340170 7 5 \n".toList := by
    decide +kernel
  rw [hBuffer] at hText
  exact List.append_cancel_right (hText.trans (by decide +kernel))

end Ebacs.HandOff
