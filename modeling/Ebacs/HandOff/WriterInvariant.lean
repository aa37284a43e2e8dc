import Ebacs.HandOff.System

/-! # What the writer has left in the directory

The counter is the number of files closed so far, one ahead between its
increment and the closing. Closed files hold everything that was printed to
them and are not touched again; only the newest file may be open.
-/
namespace Ebacs.HandOff
open Lib PageAccess Snapshot Avgscale
set_option autoImplicit false

/-- The number of files opened so far. -/
def System.snapshots (s : System) : Nat :=
  s.finished.length + if s.writer.pc.file.isSome then 1 else 0

/-- Of the file opened last: what is in it and in the buffer is what was printed. -/
structure Streaming (files : Directory) (buffer : Text) (printed : List (PageKey × Metric))
    (n : Nat) (file : Text) : Prop where
  file_eq : file = fileName n
  stored : ∃ content, files.lookup file = some content ∧ content ++ buffer = snapshotText printed

def System.Streams (s : System) : Text → Prop :=
  Streaming s.files s.writer.buffer s.printed s.finished.length

def WriterPc.ahead : WriterPc → Nat
  | .closing _ => 1
  | _ => 0

structure Written (s : System) : Prop where
  names : ∀ f, isLog f = true → (f ∈ s.files ↔ ∃ k < s.snapshots, f = fileName k)
  contents : ∀ k entries, s.finished[k]? = some entries →
    s.files.lookup (fileName k) = some (snapshotText entries)
  counter : s.writer.i = Int32.ofNat (s.finished.length + s.writer.pc.ahead)
  named : ∀ result, s.writer.pc = .named result →
    result = path ++ Nat.toDigits 10 s.finished.length
  streams : ∀ file, s.writer.pc.file = some file → s.Streams file
  fits : s.writer.pc ≠ .exited .bufferTooSmall

theorem snapshotText_concat (entries : List (PageKey × Metric)) (e : PageKey × Metric) :
    snapshotText (entries ++ [e]) = snapshotText entries ++ dumpLine e.1 e.2 := by
  simp [snapshotText]

theorem lookup_fileName_insert {k n : Nat} (files : Directory) (content : Text) (h : k ≠ n) :
    (files.insert (fileName n) content).lookup (fileName k) = files.lookup (fileName k) :=
  AList.lookup_insert_ne (fileName_injective.ne h)

theorem snapshots_of_open {s : System} {file : Text} (hFile : s.writer.pc.file = some file) :
    s.snapshots = s.finished.length + 1 := by
  rw [System.snapshots, hFile]
  rfl

section Writer

variable {s : System}

theorem Written.flush (h : Written s) {file : Text} (hFile : s.writer.pc.file = some file)
    (n : Nat) : Written (s.flush file n) := by
  obtain ⟨rfl, content, hContent, hText⟩ := h.streams file hFile
  refine ⟨?_, ?_, h.counter, h.named, ?_, h.fits⟩
  · intro f hLog
    rw [System.flush, AList.mem_insert, h.names f hLog]
    change (_ ∨ ∃ k < s.snapshots, f = fileName k) ↔ ∃ k < s.snapshots, f = fileName k
    rw [or_iff_right_of_imp]
    rintro rfl
    refine ⟨s.finished.length, ?_, rfl⟩
    rw [snapshots_of_open hFile]
    exact Nat.lt_succ_self _
  · intro k entries hk
    have hLt : k < s.finished.length := (List.getElem?_eq_some_iff.mp hk).1
    rw [System.flush, lookup_fileName_insert _ _ hLt.ne]
    exact h.contents k entries hk
  · intro f hf
    obtain rfl : fileName s.finished.length = f := Option.some.inj (hFile.symm.trans hf)
    refine ⟨rfl, content ++ s.writer.buffer.take n, ?_, ?_⟩
    · rw [System.flush, AList.lookup_insert, hContent]
      rfl
    · rw [List.append_assoc]
      change content ++ (s.writer.buffer.take n ++ s.writer.buffer.drop n) = _
      rw [List.take_append_drop, hText]
      rfl

theorem Written.sigInt (h : Written s) : Written (writerStep s .sigInt) :=
  ⟨h.names, h.contents, h.counter, h.named, h.streams, h.fits⟩

theorem Written.name (h : Written s) (hFew : s.snapshots < 2 ^ 31) :
    Written (writerStep s .name) := by
  have hLength : s.finished.length < 2 ^ 31 := by
    rw [System.snapshots] at hFew
    omega
  have hCounter := h.counter
  obtain ⟨files, ⟨pc, i, stop, buffer⟩, printed, finished, tel, avgscale⟩ := s
  cases pc with
  | loop =>
    have hi : i = Int32.ofNat finished.length := hCounter
    cases stop with
    | true => exact ⟨h.names, h.contents, hi, nofun, nofun, nofun⟩
    | false =>
      simp only [writerStep, hi, concatenate_path hLength]
      refine ⟨h.names, h.contents, rfl, ?_, nofun, nofun⟩
      intro result hResult
      exact (WriterPc.named.inj hResult).symm
  | named result => exact h
  | dumping file => exact h
  | sleeping file => exact h
  | closing file => exact h
  | exited cause => exact h

theorem Written.fopen (h : Written s) (succeeds : Bool) :
    Written (writerStep s (.fopen succeeds)) := by
  have hNamed := h.named
  have hCounter := h.counter
  obtain ⟨files, ⟨pc, i, stop, buffer⟩, printed, finished, tel, avgscale⟩ := s
  cases pc with
  | named result =>
    have hResolve : resolve lruMetrics result = some (fileName finished.length) := by
      rw [hNamed result rfl, ← filePath_lruMetrics]
      exact resolve_filePath _ _
    simp only [writerStep, hResolve]
    cases succeeds with
    | false => exact ⟨h.names, h.contents, hCounter, nofun, nofun, nofun⟩
    | true =>
      refine ⟨?_, ?_, hCounter, nofun, ?_, nofun⟩
      · intro f hLog
        rw [AList.mem_insert, h.names f hLog]
        change (_ ∨ ∃ k < finished.length, f = fileName k) ↔
          ∃ k < finished.length + 1, f = fileName k
        simp only [Nat.exists_lt_succ_right]
        exact or_comm
      · intro k entries hk
        have hLt := (List.getElem?_eq_some_iff.mp hk).1
        rw [lookup_fileName_insert _ _ hLt.ne]
        exact h.contents k entries hk
      · intro file hFile
        obtain rfl : fileName finished.length = file := Option.some.inj hFile
        exact ⟨rfl, [], AList.lookup_insert _, rfl⟩
  | loop => exact h
  | dumping file => exact h
  | sleeping file => exact h
  | closing file => exact h
  | exited cause => exact h

theorem Written.fprintf (h : Written s) (nextKey : PageKey) (value : Metric) :
    Written (writerStep s (.fprintf nextKey value)) := by
  have hStreams := h.streams
  obtain ⟨files, ⟨pc, i, stop, buffer⟩, printed, finished, tel, avgscale⟩ := s
  cases pc with
  | dumping file =>
    refine ⟨h.names, h.contents, h.counter, nofun, ?_, nofun⟩
    intro f hf
    obtain ⟨hName, content, hContent, hText⟩ := hStreams f hf
    refine ⟨hName, content, hContent, ?_⟩
    change content ++ (buffer ++ dumpLine nextKey value) = snapshotText (printed ++ [(nextKey, value)])
    rw [snapshotText_concat, ← List.append_assoc]
    exact congrArg (· ++ dumpLine nextKey value) hText
  | loop => exact h
  | named result => exact h
  | sleeping file => exact h
  | closing file => exact h
  | exited cause => exact h

theorem Written.flushStep (h : Written s) (n : Nat) : Written (writerStep s (.flush n)) := by
  rw [writerStep]
  split
  · rename_i file hFile
    exact h.flush hFile n
  · exact h

theorem Written.usleep (h : Written s) : Written (writerStep s .usleep) := by
  obtain ⟨files, ⟨pc, i, stop, buffer⟩, printed, finished, tel, avgscale⟩ := s
  cases pc with
  | dumping file => exact ⟨h.names, h.contents, h.counter, nofun, h.streams, nofun⟩
  | loop => exact h
  | named result => exact h
  | sleeping file => exact h
  | closing file => exact h
  | exited cause => exact h

theorem Written.increment (h : Written s) : Written (writerStep s .increment) := by
  have hCounter := h.counter
  obtain ⟨files, ⟨pc, i, stop, buffer⟩, printed, finished, tel, avgscale⟩ := s
  cases pc with
  | sleeping file =>
    refine ⟨h.names, h.contents, ?_, nofun, h.streams, nofun⟩
    change i + 1 = Int32.ofNat (finished.length + 1)
    rw [Int32.ofNat_add]
    exact congrArg (· + 1) hCounter
  | loop => exact h
  | named result => exact h
  | dumping file => exact h
  | closing file => exact h
  | exited cause => exact h

theorem Written.close (h : Written s) {file : Text} (hPc : s.writer.pc = .closing file)
    (hBuffer : s.writer.buffer = []) :
    Written { s.setPc .loop with finished := s.finished ++ [s.printed] } := by
  have hFile : s.writer.pc.file = some file := by rw [hPc]; rfl
  obtain ⟨rfl, content, hContent, hText⟩ := h.streams file hFile
  rw [hBuffer, List.append_nil] at hText
  have hLength : (s.finished ++ [s.printed]).length = s.finished.length + 1 := by simp
  refine ⟨?_, ?_, ?_, nofun, nofun, nofun⟩
  · intro f hLog
    have hNames := h.names f hLog
    rw [snapshots_of_open hFile, ← hLength] at hNames
    exact hNames
  · intro k entries hk
    rcases Nat.lt_or_ge k s.finished.length with hLt | hGe
    · rw [List.getElem?_append_left hLt] at hk
      exact h.contents k entries hk
    · have hBound := (List.getElem?_eq_some_iff.mp hk).1
      obtain rfl : s.finished.length = k := by
        rw [hLength] at hBound
        omega
      rw [List.getElem?_concat_length] at hk
      rw [← Option.some.inj hk, ← hText]
      exact hContent
  · change s.writer.i = Int32.ofNat ((s.finished ++ [s.printed]).length + 0)
    rw [h.counter, hPc, hLength]
    rfl

theorem Written.fclose (h : Written s) : Written (writerStep s .fclose) := by
  cases hPc : s.writer.pc with
  | closing file =>
    have hFile : s.writer.pc.file = some file := by rw [hPc]; rfl
    have hFlushed := h.flush hFile s.writer.buffer.length
    simp only [writerStep, hPc]
    exact hFlushed.close hPc (List.drop_length)
  | loop => simpa only [writerStep, hPc] using h
  | named result => simpa only [writerStep, hPc] using h
  | dumping file => simpa only [writerStep, hPc] using h
  | sleeping file => simpa only [writerStep, hPc] using h
  | exited cause => simpa only [writerStep, hPc] using h

theorem Written.step_of_ne_name (h : Written s) {a : WriterAct} (ha : a ≠ .name) :
    Written (writerStep s a) := by
  cases a with
  | sigInt => exact h.sigInt
  | name => exact absurd rfl ha
  | fopen succeeds => exact h.fopen succeeds
  | fprintf nextKey value => exact h.fprintf nextKey value
  | flush n => exact h.flushStep n
  | usleep => exact h.usleep
  | increment => exact h.increment
  | fclose => exact h.fclose

theorem Written.step (h : Written s) (hFew : s.snapshots < 2 ^ 31) (a : WriterAct) :
    Written (writerStep s a) := by
  rcases eq_or_ne a .name with rfl | ha
  · exact h.name hFew
  · exact h.step_of_ne_name ha

end Writer

structure Grows (s s' : System) : Prop where
  tel : s'.tel = s.tel
  avgscale : s'.avgscale = s.avgscale
  finished : s.finished <+: s'.finished
  snapshots : s.snapshots ≤ s'.snapshots

theorem Grows.refl (s : System) : Grows s s := ⟨rfl, rfl, List.prefix_rfl, le_rfl⟩

theorem Grows.setPc {s : System} (pc : WriterPc) (hFile : s.writer.pc.file = none) :
    Grows s (s.setPc pc) := by
  refine ⟨rfl, rfl, List.prefix_rfl, ?_⟩
  rw [System.snapshots, hFile]
  exact Nat.le_add_right _ _

theorem grows_writerStep (s : System) (a : WriterAct) : Grows s (writerStep s a) := by
  obtain ⟨files, ⟨pc, i, stop, buffer⟩, printed, finished, tel, avgscale⟩ := s
  cases a with
  | sigInt => exact ⟨rfl, rfl, List.prefix_rfl, le_rfl⟩
  | name =>
    rw [writerStep]
    split
    · rename_i hPc
      have hFile := congrArg WriterPc.file hPc
      split
      · exact Grows.setPc _ hFile
      · split <;> exact Grows.setPc _ hFile
    · exact Grows.refl _
  | fopen succeeds =>
    rw [writerStep]
    split
    · rename_i hPc
      have hFile := congrArg WriterPc.file hPc
      split
      · refine ⟨rfl, rfl, List.prefix_rfl, ?_⟩
        rw [System.snapshots, hFile]
        exact Nat.le_add_right _ _
      · exact Grows.setPc _ hFile
    · exact Grows.refl _
  | fprintf nextKey value => cases pc <;> exact ⟨rfl, rfl, List.prefix_rfl, le_rfl⟩
  | flush n => cases pc <;> exact ⟨rfl, rfl, List.prefix_rfl, le_rfl⟩
  | usleep => cases pc <;> exact ⟨rfl, rfl, List.prefix_rfl, le_rfl⟩
  | increment => cases pc <;> exact ⟨rfl, rfl, List.prefix_rfl, le_rfl⟩
  | fclose =>
    cases pc with
    | closing file =>
      refine ⟨rfl, rfl, List.prefix_append _ _, ?_⟩
      change finished.length + 1 ≤ (finished ++ [printed]).length + 0
      rw [List.length_append]
      exact le_rfl
    | loop => exact Grows.refl _
    | named result => exact Grows.refl _
    | dumping file => exact Grows.refl _
    | sleeping file => exact Grows.refl _
    | exited cause => exact Grows.refl _

theorem grows_finished (directory : Text) (s : System) (a : Act) :
    s.finished <+: (step directory s a).finished ∧
    s.snapshots ≤ (step directory s a).snapshots := by
  cases a with
  | writer a => exact ⟨(grows_writerStep s a).finished, (grows_writerStep s a).snapshots⟩
  | telList totalPages listdir =>
    rw [step]
    split_ifs <;> exact ⟨List.prefix_rfl, le_rfl⟩
  | telRead => exact ⟨List.prefix_rfl, le_rfl⟩
  | avgscaleList trackedPids listdir =>
    rw [step]
    split_ifs <;> exact ⟨List.prefix_rfl, le_rfl⟩
  | avgscaleRead => exact ⟨List.prefix_rfl, le_rfl⟩

end Ebacs.HandOff
