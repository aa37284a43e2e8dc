import Ebacs.HandOff.Safety

/-! # The readers of a snapshot against its writer

The dump loop writes one line for each entry, and three scripts read such
files: `get_avgscale.py` and `tel_wsf.py` leave lines out that do not have
three fields, `plot_access_count.py` takes the third field of every line.
-/
namespace Ebacs.Snapshot
open Lib PageAccess Avgscale
set_option autoImplicit false

/-- The fields that `get_avgscale.py` takes from a line, `some none` where the line is left out;
`none` is a ValueError. -/
def lineFields (line : Text) : Option (Option (Text × Int × Int)) :=
  match words (strip line) with
  | [pageIndex, pid, accessCount] => do
    let pid ← int? pid
    let accessCount ← int? accessCount
    some (some (pageIndex, pid, accessCount))
  | _ => some none

/-- What the loop does with the fields of a line. -/
def recordFields (trackedPids : Finset Int) (t : PageTable) :
    Option (Text × Int × Int) → PageTable
  | some (pageIndex, pid, accessCount) =>
    if pid ∈ trackedPids then t.set pid pageIndex accessCount else t
  | none => t

theorem readLine_eq (trackedPids : Finset Int) (t : PageTable) (line : Text) :
    readLine trackedPids t line = (lineFields line).map (recordFields trackedPids t) := by
  rw [readLine, lineFields]
  rcases words (strip line) with _ | ⟨pageIndex, _ | ⟨pid, _ | ⟨accessCount, _ | ⟨_, _⟩⟩⟩⟩
  · rfl
  · rfl
  · rfl
  · dsimp only
    cases int? pid with
    | none => rfl
    | some pid =>
      cases int? accessCount with
      | none => rfl
      | some accessCount =>
        change (if _ then _ else _) = some (if _ then _ else _)
        split <;> rfl
  · rfl

theorem readSnapshot_eq (trackedPids : Finset Int) (file : Text) :
    readSnapshot trackedPids file =
      ((fileLines file).mapM lineFields).map
        (fun fields => fields.foldl (recordFields trackedPids) (fun _ => ∅)) := by
  rw [readSnapshot]
  generalize (fun _ => ∅ : PageTable) = t
  induction fileLines file generalizing t with
  | nil => rfl
  | cons line lines ih =>
    rw [List.foldlM_cons, readLine_eq, List.mapM_cons]
    cases lineFields line with
    | none => rfl
    | some fields =>
      change List.foldlM _ _ _ = _
      rw [ih]
      change _ = Option.map _ (Option.bind _ _)
      cases lines.mapM lineFields with
      | none => rfl
      | some rest => rfl

/-- `read_access_counts` of `plot_access_count.py`; `none` is an IndexError or a ValueError. -/
def readAccessCounts (file : Text) : Option (List Int) :=
  (fileLines file).mapM (fun line => do
    let accessCount ← (words line)[2]?
    int? accessCount)

theorem words_dumpLine (e : PageKey × Metric) :
    words (dumpLine e.1 e.2) =
      [pageText e.1, decimal e.2.pid.toInt, decimal (writtenCount e.2)] := by
  rw [dumpLine, words_cons_word (isWord_hex _) (by decide),
    words_cons_word (isWord_decimal _) (by decide),
    words_cons_word (isWord_decimal _) (by decide)]
  rfl

theorem lineFields_dumpLine (e : PageKey × Metric) :
    lineFields (dumpLine e.1 e.2) =
      some (some (pageText e.1, e.2.pid.toInt, writtenCount e.2)) := by
  rw [lineFields, dumpLine,
    words_strip_record (isWord_hex _) (isWord_decimal _) (isWord_decimal _)]
  simp only [int?_decimal]
  rfl

/-- What was written for an entry. -/
def entryFields (e : PageKey × Metric) : Text × Int × Int :=
  (hex (hashIndexMapping e.1.index e.1.mapping).toNat, e.2.pid.toInt, (e.2.refCount.toNat : Int))

section Decoding

variable {entries : List (PageKey × Metric)}

theorem mapM_snapshotText {β : Type} {read : Text → Option β} {decoded : PageKey × Metric → β}
    (h : ∀ e ∈ entries, read (dumpLine e.1 e.2) = some (decoded e)) :
    (fileLines (snapshotText entries)).mapM read = some (entries.map decoded) := by
  rw [fileLines_snapshotText]
  induction entries with
  | nil => rfl
  | cons e entries ih =>
    rw [List.map_cons, List.mapM_cons, h e List.mem_cons_self,
      ih (fun e he => h e (List.mem_cons_of_mem _ he))]
    rfl

/-- Every reader gets back what the dump loop wrote, for counts that `%ld` writes as they are. -/
theorem snapshot_decoded (hCounts : ∀ e ∈ entries, e.2.refCount.toNat < 2 ^ 63) :
    (fileLines (snapshotText entries)).mapM lineFields =
      some (entries.map (fun e => some (entryFields e))) ∧
    (∀ trackedPids, readSnapshot trackedPids (snapshotText entries) =
      some ((entries.map (fun e => some (entryFields e))).foldl (recordFields trackedPids)
        (fun _ => ∅))) ∧
    HandOff.readAccessCounts (snapshotText entries) =
      some ((entries.map (fun e => (e.2.refCount.toNat : Int))).filter (· < 1000)) ∧
    readAccessCounts (snapshotText entries) =
      some (entries.map (fun e => (e.2.refCount.toNat : Int))) := by
  have hWritten : ∀ e ∈ entries, writtenCount e.2 = e.2.refCount.toNat :=
    fun e he => writtenCount_of_lt (hCounts e he)
  have hFields : (fileLines (snapshotText entries)).mapM lineFields =
      some (entries.map (fun e => some (entryFields e))) := by
    apply mapM_snapshotText
    intro e he
    rw [lineFields_dumpLine, hWritten e he]
    rfl
  refine ⟨hFields, ?_, ?_, ?_⟩
  · intro trackedPids
    rw [readSnapshot_eq, hFields]
    rfl
  · rw [HandOff.readAccessCounts_snapshotText, List.map_congr_left hWritten]
  · apply mapM_snapshotText
    intro e he
    rw [words_dumpLine, hWritten e he]
    exact int?_decimal _

end Decoding

def sampleEntries : List (PageKey × Metric) :=
  [(⟨5, 5⟩, ⟨0, 0, 0, -1⟩), (⟨0xffff888012340170, 3⟩, ⟨1000, 0, 0, 7⟩),
    (⟨0xffffffffffffffff, 0⟩, ⟨0x7fffffffffffffff, 0, 0, 7⟩)]

/-- A hash of 0, a negative PID and the largest count. -/
theorem snapshot_decoded_sample :
    (fileLines (snapshotText sampleEntries)).mapM lineFields =
      some [some ("0".toList, -1, 0), some ("ffff888012340173".toList, 7, 1000),
        some ("ffffffffffffffff".toList, 7, 9223372036854775807)] ∧
    HandOff.readAccessCounts (snapshotText sampleEntries) = some [0] ∧
    readAccessCounts (snapshotText sampleEntries) = some [0, 1000, 9223372036854775807] := by
  have hDecoded := @snapshot_decoded sampleEntries (by decide)
  refine ⟨hDecoded.1.trans ?_, hDecoded.2.2.1.trans ?_, hDecoded.2.2.2.trans ?_⟩
  · decide +kernel
  · decide +kernel
  · decide +kernel

end Ebacs.Snapshot
