import Ebacs.PidFeed.FedCounts
import Ebacs.TelWsf.Seeds

/-! # From the accesses of fed processes to the factor

The whole way of a number: PIDs are appended to a file, the receiver takes them
over, the probes count accesses of their pages, the dump loop writes the counts
and the two scripts read them. What the scripts work with are the accesses that
really happened since each page came in.
-/
namespace Ebacs.TelWsf
open Lib PageAccess Snapshot Avgscale
open PidFeed (Machine Move Instant together instants lifetime Counts lastAccess Counted
  counted_together)
set_option autoImplicit false

/-- How often the processes of the feed have accessed a page since it is in the map. -/
def accesses (xs : List Instant) (k : PageKey) : Nat :=
  (lifetime k xs).countP (fun x => Counts k x)

theorem accesses_le (xs : List Instant) (k : PageKey) : accesses xs k ≤ xs.length :=
  List.countP_le_length.trans
    ((List.dropWhile_sublist _).length_le.trans (List.rtakeWhile_suffix _ _).length_le)

section Entries

variable {s : Machine} {xs : List Instant}

theorem writtenCount_of_counted (hShort : xs.length < 2 ^ 63) {e : PageKey × Metric}
    (h : Counted s xs e.1) (he : e ∈ s.pageAccessMap.entries) :
    writtenCount e.2 = accesses xs e.1 := by
  have hLe := accesses_le xs e.1
  have hCount := h.count e.2 (BoundedMap.lookupElem_eq_some_iff.mpr he)
  have hNat : e.2.refCount.toNat = accesses xs e.1 := by
    rw [hCount, UInt64.toNat_ofNat']
    exact Nat.mod_eq_of_lt (by rw [← accesses]; omega)
  rw [writtenCount_of_lt (by omega), hNat]

/-- The counts of a dump, in the order of the table. -/
theorem readAccessCounts_counted (hShort : xs.length < 2 ^ 63) (h : ∀ k, Counted s xs k) :
    HandOff.readAccessCounts (snapshotText s.pageAccessMap.entries) =
      some ((s.pageAccessMap.keys.map (fun k => (accesses xs k : Int))).filter (· < 1000)) := by
  have hWritten : ∀ e ∈ s.pageAccessMap.entries, writtenCount e.2 = (accesses xs e.1 : Int) :=
    fun e he => writtenCount_of_counted hShort (h e.1) he
  rw [HandOff.readAccessCounts_snapshotText, List.map_congr_left hWritten, BoundedMap.keys,
    List.map_map]
  rfl

theorem lookup_counted (hShort : xs.length < 2 ^ 63) (h : ∀ k, Counted s xs k)
    (hDistinct : PagesDistinct s.pageAccessMap) {trackedPids : Finset Int} {k : PageKey}
    (hMem : k ∈ s.pageAccessMap) {pid : Pid} {pageCount : UInt64}
    (hLast : lastAccess k xs = some (pid, pageCount)) (hTracked : pid.toInt ∈ trackedPids) :
    (s.pageAccessMap.entries.foldl (record trackedPids) (fun _ => ∅) pid.toInt).lookup
      (pageText k) = some (accesses xs k : Int) := by
  obtain ⟨v, hv⟩ := BoundedMap.mem_iff.mp hMem
  have hOwner := (h k).latest v (BoundedMap.lookupElem_eq_some_iff.mpr hv)
  rw [hLast] at hOwner
  obtain ⟨rfl, rfl⟩ := Prod.mk.inj (Option.some.inj hOwner)
  have hOwn : (k, v) ∈ ofPid v.pid.toInt s.pageAccessMap.entries :=
    List.mem_filter.mpr ⟨hv, decide_eq_true rfl⟩
  rw [foldl_record hTracked, lookup_pages (hDistinct _) hOwn,
    writtenCount_of_counted hShort (h k) hv]

end Entries

/-- In every run of the feed, the receiver and the probes, a snapshot of what they leave gives
`tel_wsf.py` the factor of the true access counts, and gives `get_avgscale.py` for every page the
true count under the process that accessed it last. -/
theorem factor_from_accesses (pageBucket : PageKey → Nat) (pidBucket : Pid → Nat)
    (moves : List Move) (p : Pass) (hShort : moves.length < 2 ^ 63)
    (hZero : lifetime zeroKey (instants pageBucket pidBucket moves) = [])
    (hDump : Dumped (together pageBucket pidBucket moves).pageAccessMap p) :
    let m := (together pageBucket pidBucket moves).pageAccessMap
    let xs := instants pageBucket pidBucket moves
    ∃ pages : List PageKey, pages.Nodup ∧ (∀ k, k ∈ pages ↔ lifetime k xs ≠ []) ∧
      (∀ directory history t freePages totalPages,
        (run directory history).pc = .polling → totalPages ≠ 0 →
        Finds directory t freePages totalPages (dumpText p) →
        let counts := (pages.map (fun k => (accesses xs k : Int))).filter (· < 1000)
        counts ≠ [] → (run directory (history ++ [t])).log = (run directory history).log ++
          [updateKernelWatermarkScaleFactor (nextFactor freePages totalPages
            (workingSetSplit counts) (run directory history).watermarkScaleFactor)]) ∧
      (PagesDistinct m → ∀ trackedPids, ∃ t, readSnapshot trackedPids (dumpText p) = some t ∧
        ∀ k ∈ pages, ∀ pid pageCount, lastAccess k xs = some (pid, pageCount) →
          pid.toInt ∈ trackedPids →
          (t pid.toInt).lookup (pageText k) = some (accesses xs k : Int)) := by
  intro m xs
  have hCounted := counted_together pageBucket pidBucket moves
  have hLength : xs.length < 2 ^ 63 := (length_trace _ _ _).trans_lt hShort
  have hNoZero : zeroKey ∉ m := by
    rw [(hCounted zeroKey).live]
    exact not_not_intro hZero
  have hKeys : ∀ k, k ∈ m.keys ↔ lifetime k xs ≠ [] := fun k => (hCounted k).live
  refine ⟨m.keys, m.keys_nodup, hKeys, ?_, ?_⟩
  · intro directory history t freePages totalPages hPolling hTotal hFinds counts hNe
    rw [hDump.text_eq hNoZero] at hFinds
    exact log_of_finds hPolling hTotal hFinds (readAccessCounts_counted hLength hCounted) hNe
  · intro hDistinct trackedPids
    rw [hDump.text_eq hNoZero]
    refine ⟨_, readSnapshot_snapshotText trackedPids _, ?_⟩
    intro k hk pid pageCount hLast hTracked
    exact lookup_counted hLength hCounted hDistinct hk hLast hTracked

def sharedPage : PageKey := ⟨0xffff888012340170, 3⟩

def otherPage : PageKey := ⟨0xffff888012340170, 4⟩

/-- One process is fed and accesses one page three times and another one once. -/
def fedAndAccessed : List Move :=
  .user (.append [['7']]) :: List.replicate 8 (.user (.receiver 5)) ++
    List.replicate 3 (.folioMarkAccessed 0x700000000 ⟨0xffff888012340170, 3, 1⟩) ++
    [.folioMarkAccessed 0x700000000 ⟨0xffff888012340170, 4, 1⟩]

theorem factor_from_two_pages :
    ∃ p, Dumped (together (fun _ => 0) (fun _ => 0) fedAndAccessed).pageAccessMap p ∧
      (run HandOff.lruMetrics [telemetryOf 0 1 (dumpText p)]).log = [434] ∧
      ∃ t, readSnapshot {7} (dumpText p) = some t ∧
        (t 7).lookup (pageText sharedPage) = some 3 := by
  have hEntries : (together (fun _ => 0) (fun _ => 0) fedAndAccessed).pageAccessMap.entries =
      [(otherPage, ⟨1, 4, 1, 7⟩), (sharedPage, ⟨3, 3, 1, 7⟩)] := by decide +kernel
  have hDistinct :
      PagesDistinct (together (fun _ => 0) (fun _ => 0) fedAndAccessed).pageAccessMap := by
    intro pid
    rw [hEntries]
    have hTexts : [pageText otherPage, pageText sharedPage].Nodup := by decide +kernel
    exact hTexts.sublist (List.filter_sublist.map (fun e : PageKey × Metric => pageText e.1))
  have hDump := exists_dumped
    (m := (together (fun _ => 0) (fun _ => 0) fedAndAccessed).pageAccessMap) (by decide +kernel)
  obtain ⟨pages, hNodup, hPages, hLog, hTable⟩ := factor_from_accesses (fun _ => 0) (fun _ => 0)
    fedAndAccessed _ (by decide) (by decide +kernel) hDump
  refine ⟨_, hDump, ?_, ?_⟩
  · have hPerm : pages.Perm [otherPage, sharedPage] := by
      refine (List.perm_ext_iff_of_nodup hNodup (by decide)).mpr (fun k => ?_)
      rw [hPages, ← (counted_together (fun _ => 0) (fun _ => 0) fedAndAccessed k).live]
      change k ∈ (together (fun _ => 0) (fun _ => 0) fedAndAccessed).pageAccessMap.keys ↔ _
      rw [BoundedMap.keys, hEntries]
      rfl
    have hCounts := (hPerm.map (fun k =>
      (accesses (instants (fun _ => 0) (fun _ => 0) fedAndAccessed) k : Int))).filter (· < 1000)
    have hReads : ([otherPage, sharedPage].map (fun k =>
        (accesses (instants (fun _ => 0) (fun _ => 0) fedAndAccessed) k : Int))).filter (· < 1000) =
          [1, 3] := by decide +kernel
    rw [hReads] at hCounts
    refine (hLog HandOff.lruMetrics [] _ 0 1 rfl Nat.one_ne_zero (finds_telemetryOf 0 1 _) ?_).trans
      ?_
    · rintro hNone
      rw [hNone] at hCounts
      exact absurd hCounts.length_eq (by decide)
    · rw [workingSetSplit_perm hCounts]
      decide +kernel
  · obtain ⟨t, hRead, hLookup⟩ := hTable hDistinct {7}
    have hCount : accesses (instants (fun _ => 0) (fun _ => 0) fedAndAccessed) sharedPage = 3 := by
      decide +kernel
    refine ⟨t, hRead, ?_⟩
    refine (hLookup sharedPage ((hPages sharedPage).mpr (by decide +kernel)) 7 1 (by decide +kernel)
      (by decide)).trans ?_
    rw [hCount]
    rfl

end Ebacs.TelWsf
