import Ebacs.Avgscale.Owners
import Ebacs.HandOff.Safety
import Ebacs.TelWsf.Controller

/-! # The hash seed of the kernel

The kernel seeds the hash of each table anew, so the same accesses are
enumerated in another order every time the programs are loaded. The tables
hold the same all the same, a complete dump lists the same lines in another
order, and neither the split nor the factor depends on that order.
-/
namespace Ebacs.TelWsf
open Lib PageAccess Snapshot
open Avgscale (snapshotText readSnapshot readSnapshot_snapshotText PageTable record foldl_record
  foldl_record_untracked pages ofPid lookup_pages mem_pages pageText)
open HandOff (readAccessCounts_snapshotText)
set_option autoImplicit false

/-- The maps of two runs hold the same, whatever their buckets are. -/
structure SameMaps (s s' : Maps) : Prop where
  pages : ∀ k, s.pageAccessMap.lookupElem k = s'.pageAccessMap.lookupElem k
  pids : ∀ pid, s.pidMap.lookupElem pid = s'.pidMap.lookupElem pid
  counter : counterValue s = counterValue s'

theorem mem_iff_of_lookupElem {κ ν : Type} [DecidableEq κ] {n : Nat} {m m' : BoundedMap κ ν n}
    (h : ∀ k, m.lookupElem k = m'.lookupElem k) (k : κ) : k ∈ m ↔ k ∈ m' := by
  rw [BoundedMap.mem_iff_lookupElem, BoundedMap.mem_iff_lookupElem, h]

section Steps

variable {s s' : Maps}

theorem SameMaps.addPid (h : SameMaps s s') (pid : Pid) :
    SameMaps (addPid s pid) (addPid s' pid) := by
  have hMem := mem_iff_of_lookupElem h.pids
  refine ⟨h.pages, ?_, h.counter⟩
  intro k
  simp only [PageAccess.addPid, BoundedMap.lookupElem_updateElem, h.pids k, hMem pid,
    BoundedMap.size_eq_of_mem_iff hMem]

theorem SameMaps.accessed (h : SameMaps s s') (pidTgid : UInt64) (f1 : Folio) :
    accessed s pidTgid f1 = accessed s' pidTgid f1 := by
  have hSize := BoundedMap.size_eq_of_mem_iff (mem_iff_of_lookupElem h.pages)
  rw [PageAccess.accessed, PageAccess.accessed, h.pages, hSize, h.counter]
  cases s'.pageAccessMap.lookupElem f1.key with
  | none => rfl
  | some v =>
    dsimp only
    rw [touched, touched, h.counter]

theorem SameMaps.folioMarkAccessed (h : SameMaps s s') (pidTgid : UInt64) (f1 : Folio) :
    SameMaps (folioMarkAccessed s pidTgid f1) (folioMarkAccessed s' pidTgid f1) := by
  have hMem := mem_iff_of_lookupElem h.pids (currentPid pidTgid)
  by_cases hPid : currentPid pidTgid ∈ s.pidMap
  · obtain ⟨hPids, hCounter, hPages⟩ := folioMarkAccessed_tracked f1 hPid
    obtain ⟨hPids', hCounter', hPages'⟩ := folioMarkAccessed_tracked f1 (hMem.mp hPid)
    refine ⟨?_, ?_, ?_⟩
    · intro k
      rw [hPages, hPages', h.pages, h.accessed]
    · rw [hPids, hPids']
      exact h.pids
    · rw [hCounter, hCounter', h.counter]
  · rw [folioMarkAccessed_untracked f1 hPid, folioMarkAccessed_untracked f1 (hMem.not.mp hPid)]
    exact h

theorem SameMaps.filemapFreeFolio (h : SameMaps s s') (pidTgid tmpMapping : UInt64)
    (f1 : Folio) :
    SameMaps (filemapFreeFolio s pidTgid tmpMapping f1)
      (filemapFreeFolio s' pidTgid tmpMapping f1) := by
  refine ⟨?_, ?_, ?_⟩
  · intro k
    rw [lookupElem_filemapFreeFolio, lookupElem_filemapFreeFolio, h.pages]
  · rw [filemapFreeFolio_pidMap, filemapFreeFolio_pidMap]
    exact h.pids
  · rw [filemapFreeFolio_counter, filemapFreeFolio_counter, h.counter]

theorem SameMaps.step (h : SameMaps s s') (e : Event) : SameMaps (step s e) (step s' e) := by
  cases e with
  | addPid pid => exact h.addPid pid
  | folioMarkAccessed pidTgid f1 => exact h.folioMarkAccessed pidTgid f1
  | filemapFreeFolio pidTgid tmpMapping f1 => exact h.filemapFreeFolio pidTgid tmpMapping f1

end Steps

theorem sameMaps_run (pageBucket pageBucket' : PageKey → Nat) (pidBucket pidBucket' : Pid → Nat)
    (es : List Event) :
    SameMaps (PageAccess.run pageBucket pidBucket es)
      (PageAccess.run pageBucket' pidBucket' es) := by
  induction es using List.reverseRecOn with
  | nil => exact ⟨fun _ => rfl, fun _ => rfl, rfl⟩
  | append_singleton es e ih =>
    rw [PageAccess.run, PageAccess.run, List.foldl_append, List.foldl_append]
    exact ih.step e

/-- A pass of the dump loop over an unchanging map that has come to its end. -/
def Dumped (m : PageAccessMap) (p : Pass) : Prop :=
  p.phase = .finished ∧ ∃ n, (Pass.step m)^[n] Pass.start = p

def dumpText (p : Pass) : Text := (p.lines.map Prod.snd).flatten

theorem exists_dumped {m : PageAccessMap} (h : zeroKey ∉ m) :
    Dumped m ⟨.finished, m.entries.map entryLine⟩ := by
  have hNext := BoundedMap.getNextKey_absent h
  refine ⟨rfl, ?_⟩
  cases hEntries : m.entries with
  | nil =>
    rw [BoundedMap.keys, hEntries] at hNext
    refine ⟨1, ?_⟩
    simp [Pass.step, Pass.start, hNext]
  | cons e rest =>
    obtain ⟨k, v⟩ := e
    rw [BoundedMap.keys, hEntries] at hNext
    have hMem : (k, v) ∈ m.entries := hEntries ▸ List.mem_cons_self
    have hFirst : Pass.step m Pass.start = ⟨.lookup k, []⟩ := by
      simp only [Pass.step, Pass.start, hNext, List.map_cons, List.head?_cons]
    refine ⟨2 * rest.length + 1 + 1 + 1, ?_⟩
    rw [Function.iterate_succ_apply, Function.iterate_succ_apply, hFirst, step_lookup hMem,
      iterate_from_entry m rest [] (k, v) hEntries]
    rfl

/-- A dump without the zero key lists the entries in the order of the table. -/
theorem Dumped.eq_entries {m : PageAccessMap} {p : Pass} (h : Dumped m p) (hZero : zeroKey ∉ m) :
    p = ⟨.finished, m.entries.map entryLine⟩ := by
  obtain ⟨hFinished, n, hp⟩ := h
  obtain ⟨_, n', hp'⟩ := exists_dumped hZero
  exact finished_unique hp hp' hFinished rfl

theorem Dumped.text_eq {m : PageAccessMap} {p : Pass} (h : Dumped m p) (hZero : zeroKey ∉ m) :
    dumpText p = snapshotText m.entries := by
  rw [h.eq_entries hZero, dumpText, List.map_map]
  rfl

theorem workingSetSplit_perm {counts counts' : List Int} (h : counts.Perm counts') :
    workingSetSplit counts = workingSetSplit counts' := by
  have hIndex : splitIndex counts = splitIndex counts' := by
    rw [splitIndex, splitIndex, splitBreak, splitBreak, descending_eq_of_perm h, totalAccesses,
      totalAccesses, h.sum_eq]
  rw [workingSetSplit, workingSetSplit, hIndex, h.length_eq]

/-- No two pages of one process have the same text. -/
def PagesDistinct (m : PageAccessMap) : Prop :=
  ∀ pid, ((ofPid pid m.entries).map (fun e => pageText e.1)).Nodup

theorem lookup_pages_perm {entries entries' : List (PageKey × Metric)}
    (hPerm : entries.Perm entries') (hNodup : (entries.map (fun e => pageText e.1)).Nodup)
    (page : Text) : (pages entries ∅).lookup page = (pages entries' ∅).lookup page := by
  have hNodup' : (entries'.map (fun e => pageText e.1)).Nodup := (hPerm.map _).nodup_iff.mp hNodup
  by_cases hPage : page ∈ entries.map (fun e => pageText e.1)
  · obtain ⟨e, he, rfl⟩ := List.mem_map.mp hPage
    rw [lookup_pages hNodup he, lookup_pages hNodup' (hPerm.subset he)]
  · have hPage' : page ∉ entries'.map (fun e => pageText e.1) := by
      rwa [← (hPerm.map _).mem_iff]
    have hNone : ∀ l : List (PageKey × Metric), page ∉ l.map (fun e => pageText e.1) →
        (pages l ∅).lookup page = none := by
      intro l hl
      rw [AList.lookup_eq_none, mem_pages]
      rintro (hMem | hMem)
      · exact AList.notMem_empty _ hMem
      · exact hl hMem
    rw [hNone _ hPage, hNone _ hPage']

theorem lookup_tables_perm {entries entries' : List (PageKey × Metric)}
    (hPerm : entries.Perm entries') (trackedPids : Finset Int) {pid : Int}
    (hNodup : ((ofPid pid entries).map (fun e => pageText e.1)).Nodup) (page : Text) :
    (entries.foldl (record trackedPids) (fun _ => ∅) pid).lookup page =
      (entries'.foldl (record trackedPids) (fun _ => ∅) pid).lookup page := by
  by_cases hPid : pid ∈ trackedPids
  · rw [foldl_record hPid, foldl_record hPid]
    exact lookup_pages_perm (hPerm.filter _) hNodup page
  · rw [foldl_record_untracked hPid, foldl_record_untracked hPid]

/-- Under any two seeds the same events lead to complete dumps with the same lines in some order.
`tel_wsf.py` takes the same counts from them, with the same split and factor, and `get_avgscale.py`
the same tables as long as the pages of each process differ in their text. -/
theorem snapshots_seed_independent (pageBucket pageBucket' : PageKey → Nat)
    (pidBucket pidBucket' : Pid → Nat) (es : List Event)
    (hZero : zeroKey ∉ (PageAccess.run pageBucket pidBucket es).pageAccessMap) :
    let m := (PageAccess.run pageBucket pidBucket es).pageAccessMap
    let m' := (PageAccess.run pageBucket' pidBucket' es).pageAccessMap
    (∃ p, Dumped m p) ∧ (∃ p', Dumped m' p') ∧
    ∀ p p', Dumped m p → Dumped m' p' →
      p.lines.Perm p'.lines ∧
      (∃ counts counts', HandOff.readAccessCounts (dumpText p) = some counts ∧
        HandOff.readAccessCounts (dumpText p') = some counts' ∧ counts.Perm counts' ∧
        workingSetSplit counts = workingSetSplit counts' ∧
        ∀ freePages totalPages carried,
          nextFactor freePages totalPages (workingSetSplit counts) carried =
            nextFactor freePages totalPages (workingSetSplit counts') carried) ∧
      (PagesDistinct m → ∀ trackedPids, ∃ t t',
        readSnapshot trackedPids (dumpText p) = some t ∧
        readSnapshot trackedPids (dumpText p') = some t' ∧
        ∀ pid page, (t pid).lookup page = (t' pid).lookup page) := by
  intro m m'
  have hSame := sameMaps_run pageBucket pageBucket' pidBucket pidBucket' es
  have hZero' : zeroKey ∉ m' := (mem_iff_of_lookupElem hSame.pages zeroKey).not.mp hZero
  have hPerm : m.entries.Perm m'.entries := BoundedMap.perm_entries hSame.pages
  refine ⟨⟨_, exists_dumped hZero⟩, ⟨_, exists_dumped hZero'⟩, fun p p' hDump hDump' => ?_⟩
  rw [hDump.text_eq hZero, hDump'.text_eq hZero']
  refine ⟨?_, ?_, fun hDistinct trackedPids => ?_⟩
  · rw [hDump.eq_entries hZero, hDump'.eq_entries hZero']
    exact hPerm.map entryLine
  · have hCounts := (hPerm.map (fun e => Avgscale.writtenCount e.2)).filter (· < 1000)
    have hSplit := workingSetSplit_perm hCounts
    refine ⟨_, _, readAccessCounts_snapshotText _, readAccessCounts_snapshotText _, hCounts,
      hSplit, ?_⟩
    intro freePages totalPages carried
    rw [hSplit]
  · refine ⟨_, _, readSnapshot_snapshotText trackedPids _, readSnapshot_snapshotText trackedPids _,
      ?_⟩
    intro pid page
    exact lookup_tables_perm hPerm trackedPids (hDistinct pid) page

/-- Two seeds that enumerate two pages in opposite orders. -/
theorem snapshots_seed_independent_twoPages :
    let es := [.addPid 7, Avgscale.accessOf 0, Avgscale.accessOf 1, Avgscale.accessOf 1]
    ∃ p p', Dumped (PageAccess.run (fun k => k.index.toNat) (fun _ => 0) es).pageAccessMap p ∧
      Dumped (PageAccess.run (fun k => 1 - k.index.toNat) (fun _ => 0) es).pageAccessMap p' ∧
      p.lines ≠ p'.lines ∧ p.lines.Perm p'.lines := by
  intro es
  have hZero : zeroKey ∉
      (PageAccess.run (fun k => k.index.toNat) (fun _ => 0) es).pageAccessMap := by decide
  have hZero' : zeroKey ∉
      (PageAccess.run (fun k => 1 - k.index.toNat) (fun _ => 0) es).pageAccessMap := by decide
  have hDump := exists_dumped hZero
  have hDump' := exists_dumped hZero'
  obtain ⟨_, _, hSame⟩ := snapshots_seed_independent (fun k => k.index.toNat)
    (fun k => 1 - k.index.toNat) (fun _ => 0) (fun _ => 0) es hZero
  exact ⟨_, _, hDump, hDump', by decide +kernel, (hSame _ _ hDump hDump').1⟩

end Ebacs.TelWsf
