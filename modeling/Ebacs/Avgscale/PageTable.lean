import Mathlib.Algebra.Ring.Nat
import Mathlib.Data.List.AList
import Mathlib.Logic.Function.Basic
import Ebacs.Snapshot.DumpLoop

/-! # Reading a snapshot back into per-process page tables

The file loop of `get_avgscale.py`: each line of three fields sets the count
of a page, named by the text of its hash, in the table of its PID. A page
whose hash equals that of an earlier page of the same PID takes its place.
-/
namespace Ebacs.Avgscale
open Lib PageAccess Snapshot
set_option autoImplicit false

abbrev Pages := AList (fun _ : Text => Int)

/-- `defaultdict(dict)`, keyed by PID -/
abbrev PageTable := Int → Pages

def PageTable.set (t : PageTable) (pid : Int) (pageIndex : Text) (accessCount : Int) : PageTable :=
  Function.update t pid ((t pid).insert pageIndex accessCount)

/-- `none` is the ValueError of a field that is no integer. -/
def readLine (trackedPids : Finset Int) (t : PageTable) (line : Text) : Option PageTable :=
  match words (strip line) with
  | [pageIndex, pid, accessCount] => do
    let pid ← int? pid
    let accessCount ← int? accessCount
    if pid ∈ trackedPids then some (t.set pid pageIndex accessCount) else some t
  | _ => some t

def readSnapshot (trackedPids : Finset Int) (file : Text) : Option PageTable :=
  (fileLines file).foldlM (readLine trackedPids) (fun _ => ∅)

/-- The file that the dump loop writes for these entries, in this order. -/
def snapshotText (entries : List (PageKey × Metric)) : Text :=
  (entries.map (fun e => dumpLine e.1 e.2)).flatten

def pageText (key : PageKey) : Text := hex (hashIndexMapping key.index key.mapping).toNat

def writtenCount (value : Metric) : Int := value.refCount.toInt64.toInt

def record (trackedPids : Finset Int) (t : PageTable) (e : PageKey × Metric) : PageTable :=
  if e.2.pid.toInt ∈ trackedPids then t.set e.2.pid.toInt (pageText e.1) (writtenCount e.2)
  else t

theorem readLine_dumpLine (trackedPids : Finset Int) (t : PageTable) (e : PageKey × Metric) :
    readLine trackedPids t (dumpLine e.1 e.2) = some (record trackedPids t e) := by
  rw [readLine, dumpLine,
    words_strip_record (isWord_hex _) (isWord_decimal _) (isWord_decimal _)]
  simp only [int?_decimal, record, pageText, writtenCount]
  change (if _ then _ else _) = _
  split <;> rfl

def lineBody (e : PageKey × Metric) : Text :=
  pageText e.1 ++ ' ' :: (decimal e.2.pid.toInt ++ ' ' :: (decimal (writtenCount e.2) ++ [' ']))

theorem dumpLine_eq (e : PageKey × Metric) : dumpLine e.1 e.2 = lineBody e ++ ['\n'] := by
  simp [dumpLine, lineBody, pageText, writtenCount]

theorem newline_not_mem_lineBody (e : PageKey × Metric) : '\n' ∉ lineBody e := by
  have hNot : ∀ t : Text, IsWord t → '\n' ∉ t := by
    intro t ht hMem
    exact absurd (ht.no_space '\n' hMem) (by decide)
  simp only [lineBody, List.mem_append, List.mem_cons, List.not_mem_nil, or_false, not_or]
  exact ⟨hNot _ (isWord_hex _), by decide, hNot _ (isWord_decimal _), by decide,
    hNot _ (isWord_decimal _), by decide⟩

theorem map_dumpLine (entries : List (PageKey × Metric)) :
    entries.map (fun e => dumpLine e.1 e.2) = (entries.map lineBody).map (· ++ ['\n']) := by
  rw [List.map_map]
  exact List.map_congr_left (fun e _ => dumpLine_eq e)

theorem fileLines_snapshotText (entries : List (PageKey × Metric)) :
    fileLines (snapshotText entries) = entries.map (fun e => dumpLine e.1 e.2) := by
  have hBodies : Bodies '\n' (entries.map lineBody) := by
    intro body hBody
    obtain ⟨e, _, rfl⟩ := List.mem_map.mp hBody
    exact newline_not_mem_lineBody e
  rw [snapshotText, map_dumpLine]
  exact fileLines_unlines hBodies

theorem readSnapshot_snapshotText (trackedPids : Finset Int)
    (entries : List (PageKey × Metric)) :
    readSnapshot trackedPids (snapshotText entries) =
      some (entries.foldl (record trackedPids) (fun _ => ∅)) := by
  rw [readSnapshot, fileLines_snapshotText]
  generalize (fun _ => ∅ : PageTable) = t
  induction entries generalizing t with
  | nil => rfl
  | cons e entries ih =>
    rw [List.map_cons, List.foldlM_cons, readLine_dumpLine]
    exact ih _

def ofPid (p : Int) (entries : List (PageKey × Metric)) : List (PageKey × Metric) :=
  entries.filter (fun e => e.2.pid.toInt = p)

def pages (entries : List (PageKey × Metric)) (start : Pages) : Pages :=
  entries.foldl (fun ps e => ps.insert (pageText e.1) (writtenCount e.2)) start

theorem foldl_record {trackedPids : Finset Int} {p : Int} (hp : p ∈ trackedPids)
    (entries : List (PageKey × Metric)) (t : PageTable) :
    entries.foldl (record trackedPids) t p = pages (ofPid p entries) (t p) := by
  induction entries generalizing t with
  | nil => rfl
  | cons e entries ih =>
    rw [List.foldl_cons, ih, ofPid, ofPid, List.filter_cons]
    by_cases hPid : e.2.pid.toInt = p
    · subst hPid
      simp [record, hp, PageTable.set, pages]
    · have hSame : record trackedPids t e p = t p := by
        rw [record]
        split
        · exact Function.update_of_ne (fun hEq => hPid hEq.symm) _ _
        · rfl
      simp [hPid, hSame]

theorem mem_pages {entries : List (PageKey × Metric)} {start : Pages} {page : Text} :
    page ∈ pages entries start ↔ page ∈ start ∨ page ∈ entries.map (fun e => pageText e.1) := by
  induction entries generalizing start with
  | nil => simp [pages]
  | cons e entries ih =>
    rw [pages, List.foldl_cons]
    change page ∈ pages entries _ ↔ _
    rw [ih, AList.mem_insert, List.map_cons, List.mem_cons]
    tauto

theorem lookup_pages {entries : List (PageKey × Metric)}
    (hNodup : (entries.map (fun e => pageText e.1)).Nodup) {e : PageKey × Metric}
    (he : e ∈ entries) (start : Pages) :
    (pages entries start).lookup (pageText e.1) = some (writtenCount e.2) := by
  induction entries using List.reverseRecOn with
  | nil => cases he
  | append_singleton entries last ih =>
    rw [List.map_append, List.map_singleton, List.nodup_append] at hNodup
    obtain ⟨hInit, _, hLast⟩ := hNodup
    rw [pages, List.foldl_append, List.foldl_cons, List.foldl_nil]
    rcases List.mem_append.mp he with he | he
    · have hNe := hLast _ (List.mem_map_of_mem he) _ (List.mem_singleton_self _)
      rw [AList.lookup_insert_ne hNe]
      exact ih hInit he
    · rw [List.mem_singleton.mp he]
      exact AList.lookup_insert _

theorem length_keys_pages_iff (entries : List (PageKey × Metric)) :
    (pages entries ∅).keys.length = entries.length ↔
      (entries.map (fun e => pageText e.1)).Nodup := by
  have hKeys : (pages entries ∅).keys.toFinset =
      (entries.map (fun e => pageText e.1)).toFinset := by
    ext page
    rw [List.mem_toFinset, List.mem_toFinset, ← AList.mem_keys, mem_pages]
    simp
  rw [← List.toFinset_card_of_nodup (AList.keys_nodup _), hKeys]
  constructor
  · intro hCard
    rw [← Multiset.coe_nodup, ← Multiset.toFinset_card_eq_card_iff_nodup]
    rw [Multiset.coe_card, List.length_map]
    exact hCard
  · intro hNodup
    rw [List.toFinset_card_of_nodup hNodup, List.length_map]

theorem pageText_eq_iff {a b : PageKey} :
    pageText a = pageText b ↔
      hashIndexMapping a.index a.mapping = hashIndexMapping b.index b.mapping := by
  rw [pageText, pageText, hex_injective.eq_iff, UInt64.toNat_inj]

theorem writtenCount_of_lt {value : Metric} (h : value.refCount.toNat < 2 ^ 63) :
    writtenCount value = value.refCount.toNat := by
  rw [writtenCount]
  change value.refCount.toBitVec.toInt = _
  rw [BitVec.toInt_eq_toNat_of_lt (by rw [UInt64.toNat_toBitVec]; omega)]
  rfl

end Ebacs.Avgscale
