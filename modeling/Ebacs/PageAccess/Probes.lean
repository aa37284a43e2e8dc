import Ebacs.Lib.BoundedMap
import Ebacs.Lib.Trace

/-! # The page access probes

Both kernel probes of `kprobe.bpf.c` over the three maps they share. A pointer
returned by a map lookup is a name for the element of its key, so a store
through it is a modification of that element in place.
-/
namespace Ebacs.PageAccess
open Lib
set_option autoImplicit false

abbrev Pid := Int32

structure PageKey where
  mapping : UInt64
  index : UInt64
  deriving DecidableEq, Repr

structure Metric where
  refCount : UInt64
  rank : UInt64
  pageCount : UInt64
  pid : Pid
  deriving DecidableEq, Repr

/-- The fields of `struct folio` that the probes read. -/
structure Folio where
  mapping : UInt64
  index : UInt64
  folioNrPages : UInt32
  deriving DecidableEq, Repr

abbrev maxPages : Nat := 409600

abbrev maxPids : Nat := 120

abbrev PageAccessMap := BoundedMap PageKey Metric maxPages

abbrev PidMap := BoundedMap Pid UInt8 maxPids

abbrev StaticCounter := Vector UInt64 1

def counterCell (n : UInt64) : StaticCounter := #v[n]

def cellValue (cell : StaticCounter) : UInt64 := cell[0]

structure Maps where
  pageAccessMap : PageAccessMap
  staticCounter : StaticCounter
  pidMap : PidMap

/-- The maps as they are loaded; the two hash seeds are the kernel's. -/
def Maps.init (pageBucket : PageKey → Nat) (pidBucket : Pid → Nat) : Maps :=
  ⟨.empty pageBucket, counterCell 0, .empty pidBucket⟩

/-- `bpf_get_current_pid_tgid() >> 32` as a `pid_t` -/
def currentPid (pidTgid : UInt64) : Pid := (pidTgid >>> 32).toUInt32.toInt32

def Folio.key (f1 : Folio) : PageKey := ⟨f1.mapping, f1.index⟩

def rankIndex : UInt32 := 0

def bumpCounter (s : Maps) : Maps × Option UInt64 :=
  match s.staticCounter[rankIndex.toNat]? with
  | some counter =>
    ({ s with staticCounter := s.staticCounter.setIfInBounds rankIndex.toNat (counter + 1) },
      some (counter + 1))
  | none => (s, none)

def Maps.store (s : Maps) (key : PageKey) (f : Metric → Metric) : Maps :=
  { s with pageAccessMap := s.pageAccessMap.modify key f }

/-- `bpf_map_update_elem(&page_access_map, ..., BPF_ANY)`, its result ignored. -/
def Maps.updatePage (s : Maps) (key : PageKey) (value : Metric) : Maps :=
  { s with pageAccessMap := (s.pageAccessMap.updateElem key value).getD s.pageAccessMap }

def folioMarkAccessed (s : Maps) (pidTgid : UInt64) (f1 : Folio) : Maps :=
  let pid := currentPid pidTgid
  match s.pidMap.lookupElem pid with
  | none => s
  | some _ =>
    let key := f1.key
    let pageCount := f1.folioNrPages.toUInt64
    match s.pageAccessMap.lookupElem key with
    | none =>
      let newCount : Metric := { refCount := 1, rank := 0, pageCount := pageCount, pid := pid }
      let (s, counter) := bumpCounter s
      match counter with
      | some rank => s.updatePage key { newCount with rank := rank }
      | none => s.updatePage key newCount
    | some _ =>
      let s := s.store key (fun a => { a with refCount := a.refCount + 1 })
      let (s, counter) := bumpCounter s
      let s := match counter with
        | some rank => s.store key (fun a => { a with pid := pid, rank := rank })
        | none => s
      let s := s.store key (fun a => { a with pageCount := pageCount })
      match s.pageAccessMap.lookupElem key with
      | some accessCount => s.updatePage key accessCount
      | none => s

/-- The mapping is an argument here, only the index is read from the folio. -/
def filemapFreeFolio (s : Maps) (_pidTgid : UInt64) (tmpMapping : UInt64) (f1 : Folio) : Maps :=
  let key : PageKey := ⟨tmpMapping, f1.index⟩
  match s.pageAccessMap.lookupElem key with
  | none => s
  | some _ => { s with pageAccessMap := s.pageAccessMap.deleteElem key }

def addPid (s : Maps) (pid : Pid) : Maps :=
  { s with pidMap := (s.pidMap.updateElem pid 1).getD s.pidMap }

inductive Event where
  | addPid (pid : Pid)
  | folioMarkAccessed (pidTgid : UInt64) (f1 : Folio)
  | filemapFreeFolio (pidTgid : UInt64) (tmpMapping : UInt64) (f1 : Folio)
  deriving DecidableEq, Repr

def step (s : Maps) : Event → Maps
  | .addPid pid => addPid s pid
  | .folioMarkAccessed pidTgid f1 => folioMarkAccessed s pidTgid f1
  | .filemapFreeFolio pidTgid tmpMapping f1 => filemapFreeFolio s pidTgid tmpMapping f1

def counterValue (s : Maps) : UInt64 := cellValue s.staticCounter

theorem bumpCounter_eq (s : Maps) :
    bumpCounter s =
      ({ s with staticCounter := counterCell (counterValue s + 1) }, some (counterValue s + 1)) := by
  obtain ⟨page, ⟨⟨counter⟩, hSize⟩, pids⟩ := s
  match counter, hSize with
  | [_], _ => rfl

theorem folioMarkAccessed_untracked {s : Maps} {pidTgid : UInt64} (f1 : Folio)
    (h : currentPid pidTgid ∉ s.pidMap) : folioMarkAccessed s pidTgid f1 = s := by
  rw [folioMarkAccessed, BoundedMap.lookupElem_eq_none_iff.mpr h]

theorem folioMarkAccessed_absent {s : Maps} {pidTgid : UInt64} {f1 : Folio}
    (h : currentPid pidTgid ∈ s.pidMap) (hKey : s.pageAccessMap.lookupElem f1.key = none) :
    folioMarkAccessed s pidTgid f1 =
      { s with staticCounter := counterCell (counterValue s + 1) : Maps }.updatePage f1.key
        ⟨1, counterValue s + 1, f1.folioNrPages.toUInt64, currentPid pidTgid⟩ := by
  obtain ⟨flag, hFlag⟩ := BoundedMap.mem_iff_lookupElem.mp h
  simp only [folioMarkAccessed, hFlag, hKey, bumpCounter_eq]

/-- What the stores through the pointer make of the element before it is stored again. -/
def touched (s : Maps) (pidTgid : UInt64) (f1 : Folio) (v : Metric) : Metric :=
  ⟨v.refCount + 1, counterValue s + 1, f1.folioNrPages.toUInt64, currentPid pidTgid⟩

theorem folioMarkAccessed_present {s : Maps} {pidTgid : UInt64} {f1 : Folio} {v : Metric}
    (h : currentPid pidTgid ∈ s.pidMap) (hKey : s.pageAccessMap.lookupElem f1.key = some v) :
    folioMarkAccessed s pidTgid f1 =
      { s with
        staticCounter := counterCell (counterValue s + 1)
        pageAccessMap := s.pageAccessMap.modify f1.key (touched s pidTgid f1) : Maps }.updatePage
        f1.key (touched s pidTgid f1 v) := by
  obtain ⟨flag, hFlag⟩ := BoundedMap.mem_iff_lookupElem.mp h
  simp only [folioMarkAccessed, hFlag, hKey, bumpCounter_eq, Maps.store,
    BoundedMap.modify_modify, BoundedMap.lookupElem_modify, if_true, Option.map_some]
  rfl

def accessed (s : Maps) (pidTgid : UInt64) (f1 : Folio) : Option Metric :=
  match s.pageAccessMap.lookupElem f1.key with
  | none =>
    if s.pageAccessMap.size < maxPages then
      some ⟨1, counterValue s + 1, f1.folioNrPages.toUInt64, currentPid pidTgid⟩
    else none
  | some v => some (touched s pidTgid f1 v)

theorem folioMarkAccessed_tracked {s : Maps} {pidTgid : UInt64} (f1 : Folio)
    (h : currentPid pidTgid ∈ s.pidMap) :
    (folioMarkAccessed s pidTgid f1).pidMap = s.pidMap ∧
    counterValue (folioMarkAccessed s pidTgid f1) = counterValue s + 1 ∧
    ∀ k, (folioMarkAccessed s pidTgid f1).pageAccessMap.lookupElem k =
      if k = f1.key then accessed s pidTgid f1 else s.pageAccessMap.lookupElem k := by
  rw [accessed]
  cases hKey : s.pageAccessMap.lookupElem f1.key with
  | none =>
    have hAbsent := BoundedMap.lookupElem_eq_none_iff.mp hKey
    rw [folioMarkAccessed_absent h hKey]
    refine ⟨rfl, rfl, fun k => ?_⟩
    simp only [Maps.updatePage, BoundedMap.lookupElem_updateElem]
    by_cases hk : k = f1.key
    · by_cases hRoom : s.pageAccessMap.size < maxPages <;> simp [hk, hRoom, hAbsent, hKey]
    · simp [hk]
  | some v =>
    have hMem : f1.key ∈ s.pageAccessMap := BoundedMap.mem_iff_lookupElem.mpr ⟨v, hKey⟩
    rw [folioMarkAccessed_present h hKey]
    refine ⟨rfl, rfl, fun k => ?_⟩
    simp only [Maps.updatePage, BoundedMap.lookupElem_updateElem]
    by_cases hk : k = f1.key <;> simp [hk, hMem]

theorem lookupElem_filemapFreeFolio (s : Maps) (pidTgid tmpMapping : UInt64) (f1 : Folio)
    (k : PageKey) : (filemapFreeFolio s pidTgid tmpMapping f1).pageAccessMap.lookupElem k =
      if k = ⟨tmpMapping, f1.index⟩ then none else s.pageAccessMap.lookupElem k := by
  rw [filemapFreeFolio]
  split
  · rename_i hNone
    split
    · rename_i hk
      rw [hk, hNone]
    · rfl
  · exact BoundedMap.lookupElem_deleteElem _ _ _

@[simp] theorem filemapFreeFolio_pidMap (s : Maps) (pidTgid tmpMapping : UInt64) (f1 : Folio) :
    (filemapFreeFolio s pidTgid tmpMapping f1).pidMap = s.pidMap := by
  rw [filemapFreeFolio]
  split <;> rfl

@[simp] theorem filemapFreeFolio_counter (s : Maps) (pidTgid tmpMapping : UInt64) (f1 : Folio) :
    counterValue (filemapFreeFolio s pidTgid tmpMapping f1) = counterValue s := by
  rw [filemapFreeFolio]
  split <;> rfl

end Ebacs.PageAccess
