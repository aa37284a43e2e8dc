import Mathlib.Data.Fintype.Basic
import Ebacs.Lib.Linearization
import Ebacs.PageAccess.Probes

/-! # The probes as interleaved steps

On several CPUs a handler is a sequence of helper calls and of accesses
through the pointers these return, each one atomic. A pointer is the slot of a
map element. An update links a slot that no key is linked to and copies the
value into it, so an older pointer keeps naming the slot it was given, linked
or not, and the slot may come back under another key.
-/
namespace Ebacs.PageAccess
open Lib
set_option autoImplicit false

abbrev Slot := Nat

structure Shared where
  pageAccessMap : BoundedMap PageKey Slot maxPages
  elements : Slot → Metric
  staticCounter : StaticCounter
  pidMap : PidMap
  distinct : (pageAccessMap.entries.map Prod.snd).Nodup

namespace Shared

def value (m : Shared) (key : PageKey) : Option Metric :=
  (m.pageAccessMap.lookupElem key).map m.elements

def maps (m : Shared) : Maps :=
  ⟨m.pageAccessMap.mapValues m.elements, m.staticCounter, m.pidMap⟩

def Linked (m : Shared) (slot : Slot) : Prop := slot ∈ m.pageAccessMap.entries.map Prod.snd

instance (m : Shared) (slot : Slot) : Decidable (m.Linked slot) :=
  inferInstanceAs (Decidable (slot ∈ m.pageAccessMap.entries.map Prod.snd))

def store (m : Shared) (slot : Slot) (f : Metric → Metric) : Shared :=
  { m with elements := Function.update m.elements slot (f (m.elements slot)) }

def deletePage (m : Shared) (key : PageKey) : Shared where
  pageAccessMap := m.pageAccessMap.deleteElem key
  elements := m.elements
  staticCounter := m.staticCounter
  pidMap := m.pidMap
  distinct := m.distinct.sublist (List.filter_sublist.map _)

/-- `BPF_ANY` into a slot that is not linked. A full map refuses a new key. -/
def updatePage (m : Shared) (key : PageKey) (v : Metric) (slot : Slot)
    (hSlot : ¬m.Linked slot) : Shared :=
  if h : key ∈ m.pageAccessMap ∨ m.pageAccessMap.size < maxPages then
    { pageAccessMap := m.pageAccessMap.put key slot h
      elements := Function.update m.elements slot v
      staticCounter := m.staticCounter
      pidMap := m.pidMap
      distinct := by
        have hPerm := (List.perm_orderedInsert
          (fun a b => m.pageAccessMap.bucket a.1 ≤ m.pageAccessMap.bucket b.1) (key, slot)
          (m.pageAccessMap.deleteElem key).entries).map Prod.snd
        refine hPerm.nodup_iff.mpr (List.nodup_cons.mpr ⟨?_, (m.deletePage key).distinct⟩)
        intro hMem
        exact hSlot ((List.filter_sublist.map Prod.snd).subset hMem) }
  else m

end Shared

inductive Call where
  | folioMarkAccessed (pidTgid : UInt64) (f1 : Folio)
  | filemapFreeFolio (pidTgid : UInt64) (tmpMapping : UInt64) (f1 : Folio)
  deriving DecidableEq, Repr

def Call.event : Call → Event
  | .folioMarkAccessed pidTgid f1 => .folioMarkAccessed pidTgid f1
  | .filemapFreeFolio pidTgid tmpMapping f1 => .filemapFreeFolio pidTgid tmpMapping f1

inductive Pc where
  | lookupPid
  | lookupPage
  | insertLookupCounter
  | insertIncrementCounter
  | insertReadRank
  | insert (rank : UInt64)
  | incrementRefCount (slot : Slot)
  | lookupCounter (slot : Slot)
  | incrementCounter (slot : Slot)
  | storePid (slot : Slot)
  | storeRank (slot : Slot)
  | storePageCount (slot : Slot)
  | update (slot : Slot)
  | lookupFreed
  | delete
  | done
  deriving DecidableEq, Repr

def Call.start : Call → Pc
  | .folioMarkAccessed _ _ => .lookupPid
  | .filemapFreeFolio _ _ _ => .lookupFreed

def Shared.incrementCounter (m : Shared) : Shared :=
  { m with staticCounter := counterCell (cellValue m.staticCounter + 1) }

/-- `slot` is the element that an update is given; a linked one is never handed out. -/
def accessStep (pidTgid : UInt64) (f1 : Folio) (slot : Slot) (m : Shared) : Pc → Pc × Shared
  | .lookupPid =>
    match m.pidMap.lookupElem (currentPid pidTgid) with
    | none => (.done, m)
    | some _ => (.lookupPage, m)
  | .lookupPage =>
    match m.pageAccessMap.lookupElem f1.key with
    | none => (.insertLookupCounter, m)
    | some accessCount => (.incrementRefCount accessCount, m)
  | .insertLookupCounter =>
    match m.staticCounter[rankIndex.toNat]? with
    | some _ => (.insertIncrementCounter, m)
    | none => (.insert 0, m)
  | .insertIncrementCounter => (.insertReadRank, m.incrementCounter)
  | .insertReadRank => (.insert (cellValue m.staticCounter), m)
  | .insert rank =>
    if h : m.Linked slot then (.insert rank, m)
    else (.done, m.updatePage f1.key
      ⟨1, rank, f1.folioNrPages.toUInt64, currentPid pidTgid⟩ slot h)
  | .incrementRefCount accessCount =>
    (.lookupCounter accessCount,
      m.store accessCount (fun a => { a with refCount := a.refCount + 1 }))
  | .lookupCounter accessCount =>
    match m.staticCounter[rankIndex.toNat]? with
    | some _ => (.incrementCounter accessCount, m)
    | none => (.storePageCount accessCount, m)
  | .incrementCounter accessCount => (.storePid accessCount, m.incrementCounter)
  | .storePid accessCount =>
    (.storeRank accessCount, m.store accessCount (fun a => { a with pid := currentPid pidTgid }))
  | .storeRank accessCount =>
    -- `*counter` is read again, so it may show the increments of other calls
    (.storePageCount accessCount,
      m.store accessCount (fun a => { a with rank := cellValue m.staticCounter }))
  | .storePageCount accessCount =>
    (.update accessCount,
      m.store accessCount (fun a => { a with pageCount := f1.folioNrPages.toUInt64 }))
  | .update accessCount =>
    if h : m.Linked slot then (.update accessCount, m)
    else (.done, m.updatePage f1.key (m.elements accessCount) slot h)
  | pc => (pc, m)

def freeStep (tmpMapping : UInt64) (f1 : Folio) (m : Shared) : Pc → Pc × Shared
  | .lookupFreed =>
    match m.pageAccessMap.lookupElem ⟨tmpMapping, f1.index⟩ with
    | none => (.done, m)
    | some _ => (.delete, m)
  | .delete => (.done, m.deletePage ⟨tmpMapping, f1.index⟩)
  | pc => (pc, m)

def Call.advance (slot : Slot) (m : Shared) (pc : Pc) : Call → Pc × Shared
  | .folioMarkAccessed pidTgid f1 => accessStep pidTgid f1 slot m pc
  | .filemapFreeFolio _ tmpMapping f1 => freeStep tmpMapping f1 m pc

structure System (n : Nat) where
  pcs : Fin n → Pc
  shared : Shared

variable {n : Nat}

def System.start (calls : Fin n → Call) (m : Shared) : System n :=
  ⟨fun i => (calls i).start, m⟩

/-- The scheduler lets call `a.1` take its next step; `a.2` is the slot an update would take. -/
def System.step (calls : Fin n → Call) (s : System n) (a : Fin n × Slot) : System n :=
  let next := (calls a.1).advance a.2 s.shared (s.pcs a.1)
  ⟨Function.update s.pcs a.1 next.1, next.2⟩

def System.run (calls : Fin n → Call) (m : Shared) (schedule : List (Fin n × Slot)) : System n :=
  schedule.foldl (System.step calls) (System.start calls m)

/-- The keys and counts are those of the calls run one after the other in some order. -/
def Serializable (calls : Fin n → Call) (m : Shared) (s : System n) : Prop :=
  ∃ order : List (Fin n), order.Perm (List.finRange n) ∧
    ∀ k, (s.shared.value k).map Metric.refCount =
      ((order.foldl (fun t i => PageAccess.step t (calls i).event) m.maps).pageAccessMap.lookupElem
        k).map Metric.refCount

end Ebacs.PageAccess
