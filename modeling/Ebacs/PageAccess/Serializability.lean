import Mathlib.Data.Fin.VecNotation
import Mathlib.Data.List.Permutation
import Ebacs.PageAccess.Interleaving

/-! # When interleaved probes act like sequential ones

An access commits at its increment, or at its insertion when it found no
entry; a free commits at its deletion, or at the lookup that found nothing.
As long as no access writes through a lookup that is out of date, every
commit acts on the table as the whole handler does and every other step
leaves the keys and the counts alone.
-/
namespace Ebacs.PageAccess
open Lib
set_option autoImplicit false

/-- The entry of the page is still the one that the access looked up. A second
insertion of an element only has to repeat the count that the map holds. -/
def Call.Current (m : Shared) : Pc → Call → Prop
  | .insert _, .folioMarkAccessed _ f1 => m.pageAccessMap.lookupElem f1.key = none
  | .incrementRefCount slot, .folioMarkAccessed _ f1 =>
    m.pageAccessMap.lookupElem f1.key = some slot
  | .update slot, .folioMarkAccessed _ f1 =>
    (m.value f1.key).map Metric.refCount = some (m.elements slot).refCount
  | _, _ => True

instance (m : Shared) : (pc : Pc) → (c : Call) → Decidable (c.Current m pc)
  | .insert _, .folioMarkAccessed _ f1 =>
    inferInstanceAs (Decidable (m.pageAccessMap.lookupElem f1.key = none))
  | .incrementRefCount slot, .folioMarkAccessed _ f1 =>
    inferInstanceAs (Decidable (m.pageAccessMap.lookupElem f1.key = some slot))
  | .update slot, .folioMarkAccessed _ f1 =>
    inferInstanceAs (Decidable ((m.value f1.key).map Metric.refCount =
      some (m.elements slot).refCount))
  | .lookupPid, _ | .lookupPage, _ | .insertLookupCounter, _ | .insertIncrementCounter, _
  | .insertReadRank, _ | .lookupCounter _, _ | .incrementCounter _, _ | .storePid _, _
  | .storeRank _, _ | .storePageCount _, _ | .lookupFreed, _ | .delete, _ | .done, _ =>
    .isTrue trivial
  | .insert _, .filemapFreeFolio _ _ _ | .incrementRefCount _, .filemapFreeFolio _ _ _
  | .update _, .filemapFreeFolio _ _ _ => .isTrue trivial

def Pc.committed : Pc → Bool
  | .lookupCounter _ | .incrementCounter _ | .storePid _ | .storeRank _ | .storePageCount _
  | .update _ | .done => true
  | _ => false

def Call.Tracked (m : Shared) : Call → Prop
  | .folioMarkAccessed pidTgid _ => currentPid pidTgid ∈ m.pidMap
  | .filemapFreeFolio _ _ _ => True

instance (m : Shared) : (c : Call) → Decidable (c.Tracked m)
  | .folioMarkAccessed pidTgid _ => inferInstanceAs (Decidable (currentPid pidTgid ∈ m.pidMap))
  | .filemapFreeFolio _ _ _ => .isTrue trivial

structure SameCounts (m : Shared) (t : Maps) : Prop where
  pids : m.pidMap = t.pidMap
  counts : ∀ k, (m.value k).map Metric.refCount =
    (t.pageAccessMap.lookupElem k).map Metric.refCount

theorem Shared.slot_unique {m : Shared} {k k' : PageKey} {slot : Slot}
    (h : m.pageAccessMap.lookupElem k = some slot)
    (h' : m.pageAccessMap.lookupElem k' = some slot) : k = k' := by
  rw [BoundedMap.lookupElem_eq_some_iff] at h h'
  exact (Prod.mk.inj (List.inj_on_of_nodup_map m.distinct h h' rfl)).1

theorem Shared.value_store (m : Shared) (slot : Slot) (f : Metric → Metric) (k : PageKey) :
    (m.store slot f).value k =
      if m.pageAccessMap.lookupElem k = some slot then (m.value k).map f else m.value k := by
  simp only [value, store]
  cases hSlot : m.pageAccessMap.lookupElem k with
  | none => rfl
  | some slot' =>
    by_cases hEq : slot' = slot
    · subst hEq
      simp
    · simp [hEq]

theorem Shared.counts_store {m : Shared} (slot : Slot) {f : Metric → Metric}
    (hf : ∀ a, (f a).refCount = a.refCount) (k : PageKey) :
    ((m.store slot f).value k).map Metric.refCount = (m.value k).map Metric.refCount := by
  rw [value_store]
  split
  · rw [Option.map_map]
    exact Option.map_congr (fun a _ => hf a)
  · rfl

theorem Shared.lookupElem_ne_of_not_linked {m : Shared} {slot : Slot} (h : ¬m.Linked slot)
    (k : PageKey) : m.pageAccessMap.lookupElem k ≠ some slot := by
  intro hSlot
  exact h (List.mem_map.mpr ⟨(k, slot), BoundedMap.lookupElem_eq_some_iff.mp hSlot, rfl⟩)

theorem Shared.value_updatePage (m : Shared) (key : PageKey) (v : Metric) (slot : Slot)
    (hSlot : ¬m.Linked slot) (k : PageKey) :
    (m.updatePage key v slot hSlot).value k =
      if k = key ∧ (key ∈ m.pageAccessMap ∨ m.pageAccessMap.size < maxPages) then some v
      else m.value k := by
  by_cases hRoom : key ∈ m.pageAccessMap ∨ m.pageAccessMap.size < maxPages
  · simp only [updatePage, hRoom, dif_pos, value, BoundedMap.lookupElem_put, and_true]
    by_cases hk : k = key
    · simp [hk]
    · rw [if_neg hk, if_neg hk]
      apply Option.map_congr
      intro slot' hSlot'
      have hNe : slot' ≠ slot := by
        rintro rfl
        exact lookupElem_ne_of_not_linked hSlot k hSlot'
      exact Function.update_of_ne hNe _ _
  · simp [updatePage, hRoom]

theorem Shared.value_deletePage (m : Shared) (key k : PageKey) :
    (m.deletePage key).value k = if k = key then none else m.value k := by
  simp only [value, deletePage, BoundedMap.lookupElem_deleteElem]
  split <;> rfl

@[simp] theorem Shared.updatePage_pidMap (m : Shared) (key : PageKey) (v : Metric) (slot : Slot)
    (hSlot : ¬m.Linked slot) : (m.updatePage key v slot hSlot).pidMap = m.pidMap := by
  rw [updatePage]
  split <;> rfl

theorem SameCounts.mem_iff {m : Shared} {t : Maps} (h : SameCounts m t) (k : PageKey) :
    k ∈ m.pageAccessMap ↔ k ∈ t.pageAccessMap := by
  rw [← not_iff_not, ← BoundedMap.lookupElem_eq_none_iff, ← BoundedMap.lookupElem_eq_none_iff,
    ← Option.map_eq_none_iff (f := Metric.refCount), ← h.counts k, Shared.value]
  simp

theorem SameCounts.size_eq {m : Shared} {t : Maps} (h : SameCounts m t) :
    m.pageAccessMap.size = t.pageAccessMap.size :=
  BoundedMap.size_eq_of_mem_iff h.mem_iff

theorem SameCounts.of_counts {m m' : Shared} {t : Maps} (h : SameCounts m t)
    (hPids : m'.pidMap = m.pidMap)
    (hCounts : ∀ k, (m'.value k).map Metric.refCount = (m.value k).map Metric.refCount) :
    SameCounts m' t :=
  ⟨hPids.trans h.pids, fun k => (hCounts k).trans (h.counts k)⟩

theorem SameCounts.increment {m : Shared} {t : Maps} {pidTgid : UInt64} {f1 : Folio} {slot : Slot}
    (h : SameCounts m t) (hPid : currentPid pidTgid ∈ m.pidMap)
    (hSlot : m.pageAccessMap.lookupElem f1.key = some slot) :
    SameCounts (m.store slot (fun a => { a with refCount := a.refCount + 1 }))
      (folioMarkAccessed t pidTgid f1) := by
  rw [h.pids] at hPid
  obtain ⟨hPids, _, hLookup⟩ := folioMarkAccessed_tracked f1 hPid
  refine ⟨h.pids.trans hPids.symm, fun k => ?_⟩
  rw [Shared.value_store, hLookup]
  by_cases hk : k = f1.key
  · have hCount := h.counts k
    rw [hk, Shared.value, hSlot] at hCount
    obtain ⟨v, hv, hRef⟩ := Option.map_eq_some_iff.mp hCount.symm
    simp [hk, hSlot, Shared.value, accessed, hv, touched, hRef]
  · rw [if_neg hk, if_neg (fun hEq => hk (Shared.slot_unique hEq hSlot))]
    exact h.counts k

theorem SameCounts.insert {m : Shared} {t : Maps} {pidTgid : UInt64} {f1 : Folio} {slot : Slot}
    {rank : UInt64} (h : SameCounts m t) (hPid : currentPid pidTgid ∈ m.pidMap)
    (hAbsent : m.pageAccessMap.lookupElem f1.key = none) (hSlot : ¬m.Linked slot) :
    SameCounts (m.updatePage f1.key
      ⟨1, rank, f1.folioNrPages.toUInt64, currentPid pidTgid⟩ slot hSlot)
      (folioMarkAccessed t pidTgid f1) := by
  rw [h.pids] at hPid
  obtain ⟨hPids, _, hLookup⟩ := folioMarkAccessed_tracked f1 hPid
  have hNotMem := BoundedMap.lookupElem_eq_none_iff.mp hAbsent
  have hAbsent' : t.pageAccessMap.lookupElem f1.key = none := by
    rw [BoundedMap.lookupElem_eq_none_iff, ← h.mem_iff]
    exact hNotMem
  refine ⟨(Shared.updatePage_pidMap ..).trans (h.pids.trans hPids.symm), fun k => ?_⟩
  rw [Shared.value_updatePage, hLookup, accessed, hAbsent', ← h.size_eq]
  by_cases hk : k = f1.key
  · by_cases hRoom : m.pageAccessMap.size < maxPages
    · simp [hk, hRoom]
    · simp [hk, hRoom, hNotMem, Shared.value, hAbsent]
  · simp [hk, h.counts k]

theorem SameCounts.delete {m : Shared} {t : Maps} (h : SameCounts m t)
    (pidTgid tmpMapping : UInt64) (f1 : Folio) :
    SameCounts (m.deletePage ⟨tmpMapping, f1.index⟩)
      (filemapFreeFolio t pidTgid tmpMapping f1) := by
  refine ⟨h.pids.trans (filemapFreeFolio_pidMap ..).symm, fun k => ?_⟩
  rw [Shared.value_deletePage, lookupElem_filemapFreeFolio]
  split
  · rfl
  · exact h.counts k

/-- One step of one call: it commits the call, or it keeps keys and counts. -/
def Advances (c : Call) (pc : Pc) (next : Pc × Shared) (t : Maps) : Prop :=
  (next.1.committed = pc.committed ∧ SameCounts next.2 t) ∨
  (pc.committed = false ∧ next.1.committed = true ∧ SameCounts next.2 (step t c.event))

theorem accessStep_advances {m : Shared} {t : Maps} {pidTgid : UInt64} {f1 : Folio} (pc : Pc)
    (slot : Slot) (h : SameCounts m t) (hPid : currentPid pidTgid ∈ m.pidMap)
    (hCurrent : (Call.folioMarkAccessed pidTgid f1).Current m pc) :
    Advances (.folioMarkAccessed pidTgid f1) pc (accessStep pidTgid f1 slot m pc) t := by
  cases pc with
  | lookupPid =>
    obtain ⟨flag, hFlag⟩ := BoundedMap.mem_iff_lookupElem.mp hPid
    rw [accessStep, hFlag]
    exact Or.inl ⟨rfl, h⟩
  | lookupPage =>
    rw [accessStep]
    split <;> exact Or.inl ⟨rfl, h⟩
  | insertLookupCounter =>
    rw [accessStep]
    split <;> exact Or.inl ⟨rfl, h⟩
  | insertIncrementCounter => exact Or.inl ⟨rfl, h.of_counts rfl (fun _ => rfl)⟩
  | insertReadRank => exact Or.inl ⟨rfl, h⟩
  | insert rank =>
    rw [accessStep]
    split
    · exact Or.inl ⟨rfl, h⟩
    · rename_i hSlot
      exact Or.inr ⟨rfl, rfl, h.insert hPid hCurrent hSlot⟩
  | incrementRefCount accessCount => exact Or.inr ⟨rfl, rfl, h.increment hPid hCurrent⟩
  | lookupCounter accessCount =>
    rw [accessStep]
    split <;> exact Or.inl ⟨rfl, h⟩
  | incrementCounter accessCount => exact Or.inl ⟨rfl, h.of_counts rfl (fun _ => rfl)⟩
  | storePid accessCount =>
    exact Or.inl ⟨rfl, h.of_counts rfl (Shared.counts_store _ (fun _ => rfl))⟩
  | storeRank accessCount =>
    exact Or.inl ⟨rfl, h.of_counts rfl (Shared.counts_store _ (fun _ => rfl))⟩
  | storePageCount accessCount =>
    exact Or.inl ⟨rfl, h.of_counts rfl (Shared.counts_store _ (fun _ => rfl))⟩
  | update accessCount =>
    rw [accessStep]
    split
    · exact Or.inl ⟨rfl, h⟩
    · rename_i hSlot
      -- the second insertion comes after the commit, so it must not change a count
      refine Or.inl ⟨rfl, h.of_counts (Shared.updatePage_pidMap m f1.key _ slot hSlot) fun k => ?_⟩
      rw [Shared.value_updatePage]
      split
      · rename_i hk
        rw [hk.1]
        exact hCurrent.symm
      · rfl
  | lookupFreed => exact Or.inl ⟨rfl, h⟩
  | delete => exact Or.inl ⟨rfl, h⟩
  | done => exact Or.inl ⟨rfl, h⟩

theorem freeStep_advances {m : Shared} {t : Maps} (pidTgid tmpMapping : UInt64) (f1 : Folio)
    (pc : Pc) (h : SameCounts m t) :
    Advances (.filemapFreeFolio pidTgid tmpMapping f1) pc (freeStep tmpMapping f1 m pc) t := by
  cases pc with
  | lookupFreed =>
    rw [freeStep]
    split
    · rename_i hNone
      have hAbsent : t.pageAccessMap.lookupElem ⟨tmpMapping, f1.index⟩ = none := by
        rw [BoundedMap.lookupElem_eq_none_iff, ← h.mem_iff, ← BoundedMap.lookupElem_eq_none_iff]
        exact hNone
      refine Or.inr ⟨rfl, rfl, ?_⟩
      simp only [Call.event, step, filemapFreeFolio, hAbsent]
      exact h
    · exact Or.inl ⟨rfl, h⟩
  | delete => exact Or.inr ⟨rfl, rfl, h.delete pidTgid tmpMapping f1⟩
  | _ => exact Or.inl ⟨rfl, h⟩

theorem Call.advance_advances {m : Shared} {t : Maps} (c : Call) (pc : Pc) (slot : Slot)
    (h : SameCounts m t) (hTracked : c.Tracked m) (hCurrent : c.Current m pc) :
    Advances c pc (c.advance slot m pc) t := by
  cases c with
  | folioMarkAccessed pidTgid f1 => exact accessStep_advances pc slot h hTracked hCurrent
  | filemapFreeFolio pidTgid tmpMapping f1 => exact freeStep_advances pidTgid tmpMapping f1 pc h

theorem step_pidMap_of_call (t : Maps) (c : Call) : (step t c.event).pidMap = t.pidMap := by
  cases c with
  | folioMarkAccessed pidTgid f1 =>
    by_cases hPid : currentPid pidTgid ∈ t.pidMap
    · exact (folioMarkAccessed_tracked f1 hPid).1
    · rw [Call.event, step, folioMarkAccessed_untracked f1 hPid]
  | filemapFreeFolio pidTgid tmpMapping f1 =>
    exact filemapFreeFolio_pidMap t pidTgid tmpMapping f1

variable {n : Nat}

def System.committed (s : System n) : Finset (Fin n) :=
  Finset.univ.filter (fun i => (s.pcs i).committed)

theorem System.mem_committed {s : System n} {i : Fin n} :
    i ∈ s.committed ↔ (s.pcs i).committed = true := by
  simp [committed]

structure Simulates (calls : Fin n → Call) (s : System n) (t : Maps) : Prop where
  same : SameCounts s.shared t
  tracked : ∀ i, (calls i).Tracked s.shared

theorem Call.Tracked.of_pidMap {m m' : Shared} {c : Call} (h : c.Tracked m)
    (hPids : m'.pidMap = m.pidMap) : c.Tracked m' := by
  cases c with
  | folioMarkAccessed pidTgid f1 =>
    rw [Call.Tracked, hPids]
    exact h
  | filemapFreeFolio pidTgid tmpMapping f1 => trivial

theorem System.committed_step (calls : Fin n → Call) (s : System n) (i : Fin n) (slot : Slot) :
    (s.step calls (i, slot)).committed =
      if ((calls i).advance slot s.shared (s.pcs i)).1.committed then insert i s.committed
      else s.committed.erase i := by
  ext j
  rw [mem_committed]
  dsimp only [step]
  by_cases hj : j = i
  · rw [hj, Function.update_self]
    split <;> simp_all
  · rw [Function.update_of_ne hj]
    split <;> simp [hj, mem_committed]

theorem System.step_linearizes (calls : Fin n → Call) (s : System n) (a : Fin n × Slot) (t : Maps)
    (hCurrent : (calls a.1).Current s.shared (s.pcs a.1)) (h : Simulates calls s t) :
    Linearizes System.committed (fun t i => PageAccess.step t (calls i).event) (Simulates calls)
      s (s.step calls a) t := by
  obtain ⟨i, slot⟩ := a
  have hTracked : ∀ t', SameCounts (s.step calls (i, slot)).shared t' → t'.pidMap = t.pidMap →
      ∀ j, (calls j).Tracked (s.step calls (i, slot)).shared := by
    intro t' hSame hPids j
    exact (h.tracked j).of_pidMap (hSame.pids.trans (hPids.trans h.same.pids.symm))
  rcases (calls i).advance_advances (s.pcs i) slot h.same (h.tracked i) hCurrent with
    ⟨hFlag, hSame⟩ | ⟨hBefore, hAfter, hSame⟩
  · refine Or.inl ⟨?_, hSame, hTracked t hSame rfl⟩
    rw [System.committed_step, hFlag]
    split
    · rename_i hYes
      exact Finset.insert_eq_self.mpr (System.mem_committed.mpr hYes)
    · rename_i hNo
      exact Finset.erase_eq_self.mpr (fun hIn => hNo (System.mem_committed.mp hIn))
  · refine Or.inr ⟨i, ?_, ?_, hSame, hTracked _ hSame (step_pidMap_of_call t (calls i))⟩
    · rw [System.mem_committed, hBefore]
      exact Bool.false_ne_true
    · rw [System.committed_step, hAfter, if_pos rfl]

theorem sameCounts_maps (m : Shared) : SameCounts m m.maps := by
  refine ⟨rfl, fun k => ?_⟩
  rw [Shared.maps, BoundedMap.lookupElem_mapValues]
  rfl

/-- Any complete interleaving in which no access writes through a stale lookup. -/
theorem run_serializable (calls : Fin n → Call) (m : Shared) (schedule : List (Fin n × Slot))
    (hTracked : ∀ i, (calls i).Tracked m)
    (hCurrent : ∀ x ∈ trace (System.step calls) (System.start calls m) schedule,
      (calls x.2.1).Current x.1.shared (x.1.pcs x.2.1))
    (hDone : ∀ i, (System.run calls m schedule).pcs i = .done) :
    Serializable calls m (System.run calls m schedule) := by
  have hStart : (System.start calls m).committed = ∅ := by
    apply Finset.filter_false_of_mem
    intro i _
    cases hCall : calls i <;> simp [System.start, hCall, Call.start, Pc.committed]
  obtain ⟨order, hNodup, hMem, hSim⟩ := exists_linearization System.committed
    (fun t i => step t (calls i).event) (Simulates calls)
    (fun s a => (calls a.1).Current s.shared (s.pcs a.1))
    (fun s a t hOk hSim => System.step_linearizes calls s a t hOk hSim)
    hStart ⟨sameCounts_maps m, hTracked⟩ schedule hCurrent
  refine ⟨order, ?_, hSim.same.counts⟩
  rw [List.perm_ext_iff_of_nodup hNodup (List.nodup_finRange n)]
  intro i
  have hCommitted : i ∈ (System.run calls m schedule).committed := by
    rw [System.mem_committed, hDone i, Pc.committed]
  exact iff_of_true ((hMem i).mpr hCommitted) (List.mem_finRange i)

def sharedSeven (pages : BoundedMap PageKey Slot maxPages) (elements : Slot → Metric)
    (hDistinct : (pages.entries.map Prod.snd).Nodup) : Shared :=
  ⟨pages, elements, counterCell 0, (BoundedMap.empty (fun _ => 0)).put 7 1 (by decide), hDistinct⟩

def page0 : Folio := ⟨0xffff888000001000, 0, 1⟩

def access7 : Call := .folioMarkAccessed 0x700000000 page0

def free0 : Call := .filemapFreeFolio 0x900000000 page0.mapping page0

def noPages : Shared := sharedSeven (.empty (fun _ => 0)) (fun _ => ⟨0, 0, 0, 0⟩) (by decide)

def onePage : Shared :=
  sharedSeven ((BoundedMap.empty (fun _ => 0)).put page0.key 0 (by decide))
    (fun _ => ⟨1, 1, 1, 7⟩) (by decide)

def sharedIncrements : List (Fin 2 × Slot) :=
  [(0, 1), (1, 1), (0, 1), (1, 1), (0, 1), (1, 1), (0, 1), (0, 1), (0, 1), (0, 1), (0, 1), (1, 1),
    (1, 1), (1, 1), (1, 1), (1, 1), (0, 1), (1, 2)]

theorem sharedIncrements_serializable :
    (∀ x ∈ trace (System.step ![access7, access7]) (System.start ![access7, access7] onePage)
      sharedIncrements, (![access7, access7] x.2.1).Current x.1.shared (x.1.pcs x.2.1)) ∧
    Serializable ![access7, access7] onePage
      (System.run ![access7, access7] onePage sharedIncrements) := by
  refine ⟨by decide, ?_⟩
  exact run_serializable ![access7, access7] onePage sharedIncrements (by decide) (by decide)
    (by decide)

/-- Both lookups before both insertions. -/
def lostAccess : List (Fin 2 × Slot) :=
  [(0, 0), (0, 0), (1, 0), (1, 0), (0, 0), (0, 0), (0, 0), (1, 0), (1, 0), (1, 0), (0, 0), (1, 1)]

/-- The deletion between the lookup and the second insertion of an access. -/
def revivedPage : List (Fin 2 × Slot) :=
  [(0, 0), (0, 0), (1, 0), (1, 0), (0, 0), (0, 0), (0, 0), (0, 0), (0, 0), (0, 0), (0, 1)]

theorem interleavings_not_serializable :
    ((∀ i, (System.run ![access7, access7] noPages lostAccess).pcs i = .done) ∧
      ¬Serializable ![access7, access7] noPages
        (System.run ![access7, access7] noPages lostAccess)) ∧
    ((∀ i, (System.run ![access7, free0] onePage revivedPage).pcs i = .done) ∧
      ¬Serializable ![access7, free0] onePage
        (System.run ![access7, free0] onePage revivedPage)) := by
  have hOrders : ∀ order : List (Fin 2), order.Perm (List.finRange 2) →
      order = [0, 1] ∨ order = [1, 0] := by
    intro order hPerm
    have hMem := List.mem_permutations'.mpr hPerm
    rw [show (List.finRange 2).permutations' = [[0, 1], [1, 0]] by decide] at hMem
    simpa using hMem
  refine ⟨⟨by decide, ?_⟩, by decide, ?_⟩
  · rintro ⟨order, hPerm, hCounts⟩
    have hPage := hCounts page0.key
    rcases hOrders order hPerm with rfl | rfl <;> revert hPage <;> decide
  · rintro ⟨order, hPerm, hCounts⟩
    have hPage := hCounts page0.key
    rcases hOrders order hPerm with rfl | rfl <;> revert hPage <;> decide

end Ebacs.PageAccess
