import Ebacs.Avgscale.PageTable

/-! # Activity between two snapshots

What `get_avgscale.py` can tell about a page from two consecutive tables is
whether it is new and whether its count grew. A page that was freed between
the snapshots starts counting again, so its count may have fallen although
the page was accessed.
-/
namespace Ebacs.Avgscale
open Lib PageAccess Snapshot
set_option autoImplicit false

def newPages (current previous : Pages) : Finset Text :=
  current.keys.toFinset \ previous.keys.toFinset

def grew (current : Pages) (page : Text) (count : Int) : Bool :=
  match current.lookup page with
  | some accessCount => accessCount > count
  | none => false

/-- The keys of `filtered_previous_pages`. -/
def filteredPreviousPages (current previous : Pages) : Finset Text :=
  previous.keys.toFinset.filter fun page => (previous.lookup page).any (grew current page)

theorem fromInsertion_append_live {k : PageKey} {h : List Moment} (later : List Moment)
    (hLive : fromInsertion k h ≠ []) (hFree : ∀ x ∈ later, ¬Frees k x) :
    fromInsertion k (h ++ later) ≠ [] ∧
    accessCount k (h ++ later) = accessCount k h + later.countP (fun x => Tracked k x) := by
  induction later using List.reverseRecOn with
  | nil => simp [hLive]
  | append_singleton later x ih =>
    obtain ⟨hNe, hCount⟩ := ih (fun y hy => hFree y (List.mem_append_left _ hy))
    have hx : ¬Frees k x := hFree x (List.mem_append_right _ (List.mem_singleton_self x))
    rw [← List.append_assoc]
    constructor
    · rw [fromInsertion_concat, if_neg hx, if_neg hNe]
      simp
    · rw [accessCount_concat_live hNe hx, hCount, List.countP_append, List.countP_singleton]
      simp only [decide_eq_true_eq]
      omega

theorem fromInsertion_append_idle {k : PageKey} {h : List Moment} (later : List Moment)
    (hIdle : ∀ x ∈ later, ¬Tracked k x)
    (hGone : fromInsertion k h = [] ∨ ∃ x ∈ later, Frees k x) :
    fromInsertion k (h ++ later) = [] := by
  induction later using List.reverseRecOn with
  | nil =>
    rcases hGone with hNil | ⟨x, hx, _⟩
    · rwa [List.append_nil]
    · cases hx
  | append_singleton later x ih =>
    have hx : ¬Tracked k x := hIdle x (List.mem_append_right _ (List.mem_singleton_self x))
    rw [← List.append_assoc, fromInsertion_concat]
    split
    · rfl
    · rename_i hFree
      have hNil : fromInsertion k (h ++ later) = [] := by
        apply ih (fun y hy => hIdle y (List.mem_append_left _ hy))
        rcases hGone with hNil | ⟨y, hy, hFrees⟩
        · exact Or.inl hNil
        · rcases List.mem_append.mp hy with hy | hy
          · exact Or.inr ⟨y, hy, hFrees⟩
          · rw [List.mem_singleton.mp hy] at hFrees
            exact absurd hFrees hFree
      rw [if_pos hNil, if_neg (fun hHit => hx hHit.1)]

def ByPid (p : Pid) : Event → Prop
  | .addPid _ => False
  | .folioMarkAccessed pidTgid _ => currentPid pidTgid = p
  | .filemapFreeFolio _ _ _ => True

instance (p : Pid) : DecidablePred (ByPid p)
  | .addPid _ => .isFalse id
  | .folioMarkAccessed pidTgid _ => inferInstanceAs (Decidable (currentPid pidTgid = p))
  | .filemapFreeFolio _ _ _ => .isTrue trivial

theorem pid_of_lookup {pageBucket : PageKey → Nat} {pidBucket : Pid → Nat} {p : Pid}
    {es : List Event} (hRun : ∀ e ∈ es, ByPid p e) {k : PageKey} {v : Metric}
    (hv : (run pageBucket pidBucket (.addPid p :: es)).pageAccessMap.lookupElem k = some v) :
    v.pid = p := by
  have hLatest := (agrees_run pageBucket pidBucket (.addPid p :: es) k).latest v hv
  obtain ⟨x, hx, hCaller⟩ := Option.bind_eq_some_iff.mp hLatest
  have hEvent := snd_mem_of_mem_trace (List.mem_of_mem_filter (List.mem_of_getLast? hx))
  rcases List.mem_cons.mp hEvent with hEvent | hEvent
  · rw [hEvent] at hCaller
    cases hCaller
  · have hBy := hRun _ hEvent
    cases hAct : x.2 with
    | addPid pid =>
      rw [hAct] at hBy
      exact hBy.elim
    | folioMarkAccessed pidTgid f1 =>
      rw [hAct] at hBy hCaller
      obtain ⟨hPid, _⟩ := Prod.mk.inj (Option.some.inj hCaller)
      rw [← hPid]
      exact hBy
    | filemapFreeFolio pidTgid tmpMapping f1 =>
      rw [hAct] at hCaller
      cases hCaller

def DistinctHashes (m₁ m₂ : PageAccessMap) : Prop :=
  ∀ k ∈ m₁.keys ++ m₂.keys, ∀ k' ∈ m₁.keys ++ m₂.keys,
    hashIndexMapping k.index k.mapping = hashIndexMapping k'.index k'.mapping → k = k'

instance (m₁ m₂ : PageAccessMap) : Decidable (DistinctHashes m₁ m₂) :=
  inferInstanceAs (Decidable (∀ k ∈ m₁.keys ++ m₂.keys, ∀ k' ∈ m₁.keys ++ m₂.keys,
    hashIndexMapping k.index k.mapping = hashIndexMapping k'.index k'.mapping → k = k'))

def SmallCounts (m : PageAccessMap) : Prop := ∀ e ∈ m.entries, e.2.refCount.toNat < 2 ^ 63

instance (m : PageAccessMap) : Decidable (SmallCounts m) :=
  inferInstanceAs (Decidable (∀ e ∈ m.entries, e.2.refCount.toNat < 2 ^ 63))

theorem lookup_table {m : PageAccessMap} {trackedPids : Finset Int} {p : Pid}
    (hp : p.toInt ∈ trackedPids) (hPid : ∀ k v, m.lookupElem k = some v → v.pid = p)
    (hCounts : SmallCounts m)
    (hHash : ∀ k ∈ m, ∀ k' ∈ m, pageText k = pageText k' → k = k') {k : PageKey}
    (hk : ∀ k' ∈ m, pageText k' = pageText k → k' = k) :
    (m.entries.foldl (record trackedPids) (fun _ => ∅) p.toInt).lookup (pageText k) =
      (m.lookupElem k).map (fun v => (v.refCount.toNat : Int)) := by
  have hAll : ofPid p.toInt m.entries = m.entries := by
    rw [ofPid, List.filter_eq_self]
    intro e he
    rw [hPid e.1 e.2 (BoundedMap.lookupElem_eq_some_iff.mpr he)]
    exact decide_eq_true rfl
  have hNodup : (m.entries.map (fun e => pageText e.1)).Nodup := by
    rw [List.nodup_map_iff_inj_on (m.nodup.of_map _)]
    intro e he e' he' hText
    have hKey := hHash e.1 (List.mem_map_of_mem he) e'.1 (List.mem_map_of_mem he') hText
    exact List.inj_on_of_nodup_map m.nodup he he' hKey
  rw [foldl_record hp, hAll]
  cases hLookup : m.lookupElem k with
  | none =>
    rw [Option.map_none, AList.lookup_eq_none, mem_pages]
    rintro (hMem | hMem)
    · exact absurd hMem (AList.notMem_empty _)
    · obtain ⟨e, he, hText⟩ := List.mem_map.mp hMem
      have hKey := hk e.1 (List.mem_map_of_mem he) hText
      exact BoundedMap.lookupElem_eq_none_iff.mp hLookup (hKey ▸ List.mem_map_of_mem he)
  | some v =>
    have he := BoundedMap.lookupElem_eq_some_iff.mp hLookup
    rw [Option.map_some]
    exact (lookup_pages hNodup he _).trans
      (congrArg some (writtenCount_of_lt (hCounts _ he)))

def Active (current previous : Pages) (page : Text) : Prop :=
  page ∈ newPages current previous ∨ page ∈ filteredPreviousPages current previous

theorem mem_newPages {current previous : Pages} {page : Text} :
    page ∈ newPages current previous ↔
      (current.lookup page).isSome ∧ previous.lookup page = none := by
  rw [newPages, Finset.mem_sdiff, List.mem_toFinset, List.mem_toFinset, ← AList.mem_keys,
    ← AList.mem_keys, AList.lookup_isSome, AList.lookup_eq_none]

theorem mem_filteredPreviousPages {current previous : Pages} {page : Text} :
    page ∈ filteredPreviousPages current previous ↔
      ∃ accessCount count, current.lookup page = some accessCount ∧
        previous.lookup page = some count ∧ count < accessCount := by
  rw [filteredPreviousPages, Finset.mem_filter, List.mem_toFinset, ← AList.mem_keys,
    ← AList.lookup_isSome]
  cases hCurrent : current.lookup page <;> cases previous.lookup page <;> simp [grew, hCurrent]

theorem active_of_new {current previous : Pages} {page : Text} {accessCount : Int}
    (hCurrent : current.lookup page = some accessCount) (hPrevious : previous.lookup page = none) :
    Active current previous page := by
  left
  rw [mem_newPages, hCurrent]
  exact ⟨rfl, hPrevious⟩

theorem active_iff_of_known {current previous : Pages} {page : Text} {accessCount count : Int}
    (hCurrent : current.lookup page = some accessCount)
    (hPrevious : previous.lookup page = some count) :
    Active current previous page ↔ count < accessCount := by
  simp [Active, mem_newPages, mem_filteredPreviousPages, hCurrent, hPrevious]

/-- The page was there already, its count started again or wrapped between the snapshots,
and what the second snapshot shows does not exceed what the first one showed. -/
def CountLost (k : PageKey) (s₁ : Maps) (h₁ h₂ : List Moment) : Prop :=
  k ∈ s₁.pageAccessMap ∧
  ((∃ x ∈ h₂, Frees k x) ∨ 2 ^ 63 ≤ h₂.countP (fun x => Tracked k x)) ∧
  accessCount k (h₁ ++ h₂) % 2 ^ 64 ≤ accessCount k h₁ % 2 ^ 64

instance (k : PageKey) (s₁ : Maps) (h₁ h₂ : List Moment) : Decidable (CountLost k s₁ h₁ h₂) :=
  inferInstanceAs (Decidable (_ ∧ _ ∧ _))

theorem accessed_of_reinserted {k : PageKey} {s₂ : Maps} {h₁ h₂ : List Moment}
    (hAgrees : Agrees k s₂ (h₁ ++ h₂)) (hMem : k ∈ s₂.pageAccessMap)
    (hGone : fromInsertion k h₁ = [] ∨ ∃ x ∈ h₂, Frees k x) : ∃ x ∈ h₂, Tracked k x := by
  by_contra hNone
  push Not at hNone
  exact hAgrees.live.mp hMem (fromInsertion_append_idle h₂ hNone hGone)

theorem refCount_toNat {k : PageKey} {s : Maps} {h : List Moment} {v : Metric}
    (hAgrees : Agrees k s h) (hv : s.pageAccessMap.lookupElem k = some v) :
    v.refCount.toNat = accessCount k h % 2 ^ 64 := by
  rw [hAgrees.count v hv, UInt64.toNat_ofNat']

theorem count_moved_iff {k : PageKey} {s₁ s₂ : Maps} {h₁ h₂ : List Moment} {v₁ v₂ : Metric}
    (hAgrees₁ : Agrees k s₁ h₁) (hAgrees₂ : Agrees k s₂ (h₁ ++ h₂))
    (hv₁ : s₁.pageAccessMap.lookupElem k = some v₁)
    (hv₂ : s₂.pageAccessMap.lookupElem k = some v₂) (hSmall : v₁.refCount.toNat < 2 ^ 63) :
    ((v₁.refCount.toNat < v₂.refCount.toNat ↔ ∃ x ∈ h₂, Tracked k x) ↔
      ¬CountLost k s₁ h₁ h₂) := by
  have hMem₁ : k ∈ s₁.pageAccessMap := BoundedMap.mem_iff_lookupElem.mpr ⟨v₁, hv₁⟩
  have hMem₂ : k ∈ s₂.pageAccessMap := BoundedMap.mem_iff_lookupElem.mpr ⟨v₂, hv₂⟩
  rw [refCount_toNat hAgrees₁ hv₁] at hSmall
  rw [refCount_toNat hAgrees₁ hv₁, refCount_toNat hAgrees₂ hv₂, CountLost]
  simp only [hMem₁, true_and]
  by_cases hFreed : ∃ x ∈ h₂, Frees k x
  -- a page that is back after a free was accessed, so only the two counts decide
  · have hAccessed := accessed_of_reinserted hAgrees₂ hMem₂ (Or.inr hFreed)
    simp only [hFreed, hAccessed, true_or, true_and, iff_true, not_le]
  · have hKept : ∀ x ∈ h₂, ¬Frees k x := fun x hx hFrees => hFreed ⟨x, hx, hFrees⟩
    obtain ⟨_, hCount⟩ := fromInsertion_append_live h₂ (hAgrees₁.live.mp hMem₁) hKept
    have hAccessed : (∃ x ∈ h₂, Tracked k x) ↔ 0 < h₂.countP (fun x => Tracked k x) := by
      rw [List.countP_pos_iff]
      simp only [decide_eq_true_eq]
    rw [hAccessed, hCount]
    simp only [hFreed, false_or]
    omega

/-- Tables that hold the counts of the page tell whether it was accessed, unless its count
was lost. -/
theorem active_iff_of_lookups {k : PageKey} {s₁ s₂ : Maps} {h₁ h₂ : List Moment}
    (hAgrees₁ : Agrees k s₁ h₁) (hAgrees₂ : Agrees k s₂ (h₁ ++ h₂)) (hk : k ∈ s₂.pageAccessMap)
    (hCounts₁ : SmallCounts s₁.pageAccessMap) {current previous : Pages}
    (hPrevious : previous.lookup (pageText k) =
      (s₁.pageAccessMap.lookupElem k).map (fun v => (v.refCount.toNat : Int)))
    (hCurrent : current.lookup (pageText k) =
      (s₂.pageAccessMap.lookupElem k).map (fun v => (v.refCount.toNat : Int))) :
    ((Active current previous (pageText k) ↔ ∃ x ∈ h₂, Tracked k x) ↔
      ¬CountLost k s₁ h₁ h₂) := by
  obtain ⟨v₂, hv₂⟩ := BoundedMap.mem_iff_lookupElem.mp hk
  rw [hv₂, Option.map_some] at hCurrent
  cases hv₁ : s₁.pageAccessMap.lookupElem k with
  | none =>
    have hAbsent := BoundedMap.lookupElem_eq_none_iff.mp hv₁
    rw [hv₁, Option.map_none] at hPrevious
    have hAccessed := accessed_of_reinserted hAgrees₂ hk
      (Or.inl (not_ne_iff.mp (hAgrees₁.live.not.mp hAbsent)))
    have hKept : ¬CountLost k s₁ h₁ h₂ := fun hLost => hAbsent hLost.1
    simp only [active_of_new hCurrent hPrevious, hAccessed, hKept, not_false_eq_true]
  | some v₁ =>
    rw [hv₁, Option.map_some] at hPrevious
    rw [active_iff_of_known hCurrent hPrevious, Int.ofNat_lt]
    exact count_moved_iff hAgrees₁ hAgrees₂ hv₁ hv₂
      (hCounts₁ _ (BoundedMap.lookupElem_eq_some_iff.mp hv₁))

section Classification

variable {pageBucket : PageKey → Nat} {pidBucket : Pid → Nat} {p : Pid} {es₁ es₂ : List Event}
  {tracked₁ tracked₂ : Finset Int} {s₁ s₂ : Maps}

theorem active_iff_accessed_iff (hBy : ∀ e ∈ es₁ ++ es₂, ByPid p e)
    (hs₁ : s₁ = run pageBucket pidBucket (.addPid p :: es₁))
    (hs₂ : s₂ = run pageBucket pidBucket (.addPid p :: (es₁ ++ es₂)))
    (hp₁ : p.toInt ∈ tracked₁) (hp₂ : p.toInt ∈ tracked₂)
    (hHash : DistinctHashes s₁.pageAccessMap s₂.pageAccessMap)
    (hCounts₁ : SmallCounts s₁.pageAccessMap) (hCounts₂ : SmallCounts s₂.pageAccessMap)
    {k : PageKey} (hk : k ∈ s₂.pageAccessMap) :
    ((Active (s₂.pageAccessMap.entries.foldl (record tracked₂) (fun _ => ∅) p.toInt)
        (s₁.pageAccessMap.entries.foldl (record tracked₁) (fun _ => ∅) p.toInt) (pageText k) ↔
        ∃ x ∈ trace step s₁ es₂, Tracked k x) ↔
      ¬CountLost k s₁ (history pageBucket pidBucket (.addPid p :: es₁))
        (trace step s₁ es₂)) := by
  have hHistory : history pageBucket pidBucket (.addPid p :: (es₁ ++ es₂)) =
      history pageBucket pidBucket (.addPid p :: es₁) ++ trace step s₁ es₂ := by
    rw [hs₁]
    exact trace_append step _ (.addPid p :: es₁) es₂
  have hAgrees₁ := agrees_run pageBucket pidBucket (.addPid p :: es₁) k
  have hAgrees₂ := agrees_run pageBucket pidBucket (.addPid p :: (es₁ ++ es₂)) k
  rw [← hs₁] at hAgrees₁
  rw [← hs₂, hHistory] at hAgrees₂
  have hPid₁ : ∀ k v, s₁.pageAccessMap.lookupElem k = some v → v.pid = p := by
    intro k v hv
    exact pid_of_lookup (fun e he => hBy e (List.mem_append_left _ he)) (hs₁ ▸ hv)
  have hPid₂ : ∀ k v, s₂.pageAccessMap.lookupElem k = some v → v.pid = p := by
    intro k v hv
    exact pid_of_lookup hBy (hs₂ ▸ hv)
  have hText : ∀ a ∈ s₁.pageAccessMap.keys ++ s₂.pageAccessMap.keys,
      ∀ b ∈ s₁.pageAccessMap.keys ++ s₂.pageAccessMap.keys, pageText a = pageText b → a = b := by
    intro a ha b hb hEq
    exact hHash a ha b hb (pageText_eq_iff.mp hEq)
  have hPrevious := lookup_table hp₁ hPid₁ hCounts₁
    (fun a ha b hb => hText a (List.mem_append_left _ ha) b (List.mem_append_left _ hb))
    (fun a ha => hText a (List.mem_append_left _ ha) k (List.mem_append_right _ hk))
  have hCurrent := lookup_table hp₂ hPid₂ hCounts₂
    (fun a ha b hb => hText a (List.mem_append_right _ ha) b (List.mem_append_right _ hb))
    (fun a ha => hText a (List.mem_append_right _ ha) k (List.mem_append_right _ hk))
  exact active_iff_of_lookups hAgrees₁ hAgrees₂ hk hCounts₁ hPrevious hCurrent

end Classification

/-- Two files read one after the other: the comparison of their tables tells which pages
were accessed in between, except for the pages whose count was lost. -/
theorem activity_classified_iff (pageBucket : PageKey → Nat) (pidBucket : Pid → Nat) (p : Pid)
    (es₁ es₂ : List Event) (hBy : ∀ e ∈ es₁ ++ es₂, ByPid p e) (tracked₁ tracked₂ : Finset Int)
    (hp₁ : p.toInt ∈ tracked₁) (hp₂ : p.toInt ∈ tracked₂) :
    let s₁ := run pageBucket pidBucket (.addPid p :: es₁)
    let s₂ := run pageBucket pidBucket (.addPid p :: (es₁ ++ es₂))
    DistinctHashes s₁.pageAccessMap s₂.pageAccessMap →
    SmallCounts s₁.pageAccessMap → SmallCounts s₂.pageAccessMap →
    ∃ previous current,
      readSnapshot tracked₁ (snapshotText s₁.pageAccessMap.entries) = some previous ∧
      readSnapshot tracked₂ (snapshotText s₂.pageAccessMap.entries) = some current ∧
      ∀ k ∈ s₂.pageAccessMap,
        ((Active (current p.toInt) (previous p.toInt) (pageText k) ↔
            ∃ x ∈ trace step s₁ es₂, Tracked k x) ↔
          ¬CountLost k s₁ (history pageBucket pidBucket (.addPid p :: es₁))
            (trace step s₁ es₂)) := by
  intro s₁ s₂ hHash hCounts₁ hCounts₂
  refine ⟨_, _, readSnapshot_snapshotText tracked₁ _, readSnapshot_snapshotText tracked₂ _, ?_⟩
  intro k hk
  exact active_iff_accessed_iff hBy rfl rfl hp₁ hp₂ hHash hCounts₁ hCounts₂ hk

def accessOf (index : UInt64) : Event :=
  .folioMarkAccessed 0x700000000 ⟨0xffff888012340170, index, 1⟩

def freeOf (index : UInt64) : Event :=
  .filemapFreeFolio 0x700000000 0xffff888012340170 ⟨0xffff888012340170, index, 1⟩

theorem activity_of_threePages :
    let s₁ := run (fun _ => 0) (fun _ => 0) [.addPid 7, accessOf 0, accessOf 1]
    let s₂ := run (fun _ => 0) (fun _ => 0)
      [.addPid 7, accessOf 0, accessOf 1, accessOf 0, accessOf 2]
    ∃ previous current,
      readSnapshot {7} (snapshotText s₁.pageAccessMap.entries) = some previous ∧
      readSnapshot {7} (snapshotText s₂.pageAccessMap.entries) = some current ∧
      ∀ k ∈ s₂.pageAccessMap,
        ((Active (current 7) (previous 7) (pageText k) ↔
            ∃ x ∈ trace step s₁ [accessOf 0, accessOf 2], Tracked k x) ↔
          ¬CountLost k s₁ (history (fun _ => 0) (fun _ => 0) [.addPid 7, accessOf 0, accessOf 1])
            (trace step s₁ [accessOf 0, accessOf 2])) :=
  activity_classified_iff (fun _ => 0) (fun _ => 0) 7 [accessOf 0, accessOf 1]
    [accessOf 0, accessOf 2] (by decide) {7} {7} (by decide) (by decide) (by decide) (by decide)
    (by decide)

/-- A page with two accesses is freed and accessed once more. -/
theorem freedPage_misclassified :
    let s₁ := run (fun _ => 0) (fun _ => 0) [.addPid 7, accessOf 3, accessOf 3]
    let s₂ := run (fun _ => 0) (fun _ => 0) [.addPid 7, accessOf 3, accessOf 3, freeOf 3, accessOf 3]
    let k : PageKey := ⟨0xffff888012340170, 3⟩
    ∃ previous current,
      readSnapshot {7} (snapshotText s₁.pageAccessMap.entries) = some previous ∧
      readSnapshot {7} (snapshotText s₂.pageAccessMap.entries) = some current ∧
      k ∈ s₂.pageAccessMap ∧
      (∃ x ∈ trace step s₁ [freeOf 3, accessOf 3], Tracked k x) ∧
      ¬Active (current 7) (previous 7) (pageText k) := by
  intro s₁ s₂ k
  have hk : k ∈ s₂.pageAccessMap := by decide
  have hAccessed : ∃ x ∈ trace step s₁ [freeOf 3, accessOf 3], Tracked k x := by decide
  have hIff := @active_iff_accessed_iff (fun _ => 0) (fun _ => 0) 7 [accessOf 3, accessOf 3]
    [freeOf 3, accessOf 3] {7} {7} s₁ s₂ (by decide) rfl rfl (by decide) (by decide) (by decide)
    (by decide) (by decide) k hk
  have hWrong := hIff.not.mpr (not_not_intro (by decide))
  refine ⟨_, _, readSnapshot_snapshotText {7} _, readSnapshot_snapshotText {7} _, hk, hAccessed, ?_⟩
  intro hActive
  exact hWrong (iff_of_true hActive hAccessed)

end Ebacs.Avgscale
