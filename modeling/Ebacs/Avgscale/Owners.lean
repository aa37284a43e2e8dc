import Ebacs.Avgscale.Activity

/-! # Pages that several processes share

An entry of the map names the last process that accessed the page, and
`get_avgscale.py` files the page under that process only. A page that changed
hands between two snapshots is new to its owner, and one that stayed is
compared with its earlier count, so activity is told apart for any number of
processes as it is for one.
-/
namespace Ebacs.Avgscale
open Lib PageAccess Snapshot
set_option autoImplicit false

def owner (m : PageAccessMap) (k : PageKey) : Option Pid := (m.lookupElem k).map Metric.pid

theorem foldl_record_untracked {trackedPids : Finset Int} {p : Int} (hp : p ∉ trackedPids)
    (entries : List (PageKey × Metric)) (t : PageTable) :
    entries.foldl (record trackedPids) t p = t p := by
  induction entries generalizing t with
  | nil => rfl
  | cons e entries ih =>
    rw [List.foldl_cons, ih, record]
    split
    · rename_i hTracked
      refine Function.update_of_ne ?_ _ _
      rintro rfl
      exact hp hTracked
    · rfl

/-- The table of a process has the pages whose entry names it. -/
theorem lookup_tableOf {m : PageAccessMap} (trackedPids : Finset Int) (p : Int)
    (hCounts : SmallCounts m)
    (hHash : ∀ k ∈ m, ∀ k' ∈ m, pageText k = pageText k' → k = k') {k : PageKey}
    (hk : ∀ k' ∈ m, pageText k' = pageText k → k' = k) :
    (m.entries.foldl (record trackedPids) (fun _ => ∅) p).lookup (pageText k) =
      if p ∈ trackedPids then
        ((m.lookupElem k).filter (fun v => v.pid.toInt = p)).map
          (fun v => (v.refCount.toNat : Int))
      else none := by
  by_cases hp : p ∈ trackedPids
  · rw [if_pos hp, foldl_record hp]
    have hOther : (∀ v, m.lookupElem k = some v → v.pid.toInt ≠ p) →
        (pages (ofPid p m.entries) ∅).lookup (pageText k) = none := by
      intro hNot
      rw [AList.lookup_eq_none, mem_pages]
      rintro (hMem | hMem)
      · exact absurd hMem (AList.notMem_empty _)
      · obtain ⟨e, he, hText⟩ := List.mem_map.mp hMem
        obtain ⟨he, hPid⟩ := List.mem_filter.mp he
        have hKey := hk e.1 (List.mem_map_of_mem he) hText
        refine hNot e.2 ?_ (of_decide_eq_true hPid)
        rw [← hKey]
        exact BoundedMap.lookupElem_eq_some_iff.mpr he
    cases hLookup : m.lookupElem k with
    | none => exact hOther (by simp [hLookup])
    | some v =>
      by_cases hPid : v.pid.toInt = p
      · have he := BoundedMap.lookupElem_eq_some_iff.mp hLookup
        have hNodup : ((ofPid p m.entries).map (fun e => pageText e.1)).Nodup := by
          refine List.Nodup.sublist (List.filter_sublist.map _) ?_
          rw [List.nodup_map_iff_inj_on (m.nodup.of_map _)]
          intro e he e' he' hText
          have hKey := hHash e.1 (List.mem_map_of_mem he) e'.1 (List.mem_map_of_mem he') hText
          exact List.inj_on_of_nodup_map m.nodup he he' hKey
        have hOf : (k, v) ∈ ofPid p m.entries := List.mem_filter.mpr ⟨he, decide_eq_true hPid⟩
        rw [Option.filter_some, if_pos (decide_eq_true hPid), Option.map_some]
        exact (lookup_pages hNodup hOf _).trans
          (congrArg some (writtenCount_of_lt (hCounts _ he)))
      · rw [Option.filter_some, if_neg (by simpa using hPid), Option.map_none]
        refine hOther ?_
        intro w hw
        obtain rfl := Option.some.inj (hLookup.symm.trans hw)
        exact hPid
  · rw [if_neg hp, foldl_record_untracked hp]
    exact AList.lookup_empty _

/-- A page that names another process than before was accessed. -/
theorem accessed_of_owner_changed {k : PageKey} {s₁ s₂ : Maps} {h₁ h₂ : List Moment}
    {v₁ v₂ : Metric} (hAgrees₁ : Agrees k s₁ h₁) (hAgrees₂ : Agrees k s₂ (h₁ ++ h₂))
    (hv₁ : s₁.pageAccessMap.lookupElem k = some v₁)
    (hv₂ : s₂.pageAccessMap.lookupElem k = some v₂) (hPid : v₁.pid ≠ v₂.pid) :
    ∃ x ∈ h₂, Tracked k x := by
  by_contra hNone
  push Not at hNone
  have hLatest : latestAccess k (h₁ ++ h₂) = latestAccess k h₁ := by
    have hNil : h₂.filter (fun x => Tracked k x) = [] := by
      rw [List.filter_eq_nil_iff]
      intro x hx hTracked
      exact hNone x hx (of_decide_eq_true hTracked)
    rw [latestAccess, List.filter_append, hNil, List.append_nil]
    rfl
  have hOld := hAgrees₁.latest v₁ hv₁
  have hNew := hAgrees₂.latest v₂ hv₂
  rw [hLatest, hOld, Option.some.injEq, Prod.mk.injEq] at hNew
  exact hPid hNew.1

theorem not_active_of_absent {current previous : Pages} {page : Text}
    (h : current.lookup page = none) : ¬Active current previous page := by
  simp [Active, mem_newPages, mem_filteredPreviousPages, h]

section Tables

variable {s₁ s₂ : Maps} {h₁ h₂ : List Moment} {k : PageKey} {v : Metric} {current previous : Pages}

/-- In the tables of its owner the activity of a page shows, unless the page stayed with the
owner and its count was lost. -/
theorem active_iff_of_owner (hAgrees₁ : Agrees k s₁ h₁) (hAgrees₂ : Agrees k s₂ (h₁ ++ h₂))
    (hCounts₁ : SmallCounts s₁.pageAccessMap) (hv : s₂.pageAccessMap.lookupElem k = some v)
    (hPrevious : previous.lookup (pageText k) =
      ((s₁.pageAccessMap.lookupElem k).filter (fun w => w.pid.toInt = v.pid.toInt)).map
        (fun w => (w.refCount.toNat : Int)))
    (hCurrent : current.lookup (pageText k) = some (v.refCount.toNat : Int)) :
    ((Active current previous (pageText k) ↔ ∃ x ∈ h₂, Tracked k x) ↔
      ¬(owner s₁.pageAccessMap k = some v.pid ∧ CountLost k s₁ h₁ h₂)) := by
  have hMem : k ∈ s₂.pageAccessMap := BoundedMap.mem_iff_lookupElem.mpr ⟨v, hv⟩
  cases hv₁ : s₁.pageAccessMap.lookupElem k with
  | none =>
    have hAbsent := BoundedMap.lookupElem_eq_none_iff.mp hv₁
    have hAccessed := accessed_of_reinserted hAgrees₂ hMem
      (Or.inl (not_ne_iff.mp (hAgrees₁.live.not.mp hAbsent)))
    rw [hv₁] at hPrevious
    have hActive := active_of_new hCurrent hPrevious
    have hOwner : owner s₁.pageAccessMap k ≠ some v.pid := by
      rw [owner, hv₁]
      nofun
    exact iff_of_true (iff_of_true hActive hAccessed) (fun hLost => hOwner hLost.1)
  | some v₁ =>
    have hOwner : owner s₁.pageAccessMap k = some v₁.pid := by
      rw [owner, hv₁]
      rfl
    rw [hv₁, Option.filter_some] at hPrevious
    rw [hOwner, Option.some.injEq]
    by_cases hPid : v₁.pid = v.pid
    · rw [if_pos (by simp [hPid]), Option.map_some] at hPrevious
      simp only [hPid, true_and]
      rw [active_iff_of_known hCurrent hPrevious, Int.ofNat_lt]
      exact count_moved_iff hAgrees₁ hAgrees₂ hv₁ hv
        (hCounts₁ _ (BoundedMap.lookupElem_eq_some_iff.mp hv₁))
    · have hOther : v₁.pid.toInt ≠ v.pid.toInt := fun hEq => hPid (Int32.toInt_inj.mp hEq)
      rw [if_neg (by simpa using hOther), Option.map_none] at hPrevious
      have hAccessed := accessed_of_owner_changed hAgrees₁ hAgrees₂ hv₁ hv hPid
      exact iff_of_true (iff_of_true (active_of_new hCurrent hPrevious) hAccessed)
        (fun hLost => hPid hLost.1)

end Tables

/-- Two files read one after the other, for any number of processes: a page is active for no
process but the one that its entry names, for that one as the accesses in between say, unless
its count was lost, and always when the process was not tracked before. -/
theorem activity_by_owner (pageBucket : PageKey → Nat) (pidBucket : Pid → Nat)
    (es₁ es₂ : List Event) (tracked₁ tracked₂ : Finset Int) :
    let s₁ := run pageBucket pidBucket es₁
    let s₂ := run pageBucket pidBucket (es₁ ++ es₂)
    DistinctHashes s₁.pageAccessMap s₂.pageAccessMap →
    SmallCounts s₁.pageAccessMap → SmallCounts s₂.pageAccessMap →
    ∃ previous current,
      readSnapshot tracked₁ (snapshotText s₁.pageAccessMap.entries) = some previous ∧
      readSnapshot tracked₂ (snapshotText s₂.pageAccessMap.entries) = some current ∧
      ∀ k v, s₂.pageAccessMap.lookupElem k = some v →
        (∀ p, p ≠ v.pid.toInt → ¬Active (current p) (previous p) (pageText k)) ∧
        (v.pid.toInt ∈ tracked₂ → v.pid.toInt ∉ tracked₁ →
          Active (current v.pid.toInt) (previous v.pid.toInt) (pageText k)) ∧
        (v.pid.toInt ∈ tracked₂ → v.pid.toInt ∈ tracked₁ →
          ((Active (current v.pid.toInt) (previous v.pid.toInt) (pageText k) ↔
              ∃ x ∈ trace step s₁ es₂, Tracked k x) ↔
            ¬(owner s₁.pageAccessMap k = some v.pid ∧
              CountLost k s₁ (history pageBucket pidBucket es₁) (trace step s₁ es₂)))) := by
  intro s₁ s₂ hHash hCounts₁ hCounts₂
  refine ⟨_, _, readSnapshot_snapshotText tracked₁ _, readSnapshot_snapshotText tracked₂ _, ?_⟩
  intro k v hv
  have hMem : k ∈ s₂.pageAccessMap := BoundedMap.mem_iff_lookupElem.mpr ⟨v, hv⟩
  have hText : ∀ a ∈ s₁.pageAccessMap.keys ++ s₂.pageAccessMap.keys,
      ∀ b ∈ s₁.pageAccessMap.keys ++ s₂.pageAccessMap.keys, pageText a = pageText b → a = b := by
    intro a ha b hb hEq
    exact hHash a ha b hb (pageText_eq_iff.mp hEq)
  have hPrevious := fun p => lookup_tableOf tracked₁ p hCounts₁
    (fun a ha b hb => hText a (List.mem_append_left _ ha) b (List.mem_append_left _ hb))
    (fun a ha => hText a (List.mem_append_left _ ha) k (List.mem_append_right _ hMem))
  have hCurrent := fun p => lookup_tableOf tracked₂ p hCounts₂
    (fun a ha b hb => hText a (List.mem_append_right _ ha) b (List.mem_append_right _ hb))
    (fun a ha => hText a (List.mem_append_right _ ha) k (List.mem_append_right _ hMem))
  have hOwn : v.pid.toInt ∈ tracked₂ →
      (s₂.pageAccessMap.entries.foldl (record tracked₂) (fun _ => ∅) v.pid.toInt).lookup
        (pageText k) = some (v.refCount.toNat : Int) := by
    intro hp₂
    rw [hCurrent v.pid.toInt, if_pos hp₂, hv, Option.filter_some, if_pos (by simp),
      Option.map_some]
  refine ⟨?_, ?_, ?_⟩
  · intro p hp
    have hOther : (some v).filter (fun w => w.pid.toInt = p) = none := by
      rw [Option.filter_some, if_neg (by simpa using hp.symm)]
    apply not_active_of_absent
    rw [hCurrent p, hv, hOther, Option.map_none, ite_self]
  · intro hp₂ hp₁
    apply active_of_new (hOwn hp₂)
    rw [hPrevious v.pid.toInt, if_neg hp₁]
  · intro hp₂ hp₁
    have hAgrees₁ := agrees_run pageBucket pidBucket es₁ k
    have hAgrees₂ := agrees_run pageBucket pidBucket (es₁ ++ es₂) k
    have hHistory : history pageBucket pidBucket (es₁ ++ es₂) =
        history pageBucket pidBucket es₁ ++ trace step s₁ es₂ := trace_append step _ es₁ es₂
    rw [hHistory] at hAgrees₂
    have hOld := hPrevious v.pid.toInt
    rw [if_pos hp₁] at hOld
    exact active_iff_of_owner hAgrees₁ hAgrees₂ hCounts₁ hv hOld (hOwn hp₂)

def accessBy (pid : UInt64) (index : UInt64) : Event :=
  .folioMarkAccessed (pid <<< 32) ⟨0xffff888012340170, index, 1⟩

/-- A page passes from one process to another, a second one stays where it is. -/
theorem activity_by_owner_handedOver :
    let before := [.addPid 7, .addPid 9, accessBy 7 0, accessBy 7 0, accessBy 9 1]
    let s₁ := run (fun _ => 0) (fun _ => 0) before
    let s₂ := run (fun _ => 0) (fun _ => 0) (before ++ [accessBy 9 0])
    ∃ previous current,
      readSnapshot {7, 9} (snapshotText s₁.pageAccessMap.entries) = some previous ∧
      readSnapshot {7, 9} (snapshotText s₂.pageAccessMap.entries) = some current ∧
      Active (current 9) (previous 9) (pageText ⟨0xffff888012340170, 0⟩) ∧
      ¬Active (current 7) (previous 7) (pageText ⟨0xffff888012340170, 0⟩) ∧
      ¬Active (current 9) (previous 9) (pageText ⟨0xffff888012340170, 1⟩) := by
  obtain ⟨previous, current, hPrevious, hCurrent, hAll⟩ := activity_by_owner (fun _ => 0)
    (fun _ => 0) [.addPid 7, .addPid 9, accessBy 7 0, accessBy 7 0, accessBy 9 1] [accessBy 9 0]
    {7, 9} {7, 9} (by decide) (by decide) (by decide)
  obtain ⟨hOthers, _, hHanded⟩ := hAll ⟨0xffff888012340170, 0⟩ ⟨3, 4, 1, 9⟩ (by decide)
  obtain ⟨_, _, hStayed⟩ := hAll ⟨0xffff888012340170, 1⟩ ⟨1, 3, 1, 9⟩ (by decide)
  refine ⟨previous, current, hPrevious, hCurrent, ?_, hOthers 7 (by decide), ?_⟩
  · exact ((hHanded (by decide) (by decide)).mpr (by decide)).mpr (by decide)
  · exact ((hStayed (by decide) (by decide)).mpr (by decide)).not.mpr (by decide)

end Ebacs.Avgscale
