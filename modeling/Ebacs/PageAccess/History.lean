import Ebacs.PageAccess.Probes

/-! # The page access map as a function of the event history

An event together with the maps it found is a moment; the moments of a run
are its history. Presence, count, caller and size of every entry are read off
the history alone, by induction on the run with one case per handler.
-/
namespace Ebacs.PageAccess
open Lib
set_option autoImplicit false

abbrev Moment := Maps × Event

def run (pageBucket : PageKey → Nat) (pidBucket : Pid → Nat) (es : List Event) : Maps :=
  es.foldl step (Maps.init pageBucket pidBucket)

def history (pageBucket : PageKey → Nat) (pidBucket : Pid → Nat) (es : List Event) :
    List Moment :=
  trace step (Maps.init pageBucket pidBucket) es

/-- The page of an access whose caller's PID is in `pid_map` at that moment. -/
def trackedKey : Moment → Option PageKey
  | (s, .folioMarkAccessed pidTgid f1) =>
    if currentPid pidTgid ∈ s.pidMap then some f1.key else none
  | _ => none

def Tracked (k : PageKey) (x : Moment) : Prop := trackedKey x = some k

instance (k : PageKey) : DecidablePred (Tracked k) :=
  fun x => inferInstanceAs (Decidable (trackedKey x = some k))

def Frees (k : PageKey) (x : Moment) : Prop :=
  match x.2 with
  | .filemapFreeFolio _ tmpMapping f1 => (⟨tmpMapping, f1.index⟩ : PageKey) = k
  | _ => False

instance (k : PageKey) : DecidablePred (Frees k)
  | (_, .filemapFreeFolio _ tmpMapping f1) =>
    inferInstanceAs (Decidable ((⟨tmpMapping, f1.index⟩ : PageKey) = k))
  | (_, .addPid _) => .isFalse id
  | (_, .folioMarkAccessed _ _) => .isFalse id

def FoundRoom (x : Moment) : Prop := x.1.pageAccessMap.size < maxPages

instance : DecidablePred FoundRoom := fun x =>
  inferInstanceAs (Decidable (x.1.pageAccessMap.size < maxPages))

def sinceFree (k : PageKey) (h : List Moment) : List Moment :=
  h.rtakeWhile (fun x => ¬Frees k x)

/-- The history from the first successful insertion since the last free. -/
def fromInsertion (k : PageKey) (h : List Moment) : List Moment :=
  (sinceFree k h).dropWhile (fun x => ¬(Tracked k x ∧ FoundRoom x))

def accessCount (k : PageKey) (h : List Moment) : Nat :=
  (fromInsertion k h).countP (fun x => Tracked k x)

def caller : Event → Option (Pid × UInt64)
  | .folioMarkAccessed pidTgid f1 => some (currentPid pidTgid, f1.folioNrPages.toUInt64)
  | _ => none

def latestAccess (k : PageKey) (h : List Moment) : Option (Pid × UInt64) :=
  (h.filter (fun x => Tracked k x)).getLast?.bind (fun x => caller x.2)

theorem sinceFree_concat (k : PageKey) (h : List Moment) (x : Moment) :
    sinceFree k (h ++ [x]) = if Frees k x then [] else sinceFree k h ++ [x] := by
  rw [sinceFree, List.rtakeWhile_concat]
  by_cases hFree : Frees k x <;> simp [hFree, sinceFree]

theorem fromInsertion_concat (k : PageKey) (h : List Moment) (x : Moment) :
    fromInsertion k (h ++ [x]) =
      if Frees k x then [] else
      if fromInsertion k h = [] then (if Tracked k x ∧ FoundRoom x then [x] else [])
      else fromInsertion k h ++ [x] := by
  rw [fromInsertion, sinceFree_concat]
  split
  · rfl
  · rw [List.dropWhile_append]
    simp only [List.isEmpty_iff, List.dropWhile_cons, List.dropWhile_nil, decide_eq_true_eq,
      ite_not]
    split
    · rename_i hNil
      exact (if_pos hNil).symm
    · rename_i hNil
      exact (if_neg hNil).symm

theorem fromInsertion_ne_nil_iff (k : PageKey) (h : List Moment) :
    fromInsertion k h ≠ [] ↔ ∃ x ∈ sinceFree k h, Tracked k x ∧ FoundRoom x := by
  rw [fromInsertion, ne_eq, List.dropWhile_eq_nil_iff]
  simp

/-- The relation between the maps and the history that every handler keeps. -/
structure Agrees (k : PageKey) (s : Maps) (h : List Moment) : Prop where
  live : k ∈ s.pageAccessMap ↔ fromInsertion k h ≠ []
  count : ∀ v, s.pageAccessMap.lookupElem k = some v →
    v.refCount = UInt64.ofNat (accessCount k h)
  latest : ∀ v, s.pageAccessMap.lookupElem k = some v →
    latestAccess k h = some (v.pid, v.pageCount)

theorem accessCount_concat_insert {k : PageKey} {h : List Moment} {x : Moment}
    (hNil : fromInsertion k h = []) (hFree : ¬Frees k x) (hTracked : Tracked k x)
    (hRoom : FoundRoom x) : accessCount k (h ++ [x]) = 1 := by
  simp [accessCount, fromInsertion_concat, hNil, hFree, hTracked, hRoom]

theorem accessCount_concat_live {k : PageKey} {h : List Moment} {x : Moment}
    (hLive : fromInsertion k h ≠ []) (hFree : ¬Frees k x) :
    accessCount k (h ++ [x]) = accessCount k h + if Tracked k x then 1 else 0 := by
  simp [accessCount, fromInsertion_concat, hLive, hFree, List.countP_append, List.countP_singleton]

theorem latestAccess_concat (k : PageKey) (h : List Moment) (x : Moment) :
    latestAccess k (h ++ [x]) = if Tracked k x then caller x.2 else latestAccess k h := by
  by_cases hTracked : Tracked k x <;>
    simp [latestAccess, List.filter_append, hTracked]

theorem Agrees.of_absent {k : PageKey} {s : Maps} {h : List Moment}
    (hLookup : s.pageAccessMap.lookupElem k = none) (hNil : fromInsertion k h = []) :
    Agrees k s h := by
  have hAbsent := BoundedMap.lookupElem_eq_none_iff.mp hLookup
  refine ⟨iff_of_false hAbsent (not_not_intro hNil), fun v hv => ?_, fun v hv => ?_⟩
  · cases hLookup.symm.trans hv
  · cases hLookup.symm.trans hv

theorem Agrees.of_present {k : PageKey} {s : Maps} {h : List Moment} {v : Metric}
    (hLookup : s.pageAccessMap.lookupElem k = some v) (hLive : fromInsertion k h ≠ [])
    (hCount : v.refCount = UInt64.ofNat (accessCount k h))
    (hLatest : latestAccess k h = some (v.pid, v.pageCount)) : Agrees k s h := by
  have hPresent := BoundedMap.mem_iff_lookupElem.mpr ⟨v, hLookup⟩
  refine ⟨iff_of_true hPresent hLive, fun w hw => ?_, fun w hw => ?_⟩
  · obtain rfl := Option.some.inj (hLookup.symm.trans hw)
    exact hCount
  · obtain rfl := Option.some.inj (hLookup.symm.trans hw)
    exact hLatest

theorem Agrees.frame {k : PageKey} {s s' : Maps} {h : List Moment} {x : Moment}
    (hAgrees : Agrees k s h) (hFree : ¬Frees k x) (hTracked : ¬Tracked k x)
    (hLookup : s'.pageAccessMap.lookupElem k = s.pageAccessMap.lookupElem k) :
    Agrees k s' (h ++ [x]) := by
  have hMem : k ∈ s'.pageAccessMap ↔ k ∈ s.pageAccessMap := by
    rw [BoundedMap.mem_iff_lookupElem, BoundedMap.mem_iff_lookupElem, hLookup]
  have hLive : fromInsertion k (h ++ [x]) ≠ [] ↔ fromInsertion k h ≠ [] := by
    rw [fromInsertion_concat]
    by_cases hNil : fromInsertion k h = [] <;> simp [hFree, hTracked, hNil]
  refine ⟨by rw [hMem, hAgrees.live, hLive], fun v hv => ?_, fun v hv => ?_⟩
  · have hPresent := hAgrees.live.mp (BoundedMap.mem_iff_lookupElem.mpr ⟨v, hLookup ▸ hv⟩)
    rw [hAgrees.count v (hLookup ▸ hv), accessCount_concat_live hPresent hFree, if_neg hTracked,
      Nat.add_zero]
  · rw [latestAccess_concat, if_neg hTracked]
    exact hAgrees.latest v (hLookup ▸ hv)

theorem Agrees.access {s : Maps} {h : List Moment} {pidTgid : UInt64} {f1 : Folio}
    (hAgrees : Agrees f1.key s h) (hPid : currentPid pidTgid ∈ s.pidMap) :
    Agrees f1.key (folioMarkAccessed s pidTgid f1)
      (h ++ [(s, .folioMarkAccessed pidTgid f1)]) := by
  have hTracked : Tracked f1.key (s, .folioMarkAccessed pidTgid f1) := by
    simp [Tracked, trackedKey, hPid]
  have hFree : ¬Frees f1.key (s, .folioMarkAccessed pidTgid f1) := id
  obtain ⟨_, _, hLookup⟩ := folioMarkAccessed_tracked f1 hPid
  have hSelf := hLookup f1.key
  rw [if_pos rfl, accessed] at hSelf
  have hLatest : latestAccess f1.key (h ++ [(s, .folioMarkAccessed pidTgid f1)]) =
      some (currentPid pidTgid, f1.folioNrPages.toUInt64) := by
    rw [latestAccess_concat, if_pos hTracked]
    rfl
  cases hOld : s.pageAccessMap.lookupElem f1.key with
  | none =>
    have hNil : fromInsertion f1.key h = [] :=
      not_ne_iff.mp (hAgrees.live.not.mp (BoundedMap.lookupElem_eq_none_iff.mp hOld))
    rw [hOld] at hSelf
    by_cases hRoom : s.pageAccessMap.size < maxPages
    · simp only [hRoom, if_true] at hSelf
      refine .of_present hSelf ?_ ?_ hLatest
      · rw [fromInsertion_concat, if_neg hFree, if_pos hNil, if_pos ⟨hTracked, hRoom⟩]
        exact List.cons_ne_nil _ _
      · rw [accessCount_concat_insert hNil hFree hTracked hRoom]
        rfl
    · simp only [hRoom, if_false] at hSelf
      refine .of_absent hSelf ?_
      rw [fromInsertion_concat, if_neg hFree, if_pos hNil, if_neg (fun hHit => hRoom hHit.2)]
  | some old =>
    have hPresent : fromInsertion f1.key h ≠ [] :=
      hAgrees.live.mp (BoundedMap.mem_iff_lookupElem.mpr ⟨old, hOld⟩)
    rw [hOld] at hSelf
    refine .of_present hSelf ?_ ?_ hLatest
    · rw [fromInsertion_concat, if_neg hFree, if_neg hPresent]
      exact List.append_ne_nil_of_left_ne_nil hPresent _
    · rw [accessCount_concat_live hPresent hFree, if_pos hTracked, UInt64.ofNat_add,
        ← hAgrees.count old hOld]
      rfl

theorem Agrees.step {k : PageKey} {s : Maps} {h : List Moment} (e : Event)
    (hAgrees : Agrees k s h) : Agrees k (step s e) (h ++ [(s, e)]) := by
  cases e with
  | addPid pid => exact hAgrees.frame id (by simp [Tracked, trackedKey]) rfl
  | folioMarkAccessed pidTgid f1 =>
    by_cases hPid : currentPid pidTgid ∈ s.pidMap
    · by_cases hKey : f1.key = k
      · subst hKey
        exact hAgrees.access hPid
      · refine hAgrees.frame id (by simp [Tracked, trackedKey, hPid, hKey]) ?_
        have hLookup := (folioMarkAccessed_tracked f1 hPid).2.2 k
        rwa [if_neg (fun hk => hKey hk.symm)] at hLookup
    · have hSame : PageAccess.step s (.folioMarkAccessed pidTgid f1) = s :=
        folioMarkAccessed_untracked f1 hPid
      exact hAgrees.frame id (by simp [Tracked, trackedKey, hPid]) (by rw [hSame])
  | filemapFreeFolio pidTgid tmpMapping f1 =>
    have hLookup := lookupElem_filemapFreeFolio s pidTgid tmpMapping f1 k
    by_cases hKey : (⟨tmpMapping, f1.index⟩ : PageKey) = k
    · rw [if_pos hKey.symm] at hLookup
      have hFree : Frees k (s, .filemapFreeFolio pidTgid tmpMapping f1) := hKey
      refine .of_absent hLookup ?_
      rw [fromInsertion_concat, if_pos hFree]
    · rw [if_neg (fun hk => hKey hk.symm)] at hLookup
      exact hAgrees.frame (fun hFree => hKey hFree) (by simp [Tracked, trackedKey]) hLookup

theorem agrees_run (pageBucket : PageKey → Nat) (pidBucket : Pid → Nat) (es : List Event)
    (k : PageKey) : Agrees k (run pageBucket pidBucket es) (history pageBucket pidBucket es) := by
  refine trace_induction (Maps.init pageBucket pidBucket) (Agrees k) ?_ ?_ es
  · exact .of_absent rfl rfl
  · intro t h e hAgrees
    exact hAgrees.step e

/-- Presence, count, caller and page count of every entry after any sequence of events. -/
theorem pageAccessMap_matches_history (pageBucket : PageKey → Nat) (pidBucket : Pid → Nat)
    (es : List Event) (k : PageKey) :
    let s := run pageBucket pidBucket es
    let h := history pageBucket pidBucket es
    (k ∈ s.pageAccessMap ↔ ∃ x ∈ sinceFree k h, Tracked k x ∧ FoundRoom x) ∧
    (∀ v, s.pageAccessMap.lookupElem k = some v →
      v.refCount = UInt64.ofNat (accessCount k h) ∧
      latestAccess k h = some (v.pid, v.pageCount)) ∧
    (∀ pidTgid tmpMapping f1, (⟨tmpMapping, f1.index⟩ : PageKey) = k →
      k ∉ (step s (.filemapFreeFolio pidTgid tmpMapping f1)).pageAccessMap) ∧
    (∀ pidTgid f1, currentPid pidTgid ∉ s.pidMap →
      step s (.folioMarkAccessed pidTgid f1) = s) := by
  intro s h
  have hAgrees := agrees_run pageBucket pidBucket es k
  refine ⟨?_, fun v hv => ⟨hAgrees.count v hv, hAgrees.latest v hv⟩, ?_, ?_⟩
  · rw [← fromInsertion_ne_nil_iff]
    exact hAgrees.live
  · intro pidTgid tmpMapping f1 hKey
    rw [← BoundedMap.lookupElem_eq_none_iff, step, lookupElem_filemapFreeFolio, if_pos hKey.symm]
  · intro pidTgid f1 hPid
    exact folioMarkAccessed_untracked f1 hPid

end Ebacs.PageAccess
