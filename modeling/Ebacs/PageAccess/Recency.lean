import Mathlib.Algebra.Ring.Nat
import Ebacs.PageAccess.History

/-! # Ranks as positions in the sequence of tracked accesses

The counter advances on every tracked access, whether it inserts, fails to
insert or updates, while only the live entry of the accessed page takes the
new value. So the rank of a live page is the position of its latest access.
-/
namespace Ebacs.PageAccess
open Lib
set_option autoImplicit false

def trackedAccesses (h : List Moment) : List PageKey := h.filterMap trackedKey

/-- The last occurrence of `k` is the `p`-th element, counted from one. -/
def LatestAt (accesses : List PageKey) (k : PageKey) (p : Nat) : Prop :=
  ∃ before after, accesses = before ++ k :: after ∧ k ∉ after ∧ p = before.length + 1

def LatestBefore (accesses : List PageKey) (k₁ k₂ : PageKey) : Prop :=
  ∃ before between after, accesses = before ++ k₁ :: (between ++ k₂ :: after) ∧
    k₁ ∉ between ++ k₂ :: after ∧ k₂ ∉ after

theorem LatestAt.concat_self (accesses : List PageKey) (k : PageKey) :
    LatestAt (accesses ++ [k]) k (accesses.length + 1) :=
  ⟨accesses, [], rfl, List.not_mem_nil, rfl⟩

theorem LatestAt.concat_other {accesses : List PageKey} {k a : PageKey} {p : Nat}
    (h : LatestAt accesses k p) (ha : k ≠ a) : LatestAt (accesses ++ [a]) k p := by
  obtain ⟨before, after, rfl, hAfter, rfl⟩ := h
  refine ⟨before, after ++ [a], by simp, ?_, rfl⟩
  intro hMem
  rcases List.mem_append.mp hMem with hMem | hMem
  · exact hAfter hMem
  · exact ha (List.mem_singleton.mp hMem)

theorem LatestAt.le_length {accesses : List PageKey} {k : PageKey} {p : Nat}
    (h : LatestAt accesses k p) : p ≤ accesses.length := by
  obtain ⟨before, after, rfl, _, rfl⟩ := h
  simp only [List.length_append, List.length_cons]
  omega

theorem LatestAt.getElem {accesses : List PageKey} {k : PageKey} {p : Nat}
    (h : LatestAt accesses k p) : 0 < p ∧ accesses[p - 1]? = some k := by
  obtain ⟨before, after, rfl, _, rfl⟩ := h
  simp

theorem LatestAt.key_unique {accesses : List PageKey} {k₁ k₂ : PageKey} {p : Nat}
    (h₁ : LatestAt accesses k₁ p) (h₂ : LatestAt accesses k₂ p) : k₁ = k₂ := by
  have h := h₁.getElem.2.symm.trans h₂.getElem.2
  exact Option.some.inj h

theorem latestBefore_of_lt {accesses : List PageKey} {k₁ k₂ : PageKey} {p₁ p₂ : Nat}
    (h₁ : LatestAt accesses k₁ p₁) (h₂ : LatestAt accesses k₂ p₂) (hLt : p₁ < p₂) :
    LatestBefore accesses k₁ k₂ := by
  obtain ⟨before₁, after₁, rfl, hAfter₁, rfl⟩ := h₁
  obtain ⟨before₂, after₂, hEq, hAfter₂, rfl⟩ := h₂
  rcases List.append_eq_append_iff.mp hEq with ⟨gap, hBefore, hTail⟩ | ⟨gap, hBefore, hTail⟩
  · cases gap with
    | nil =>
      rw [List.append_nil] at hBefore
      rw [hBefore] at hLt
      exact absurd hLt (lt_irrefl _)
    | cons g gap =>
      obtain ⟨rfl, rfl⟩ := List.cons.inj hTail
      exact ⟨before₁, gap, after₂, rfl, hAfter₁, hAfter₂⟩
  · have hLength := congrArg List.length hBefore
    rw [List.length_append] at hLength
    omega

theorem lt_of_latestBefore {accesses : List PageKey} {k₁ k₂ : PageKey} {p₁ p₂ : Nat}
    (h₁ : LatestAt accesses k₁ p₁) (h₂ : LatestAt accesses k₂ p₂)
    (h : LatestBefore accesses k₁ k₂) : p₁ < p₂ := by
  obtain ⟨before, between, after, hEq, hFirst, hSecond⟩ := h
  have hPos : ∀ {k p q}, LatestAt accesses k p → LatestAt accesses k q → p = q := by
    intro k p q hp hq
    rcases lt_trichotomy p q with hLt | hEq | hLt
    · obtain ⟨b, m, a, rfl, hNot, _⟩ := latestBefore_of_lt hp hq hLt
      exact absurd (List.mem_append_right _ List.mem_cons_self) hNot
    · exact hEq
    · obtain ⟨b, m, a, rfl, hNot, _⟩ := latestBefore_of_lt hq hp hLt
      exact absurd (List.mem_append_right _ List.mem_cons_self) hNot
  have hp₁ := hPos h₁ ⟨before, _, hEq, hFirst, rfl⟩
  have hp₂ := hPos h₂ ⟨before ++ k₁ :: between, after, by simp [hEq], hSecond, rfl⟩
  rw [hp₁, hp₂]
  simp only [List.length_append, List.length_cons]
  omega

/-- Counter and ranks against the accesses so far, as 64-bit numbers. -/
structure Ranked (s : Maps) (h : List Moment) : Prop where
  counter : counterValue s = UInt64.ofNat (trackedAccesses h).length
  rank : ∀ k v, s.pageAccessMap.lookupElem k = some v →
    ∃ p, LatestAt (trackedAccesses h) k p ∧ v.rank = UInt64.ofNat p

theorem Ranked.frame {s s' : Maps} {h : List Moment} {x : Moment} (hRanked : Ranked s h)
    (hTracked : trackedKey x = none) (hCounter : counterValue s' = counterValue s)
    (hLookup : ∀ k v, s'.pageAccessMap.lookupElem k = some v →
      s.pageAccessMap.lookupElem k = some v) : Ranked s' (h ++ [x]) := by
  have hSame : trackedAccesses (h ++ [x]) = trackedAccesses h := by
    simp [trackedAccesses, hTracked]
  refine ⟨by rw [hCounter, hRanked.counter, hSame], fun k v hv => ?_⟩
  rw [hSame]
  exact hRanked.rank k v (hLookup k v hv)

theorem Ranked.access {s : Maps} {h : List Moment} {pidTgid : UInt64} (f1 : Folio)
    (hRanked : Ranked s h) (hPid : currentPid pidTgid ∈ s.pidMap) :
    Ranked (folioMarkAccessed s pidTgid f1) (h ++ [(s, .folioMarkAccessed pidTgid f1)]) := by
  obtain ⟨_, hCounter, hLookup⟩ := folioMarkAccessed_tracked f1 hPid
  have hNext : trackedAccesses (h ++ [(s, .folioMarkAccessed pidTgid f1)]) =
      trackedAccesses h ++ [f1.key] := by
    simp [trackedAccesses, trackedKey, hPid]
  have hRank : counterValue s + 1 = UInt64.ofNat ((trackedAccesses h).length + 1) := by
    rw [hRanked.counter, UInt64.ofNat_add]
    rfl
  refine ⟨by rw [hCounter, hRank, hNext, List.length_append, List.length_singleton],
    fun k v hv => ?_⟩
  rw [hNext]
  rw [hLookup] at hv
  split at hv
  · rename_i hKey
    refine ⟨(trackedAccesses h).length + 1, hKey ▸ LatestAt.concat_self _ _, ?_⟩
    rw [accessed] at hv
    split at hv
    · split at hv
      · cases hv
        exact hRank
      · cases hv
    · cases hv
      exact hRank
  · rename_i hKey
    obtain ⟨p, hLatest, hv⟩ := hRanked.rank k v hv
    exact ⟨p, hLatest.concat_other hKey, hv⟩

theorem ranked_run (pageBucket : PageKey → Nat) (pidBucket : Pid → Nat) (es : List Event) :
    Ranked (run pageBucket pidBucket es) (history pageBucket pidBucket es) := by
  refine trace_induction (Maps.init pageBucket pidBucket) Ranked ⟨rfl, ?_⟩ ?_ es
  · intro k v hv
    cases hv
  · intro s h e hRanked
    cases e with
    | addPid pid => exact hRanked.frame rfl rfl (fun _ _ hv => hv)
    | folioMarkAccessed pidTgid f1 =>
      by_cases hPid : currentPid pidTgid ∈ s.pidMap
      · exact hRanked.access f1 hPid
      · have hSame : step s (.folioMarkAccessed pidTgid f1) = s :=
          folioMarkAccessed_untracked f1 hPid
        rw [hSame]
        exact hRanked.frame (by simp [trackedKey, hPid]) rfl (fun _ _ hv => hv)
    | filemapFreeFolio pidTgid tmpMapping f1 =>
      refine hRanked.frame rfl (filemapFreeFolio_counter s pidTgid tmpMapping f1) ?_
      intro k v hv
      rw [step, lookupElem_filemapFreeFolio] at hv
      split at hv
      · cases hv
      · exact hv

/-- Below 2^64 tracked accesses the counter is exact and ranks order live pages by recency. -/
theorem ranks_give_recency_order (pageBucket : PageKey → Nat) (pidBucket : Pid → Nat)
    (es : List Event)
    (hFew : (trackedAccesses (history pageBucket pidBucket es)).length < 2 ^ 64) :
    let s := run pageBucket pidBucket es
    let accesses := trackedAccesses (history pageBucket pidBucket es)
    (counterValue s).toNat = accesses.length ∧
    (∀ k v, s.pageAccessMap.lookupElem k = some v → LatestAt accesses k v.rank.toNat) ∧
    ∀ k₁ v₁ k₂ v₂, s.pageAccessMap.lookupElem k₁ = some v₁ →
      s.pageAccessMap.lookupElem k₂ = some v₂ →
      (k₁ ≠ k₂ → v₁.rank ≠ v₂.rank) ∧ (v₁.rank < v₂.rank ↔ LatestBefore accesses k₁ k₂) := by
  intro s accesses
  obtain ⟨hCounter, hRanks⟩ := ranked_run pageBucket pidBucket es
  have hExact : ∀ k v, s.pageAccessMap.lookupElem k = some v →
      LatestAt accesses k v.rank.toNat := by
    intro k v hv
    obtain ⟨p, hLatest, hRank⟩ := hRanks k v hv
    rw [hRank, UInt64.toNat_ofNat_of_lt' (lt_of_le_of_lt hLatest.le_length hFew)]
    exact hLatest
  refine ⟨?_, hExact, fun k₁ v₁ k₂ v₂ h₁ h₂ => ⟨fun hNe hEq => ?_, ?_, ?_⟩⟩
  · rw [hCounter, UInt64.toNat_ofNat_of_lt' hFew]
  · have hSame := hExact k₂ v₂ h₂
    rw [← hEq] at hSame
    exact hNe ((hExact k₁ v₁ h₁).key_unique hSame)
  · intro hLt
    exact latestBefore_of_lt (hExact k₁ v₁ h₁) (hExact k₂ v₂ h₂) hLt
  · intro hBefore
    exact lt_of_latestBefore (hExact k₁ v₁ h₁) (hExact k₂ v₂ h₂) hBefore

def twoPages : List Event :=
  [.addPid 7, .folioMarkAccessed 0x700000000 ⟨0xffff888000001000, 0, 1⟩,
    .folioMarkAccessed 0x700000000 ⟨0xffff888000001000, 1, 1⟩,
    .folioMarkAccessed 0x700000000 ⟨0xffff888000001000, 0, 1⟩]

theorem ranks_of_twoPages :
    (trackedAccesses (history (fun _ => 0) (fun _ => 0) twoPages)).length < 2 ^ 64 ∧
    (counterValue (run (fun _ => 0) (fun _ => 0) twoPages)).toNat = 3 := by
  refine ⟨by decide, ?_⟩
  exact (ranks_give_recency_order _ _ twoPages (by decide)).1.trans (by decide)

end Ebacs.PageAccess
