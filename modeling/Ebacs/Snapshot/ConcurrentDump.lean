import Ebacs.Snapshot.DumpLoop

/-! # A snapshot taken while the probes run

Between any two calls of the pass the probes may change the map, also under
the cursor. The written keys stay behind the cursor, in its bucket or in an
earlier one, as long as the cursor is neither deleted nor moved to the front
of its bucket past keys that were already listed.
-/
namespace Ebacs.Snapshot
open Lib PageAccess
set_option autoImplicit false

structure Dumping where
  maps : Maps
  pass : Pass

inductive Act where
  | loop
  | event (e : Event)

def Dumping.step (s : Dumping) : Act → Dumping
  | .loop => { s with pass := s.pass.step s.maps.pageAccessMap }
  | .event e => { s with maps := PageAccess.step s.maps e }

def Dumping.run (s : Maps) (acts : List Act) : Dumping :=
  acts.foldl Dumping.step ⟨s, Pass.start⟩

def Pass.cursor (p : Pass) : Option PageKey :=
  match p.phase with
  | .next key => some key
  | .lookup nextKey => some nextKey
  | .finished => none

def Pass.written (p : Pass) : List PageKey := p.lines.map Prod.fst

/-- Once a line has been written, the page under the cursor is not freed, and it is
accessed only while no other page of its bucket precedes it. -/
def CursorKept (s : Dumping) : Act → Prop
  | .loop => True
  | .event e => ∀ c ∈ s.pass.cursor, s.pass.written ≠ [] →
    ¬Frees c (s.maps, e) ∧ (Tracked c (s.maps, e) → ∀ k ∈ s.maps.pageAccessMap.keys,
      s.maps.pageAccessMap.Precedes k c →
      s.maps.pageAccessMap.bucket k ≠ s.maps.pageAccessMap.bucket c)

instance (s : Dumping) : DecidablePred (CursorKept s)
  | .loop => .isTrue trivial
  | .event e => inferInstanceAs (Decidable (∀ c ∈ s.pass.cursor, s.pass.written ≠ [] →
    ¬Frees c (s.maps, e) ∧ (Tracked c (s.maps, e) → ∀ k ∈ s.maps.pageAccessMap.keys,
      s.maps.pageAccessMap.Precedes k c →
      s.maps.pageAccessMap.bucket k ≠ s.maps.pageAccessMap.bucket c)))

/-- No listed page follows `c`, now or after a later insertion. -/
structure Listed (m : PageAccessMap) (c : PageKey) (written : List PageKey) : Prop where
  present : c ∈ m
  bucket_le : ∀ k ∈ written, m.bucket k ≤ m.bucket c
  not_after : ∀ k ∈ written, ¬m.Precedes c k

structure Keeps (m m' : PageAccessMap) (c : PageKey) : Prop where
  bucket : m'.bucket = m.bucket
  present : c ∈ m'
  after : ∀ k, m'.Precedes c k → m.Precedes c k ∨ m.bucket c < m.bucket k

theorem Listed.keep {m m' : PageAccessMap} {c : PageKey} {written : List PageKey}
    (h : Listed m c written) (hKeeps : Keeps m m' c) : Listed m' c written := by
  refine ⟨hKeeps.present, fun k hk => ?_, fun k hk hAfter => ?_⟩
  · rw [hKeeps.bucket]
    exact h.bucket_le k hk
  · rcases hKeeps.after k hAfter with hOld | hLt
    · exact h.not_after k hk hOld
    · exact absurd hLt (Nat.not_lt.mpr (h.bucket_le k hk))

theorem Keeps.refl {m : PageAccessMap} {c : PageKey} (h : c ∈ m) : Keeps m m c :=
  ⟨rfl, h, fun _ hAfter => Or.inl hAfter⟩

theorem Keeps.modify {m m' : PageAccessMap} {c k : PageKey} {f : Metric → Metric}
    (h : Keeps (m.modify k f) m' c) : Keeps m m' c := by
  refine ⟨h.bucket, h.present, fun k' hk' => ?_⟩
  have hAfter := h.after k' hk'
  rwa [BoundedMap.Precedes, BoundedMap.keys_modify] at hAfter

theorem keeps_put {m : PageAccessMap} {c k : PageKey} {v : Metric}
    (hRoom : k ∈ m ∨ m.size < maxPages) (hMem : c ∈ m)
    (hFirst : k = c → ∀ k', m.Precedes k' c → m.bucket k' ≠ m.bucket c) :
    Keeps m (m.put k v hRoom) c := by
  refine ⟨rfl, BoundedMap.mem_put.mpr (Or.inr hMem), fun k' hk' => ?_⟩
  by_cases hk : k = c
  · subst hk
    exact Or.inl (hk'.of_put_self hMem (hFirst rfl))
  · exact hk'.of_put (Ne.symm hk)

theorem keeps_update {m : PageAccessMap} {c k : PageKey} (v : Metric) (hMem : c ∈ m)
    (hFirst : k = c → ∀ k', m.Precedes k' c → m.bucket k' ≠ m.bucket c) :
    Keeps m ((m.updateElem k v).getD m) c := by
  rw [BoundedMap.updateElem]
  split
  · rename_i hRoom
    exact keeps_put hRoom hMem hFirst
  · exact Keeps.refl hMem

theorem keeps_delete {m : PageAccessMap} {c k : PageKey} (hMem : c ∈ m) (hNe : k ≠ c) :
    Keeps m (m.deleteElem k) c :=
  ⟨rfl, BoundedMap.mem_deleteElem.mpr ⟨Ne.symm hNe, hMem⟩, fun _ h => Or.inl h.of_deleteElem⟩

theorem keeps_event {s : Maps} {c : PageKey} (e : Event) (hMem : c ∈ s.pageAccessMap)
    (hFree : ¬Frees c (s, e)) (hFirst : Tracked c (s, e) → ∀ k, s.pageAccessMap.Precedes k c →
      s.pageAccessMap.bucket k ≠ s.pageAccessMap.bucket c) :
    Keeps s.pageAccessMap (PageAccess.step s e).pageAccessMap c := by
  cases e with
  | addPid pid => exact Keeps.refl hMem
  | folioMarkAccessed pidTgid f1 =>
    by_cases hPid : currentPid pidTgid ∈ s.pidMap
    · have hFirst' : f1.key = c → ∀ k, s.pageAccessMap.Precedes k c →
          s.pageAccessMap.bucket k ≠ s.pageAccessMap.bucket c := by
        intro hKey
        exact hFirst (by simp [Tracked, trackedKey, hPid, hKey])
      cases hLookup : s.pageAccessMap.lookupElem f1.key with
      | none =>
        rw [PageAccess.step, folioMarkAccessed_absent hPid hLookup]
        exact keeps_update _ hMem hFirst'
      | some v =>
        rw [PageAccess.step, folioMarkAccessed_present hPid hLookup]
        refine Keeps.modify (keeps_update _ (BoundedMap.mem_modify.mpr hMem) ?_)
        intro hKey k hk
        rw [BoundedMap.Precedes, BoundedMap.keys_modify] at hk
        exact hFirst' hKey k hk
    · rw [PageAccess.step, folioMarkAccessed_untracked f1 hPid]
      exact Keeps.refl hMem
  | filemapFreeFolio pidTgid tmpMapping f1 =>
    rw [PageAccess.step, filemapFreeFolio]
    split
    · exact Keeps.refl hMem
    · exact keeps_delete hMem (fun hKey => hFree hKey)

structure Uniquely (s : Dumping) : Prop where
  nodup : s.pass.written.Nodup
  listed : ∀ c, s.pass.cursor = some c → s.pass.written ≠ [] →
    Listed s.maps.pageAccessMap c s.pass.written
  pending : ∀ c, s.pass.phase = .lookup c → c ∉ s.pass.written

theorem Uniquely.event {s : Dumping} (e : Event) (h : Uniquely s)
    (hKept : CursorKept s (.event e)) : Uniquely (s.step (.event e)) := by
  refine ⟨h.nodup, fun c hc hWritten => ?_, h.pending⟩
  obtain ⟨hFree, hFirst⟩ := hKept c hc hWritten
  have hListed := h.listed c hc hWritten
  refine hListed.keep (keeps_event e hListed.present hFree (fun hTracked k hk => ?_))
  exact hFirst hTracked k (hk.subset List.mem_cons_self) hk

theorem Uniquely.next {s : Dumping} {key : PageKey} (h : Uniquely s)
    (hPhase : s.pass.phase = .next key) : Uniquely (s.step .loop) := by
  have hCursor : s.pass.cursor = some key := by rw [Pass.cursor, hPhase]
  cases hNext : s.maps.pageAccessMap.getNextKey key with
  | none =>
    have hStep : s.step .loop = ⟨s.maps, ⟨.finished, s.pass.lines⟩⟩ := by
      simp only [Dumping.step, Pass.step, hPhase, hNext]
    rw [hStep]
    exact ⟨h.nodup, fun c hc => (by cases hc), fun c hc => (by cases hc)⟩
  | some nextKey =>
    have hStep : s.step .loop = ⟨s.maps, ⟨.lookup nextKey, s.pass.lines⟩⟩ := by
      simp only [Dumping.step, Pass.step, hPhase, hNext]
    rw [hStep]
    refine ⟨h.nodup, fun c hc hWritten => ?_, fun c hc hMem => ?_⟩
    · obtain rfl : nextKey = c := Option.some.inj hc
      have hListed := h.listed key hCursor hWritten
      obtain ⟨hPrecedes, hTail⟩ := BoundedMap.getNextKey_precedes hListed.present hNext
      refine ⟨hPrecedes.mem_right, fun k hk => ?_, fun k hk hAfter => ?_⟩
      · exact (hListed.bucket_le k hk).trans hPrecedes.bucket_le
      · exact hListed.not_after k hk (hTail k hAfter)
    · obtain rfl : nextKey = c := Phase.lookup.inj hc
      have hListed := h.listed key hCursor (List.ne_nil_of_mem hMem)
      exact hListed.not_after _ hMem
        (BoundedMap.getNextKey_precedes hListed.present hNext).1

theorem Uniquely.lookup {s : Dumping} {nextKey : PageKey} (h : Uniquely s)
    (hPhase : s.pass.phase = .lookup nextKey) : Uniquely (s.step .loop) := by
  have hCursor : s.pass.cursor = some nextKey := by rw [Pass.cursor, hPhase]
  cases hLookup : s.maps.pageAccessMap.lookupElem nextKey with
  | none =>
    have hStep : s.step .loop = ⟨s.maps, ⟨.next nextKey, s.pass.lines⟩⟩ := by
      simp only [Dumping.step, Pass.step, hPhase, hLookup]
    rw [hStep]
    refine ⟨h.nodup, fun c hc hWritten => ?_, fun c hc => by cases hc⟩
    obtain rfl : nextKey = c := Option.some.inj hc
    exact h.listed _ hCursor hWritten
  | some value =>
    have hStep : s.step .loop = ⟨s.maps,
        ⟨.next nextKey, s.pass.lines ++ [(nextKey, dumpLine nextKey value)]⟩⟩ := by
      simp only [Dumping.step, Pass.step, hPhase, hLookup]
    have hWritten : (s.step .loop).pass.written = s.pass.written ++ [nextKey] := by
      rw [hStep]
      simp [Pass.written]
    have hNew := h.pending nextKey hPhase
    refine ⟨?_, fun c hc _ => ?_, fun c hc => ?_⟩
    · rw [hWritten, ← List.concat_eq_append]
      exact h.nodup.concat hNew
    · rw [hStep] at hc
      obtain rfl : nextKey = c := Option.some.inj hc
      have hOld : ∀ k ∈ s.pass.written,
          s.maps.pageAccessMap.bucket k ≤ s.maps.pageAccessMap.bucket nextKey ∧
          ¬s.maps.pageAccessMap.Precedes nextKey k := by
        intro k hk
        have hListed := h.listed nextKey hCursor (List.ne_nil_of_mem hk)
        exact ⟨hListed.bucket_le k hk, hListed.not_after k hk⟩
      rw [hWritten]
      refine ⟨BoundedMap.mem_iff_lookupElem.mpr ⟨value, hLookup⟩, fun k hk => ?_,
        fun k hk => ?_⟩
      · rcases List.mem_append.mp hk with hk | hk
        · exact (hOld k hk).1
        · rw [List.mem_singleton.mp hk]
      · rcases List.mem_append.mp hk with hk | hk
        · exact (hOld k hk).2
        · rw [List.mem_singleton.mp hk]
          exact BoundedMap.Precedes.irrefl
    · rw [hStep] at hc
      cases hc

theorem Uniquely.step {s : Dumping} (a : Act) (h : Uniquely s) (hKept : CursorKept s a) :
    Uniquely (s.step a) := by
  cases a with
  | event e => exact h.event e hKept
  | loop =>
    cases hPhase : s.pass.phase with
    | next key => exact h.next hPhase
    | lookup nextKey => exact h.lookup hPhase
    | finished =>
      have hSame : s.step .loop = s := by simp only [Dumping.step, Pass.step, hPhase]
      rw [hSame]
      exact h

/-- No page is listed twice while the cursor stays in the map and in its place. -/
theorem dump_lists_once (s : Maps) (acts : List Act)
    (hKept : ∀ x ∈ trace Dumping.step ⟨s, Pass.start⟩ acts, CursorKept x.1 x.2) :
    (Dumping.run s acts).pass.written.Nodup := by
  have hStart : Uniquely ⟨s, Pass.start⟩ :=
    ⟨List.nodup_nil, fun _ _ hWritten => absurd rfl hWritten, fun c hc => by cases hc⟩
  exact (foldl_invariant Uniquely CursorKept (fun _ a hKept h => h.step a hKept) acts hStart
    hKept).nodup

def threePages : Maps :=
  PageAccess.run (fun k => k.index.toNat) (fun _ => 0)
    [.addPid 7, .folioMarkAccessed 0x700000000 ⟨0xffff888000001000, 0, 1⟩,
      .folioMarkAccessed 0x700000000 ⟨0xffff888000001000, 1, 1⟩,
      .folioMarkAccessed 0x700000000 ⟨0xffff888000001000, 2, 1⟩]

def free (index : UInt64) : Act :=
  .event (.filemapFreeFolio 0x900000000 0xffff888000001000 ⟨0xffff888000001000, index, 1⟩)

def freeBehind : List Act := [.loop, .loop, .loop, free 0, .loop, .loop, .loop, .loop]

theorem freeBehind_lists_once :
    (∀ x ∈ trace Dumping.step ⟨threePages, Pass.start⟩ freeBehind, CursorKept x.1 x.2) ∧
    (Dumping.run threePages freeBehind).pass.written.Nodup :=
  ⟨by decide, dump_lists_once threePages freeBehind (by decide)⟩

/-- The page under the cursor is freed, so the pass starts over at page 0. -/
def freeUnderCursor : List Act := [.loop, .loop, .loop, .loop, free 1, .loop, .loop]

theorem freeUnderCursor_lists_twice :
    ¬(Dumping.run threePages freeUnderCursor).pass.written.Nodup := by decide

end Ebacs.Snapshot
