import Ebacs.Avgscale.PageTable

/-! # Page identity across the snapshot file

The writer squeezes mapping and index into the 64 bits of their exclusive or,
and the reader takes the result for the page. The tables keep every page of a
PID exactly when no two of its pages collide.
-/
namespace Ebacs.Avgscale
open Lib PageAccess Snapshot
set_option autoImplicit false

def Faithful (entries : List (PageKey × Metric)) (t : PageTable) (p : Int) : Prop :=
  (t p).keys.length = (ofPid p entries).length ∧
  ∀ e ∈ ofPid p entries, (t p).lookup (pageText e.1) = some (e.2.refCount.toNat : Int)

/-- No two pages counted for `p` differ by the same bits in mapping and index. -/
def NoCollision (entries : List (PageKey × Metric)) (p : Int) : Prop :=
  ∀ e ∈ ofPid p entries, ∀ e' ∈ ofPid p entries, e.1 ≠ e'.1 →
    e.1.mapping ^^^ e'.1.mapping ≠ e.1.index ^^^ e'.1.index

instance (entries : List (PageKey × Metric)) (p : Int) : Decidable (NoCollision entries p) :=
  inferInstanceAs (Decidable (∀ e ∈ ofPid p entries, ∀ e' ∈ ofPid p entries, e.1 ≠ e'.1 →
    e.1.mapping ^^^ e'.1.mapping ≠ e.1.index ^^^ e'.1.index))

/-- The file is read without an error and every tracked PID gets its pages back. -/
def Preserved (trackedPids : Finset Int) (entries : List (PageKey × Metric)) : Prop :=
  ∃ t, readSnapshot trackedPids (snapshotText entries) = some t ∧
    ∀ p ∈ trackedPids, Faithful entries t p

theorem hash_eq_iff (a b : PageKey) :
    hashIndexMapping a.index a.mapping = hashIndexMapping b.index b.mapping ↔
      a.mapping ^^^ b.mapping = a.index ^^^ b.index := by
  rw [hashIndexMapping, hashIndexMapping]
  constructor
  · intro h
    calc
      a.mapping ^^^ b.mapping = a.index ^^^ (a.index ^^^ a.mapping) ^^^ b.mapping := by
        rw [← UInt64.xor_assoc a.index, UInt64.xor_self, UInt64.zero_xor]
      _ = a.index ^^^ (b.index ^^^ b.mapping) ^^^ b.mapping := by rw [h]
      _ = a.index ^^^ b.index := by
        rw [UInt64.xor_assoc, UInt64.xor_assoc, UInt64.xor_self, UInt64.xor_zero]
  · intro h
    calc
      a.index ^^^ a.mapping = a.index ^^^ (a.mapping ^^^ b.mapping) ^^^ b.mapping := by
        rw [UInt64.xor_assoc, UInt64.xor_assoc, UInt64.xor_self, UInt64.xor_zero]
      _ = a.index ^^^ (a.index ^^^ b.index) ^^^ b.mapping := by rw [h]
      _ = b.index ^^^ b.mapping := by
        rw [← UInt64.xor_assoc a.index, UInt64.xor_self, UInt64.zero_xor]

theorem nodup_pageText_iff {entries : List (PageKey × Metric)}
    (hKeys : (entries.map Prod.fst).Nodup) (p : Int) :
    ((ofPid p entries).map (fun e => pageText e.1)).Nodup ↔ NoCollision entries p := by
  have hNodup : (ofPid p entries).Nodup := (hKeys.of_map _).filter _
  rw [List.nodup_map_iff_inj_on hNodup]
  constructor
  · intro h e he e' he' hNe hBits
    have hText := pageText_eq_iff.mpr ((hash_eq_iff e.1 e'.1).mpr hBits)
    exact hNe (congrArg Prod.fst (h e he e' he' hText))
  · intro h e he e' he' hText
    by_contra hNe
    have hKey : e.1 ≠ e'.1 := by
      intro hEq
      exact hNe (List.inj_on_of_nodup_map hKeys (List.mem_of_mem_filter he)
        (List.mem_of_mem_filter he') hEq)
    exact h e he e' he' hKey ((hash_eq_iff e.1 e'.1).mp (pageText_eq_iff.mp hText))

theorem faithful_iff (trackedPids : Finset Int) (entries : List (PageKey × Metric))
    (hKeys : (entries.map Prod.fst).Nodup) (hCounts : ∀ e ∈ entries, e.2.refCount.toNat < 2 ^ 63)
    {p : Int} (hp : p ∈ trackedPids) :
    Faithful entries (entries.foldl (record trackedPids) (fun _ => ∅)) p ↔
      NoCollision entries p := by
  rw [Faithful, foldl_record hp, length_keys_pages_iff, nodup_pageText_iff hKeys]
  constructor
  · intro h
    exact h.1
  · intro h
    refine ⟨h, fun e he => ?_⟩
    rw [lookup_pages ((nodup_pageText_iff hKeys p).mpr h) he,
      writtenCount_of_lt (hCounts e (List.mem_of_mem_filter he))]

/-- Page identity survives exactly when the pages of each tracked PID do not collide. -/
theorem snapshot_preserves_pages_iff (trackedPids : Finset Int)
    (entries : List (PageKey × Metric)) (hKeys : (entries.map Prod.fst).Nodup)
    (hCounts : ∀ e ∈ entries, e.2.refCount.toNat < 2 ^ 63) :
    Preserved trackedPids entries ↔ ∀ p ∈ trackedPids, NoCollision entries p := by
  rw [Preserved, readSnapshot_snapshotText]
  constructor
  · rintro ⟨t, hRead, hFaithful⟩ p hp
    obtain rfl := Option.some.inj hRead
    exact (faithful_iff trackedPids entries hKeys hCounts hp).mp (hFaithful p hp)
  · intro h
    exact ⟨_, rfl, fun p hp => (faithful_iff trackedPids entries hKeys hCounts hp).mpr (h p hp)⟩

def neighbours : List (PageKey × Metric) :=
  [(⟨0xffff888012340170, 0⟩, ⟨5, 1, 1, 7⟩), (⟨0xffff888012340170, 1⟩, ⟨9, 2, 1, 7⟩)]

theorem neighbours_preserved :
    (∀ p ∈ ({7} : Finset Int), NoCollision neighbours p) ∧ Preserved {7} neighbours :=
  ⟨by decide, (snapshot_preserves_pages_iff {7} neighbours (by decide) (by decide)).mpr
    (by decide)⟩

def colliding : List (PageKey × Metric) :=
  [(⟨0xffff888012340170, 0x4e0⟩, ⟨5, 1, 1, 7⟩), (⟨0xffff888012340590, 0⟩, ⟨9, 2, 1, 7⟩)]

theorem colliding_not_preserved : ¬Preserved {7} colliding := by
  rintro ⟨t, hRead, hFaithful⟩
  rw [readSnapshot_snapshotText] at hRead
  obtain rfl := Option.some.inj hRead
  have h := (faithful_iff {7} colliding (by decide) (by decide) (by decide)).mp
    (hFaithful 7 (by decide))
  exact absurd h (by decide)

end Ebacs.Avgscale
