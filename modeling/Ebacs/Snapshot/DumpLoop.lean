import Mathlib.Logic.Function.Iterate
import Ebacs.Lib.Enumeration
import Ebacs.Lib.Text
import Ebacs.PageAccess.History

/-! # The dump loop of a snapshot

One pass of the inner loop of `kprobe.c` as a machine that alternates between
`bpf_map__get_next_key` and `bpf_map__lookup_elem`. Each written line is kept
with the page key it came from.
-/
namespace Ebacs.Snapshot
open Lib PageAccess
set_option autoImplicit false

def hashIndexMapping (index mapping : UInt64) : UInt64 := index ^^^ mapping

/-- `fprintf(file, "%" PRIx64 " %d %ld \n", hash, value.pid, value.ref_count)` -/
def dumpLine (nextKey : PageKey) (value : Metric) : Text :=
  hex (hashIndexMapping nextKey.index nextKey.mapping).toNat ++ ' ' ::
    (decimal value.pid.toInt ++ ' ' :: (decimal value.refCount.toInt64.toInt ++ [' ', '\n']))

inductive Phase where
  | next (key : PageKey)
  | lookup (nextKey : PageKey)
  | finished
  deriving DecidableEq, Repr

structure Pass where
  phase : Phase
  lines : List (PageKey × Text)
  deriving DecidableEq, Repr

/-- The cursor after `memset(&key, 0, sizeof(key))`. -/
def zeroKey : PageKey := ⟨0, 0⟩

def Pass.start : Pass := ⟨.next zeroKey, []⟩

def Pass.step (m : PageAccessMap) (p : Pass) : Pass :=
  match p.phase with
  | .next key =>
    match m.getNextKey key with
    | some nextKey => { p with phase := .lookup nextKey }
    | none => { p with phase := .finished }
  | .lookup nextKey =>
    match m.lookupElem nextKey with
    | some value => ⟨.next nextKey, p.lines ++ [(nextKey, dumpLine nextKey value)]⟩
    -- the failure is only reported, the absent key still becomes the cursor
    | none => { p with phase := .next nextKey }
  | .finished => p

def entryLine (e : PageKey × Metric) : PageKey × Text := (e.1, dumpLine e.1 e.2)

/-- The pass ends, with one line for every entry of the map and no other line. -/
def Complete (m : PageAccessMap) : Prop :=
  ∃ n, ((Pass.step m)^[n] Pass.start).phase = .finished ∧
    ((Pass.step m)^[n] Pass.start).lines.Perm (m.entries.map entryLine)

theorem step_lookup {m : PageAccessMap} {k : PageKey} {v : Metric} (h : (k, v) ∈ m.entries)
    (lines : List (PageKey × Text)) :
    Pass.step m ⟨.lookup k, lines⟩ = ⟨.next k, lines ++ [entryLine (k, v)]⟩ := by
  simp only [Pass.step, BoundedMap.lookupElem_eq_some_iff.mpr h]
  rfl

theorem iterate_from_entry (m : PageAccessMap) (after before : List (PageKey × Metric))
    (e : PageKey × Metric) (h : m.entries = before ++ e :: after)
    (lines : List (PageKey × Text)) :
    (Pass.step m)^[2 * after.length + 1] ⟨.next e.1, lines⟩ =
      ⟨.finished, lines ++ after.map entryLine⟩ := by
  have hKeys : m.keys = before.map Prod.fst ++ e.1 :: after.map Prod.fst := by
    rw [BoundedMap.keys, h, List.map_append, List.map_cons]
  have hNext := BoundedMap.getNextKey_eq hKeys
  induction after generalizing before e lines with
  | nil =>
    simp only [Pass.step, hNext, List.length_nil, Nat.mul_zero, Nat.zero_add,
      Function.iterate_one, List.map_nil, List.head?_nil, List.append_nil]
  | cons next after ih =>
    obtain ⟨k, v⟩ := next
    have hMem : (k, v) ∈ m.entries := by
      rw [h]
      exact List.mem_append_right _ (List.mem_cons_of_mem _ List.mem_cons_self)
    have hSplit : m.entries = (before ++ [e]) ++ (k, v) :: after := by simp [h]
    have hFirst : Pass.step m ⟨.next e.1, lines⟩ = ⟨.lookup k, lines⟩ := by
      simp only [Pass.step, hNext, List.map_cons, List.head?_cons]
    have hCount : 2 * ((k, v) :: after).length + 1 = 2 * after.length + 1 + 1 + 1 := by
      simp only [List.length_cons]
      omega
    rw [hCount, Function.iterate_succ_apply, Function.iterate_succ_apply, hFirst,
      step_lookup hMem]
    have hKeys' : m.keys = (before ++ [e]).map Prod.fst ++ k :: after.map Prod.fst := by
      rw [hKeys]
      simp
    rw [ih (before ++ [e]) (k, v) hSplit _ hKeys' (BoundedMap.getNextKey_eq hKeys')]
    simp

theorem iterate_finished (m : PageAccessMap) {p : Pass} (h : p.phase = .finished) (n : Nat) :
    (Pass.step m)^[n] p = p := by
  apply Function.iterate_fixed
  rw [Pass.step, h]

theorem finished_unique {m : PageAccessMap} {p q r : Pass} {i j : Nat}
    (hq : (Pass.step m)^[i] p = q) (hr : (Pass.step m)^[j] p = r)
    (hQ : q.phase = .finished) (hR : r.phase = .finished) : q = r := by
  have hBoth : (Pass.step m)^[j] q = (Pass.step m)^[i] r := by
    rw [← hq, ← hr, ← Function.iterate_add_apply, ← Function.iterate_add_apply, Nat.add_comm]
  rwa [iterate_finished m hQ, iterate_finished m hR] at hBoth

theorem complete_of_zeroKey_absent {m : PageAccessMap} (h : zeroKey ∉ m) : Complete m := by
  have hNext := BoundedMap.getNextKey_absent h
  cases hEntries : m.entries with
  | nil =>
    rw [BoundedMap.keys, hEntries] at hNext
    refine ⟨1, ?_, ?_⟩ <;>
      simp [Pass.step, Pass.start, hNext, hEntries]
  | cons e rest =>
    obtain ⟨k, v⟩ := e
    rw [BoundedMap.keys, hEntries] at hNext
    have hMem : (k, v) ∈ m.entries := hEntries ▸ List.mem_cons_self
    have hFirst : Pass.step m Pass.start = ⟨.lookup k, []⟩ := by
      simp only [Pass.step, Pass.start, hNext, List.map_cons, List.head?_cons]
    refine ⟨2 * rest.length + 1 + 1 + 1, ?_⟩
    rw [Function.iterate_succ_apply, Function.iterate_succ_apply, hFirst, step_lookup hMem,
      iterate_from_entry m rest [] (k, v) hEntries]
    exact ⟨rfl, hEntries ▸ List.Perm.refl _⟩

theorem not_complete_of_zeroKey {m : PageAccessMap} (h : zeroKey ∈ m) : ¬Complete m := by
  rintro ⟨n, hFinished, hPerm⟩
  obtain ⟨v, hv⟩ := BoundedMap.mem_iff.mp h
  obtain ⟨before, after, hEntries⟩ := List.append_of_mem hv
  have hEnd := finished_unique rfl
    (iterate_from_entry m after before (zeroKey, v) hEntries []) hFinished rfl
  have hLength := hPerm.length_eq
  rw [Pass.start, hEnd, hEntries] at hLength
  simp only [List.nil_append, List.length_map, List.length_append, List.length_cons] at hLength
  omega

/-- A snapshot of an unchanging map is complete exactly when no page has the zero key. -/
theorem dump_complete_iff (m : PageAccessMap) : Complete m ↔ zeroKey ∉ m :=
  ⟨fun hComplete hMem => not_complete_of_zeroKey hMem hComplete, complete_of_zeroKey_absent⟩

def unmappedPage : PageAccessMap :=
  (run (fun _ => 0) (fun _ => 0)
    [.addPid 7, .folioMarkAccessed 0x700000000 ⟨0, 0, 1⟩]).pageAccessMap

theorem dump_misses_zeroKey : ¬Complete unmappedPage := not_complete_of_zeroKey (by decide)

end Ebacs.Snapshot
