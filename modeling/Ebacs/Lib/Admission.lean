import Ebacs.Lib.BoundedMap

/-! # First come, first kept

Keys are offered to a bounded table one after the other and are refused only
when the table is full. What it holds in the end is the first `n` distinct
keys of the sequence: an offered key is never thrown out for a later one, and
a refused key stays out however often it comes back.
-/
namespace Ebacs.Lib
set_option autoImplicit false

variable {κ ν : Type} [DecidableEq κ] {n : Nat}

namespace BoundedMap

/-- An update whose failure is ignored. -/
def offer (v : ν) (m : BoundedMap κ ν n) (k : κ) : BoundedMap κ ν n := (m.updateElem k v).getD m

end BoundedMap

def admitted (n : Nat) (keys : List κ) : List κ := keys.eraseDups.take n

theorem eraseDups_concat (keys : List κ) (k : κ) :
    (keys ++ [k]).eraseDups = if k ∈ keys then keys.eraseDups else keys.eraseDups ++ [k] := by
  rw [List.eraseDups_append]
  split <;> simp_all [List.removeAll, List.eraseDups_cons]

theorem nodup_admitted (n : Nat) (keys : List κ) : (admitted n keys).Nodup := by
  refine List.Nodup.sublist (List.take_sublist n _) ?_
  induction keys using List.reverseRecOn with
  | nil => exact List.nodup_nil
  | append_singleton keys k ih =>
    rw [eraseDups_concat]
    split
    · exact ih
    · rename_i hNew
      refine ih.append (List.nodup_singleton k) ?_
      intro k' hOld hk'
      obtain rfl := List.mem_singleton.mp hk'
      exact hNew (List.mem_eraseDups.mp hOld)

/-- A key that was seen before, or that comes when `n` keys are in, changes nothing. -/
theorem admitted_concat (keys : List κ) (k : κ) :
    admitted n (keys ++ [k]) =
      if k ∈ admitted n keys ∨ n ≤ (admitted n keys).length then admitted n keys
      else admitted n keys ++ [k] := by
  have hLength : (admitted n keys).length = min n keys.eraseDups.length := List.length_take
  rw [admitted, eraseDups_concat]
  by_cases hFull : n ≤ keys.eraseDups.length
  · rw [if_pos (Or.inr (by omega))]
    split
    · rfl
    · exact List.take_append_of_le_length hFull
  · have hAll : admitted n keys = keys.eraseDups := List.take_of_length_le (by omega)
    have hRoom : ¬n ≤ (admitted n keys).length := by omega
    rw [hAll] at hRoom ⊢
    simp only [hRoom, or_false, List.mem_eraseDups]
    split
    · exact hAll
    · exact List.take_of_length_le (by simp; omega)

namespace BoundedMap

theorem size_of_mem_iff_admitted {m : BoundedMap κ ν n} {keys : List κ}
    (h : ∀ k, k ∈ m ↔ k ∈ admitted n keys) : m.size = (admitted n keys).length := by
  have hPerm := (List.perm_ext_iff_of_nodup m.keys_nodup (nodup_admitted n keys)).mpr h
  rw [← m.length_keys]
  exact hPerm.length_eq

theorem mem_offer {v : ν} {m : BoundedMap κ ν n} {keys : List κ} {k : κ}
    (h : ∀ k', k' ∈ m ↔ k' ∈ admitted n keys) (k' : κ) :
    k' ∈ m.offer v k ↔ k' ∈ admitted n (keys ++ [k]) := by
  have hSize := size_of_mem_iff_admitted h
  rw [offer, admitted_concat]
  by_cases hRoom : k ∈ m ∨ m.size < n
  · rw [mem_updateElem hRoom, h]
    split
    · rename_i hOld
      have hk : k ∈ admitted n keys := by
        rcases hOld with hOld | hFull
        · exact hOld
        · exact (h k).mp (hRoom.resolve_right (by omega))
      rw [or_iff_right_of_imp (fun hEq => hEq ▸ hk)]
    · rw [List.mem_append, List.mem_singleton, or_comm]
  · obtain ⟨hOut, hFull⟩ := not_or.mp hRoom
    have hRefused : m.updateElem k v = none := dif_neg hRoom
    rw [hRefused, Option.getD_none, h, if_pos (Or.inr (by omega))]

/-- A table that was offered these keys holds the first `n` distinct ones. -/
theorem mem_foldl_offer (bucket : κ → Nat) (v : ν) (keys : List κ) (k : κ) :
    k ∈ keys.foldl (offer v) (empty bucket : BoundedMap κ ν n) ↔ k ∈ admitted n keys := by
  induction keys using List.reverseRecOn generalizing k with
  | nil => simp [admitted]
  | append_singleton keys last ih =>
    rw [List.foldl_append]
    exact mem_offer ih k

end BoundedMap

end Ebacs.Lib
