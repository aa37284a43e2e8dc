import Mathlib.Data.Finset.Insert
import Mathlib.Data.List.FinRange
import Ebacs.Lib.Trace

/-! # Linearization points

Operations are indexed by a type, and a step of the concurrent run either
commits one operation that was not committed before or commits none. When the
relation to the sequential state survives the first kind with that operation
applied and the second kind with the sequential state unchanged, the run acts
like its operations one after the other, in the order of their commits.
-/
namespace Ebacs.Lib
set_option autoImplicit false

variable {σ α τ ι : Type} [DecidableEq ι]

/-- What one step has to show; the sequential state is the one before the step. -/
def Linearizes (committed : σ → Finset ι) (apply : τ → ι → τ) (R : σ → τ → Prop)
    (s s' : σ) (t : τ) : Prop :=
  (committed s' = committed s ∧ R s' t) ∨
  ∃ i ∉ committed s, committed s' = insert i (committed s) ∧ R s' (apply t i)

theorem exists_linearization {step : σ → α → σ} (committed : σ → Finset ι)
    (apply : τ → ι → τ) (R : σ → τ → Prop) (ok : σ → α → Prop)
    (hStep : ∀ s a t, ok s a → R s t → Linearizes committed apply R s (step s a) t)
    {s : σ} {t : τ} (hStart : committed s = ∅) (hR : R s t) (as : List α)
    (hOk : ∀ x ∈ trace step s as, ok x.1 x.2) :
    ∃ order : List ι, order.Nodup ∧ (∀ i, i ∈ order ↔ i ∈ committed (as.foldl step s)) ∧
      R (as.foldl step s) (order.foldl apply t) := by
  refine foldl_invariant (fun s' => ∃ order : List ι, order.Nodup ∧
    (∀ i, i ∈ order ↔ i ∈ committed s') ∧ R s' (order.foldl apply t)) ok ?_ as ?_ hOk
  · rintro s' a hAdmitted ⟨order, hNodup, hMem, hRel⟩
    rcases hStep s' a _ hAdmitted hRel with ⟨hSame, hRel⟩ | ⟨i, hNew, hInsert, hRel⟩
    · exact ⟨order, hNodup, fun i => by rw [hMem, hSame], hRel⟩
    · refine ⟨order ++ [i], ?_, fun j => ?_, ?_⟩
      · rw [← List.concat_eq_append]
        exact hNodup.concat (fun hIn => hNew ((hMem i).mp hIn))
      · rw [hInsert, Finset.mem_insert, List.mem_append, List.mem_singleton, hMem, or_comm]
      · rw [List.foldl_append]
        exact hRel
  · exact ⟨[], List.nodup_nil, fun i => by simp [hStart], hR⟩

end Ebacs.Lib
