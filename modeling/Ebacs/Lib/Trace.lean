import Mathlib.Data.List.DropRight

/-! # Runs and their traces

A run folds a step function over a list of actions. Its trace keeps, for each
action, the state in which the action was taken, so that a condition on the
steps of a run is a condition on the members of the trace.
-/
namespace Ebacs.Lib
set_option autoImplicit false

variable {σ α : Type}

def trace (step : σ → α → σ) : σ → List α → List (σ × α)
  | _, [] => []
  | s, a :: rest => (s, a) :: trace step (step s a) rest

theorem trace_append (step : σ → α → σ) (s : σ) (first second : List α) :
    trace step s (first ++ second) =
      trace step s first ++ trace step (first.foldl step s) second := by
  induction first generalizing s with
  | nil => rfl
  | cons a first ih => simp only [List.cons_append, trace, ih, List.foldl_cons]

theorem trace_concat (step : σ → α → σ) (s : σ) (as : List α) (a : α) :
    trace step s (as ++ [a]) = trace step s as ++ [(as.foldl step s, a)] :=
  trace_append step s as [a]

theorem length_trace (step : σ → α → σ) (s : σ) (as : List α) :
    (trace step s as).length = as.length := by
  induction as generalizing s with
  | nil => rfl
  | cons a as ih => rw [trace, List.length_cons, List.length_cons, ih]

theorem snd_mem_of_mem_trace {step : σ → α → σ} {s : σ} {as : List α} {x : σ × α}
    (h : x ∈ trace step s as) : x.2 ∈ as := by
  induction as generalizing s with
  | nil => cases h
  | cons a as ih =>
    rcases List.mem_cons.mp h with rfl | h
    · exact List.mem_cons_self
    · exact List.mem_cons_of_mem _ (ih h)

/-- What every admitted step keeps holds after every run of admitted steps. -/
theorem foldl_invariant {step : σ → α → σ} (P : σ → Prop) (ok : σ → α → Prop)
    (hStep : ∀ s a, ok s a → P s → P (step s a)) {s : σ} (as : List α) (h : P s)
    (hOk : ∀ x ∈ trace step s as, ok x.1 x.2) : P (as.foldl step s) := by
  induction as generalizing s with
  | nil => exact h
  | cons a as ih =>
    refine ih (hStep s a (hOk (s, a) List.mem_cons_self) h) ?_
    intro x hx
    exact hOk x (List.mem_cons_of_mem _ hx)

theorem trace_invariant {step : σ → α → σ} (P : σ → Prop) (ok : σ → α → Prop)
    (hStep : ∀ s a, ok s a → P s → P (step s a)) {s : σ} {as : List α} (h : P s)
    (hOk : ∀ x ∈ trace step s as, ok x.1 x.2) : ∀ x ∈ trace step s as, P x.1 := by
  induction as generalizing s with
  | nil => nofun
  | cons a as ih =>
    intro x hx
    rcases List.mem_cons.mp hx with rfl | hx
    · exact h
    · exact ih (hStep s a (hOk (s, a) List.mem_cons_self) h)
        (fun y hy => hOk y (List.mem_cons_of_mem _ hy)) x hx

theorem trace_induction {step : σ → α → σ} (s : σ) (P : σ → List (σ × α) → Prop)
    (hInit : P s []) (hStep : ∀ t tr a, P t tr → P (step t a) (tr ++ [(t, a)]))
    (as : List α) : P (as.foldl step s) (trace step s as) := by
  induction as using List.reverseRecOn with
  | nil => exact hInit
  | append_singleton as a ih =>
    rw [List.foldl_append, trace_concat]
    exact hStep _ _ a ih

/-- Every action of a run, with the actions before it. -/
def moments (as : List α) : List (List α × α) := trace (fun history a => history ++ [a]) [] as

theorem moments_concat (as : List α) (a : α) : moments (as ++ [a]) = moments as ++ [(as, a)] := by
  have hFold : ∀ as : List α, as.foldl (fun history a => history ++ [a]) [] = as := by
    intro as
    induction as using List.reverseRecOn with
    | nil => rfl
    | append_singleton as a ih =>
      rw [List.foldl_append, ih]
      rfl
  rw [moments, trace_concat, hFold]
  rfl

theorem length_moments (as : List α) : (moments as).length = as.length := by
  induction as using List.reverseRecOn with
  | nil => rfl
  | append_singleton as a ih =>
    rw [moments_concat, List.length_append, List.length_append, ih, List.length_singleton,
      List.length_singleton]

theorem moments_subset {as bs : List α} (h : as <+: bs) : moments as ⊆ moments bs := by
  obtain ⟨rest, rfl⟩ := h
  induction rest using List.reverseRecOn with
  | nil =>
    rw [List.append_nil]
    exact fun _ hx => hx
  | append_singleton rest a ih =>
    rw [← List.append_assoc, moments_concat]
    exact fun _ hx => List.mem_append_left _ (ih hx)

theorem prefix_of_mem_moments {as : List α} {x : List α × α} (h : x ∈ moments as) :
    x.1 ++ [x.2] <+: as := by
  induction as using List.reverseRecOn with
  | nil => cases h
  | append_singleton as a ih =>
    rw [moments_concat] at h
    rcases List.mem_append.mp h with h | h
    · exact (ih h).trans (List.prefix_append _ _)
    · obtain rfl := List.mem_singleton.mp h
      exact List.prefix_rfl

/-- The part of a history from the first start since the last end. -/
def lifespan (Ends Starts : α → Prop) [DecidablePred Ends] [DecidablePred Starts] (xs : List α) :
    List α :=
  (xs.rtakeWhile (fun x => ¬Ends x)).dropWhile (fun x => ¬Starts x)

section Lifespan

variable {β : Type} {Ends Starts : α → Prop} [DecidablePred Ends] [DecidablePred Starts]

theorem lifespan_concat (xs : List α) (x : α) :
    lifespan Ends Starts (xs ++ [x]) =
      if Ends x then [] else
      if lifespan Ends Starts xs = [] then (if Starts x then [x] else [])
      else lifespan Ends Starts xs ++ [x] := by
  rw [lifespan, List.rtakeWhile_concat]
  by_cases hEnd : Ends x
  · simp [hEnd]
  · simp only [hEnd, not_false_eq_true, decide_true, if_true, if_false]
    rw [List.dropWhile_append, ← lifespan]
    simp only [List.isEmpty_iff, List.dropWhile_cons, List.dropWhile_nil, decide_eq_true_eq,
      ite_not]

theorem mem_of_mem_lifespan {xs : List α} {x : α} (h : x ∈ lifespan Ends Starts xs) : x ∈ xs :=
  (List.rtakeWhile_suffix _ _).subset ((List.dropWhile_sublist _).subset h)

/-- What does not look at the elements that neither start nor end a life. -/
theorem lifespan_filterMap {Ends' Starts' : β → Prop} [DecidablePred Ends']
    [DecidablePred Starts'] {f : α → Option β} {xs : List α}
    (hNone : ∀ x ∈ xs, f x = none → ¬Starts x ∧ ¬Ends x)
    (hSome : ∀ x ∈ xs, ∀ y, f x = some y → (Starts' y ↔ Starts x) ∧ (Ends' y ↔ Ends x)) :
    (lifespan Ends Starts xs).filterMap f = lifespan Ends' Starts' (xs.filterMap f) ∧
    (lifespan Ends Starts xs = [] ↔ lifespan Ends' Starts' (xs.filterMap f) = []) := by
  induction xs using List.reverseRecOn with
  | nil => exact ⟨rfl, iff_of_true rfl rfl⟩
  | append_singleton xs x ih =>
    obtain ⟨hMap, hNil⟩ := ih (fun y hy => hNone y (List.mem_append_left _ hy))
      (fun y hy => hSome y (List.mem_append_left _ hy))
    have hMem : x ∈ xs ++ [x] := List.mem_append_right _ (List.mem_singleton_self x)
    rw [lifespan_concat, List.filterMap_append]
    cases hx : f x with
    | none =>
      obtain ⟨hStart, hEnd⟩ := hNone x hMem hx
      rw [List.filterMap_cons_none hx, List.filterMap_nil, List.append_nil, if_neg hEnd,
        if_neg hStart]
      split
      · rename_i hEmpty
        rw [hEmpty] at hMap
        exact ⟨hMap, iff_of_true rfl (hNil.mp hEmpty)⟩
      · rename_i hLive
        rw [List.filterMap_append, List.filterMap_cons_none hx, List.filterMap_nil, List.append_nil]
        exact ⟨hMap, iff_of_false (List.append_ne_nil_of_left_ne_nil hLive _) (hNil.not.mp hLive)⟩
    | some y =>
      obtain ⟨hStart, hEnd⟩ := hSome x hMem y hx
      rw [List.filterMap_cons_some hx, List.filterMap_nil, lifespan_concat]
      simp only [← hNil, hStart, hEnd]
      split_ifs <;> simp [hx, hMap]

end Lifespan

/-- Where swapping two neighbours in a reordering never changes the outcome of the run,
all reorderings lead to the same state. -/
theorem foldl_eq_of_perm {step : σ → α → σ} {s : σ} {as : List α}
    (hSwap : ∀ before a b after, (before ++ a :: b :: after).Perm as →
      (before ++ a :: b :: after).foldl step s = (before ++ b :: a :: after).foldl step s)
    {bs cs : List α} (hbs : bs.Perm as) (hcs : cs.Perm as) :
    bs.foldl step s = cs.foldl step s := by
  have hTail : ∀ {l₁ l₂ : List α}, l₁.Perm l₂ → ∀ before, (before ++ l₁).Perm as →
      (before ++ l₁).foldl step s = (before ++ l₂).foldl step s := by
    intro l₁ l₂ hPerm
    induction hPerm with
    | nil => exact fun _ _ => rfl
    | @cons a l₁ l₂ _ ih =>
      intro before hBefore
      rw [List.append_cons] at hBefore
      rw [List.append_cons before a l₁, List.append_cons before a l₂]
      exact ih (before ++ [a]) hBefore
    | swap a b after => exact fun before hBefore => hSwap before b a after hBefore
    | trans h₁ _ ih₁ ih₂ =>
      intro before hBefore
      exact (ih₁ before hBefore).trans
        (ih₂ before ((h₁.symm.append_left before).trans hBefore))
  exact hTail (hbs.trans hcs.symm) [] hbs

end Ebacs.Lib
