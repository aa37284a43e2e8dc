import Mathlib.Data.List.DropRight

/-! # Sequences of terminated records

A sequence of records, each ended by a separator that occurs in none of them,
can be read from the front in only one way: what has been read up to some
position is a number of whole records and a beginning of the next.
-/
namespace Ebacs.Lib
set_option autoImplicit false

variable {α : Type}

def unlines (sep : α) (bodies : List (List α)) : List α :=
  (bodies.map (· ++ [sep])).flatten

def Bodies (sep : α) (bodies : List (List α)) : Prop := ∀ body ∈ bodies, sep ∉ body

@[simp] theorem unlines_nil (sep : α) : unlines sep [] = [] := rfl

@[simp] theorem unlines_cons (sep : α) (body : List α) (bodies : List (List α)) :
    unlines sep (body :: bodies) = body ++ sep :: unlines sep bodies := by
  simp [unlines]

@[simp] theorem unlines_append (sep : α) (first second : List (List α)) :
    unlines sep (first ++ second) = unlines sep first ++ unlines sep second := by
  simp [unlines]

theorem Bodies.append {sep : α} {first second : List (List α)} (h₁ : Bodies sep first)
    (h₂ : Bodies sep second) : Bodies sep (first ++ second) := by
  intro body hBody
  rcases List.mem_append.mp hBody with hBody | hBody
  · exact h₁ body hBody
  · exact h₂ body hBody

theorem append_sep_inj {sep : α} {a b x y : List α} (ha : sep ∉ a) (hb : sep ∉ b)
    (h : a ++ sep :: x = b ++ sep :: y) : a = b ∧ x = y := by
  induction a generalizing b with
  | nil =>
    cases b with
    | nil => exact ⟨rfl, (List.cons.inj h).2⟩
    | cons c b =>
      have hHead : sep = c := (List.cons.inj h).1
      exact absurd (hHead ▸ List.mem_cons_self) hb
  | cons c a ih =>
    cases b with
    | nil =>
      have hHead : c = sep := (List.cons.inj h).1
      exact absurd (hHead ▸ List.mem_cons_self) ha
    | cons d b =>
      obtain ⟨hHead, hTail⟩ := List.cons.inj h
      have hRest := ih (fun hMem => ha (List.mem_cons_of_mem _ hMem))
        (fun hMem => hb (List.mem_cons_of_mem _ hMem)) hTail
      exact ⟨by rw [hHead, hRest.1], hRest.2⟩

/-- Whole records read from the front are the first records. -/
theorem unlines_split {sep : α} {consumed bodies : List (List α)} {rest : List α}
    (hConsumed : Bodies sep consumed) (hBodies : Bodies sep bodies)
    (h : unlines sep consumed ++ rest = unlines sep bodies) :
    ∃ left, bodies = consumed ++ left ∧ rest = unlines sep left := by
  induction consumed generalizing bodies with
  | nil => exact ⟨bodies, rfl, h⟩
  | cons body consumed ih =>
    cases bodies with
    | nil => simp at h
    | cons body' bodies =>
      rw [unlines_cons, unlines_cons, List.append_assoc, List.cons_append] at h
      obtain ⟨rfl, hRest⟩ := append_sep_inj (hConsumed body List.mem_cons_self)
        (hBodies body' List.mem_cons_self) h
      obtain ⟨left, rfl, hLeft⟩ := ih (fun b hb => hConsumed b (List.mem_cons_of_mem _ hb))
        (fun b hb => hBodies b (List.mem_cons_of_mem _ hb)) hRest
      exact ⟨left, rfl, hLeft⟩

theorem prefix_of_unlines {sep : α} {line rest : List α} {bodies : List (List α)}
    (hLine : sep ∉ line) (hNe : line ≠ []) (h : line ++ rest = unlines sep bodies) :
    ∃ body ∈ bodies, line <+: body := by
  cases bodies with
  | nil => simp [hNe] at h
  | cons body bodies =>
    refine ⟨body, List.mem_cons_self, ?_⟩
    rw [unlines_cons] at h
    rcases List.append_eq_append_iff.mp h with ⟨tail, hBody, _⟩ | ⟨tail, hPiece, hTail⟩
    · exact ⟨tail, hBody.symm⟩
    · cases tail with
      | nil =>
        rw [List.append_nil] at hPiece
        exact hPiece ▸ List.prefix_rfl
      | cons c tail =>
        have hHead : sep = c := (List.cons.inj hTail).1
        rw [hPiece, hHead] at hLine
        exact absurd (List.mem_append_right _ List.mem_cons_self) hLine

theorem eq_nil_of_unlines {sep : α} {line : List α} {bodies : List (List α)} (hLine : sep ∉ line)
    (h : line = unlines sep bodies) : bodies = [] := by
  cases bodies with
  | nil => rfl
  | cons body bodies =>
    rw [h, unlines_cons] at hLine
    exact absurd (List.mem_append_right _ List.mem_cons_self) hLine

end Ebacs.Lib
