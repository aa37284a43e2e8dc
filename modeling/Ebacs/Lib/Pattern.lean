import Ebacs.Lib.Text

/-! # Searching a text for a pattern

Patterns of characters and runs of digits, with the search of `re.search`:
the leftmost position at which the pattern matches, there the longest runs
first. A pattern without line breaks is searched line by line.
-/
namespace Ebacs.Lib
set_option autoImplicit false

/-- A character, or `\d+` with or without a group around it. -/
inductive Item where
  | char (c : Char)
  | digits (captured : Bool)
  deriving DecidableEq, Repr

/-- The groups of a match at the start of the text. -/
def matchAt : List Item → Text → Option (List Text)
  | [], _ => some []
  | .char c :: items, x :: t => if x = c then matchAt items t else none
  | .char _ :: _, [] => none
  | .digits captured :: items, t =>
    (List.range (t.takeWhile Char.isDigit).length).reverse.findSome? (fun n =>
      (matchAt items (t.drop (n + 1))).map
        (fun groups => if captured then t.take (n + 1) :: groups else groups))

def search (items : List Item) : Text → Option (List Text)
  | [] => matchAt items []
  | c :: t => (matchAt items (c :: t)).or (search items t)

theorem matchAt_run (captured : Bool) (items : List Item) (t : Text) :
    matchAt (.digits captured :: items) t =
      (List.range (t.takeWhile Char.isDigit).length).reverse.findSome? (fun n =>
        (matchAt items (t.drop (n + 1))).map
          (fun groups => if captured then t.take (n + 1) :: groups else groups)) := by
  rw [matchAt]

def literal (t : Text) : List Item := t.map Item.char

@[simp] theorem matchAt_literal_append (l : Text) (items : List Item) (t : Text) :
    matchAt (literal l ++ items) (l ++ t) = matchAt items t := by
  induction l with
  | nil => rfl
  | cons c l ih =>
    change (if c = c then matchAt (literal l ++ items) (l ++ t) else none) = _
    rw [if_pos rfl, ih]

theorem matchAt_literal_none {l t : Text} (items : List Item) (h : ¬l <+: t) :
    matchAt (literal l ++ items) t = none := by
  induction l generalizing t with
  | nil => exact absurd List.nil_prefix h
  | cons c l ih =>
    cases t with
    | nil => rfl
    | cons x t =>
      change (if x = c then matchAt (literal l ++ items) t else none) = none
      split
      · rename_i hEq
        rw [hEq, List.prefix_cons_inj] at h
        exact ih h
      · rfl

theorem search_literal_none {l t : Text} (items : List Item) (h : ¬l <:+: t) :
    search (literal l ++ items) t = none := by
  induction t with
  | nil => exact matchAt_literal_none items (fun hPre => h hPre.isInfix)
  | cons c t ih =>
    rw [search, matchAt_literal_none items (fun hPre => h hPre.isInfix),
      ih (fun hIn => h (hIn.trans (List.suffix_cons c t).isInfix))]
    rfl

/-- Characters with which the pattern does not start are passed over. -/
theorem search_skip {c : Char} (items : List Item) {passed : Text} (hc : c ∉ passed) (t : Text) :
    search (.char c :: items) (passed ++ t) = search (.char c :: items) t := by
  induction passed with
  | nil => rfl
  | cons x passed ih =>
    have hx : x ≠ c := fun hEq => hc (hEq ▸ List.mem_cons_self)
    have hNone : matchAt (.char c :: items) (x :: (passed ++ t)) = none := if_neg hx
    rw [List.cons_append, search, hNone, Option.none_or,
      ih (fun hMem => hc (List.mem_cons_of_mem _ hMem))]

theorem takeWhile_append_of_not {p : Char → Bool} {c : Char} (hc : p c = false) (t rest : Text) :
    (t ++ c :: rest).takeWhile p = t.takeWhile p := by
  induction t with
  | nil => simp [hc]
  | cons x t ih =>
    rw [List.cons_append, List.takeWhile_cons, List.takeWhile_cons, ih]

theorem findSome?_congr {α β : Type} {f g : α → Option β} {l : List α}
    (h : ∀ a ∈ l, f a = g a) : l.findSome? f = l.findSome? g := by
  induction l with
  | nil => rfl
  | cons a l ih =>
    rw [List.findSome?_cons, List.findSome?_cons, h a List.mem_cons_self,
      ih (fun b hb => h b (List.mem_cons_of_mem _ hb))]

/-- A match does not go beyond the end of its line. -/
theorem matchAt_line {items : List Item} (h : .char '\n' ∉ items) (t rest : Text) :
    matchAt items (t ++ '\n' :: rest) = matchAt items t := by
  induction items generalizing t with
  | nil =>
    cases t <;> rfl
  | cons item items ih =>
    have hItems : Item.char '\n' ∉ items := fun hMem => h (List.mem_cons_of_mem _ hMem)
    cases item with
    | char c =>
      cases t with
      | nil =>
        have hc : '\n' ≠ c := fun hEq => h (hEq ▸ List.mem_cons_self)
        exact if_neg hc
      | cons x t =>
        change (if x = c then matchAt items (t ++ '\n' :: rest) else none) = _
        rw [ih hItems]
        rfl
    | digits captured =>
      rw [matchAt_run, matchAt_run, takeWhile_append_of_not (by decide)]
      apply findSome?_congr
      intro n hn
      have hLt : n < (t.takeWhile Char.isDigit).length :=
        List.mem_range.mp (List.mem_reverse.mp hn)
      have hLe : n + 1 ≤ t.length := by
        have hPre : (t.takeWhile Char.isDigit).length ≤ t.length :=
          (List.takeWhile_prefix Char.isDigit).length_le
        omega
      rw [List.drop_append_of_le_length hLe, List.take_append_of_le_length hLe, ih hItems]

theorem search_line {items : List Item} (h : .char '\n' ∉ items) (t rest : Text) :
    search items (t ++ '\n' :: rest) = (search items t).or (search items rest) := by
  induction t with
  | nil =>
    change (matchAt items ([] ++ '\n' :: rest)).or (search items rest) = _
    rw [matchAt_line h]
    rfl
  | cons c t ih =>
    change (matchAt items (c :: t ++ '\n' :: rest)).or (search items (t ++ '\n' :: rest)) = _
    rw [matchAt_line h, ih, ← Option.or_assoc]
    rfl

theorem search_unlines {items : List Item} (h : .char '\n' ∉ items)
    (hNil : matchAt items [] = none) (lines : List Text) :
    search items (unlines '\n' lines) = lines.findSome? (search items) := by
  induction lines with
  | nil => exact hNil
  | cons line lines ih =>
    rw [unlines_cons, search_line h, ih, List.findSome?_cons]
    cases search items line <;> rfl

/-- A run of digits is taken whole when what follows it in the pattern is no digit. -/
theorem matchAt_digits {ds : Text} (hNe : ds ≠ []) (hDs : ∀ d ∈ ds, d.isDigit = true)
    {c x : Char} (hc : c.isDigit = false) (hx : x.isDigit = false) (captured : Bool)
    (items : List Item) (t : Text) :
    matchAt (.digits captured :: .char c :: items) (ds ++ x :: t) =
      (matchAt (.char c :: items) (x :: t)).map
        (fun groups => if captured then ds :: groups else groups) := by
  have hTake : (ds ++ x :: t).takeWhile Char.isDigit = ds := by
    rw [takeWhile_append_of_not hx, List.takeWhile_eq_self_iff]
    exact hDs
  obtain ⟨m, hm⟩ : ∃ m, ds.length = m + 1 :=
    Nat.exists_eq_succ_of_ne_zero (fun hZero => hNe (List.length_eq_zero_iff.mp hZero))
  have hShorter : ∀ n ∈ (List.range m).reverse,
      (matchAt (.char c :: items) ((ds ++ x :: t).drop (n + 1))).map
        (fun groups => if captured then (ds ++ x :: t).take (n + 1) :: groups else groups) =
      none := by
    intro n hn
    have hLt : n + 1 < ds.length := by
      have := List.mem_range.mp (List.mem_reverse.mp hn)
      omega
    have hDrop : (ds ++ x :: t).drop (n + 1) =
        ds[n + 1] :: (ds.drop (n + 2) ++ x :: t) := by
      rw [List.drop_append_of_le_length (by omega), List.drop_eq_getElem_cons hLt,
        List.cons_append]
    have hHead : ds[n + 1] ≠ c := by
      intro hEq
      have hDigit := hDs ds[n + 1] (List.getElem_mem hLt)
      rw [hEq, hc] at hDigit
      cases hDigit
    rw [hDrop]
    change ((if ds[n + 1] = c then _ else none) : Option (List Text)).map _ = none
    rw [if_neg hHead]
    rfl
  rw [matchAt_run, hTake, hm, List.range_succ, List.reverse_append, List.reverse_singleton,
    List.singleton_append, List.findSome?_cons, ← hm, List.drop_left, List.take_left,
    List.findSome?_eq_none_iff.mpr hShorter]
  cases matchAt (.char c :: items) (x :: t) <;> rfl

end Ebacs.Lib
