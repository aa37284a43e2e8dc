import Ebacs.Lib.Lines

/-! # Backtracking patterns

Sequences of classes, repeated eagerly or lazily, and of groups, with the
search of a backtracking matcher: the leftmost start, there the first way to
match in the order in which the repetitions are tried. A lazy gap between two
literals is a search for the second one behind the first one.
-/
namespace Ebacs.Lib.Regex
set_option autoImplicit false

variable {α : Type}

inductive Piece (α : Type) where
  | one (p : α → Bool)
  | many (greedy : Bool) (p : α → Bool)
  | group (p : α → Bool)

/-- The numbers of repetitions in the order in which they are tried. -/
def tries (greedy : Bool) (most : Nat) : List Nat :=
  if greedy then (List.range (most + 1)).reverse else List.range (most + 1)

/-- The groups of a match at the start. -/
def matchStart : List (Piece α) → List α → Option (List (List α))
  | [], _ => some []
  | .one p :: pieces, x :: t => if p x then matchStart pieces t else none
  | .one _ :: _, [] => none
  | .many greedy p :: pieces, t =>
    (tries greedy (t.takeWhile p).length).findSome? (fun n => matchStart pieces (t.drop n))
  | .group p :: pieces, t =>
    (List.range (t.takeWhile p).length).reverse.findSome? (fun n =>
      (matchStart pieces (t.drop (n + 1))).map (fun groups => t.take (n + 1) :: groups))

def find (pieces : List (Piece α)) : List α → Option (List (List α))
  | [] => matchStart pieces []
  | x :: t => (matchStart pieces (x :: t)).or (find pieces t)

/-- `.*?` where the dot stands for every character. -/
def gap : Piece α := .many false (fun _ => true)

theorem matchStart_many (greedy : Bool) (p : α → Bool) (pieces : List (Piece α)) (t : List α) :
    matchStart (.many greedy p :: pieces) t =
      (tries greedy (t.takeWhile p).length).findSome? (fun n => matchStart pieces (t.drop n)) := by
  rw [matchStart]

theorem matchStart_group (p : α → Bool) (pieces : List (Piece α)) (t : List α) :
    matchStart (.group p :: pieces) t =
      (List.range (t.takeWhile p).length).reverse.findSome? (fun n =>
        (matchStart pieces (t.drop (n + 1))).map (fun groups => t.take (n + 1) :: groups)) := by
  rw [matchStart]

theorem find_eq_findSome? (pieces : List (Piece α)) (t : List α) :
    find pieces t =
      (List.range (t.length + 1)).findSome? (fun n => matchStart pieces (t.drop n)) := by
  induction t with
  | nil =>
    rw [find, List.length_nil, Nat.zero_add, List.range_one, List.findSome?_cons, List.drop_nil]
    cases matchStart pieces [] <;> rfl
  | cons x t ih =>
    have hRange : List.range (t.length + 1 + 1) =
        0 :: (List.range (t.length + 1)).map Nat.succ := List.range_succ_eq_map
    rw [find, ih, List.length_cons, hRange, List.findSome?_cons, List.findSome?_map,
      List.drop_zero]
    cases matchStart pieces (x :: t) <;> rfl

/-- A lazy gap is a search for what follows it. -/
theorem matchStart_gap (pieces : List (Piece α)) (t : List α) :
    matchStart (gap :: pieces) t = find pieces t := by
  have hAll : t.takeWhile (fun _ => true) = t := List.takeWhile_eq_self_iff.mpr (fun _ _ => rfl)
  rw [gap, matchStart_many, hAll, find_eq_findSome?]
  rfl

theorem isSome_find_of_suffix {pieces : List (Piece α)} {t u : List α} (h : t <:+ u)
    (hFind : (find pieces t).isSome) : (find pieces u).isSome := by
  induction u with
  | nil => rwa [← List.suffix_nil.mp h]
  | cons x u ih =>
    obtain rfl | hTail := List.suffix_cons_iff.mp h
    · exact hFind
    · rw [find, Option.isSome_or, ih hTail, Bool.or_true]

theorem find_skip {pieces : List (Piece α)} {t : List α}
    (h : ∀ x ∈ t, ∀ u, matchStart pieces (x :: u) = none) (rest : List α) :
    find pieces (t ++ rest) = find pieces rest := by
  induction t with
  | nil => rfl
  | cons x t ih =>
    rw [List.cons_append, find, h x List.mem_cons_self, Option.none_or]
    exact ih (fun y hy => h y (List.mem_cons_of_mem x hy))

variable [DecidableEq α]

def literal (l : List α) : List (Piece α) := l.map (fun c => .one (· = c))

/-- What stands behind the first occurrence. -/
def afterFirst (l : List α) : List α → Option (List α)
  | [] => if l = [] then some [] else none
  | x :: t => if l <+: x :: t then some ((x :: t).drop l.length) else afterFirst l t

theorem matchStart_literal (l : List α) (pieces : List (Piece α)) (t : List α) :
    matchStart (literal l ++ pieces) t =
      if l <+: t then matchStart pieces (t.drop l.length) else none := by
  induction l generalizing t with
  | nil => rw [if_pos List.nil_prefix]; rfl
  | cons c l ih =>
    cases t with
    | nil =>
      rw [if_neg (by simp)]
      rfl
    | cons x t =>
      change (if decide (x = c) = true then matchStart (literal l ++ pieces) t else none) = _
      rw [ih]
      by_cases hx : x = c
      · simp [hx, List.cons_prefix_cons]
      · have hNot : ¬c :: l <+: x :: t := fun h => hx (List.cons_prefix_cons.mp h).1.symm
        rw [if_neg (by simpa using hx), if_neg hNot]

omit [DecidableEq α] in
theorem drop_suffix_drop_cons (n : Nat) (x : α) (t : List α) : t.drop n <:+ (x :: t).drop n := by
  have hDrop : t.drop n = ((x :: t).drop n).drop 1 := by
    rw [List.drop_drop, Nat.add_comm, Nat.add_comm, List.drop_succ_cons]
  rw [hDrop]
  exact List.drop_suffix _ _

theorem afterFirst_suffix {l t u : List α} (h : afterFirst l t = some u) : u <:+ t.drop l.length := by
  induction t with
  | nil =>
    rw [afterFirst] at h
    split at h
    · cases h
      exact List.nil_suffix
    · cases h
  | cons x t ih =>
    rw [afterFirst] at h
    split at h
    · cases h
      exact List.suffix_rfl
    · exact (ih h).trans (drop_suffix_drop_cons _ _ _)

/-- A literal and a lazy gap: the search goes on behind the first occurrence of the literal. -/
theorem find_literal_gap (l : List α) (pieces : List (Piece α)) (t : List α) :
    find (literal l ++ gap :: pieces) t = (afterFirst l t).bind (find pieces) := by
  induction t with
  | nil =>
    rw [find, afterFirst, matchStart_literal, List.drop_nil, matchStart_gap]
    simp only [List.prefix_nil]
    split <;> rfl
  | cons x t ih =>
    rw [find, afterFirst, matchStart_literal, matchStart_gap, ih]
    split
    · rw [Option.bind_some]
      cases hFind : find pieces ((x :: t).drop l.length) with
      | some groups => rfl
      | none =>
        -- later occurrences leave less text behind them, so they do not help
        rw [Option.none_or, Option.bind_eq_none_iff]
        intro u hu
        by_contra hSome
        have hSuffix := (afterFirst_suffix hu).trans (drop_suffix_drop_cons _ x _)
        have hMore := isSome_find_of_suffix hSuffix (Option.isSome_iff_ne_none.mpr hSome)
        rw [hFind] at hMore
        cases hMore
    · rw [Option.none_or]

theorem afterFirst_none {l t : List α} (h : ¬l <:+: t) : afterFirst l t = none := by
  induction t with
  | nil =>
    rw [afterFirst, if_neg]
    rintro rfl
    exact h List.nil_infix
  | cons x t ih =>
    rw [afterFirst, if_neg (fun hPre => h hPre.isInfix)]
    exact ih (fun hIn => h (hIn.trans (List.suffix_cons x t).isInfix))

theorem afterFirst_isSome {l t : List α} (h : l <:+: t) : (afterFirst l t).isSome := by
  induction t with
  | nil =>
    rw [afterFirst, if_pos (List.infix_nil.mp h)]
    rfl
  | cons x t ih =>
    rw [afterFirst]
    split
    · rfl
    · rename_i hNot
      exact ih ((List.infix_cons_iff.mp h).resolve_left hNot)

theorem afterFirst_marked {x : α} {l before : List α} (h : x ∉ before) (rest : List α) :
    afterFirst (x :: l) (before ++ (x :: l ++ rest)) = some rest := by
  induction before with
  | nil =>
    rw [List.nil_append, List.cons_append, afterFirst, if_pos ⟨rest, rfl⟩, ← List.cons_append,
      List.drop_left]
  | cons y before ih =>
    have hNot : ¬x :: l <+: y :: (before ++ (x :: l ++ rest)) := by
      intro hPre
      exact h ((List.cons_prefix_cons.mp hPre).1 ▸ List.mem_cons_self)
    rw [List.cons_append, afterFirst, if_neg hNot]
    exact ih (fun hMem => h (List.mem_cons_of_mem y hMem))

section Lines

variable {sep : α} {l : List α}

omit [DecidableEq α] in
theorem prefix_line_iff (hSep : sep ∉ l) (t rest : List α) : l <+: t ++ sep :: rest ↔ l <+: t := by
  constructor
  · rintro ⟨u, hu⟩
    obtain ⟨v, rfl, _⟩ | ⟨v, rfl, hRest⟩ := List.append_eq_append_iff.mp hu
    · exact List.prefix_append _ _
    · cases v with
      | nil => simp
      | cons y v =>
        obtain rfl : sep = y := (List.cons.inj hRest).1
        exact absurd (List.mem_append_right _ List.mem_cons_self) hSep
  · intro h
    exact h.trans (List.prefix_append _ _)

omit [DecidableEq α] in
theorem suffix_line_iff (hSep : sep ∉ l) (t u : List α) : l <:+ t ++ sep :: u ↔ l <:+ u := by
  constructor
  · rintro ⟨v, hv⟩
    obtain ⟨a, rfl, hl⟩ | ⟨b, rfl, hRest⟩ := List.append_eq_append_iff.mp hv
    · rw [hl] at hSep
      exact absurd (List.mem_append_right _ List.mem_cons_self) hSep
    · cases b with
      | nil =>
        rw [List.nil_append] at hRest
        rw [← hRest] at hSep
        exact absurd List.mem_cons_self hSep
      | cons y b => exact ⟨b, (List.cons.inj hRest).2.symm⟩
  · intro h
    exact h.trans ((List.suffix_cons sep u).trans (List.suffix_append _ _))

/-- A literal does not reach over the end of a line. -/
theorem afterFirst_line (hSep : sep ∉ l) (t rest : List α) :
    afterFirst l (t ++ sep :: rest) =
      match afterFirst l t with
      | some u => some (u ++ sep :: rest)
      | none => afterFirst l rest := by
  induction t with
  | nil =>
    have hPre := prefix_line_iff hSep [] rest
    rw [List.nil_append, List.prefix_nil] at hPre
    rw [List.nil_append, afterFirst, afterFirst]
    simp only [hPre]
    split
    · rename_i hNil
      rw [hNil]
      rfl
    · rfl
  | cons x t ih =>
    have hPre := prefix_line_iff hSep (x :: t) rest
    rw [List.cons_append] at hPre ⊢
    rw [afterFirst, afterFirst]
    simp only [hPre]
    split
    · rename_i hHere
      dsimp only
      rw [← List.cons_append, List.drop_append_of_le_length hHere.length_le]
    · exact ih

theorem afterFirst_unlines (hSep : sep ∉ l) {lines : List (List α)} (h : ∀ t ∈ lines, ¬l <:+: t)
    (rest : List α) : afterFirst l (unlines sep lines ++ rest) = afterFirst l rest := by
  induction lines with
  | nil => rfl
  | cons t lines ih =>
    rw [unlines_cons, List.append_assoc, List.cons_append, afterFirst_line hSep,
      afterFirst_none (h t List.mem_cons_self)]
    exact ih (fun u hu => h u (List.mem_cons_of_mem t hu))

theorem find_line {pieces : List (Piece α)} (hSep : sep ∉ l) {t : List α} (h : ¬l <:+: t)
    (rest : List α) :
    find (literal l ++ pieces) (t ++ sep :: rest) = find (literal l ++ pieces) rest := by
  have hNone : ∀ u, u <:+ t → matchStart (literal l ++ pieces) (u ++ sep :: rest) = none := by
    intro u hu
    rw [matchStart_literal, if_neg]
    intro hPre
    exact h (((prefix_line_iff hSep u rest).mp hPre).isInfix.trans hu.isInfix)
  induction t with
  | nil =>
    have hHere := hNone [] List.suffix_rfl
    rw [List.nil_append] at hHere ⊢
    rw [find, hHere, Option.none_or]
  | cons x t ih =>
    have hHere := hNone (x :: t) List.suffix_rfl
    rw [List.cons_append] at hHere ⊢
    rw [find, hHere, Option.none_or]
    refine ih (fun hIn => h (hIn.trans (List.suffix_cons x t).isInfix)) ?_
    intro u hu
    exact hNone u (hu.trans (List.suffix_cons x t))

end Lines

omit [DecidableEq α] in
/-- Two texts are cut at the same place by a mark that one of them has only there. -/
theorem append_mark_inj {x : α} {a b u v : List α} (ha : x ∉ a) (hu : x ∉ u)
    (h : a ++ x :: u = b ++ x :: v) : a = b := by
  obtain ⟨w, rfl, hRest⟩ | ⟨w, rfl, hRest⟩ := List.append_eq_append_iff.mp h
  · cases w with
    | nil => simp
    | cons y w =>
      rw [(List.cons.inj hRest).2] at hu
      exact absurd (List.mem_append_right _ List.mem_cons_self) hu
  · cases w with
    | nil => simp
    | cons y w =>
      obtain rfl : x = y := (List.cons.inj hRest).1
      exact absurd (List.mem_append_right _ List.mem_cons_self) ha

/-- The first mark is where the literal has its own: the match stands at the literal. -/
theorem find_marked {x : α} {l l' before rest : List α} {pieces : List (Piece α)}
    {groups : List (List α)} (hMark : x ∉ before ++ l)
    (hMatch : matchStart pieces rest = some groups) :
    find (literal (l ++ x :: l') ++ pieces) (before ++ (l ++ x :: l' ++ rest)) = some groups := by
  induction before with
  | nil =>
    have hHere : matchStart (literal (l ++ x :: l') ++ pieces) (l ++ x :: l' ++ rest) =
        some groups := by
      rw [matchStart_literal, if_pos (List.prefix_append _ _), List.drop_left, hMatch]
    rw [List.nil_append]
    cases hText : l ++ x :: l' ++ rest with
    | nil => simp at hText
    | cons y t =>
      rw [hText] at hHere
      rw [find, hHere, Option.some_or]
  | cons y before ih =>
    have hNot : ¬l ++ x :: l' <+: y :: (before ++ (l ++ x :: l' ++ rest)) := by
      rintro ⟨u, hu⟩
      have hShift : l ++ x :: (l' ++ u) = (y :: before ++ l) ++ x :: (l' ++ rest) := by
        simpa using hu
      have hl : x ∉ l := fun hMem => hMark (List.mem_append_right _ hMem)
      have hLength := congrArg List.length (append_sep_inj hl hMark hShift).1
      simp only [List.cons_append, List.length_cons, List.length_append] at hLength
      omega
    rw [List.cons_append, find, matchStart_literal, if_neg hNot, Option.none_or]
    exact ih (fun hMem => hMark (List.mem_cons_of_mem y hMem))

section Runs

variable {p : α → Bool} {pieces : List (Piece α)}

omit [DecidableEq α] in
theorem takeWhile_run {run rest : List α} {y : α} (hRun : ∀ x ∈ run, p x = true)
    (hy : p y = false) : (run ++ y :: rest).takeWhile p = run := by
  rw [List.takeWhile_append_of_pos hRun, List.takeWhile_cons_of_neg (by simp [hy]),
    List.append_nil]

omit [DecidableEq α] in
/-- An eager repetition takes a whole run, if the rest matches behind it. -/
theorem matchStart_run {run rest : List α} {y : α} {groups : List (List α)}
    (hRun : ∀ x ∈ run, p x = true) (hy : p y = false)
    (hMatch : matchStart pieces (y :: rest) = some groups) :
    matchStart (.many true p :: pieces) (run ++ y :: rest) = some groups := by
  rw [matchStart_many, takeWhile_run hRun hy, tries, if_pos rfl, List.range_succ,
    List.reverse_append, List.reverse_singleton, List.singleton_append, List.findSome?_cons,
    List.drop_left, hMatch]

omit [DecidableEq α] in
/-- An eager repetition before pieces that refuse what it repeats leaves no choice. -/
theorem matchStart_skip (h : ∀ x t, p x = true → matchStart pieces (x :: t) = none) (t : List α) :
    matchStart (.many true p :: pieces) t = matchStart pieces (t.dropWhile p) := by
  have hSplit : t.takeWhile p ++ t.dropWhile p = t := List.takeWhile_append_dropWhile
  have hShorter : (List.range (t.takeWhile p).length).reverse.findSome?
      (fun n => matchStart pieces (t.drop n)) = none := by
    rw [List.findSome?_eq_none_iff]
    intro n hn
    rw [List.mem_reverse, List.mem_range] at hn
    have hTaken : (t.takeWhile p).drop n = (t.takeWhile p)[n] :: (t.takeWhile p).drop (n + 1) :=
      List.drop_eq_getElem_cons hn
    rw [← hSplit, List.drop_append_of_le_length (Nat.le_of_lt hn), hTaken, List.cons_append]
    exact h _ _ (List.mem_takeWhile_imp (List.getElem_mem hn))
  have hLongest : t.drop (t.takeWhile p).length = t.dropWhile p :=
    calc t.drop (t.takeWhile p).length
        = (t.takeWhile p ++ t.dropWhile p).drop (t.takeWhile p).length := by rw [hSplit]
      _ = t.dropWhile p := List.drop_left
  rw [matchStart_many, tries, if_pos rfl, List.range_succ, List.reverse_append,
    List.reverse_singleton, List.singleton_append, List.findSome?_cons, hShorter, hLongest]
  cases matchStart pieces (t.dropWhile p) <;> rfl

omit [DecidableEq α] in
theorem matchStart_group_run {run rest : List α} {y : α} {groups : List (List α)} (hNe : run ≠ [])
    (hRun : ∀ x ∈ run, p x = true) (hy : p y = false)
    (hMatch : matchStart pieces (y :: rest) = some groups) :
    matchStart (.group p :: pieces) (run ++ y :: rest) = some (run :: groups) := by
  obtain ⟨m, hm⟩ : ∃ m, run.length = m + 1 :=
    Nat.exists_eq_succ_of_ne_zero (fun hZero => hNe (List.length_eq_zero_iff.mp hZero))
  rw [matchStart_group, takeWhile_run hRun hy, hm, List.range_succ, List.reverse_append,
    List.reverse_singleton, List.singleton_append, List.findSome?_cons, ← hm, List.drop_left,
    List.take_left, hMatch]
  rfl

end Runs

end Ebacs.Lib.Regex
