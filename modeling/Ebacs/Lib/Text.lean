import Ebacs.Lib.Lines

/-! # Text, numerals and fields

Rendering of integers as the C formats write them, and the string operations
of the scripting side that read them back: `strip`, `split`, `int` and the
iteration over the lines of a file. Texts are lists of ASCII characters
without carriage returns.
-/
namespace Ebacs.Lib
set_option autoImplicit false

abbrev Text := List Char

def isSpace (c : Char) : Bool :=
  c ∈ [' ', '\t', '\n', '\r', '\x0b', '\x0c', '\x1c', '\x1d', '\x1e', '\x1f']

def strip (t : Text) : Text := (t.dropWhile isSpace).rdropWhile isSpace

/-- `str.split()`: the maximal runs of characters that are not blank. -/
def words (t : Text) : List Text := (t.splitOnP isSpace).filter (fun w => !w.isEmpty)

def fileLinesFrom : (current : Text) → Text → List Text
  | [], [] => []
  | current, [] => [current.reverse]
  | current, c :: t =>
    if c = '\n' then (c :: current).reverse :: fileLinesFrom [] t
    else fileLinesFrom (c :: current) t

def fileLines (t : Text) : List Text := fileLinesFrom [] t

def hex (n : Nat) : Text := Nat.toDigits 16 n

def decimal : Int → Text
  | .ofNat n => Nat.toDigits 10 n
  | .negSucc n => '-' :: Nat.toDigits 10 (n + 1)

/-- Digits in groups separated by single underscores. -/
def digits? (t : Text) : Option Nat :=
  if (t.splitOn '_').all (fun group => !group.isEmpty && group.all Char.isDigit) then
    some (Nat.ofDigitChars 10 (t.filter (· ≠ '_')) 0)
  else none

/-- `int(t)`; `none` is its ValueError. -/
def int? (t : Text) : Option Int :=
  match strip t with
  | '-' :: ds => (digits? ds).map (fun n => -(n : Int))
  | '+' :: ds => (digits? ds).map Int.ofNat
  | ds => (digits? ds).map Int.ofNat

structure IsWord (t : Text) : Prop where
  ne_nil : t ≠ []
  no_space : ∀ c ∈ t, isSpace c = false

theorem mem_toDigits {b n : Nat} (hb : 1 < b) {c : Char} (h : c ∈ Nat.toDigits b n) :
    ∃ d < b, c = Nat.digitChar d := by
  induction n using Nat.strongRecOn with
  | ind n ih =>
    rw [Nat.toDigits_eq_if hb] at h
    split at h
    · rename_i hLt
      exact ⟨n, hLt, List.mem_singleton.mp h⟩
    · rename_i hGe
      rcases List.mem_append.mp h with h | h
      · exact ih (n / b) (Nat.div_lt_self (by omega) hb) h
      · exact ⟨n % b, Nat.mod_lt n (by omega), List.mem_singleton.mp h⟩

theorem digitChar_not_space : ∀ d < 16, isSpace (Nat.digitChar d) = false := by decide

theorem isWord_toDigits {b : Nat} (hb : 1 < b) (hb' : b ≤ 16) (n : Nat) :
    IsWord (Nat.toDigits b n) := by
  refine ⟨Nat.toDigits_ne_nil, fun c hc => ?_⟩
  obtain ⟨d, hd, rfl⟩ := mem_toDigits hb hc
  exact digitChar_not_space d (by omega)

theorem isWord_hex (n : Nat) : IsWord (hex n) := isWord_toDigits (by decide) (by decide) n

theorem isWord_decimal (i : Int) : IsWord (decimal i) := by
  cases i with
  | ofNat n => exact isWord_toDigits (by decide) (by decide) n
  | negSucc n =>
    have hDigits := isWord_toDigits (b := 10) (by decide) (by decide) (n + 1)
    refine ⟨List.cons_ne_nil _ _, fun c hc => ?_⟩
    rcases List.mem_cons.mp hc with rfl | hc
    · decide
    · exact hDigits.no_space c hc

theorem hex_injective : Function.Injective hex := by
  have hDigit : ∀ d < 16, ∀ d' < 16, Nat.digitChar d = Nat.digitChar d' → d = d' := by decide
  intro n
  induction n using Nat.strongRecOn with
  | ind n ih =>
    intro m h
    rw [hex, hex, Nat.toDigits_eq_if (by decide), Nat.toDigits_eq_if (n := m) (by decide)] at h
    split at h <;> split at h
    · exact hDigit n (by assumption) m (by assumption) (List.singleton_inj.mp h)
    · have hLength := congrArg List.length h
      have hPos := Nat.length_toDigits_pos (b := 16) (n := m / 16)
      simp only [List.length_singleton, List.length_append] at hLength
      omega
    · have hLength := congrArg List.length h
      have hPos := Nat.length_toDigits_pos (b := 16) (n := n / 16)
      simp only [List.length_singleton, List.length_append] at hLength
      omega
    · obtain ⟨hHigh, hLow⟩ := List.append_inj' h rfl
      have hDiv := ih (n / 16) (by omega) hHigh
      have hMod := hDigit (n % 16) (by omega) (m % 16) (by omega) (List.singleton_inj.mp hLow)
      omega

theorem strip_word {t : Text} (h : IsWord t) : strip t = t := by
  have hDrop : t.dropWhile isSpace = t := by
    cases t with
    | nil => rfl
    | cons c t => rw [List.dropWhile_cons_of_neg (by simp [h.no_space c List.mem_cons_self])]
  rw [strip, hDrop, List.rdropWhile_eq_self_iff]
  intro hNil
  simp [h.no_space _ (List.getLast_mem hNil)]

theorem digits?_toDigits (n : Nat) : digits? (Nat.toDigits 10 n) = some n := by
  have hUnderscore : '_' ∉ Nat.toDigits 10 n := Nat.underscore_not_in_toDigits
  have hFilter : (Nat.toDigits 10 n).filter (· ≠ '_') = Nat.toDigits 10 n := by
    rw [List.filter_eq_self]
    intro c hc
    exact decide_eq_true (fun hEq => hUnderscore (hEq ▸ hc))
  have hAll : ((Nat.toDigits 10 n).splitOn '_').all
      (fun group => !group.isEmpty && group.all Char.isDigit) = true := by
    rw [List.splitOn_eq_singleton hUnderscore]
    simp only [List.all_cons, List.all_nil, Bool.and_true, Bool.and_eq_true, List.all_eq_true,
      Bool.not_eq_true']
    refine ⟨by simp, fun c hc => ?_⟩
    exact Nat.isDigit_of_mem_toDigits (by decide) (by decide) hc
  rw [digits?, if_pos hAll, hFilter, Nat.ofDigitChars_ten_toDigits]

theorem int?_decimal (i : Int) : int? (decimal i) = some i := by
  rw [int?, strip_word (isWord_decimal i)]
  cases i with
  | ofNat n =>
    have hSign : ∀ c ∈ Nat.toDigits 10 n, c ≠ '-' ∧ c ≠ '+' := by
      intro c hc
      have hDigit := Nat.isDigit_of_mem_toDigits (by decide) (by decide) hc
      refine ⟨?_, ?_⟩ <;> rintro rfl <;> exact absurd hDigit (by decide)
    rw [decimal]
    split
    · rename_i ds hEq
      exact absurd rfl (hSign '-' (hEq ▸ List.mem_cons_self)).1
    · rename_i ds hEq
      exact absurd rfl (hSign '+' (hEq ▸ List.mem_cons_self)).2
    · rw [digits?_toDigits]
      rfl
  | negSucc n =>
    simp only [decimal, digits?_toDigits]
    rfl

theorem words_cons_word {t : Text} (h : IsWord t) {c : Char} (hc : isSpace c = true)
    (rest : Text) : words (t ++ c :: rest) = t :: words rest := by
  rw [words, List.splitOnP_append_cons_of_forall_mem h.no_space c hc, List.filter_cons,
    if_pos (by simp [h.ne_nil])]
  rfl

theorem words_word {t : Text} (h : IsWord t) : words t = [t] := by
  rw [words, List.splitOnP_eq_singleton h.no_space, List.filter_cons, if_pos (by simp [h.ne_nil])]
  rfl

/-- A record of three fields with a trailing blank splits into its fields. -/
theorem words_strip_record {a b c : Text} (ha : IsWord a) (hb : IsWord b) (hc : IsWord c) :
    words (strip (a ++ ' ' :: (b ++ ' ' :: (c ++ [' ', '\n'])))) = [a, b, c] := by
  have hLeft : (a ++ ' ' :: (b ++ ' ' :: (c ++ [' ', '\n']))).dropWhile isSpace =
      (a ++ ' ' :: (b ++ ' ' :: c)) ++ [' '] ++ ['\n'] := by
    obtain ⟨x, xs, rfl⟩ := List.exists_cons_of_ne_nil ha.ne_nil
    rw [List.cons_append,
      List.dropWhile_cons_of_neg (by simp [ha.no_space x List.mem_cons_self])]
    simp
  have hKeep : (a ++ ' ' :: (b ++ ' ' :: c)).rdropWhile isSpace = a ++ ' ' :: (b ++ ' ' :: c) := by
    rw [List.rdropWhile_eq_self_iff]
    intro hNil
    have hLast : (a ++ ' ' :: (b ++ ' ' :: c)).getLast hNil = c.getLast hc.ne_nil := by
      rw [List.getLast_append_of_ne_nil _ (List.cons_ne_nil _ _),
        List.getLast_cons (by simp),
        List.getLast_append_of_ne_nil _ (List.cons_ne_nil _ _), List.getLast_cons hc.ne_nil]
    rw [hLast, hc.no_space _ (List.getLast_mem hc.ne_nil)]
    exact Bool.false_ne_true
  rw [strip, hLeft, List.rdropWhile_concat_pos _ _ _ (by decide),
    List.rdropWhile_concat_pos _ _ _ (by decide), hKeep, words_cons_word ha (by decide),
    words_cons_word hb (by decide), words_word hc]

theorem fileLinesFrom_line (body current rest : Text) (h : '\n' ∉ body) :
    fileLinesFrom current (body ++ '\n' :: rest) =
      (current.reverse ++ body ++ ['\n']) :: fileLines rest := by
  induction body generalizing current with
  | nil => simp [fileLines, fileLinesFrom]
  | cons c body ih =>
    have hc : c ≠ '\n' := fun hEq => h (hEq ▸ List.mem_cons_self)
    rw [List.cons_append, fileLinesFrom, if_neg hc, ih _ (fun hMem => h (List.mem_cons_of_mem _ hMem))]
    simp

theorem fileLines_unlines {bodies : List Text} (h : Bodies '\n' bodies) :
    fileLines (unlines '\n' bodies) = bodies.map (· ++ ['\n']) := by
  induction bodies with
  | nil => rfl
  | cons body bodies ih =>
    have hRest := ih (fun b hb => h b (List.mem_cons_of_mem _ hb))
    rw [unlines_cons, fileLines, fileLinesFrom_line body [] _ (h body List.mem_cons_self), hRest]
    rfl

/-- A text without the separator lies on one side of it. -/
theorem infix_append_cons_iff {c : Char} {t first second : Text} (hc : c ∉ t) :
    t <:+: first ++ c :: second ↔ t <:+: first ∨ t <:+: second := by
  constructor
  · rintro ⟨before, after, h⟩
    rw [List.append_assoc] at h
    rcases List.append_eq_append_iff.mp h with ⟨a, rfl, hRest⟩ | ⟨b, rfl, hRest⟩
    · rcases List.append_eq_append_iff.mp hRest with ⟨a', rfl, _⟩ | ⟨b', rfl, hCut⟩
      · exact Or.inl ⟨before, a', List.append_assoc ..⟩
      · cases b' with
        | nil => exact Or.inl ⟨before, [], by simp⟩
        | cons x b' =>
          rw [List.cons_append, List.cons.injEq] at hCut
          exact absurd (hCut.1 ▸ List.mem_append_right _ List.mem_cons_self) hc
    · cases b with
      | nil =>
        cases t with
        | nil => exact Or.inr List.nil_infix
        | cons x t =>
          rw [List.nil_append, List.cons_append, List.cons.injEq] at hRest
          exact absurd (hRest.1 ▸ List.mem_cons_self) hc
      | cons x b =>
        rw [List.cons_append, List.cons.injEq] at hRest
        exact Or.inr ⟨b, after, by rw [hRest.2, List.append_assoc]⟩
  · rintro (h | h)
    · exact h.trans (List.prefix_append _ _).isInfix
    · exact h.trans ((List.suffix_cons c second).trans (List.suffix_append _ _)).isInfix

end Ebacs.Lib
