import Mathlib.Data.List.GetD

/-! # Strings and numbers in memory

A C string in an array of fixed size, as the helpers that copy one leave it,
and numbers of a machine that stores the lowest byte first.
-/
namespace Ebacs.Lib
set_option autoImplicit false

variable {n : Nat}

/-- `bpf_probe_read_str` of a string into an array: what does not fit before the final NUL is
cut off, and the array behind the NUL keeps its bytes. -/
def readStr (dst : Vector UInt8 n) (src : List UInt8) : Vector UInt8 n :=
  Vector.ofFn (fun i : Fin n => (src.take (n - 1) ++ [0]).getD i dst[i])

theorem getD_append_zero (l : List UInt8) (i : Nat) : (l ++ [0]).getD i 0 = l.getD i 0 := by
  rcases Nat.lt_or_ge i l.length with hLt | hGe
  · rw [List.getD_append _ _ _ _ hLt]
  · rw [List.getD_append_right _ _ _ _ hGe, List.getD_eq_default _ _ hGe]
    cases i - l.length <;> rfl

/-- A 32-bit number in memory, from its lowest byte on. -/
def wordBytes (w : UInt32) : Vector UInt8 4 :=
  .ofFn (fun i : Fin 4 => (w >>> (8 * UInt32.ofNat i)).toUInt8)

def word (v : Vector UInt8 4) : UInt32 :=
  .ofNat ((v.getD 0 0).toNat + 256 * (v.getD 1 0).toNat + 65536 * (v.getD 2 0).toNat +
    16777216 * (v.getD 3 0).toNat)

def short (v : Vector UInt8 2) : UInt16 := .ofNat ((v.getD 0 0).toNat + 256 * (v.getD 1 0).toNat)

def longBytes (w : UInt64) : Vector UInt8 8 :=
  wordBytes w.toUInt32 ++ wordBytes (w >>> 32).toUInt32

def long (v : Vector UInt8 8) : UInt64 :=
  .ofNat ((word (.ofFn (fun i : Fin 4 => v.getD i 0))).toNat +
    4294967296 * (word (.ofFn (fun i : Fin 4 => v.getD (4 + i) 0))).toNat)

/-- `%s` prints up to the first NUL. -/
def cString (l : List UInt8) : List UInt8 := l.takeWhile (· ≠ 0)

/-- Network order has the highest byte first. -/
def ntohl (w : UInt32) : UInt32 := word (wordBytes w).reverse

def ntohs (w : UInt16) : UInt16 := .ofNat (w.toNat % 256 * 256 + w.toNat / 256)

/-- In an array of zeros the string is padded with zeros. -/
theorem readStr_zeros (src : List UInt8) :
    readStr (.replicate n 0) src = .ofFn (fun i : Fin n => (src.take (n - 1)).getD i 0) := by
  apply Vector.ext
  intro i hi
  simp only [readStr, Vector.getElem_ofFn, Fin.getElem_fin, Vector.getElem_replicate]
  exact getD_append_zero _ i

/-- Text up to a NUL is `u` when `u` and a NUL come first. -/
theorem takeWhile_eq_iff {u l : List UInt8} (hText : 0 ∉ u) (hLonger : u.length < l.length) :
    l.takeWhile (· ≠ 0) = u ↔ u ++ [0] <+: l := by
  constructor
  · intro h
    have hSplit : u ++ l.dropWhile (· ≠ 0) = l := by
      rw [← h, List.takeWhile_append_dropWhile]
    cases hRest : l.dropWhile (· ≠ 0) with
    | nil =>
      rw [hRest, List.append_nil] at hSplit
      rw [hSplit] at hLonger
      omega
    | cons b rest =>
      have hNul : b = 0 := by
        have hHead := List.head?_dropWhile_not (· ≠ (0 : UInt8)) l
        rw [hRest] at hHead
        simpa using hHead
      rw [hRest, hNul] at hSplit
      exact ⟨rest, by rw [List.append_assoc]; exact hSplit⟩
  · rintro ⟨rest, rfl⟩
    have hAll : ∀ b ∈ u, decide (b ≠ 0) = true := by
      intro b hb
      exact decide_eq_true (fun hZero => hText (hZero ▸ hb))
    rw [List.append_assoc, List.takeWhile_append_of_pos hAll]
    simp

/-- A whole array is printed when no NUL stands in it and one follows. -/
theorem takeWhile_append_eq_left_iff {u rest : List UInt8} {b : UInt8} :
    (u ++ b :: rest).takeWhile (· ≠ 0) = u ↔ 0 ∉ u ∧ b = 0 := by
  constructor
  · intro h
    have hText : 0 ∉ u := by
      intro hMem
      rw [← h] at hMem
      have hAll := List.all_eq_true.mp List.all_takeWhile 0 hMem
      simp at hAll
    rw [takeWhile_eq_iff hText (by simp), List.prefix_append_right_inj] at h
    exact ⟨hText, by simpa [eq_comm] using h⟩
  · rintro ⟨hText, rfl⟩
    rw [takeWhile_eq_iff hText (by simp), List.prefix_append_right_inj]
    simp

/-- A text shorter than the array is printed when it and a NUL come first in the array. -/
theorem takeWhile_append_eq_iff {t u rest : List UInt8} (hText : 0 ∉ t)
    (hShorter : t.length < u.length) :
    (u ++ rest).takeWhile (· ≠ 0) = t ↔ t ++ [0] <+: u := by
  rw [takeWhile_eq_iff hText (by rw [List.length_append]; omega)]
  constructor
  · intro h
    refine List.prefix_of_prefix_length_le h (List.prefix_append _ _) ?_
    rw [List.length_append]
    exact hShorter
  · intro h
    exact h.trans (List.prefix_append _ _)

theorem wordBytes_toList (w : UInt32) : ∃ rest, (wordBytes w).toList = w.toUInt8 :: rest := by
  refine ⟨[(w >>> 8).toUInt8, (w >>> 16).toUInt8, (w >>> 24).toUInt8], ?_⟩
  simp [wordBytes, Vector.toList_ofFn, List.ofFn_succ]

theorem getD_eq_getElem {v : Vector UInt8 n} {k : Nat} (hk : k < n) : v.getD k 0 = v[k] := by
  simp [Vector.getD, hk]

theorem ext_getD {v w : Vector UInt8 n} (h : ∀ k < n, v.getD k 0 = w.getD k 0) : v = w := by
  apply Vector.ext
  intro k hk
  rw [← getD_eq_getElem hk, ← getD_eq_getElem hk, h k hk]

theorem getD_ofFn {f : Fin n → UInt8} {k : Nat} (hk : k < n) :
    (Vector.ofFn f).getD k 0 = f ⟨k, hk⟩ := by
  rw [getD_eq_getElem hk, Vector.getElem_ofFn]

theorem toList_eq_getD (v : Vector UInt8 4) :
    v.toList = [v.getD 0 0, v.getD 1 0, v.getD 2 0, v.getD 3 0] := by
  apply List.ext_getElem
  · simp
  · intro k hk hk'
    obtain rfl | rfl | rfl | rfl : k = 0 ∨ k = 1 ∨ k = 2 ∨ k = 3 := by simp at hk'; omega
    all_goals simp [getD_eq_getElem]

theorem toNat_word (v : Vector UInt8 4) :
    (word v).toNat = (v.getD 0 0).toNat + 256 * (v.getD 1 0).toNat + 65536 * (v.getD 2 0).toNat +
      16777216 * (v.getD 3 0).toNat := by
  have h0 := (v.getD 0 0).toNat_lt
  have h1 := (v.getD 1 0).toNat_lt
  have h2 := (v.getD 2 0).toNat_lt
  have h3 := (v.getD 3 0).toNat_lt
  rw [word, UInt32.toNat_ofNat']
  omega

theorem toNat_wordBytes (w : UInt32) :
    ((wordBytes w).getD 0 0).toNat = w.toNat % 256 ∧
    ((wordBytes w).getD 1 0).toNat = w.toNat / 256 % 256 ∧
    ((wordBytes w).getD 2 0).toNat = w.toNat / 65536 % 256 ∧
    ((wordBytes w).getD 3 0).toNat = w.toNat / 16777216 % 256 := by
  simp [wordBytes, getD_eq_getElem, UInt32.toNat_shiftRight, Nat.shiftRight_eq_div_pow]

theorem wordBytes_word (v : Vector UInt8 4) : wordBytes (word v) = v := by
  obtain ⟨h0, h1, h2, h3⟩ := toNat_wordBytes (word v)
  rw [toNat_word] at h0 h1 h2 h3
  have hLt0 := (v.getD 0 0).toNat_lt
  have hLt1 := (v.getD 1 0).toNat_lt
  have hLt2 := (v.getD 2 0).toNat_lt
  have hLt3 := (v.getD 3 0).toNat_lt
  apply ext_getD
  intro k hk
  apply UInt8.toNat_inj.mp
  obtain rfl | rfl | rfl | rfl : k = 0 ∨ k = 1 ∨ k = 2 ∨ k = 3 := by omega
  · omega
  · omega
  · omega
  · omega

theorem word_wordBytes (w : UInt32) : word (wordBytes w) = w := by
  obtain ⟨h0, h1, h2, h3⟩ := toNat_wordBytes w
  have hLt := w.toNat_lt
  apply UInt32.toNat_inj.mp
  rw [toNat_word]
  omega

theorem long_longBytes (w : UInt64) : long (longBytes w) = w := by
  have hLow : Vector.ofFn (fun i : Fin 4 => (longBytes w).getD i 0) = wordBytes w.toUInt32 := by
    apply ext_getD
    intro k hk
    rw [getD_ofFn hk, longBytes, getD_eq_getElem (by omega), getD_eq_getElem hk,
      Vector.getElem_append_left hk]
  have hHigh : Vector.ofFn (fun i : Fin 4 => (longBytes w).getD (4 + i) 0) =
      wordBytes (w >>> 32).toUInt32 := by
    apply ext_getD
    intro k hk
    rw [getD_ofFn hk, longBytes, getD_eq_getElem (by dsimp only; omega), getD_eq_getElem hk,
      Vector.getElem_append_right (by dsimp only; omega) (by dsimp only; omega)]
    simp only [Nat.add_sub_cancel_left]
  have hLt := w.toNat_lt
  have hShift : (w >>> 32).toNat = w.toNat / 4294967296 := by
    rw [UInt64.toNat_shiftRight]
    exact Nat.shiftRight_eq_div_pow _ _
  rw [long, hLow, hHigh, word_wordBytes, word_wordBytes]
  apply UInt64.toNat_inj.mp
  rw [UInt64.toNat_ofNat', UInt64.toNat_toUInt32, UInt64.toNat_toUInt32, hShift]
  omega

/-- A string ends before whatever stands behind its NUL. -/
theorem cString_append {u : List UInt8} (h : 0 ∈ u) (v : List UInt8) :
    cString (u ++ v) = cString u := by
  induction u with
  | nil => cases h
  | cons b u ih =>
    rw [cString, cString, List.cons_append, List.takeWhile_cons, List.takeWhile_cons]
    split
    · rename_i hText
      have hMem : 0 ∈ u := by
        obtain rfl | hMem := List.mem_cons.mp h
        · simp at hText
        · exact hMem
      exact congrArg (b :: ·) (ih hMem)
    · rfl

theorem cString_concat_zero (u : List UInt8) : cString (u ++ [0]) = cString u := by
  induction u with
  | nil => rfl
  | cons b u ih =>
    rw [cString, cString, List.cons_append, List.takeWhile_cons, List.takeWhile_cons]
    split
    · exact congrArg (b :: ·) ih
    · rfl

/-- The bytes of a number in network order, from the highest on. -/
theorem toNat_ntohl_word (v : Vector UInt8 4) :
    (ntohl (word v)).toNat = (v.getD 3 0).toNat + 256 * (v.getD 2 0).toNat +
      65536 * (v.getD 1 0).toNat + 16777216 * (v.getD 0 0).toNat := by
  rw [ntohl, wordBytes_word, toNat_word]
  simp [getD_eq_getElem]

theorem toNat_ntohs_short (v : Vector UInt8 2) :
    (ntohs (short v)).toNat = 256 * (v.getD 0 0).toNat + (v.getD 1 0).toNat := by
  have h0 := (v.getD 0 0).toNat_lt
  have h1 := (v.getD 1 0).toNat_lt
  have hShort : (short v).toNat = (v.getD 0 0).toNat + 256 * (v.getD 1 0).toNat := by
    rw [short, UInt16.toNat_ofNat']
    omega
  have hLow : (short v).toNat % 256 = (v.getD 0 0).toNat := by omega
  have hHigh : (short v).toNat / 256 = (v.getD 1 0).toNat := by omega
  rw [ntohs, hLow, hHigh, UInt16.toNat_ofNat']
  omega

end Ebacs.Lib
