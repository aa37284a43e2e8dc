import Ebacs.Lib.Pattern
import Ebacs.Lib.Rounding

/-! # The fio log parser

`parse_fio_logs` of results.py searches each log for the IOPS and the bandwidth
of the read line and of the write line. A failed search is recorded as 0.
-/
namespace Ebacs.Results
set_option autoImplicit false

open Ebacs.Lib

inductive Direction where
  | read
  | write
  deriving DecidableEq, Repr

def Direction.name : Direction → Text
  | .read => "read".toList
  | .write => "write".toList

def iopsLabel (direction : Direction) : Text := direction.name ++ ": IOPS=".toList

/-- `read: IOPS=(\d+)k` -/
def iopsPattern (direction : Direction) : List Item :=
  literal (iopsLabel direction) ++ [.digits true, .char 'k']

/-- `read: IOPS=\d+k, BW=(\d+)MiB/s` -/
def bwPattern (direction : Direction) : List Item :=
  literal (iopsLabel direction) ++
    (.digits false :: literal "k, BW=".toList ++ .digits true :: literal "MiB/s".toList)

/-- `int` of a matched group, which holds digits only. -/
def number (group : Text) : Nat := Nat.ofDigitChars 10 group 0

/-- `int(float(match.group(1)) * 1000) if match else 0`. Up to 2^53 the double of a whole number
and its product are exact, and no device has more operations per second. -/
def recordIops : Option (List Text) → Int
  | some (group :: _) => truncate ((number group : ℚ) * 1000)
  | _ => 0

/-- `int(match.group(1)) if match else 0` -/
def recordBw : Option (List Text) → Int
  | some (group :: _) => number group
  | _ => 0

def iops (direction : Direction) (content : Text) : Int :=
  recordIops (search (iopsPattern direction) content)

def bw (direction : Direction) (content : Text) : Int :=
  recordBw (search (bwPattern direction) content)

structure Metrics where
  readIops : Int
  readBw : Int
  writeIops : Int
  writeBw : Int
  deriving DecidableEq, Repr

/-- The basic metrics of the row that a log adds to the table. -/
def parseFioLog (content : Text) : Metrics where
  readIops := iops .read content
  readBw := bw .read content
  writeIops := iops .write content
  writeBw := bw .write content

/-! ## Reports -/

structure Digits where
  chars : Text
  ne_nil : chars ≠ []
  isDigit : ∀ c ∈ chars, c.isDigit = true

def Digits.ofNat (n : Nat) : Digits where
  chars := Nat.toDigits 10 n
  ne_nil := Nat.toDigits_ne_nil
  isDigit := fun _ hc => Nat.isDigit_of_mem_toDigits (by decide) (by decide) hc

def Digits.fraction (f : Digits) : ℚ := number f.chars / 10 ^ f.chars.length

inductive PrintedIops where
  | plain (n : Nat)
  | kilo (n : Nat)
  | decimalKilo (n : Nat) (fraction : Digits)

inductive PrintedBw where
  | integer (n : Nat)
  | decimal (n : Nat) (fraction : Digits)

namespace PrintedIops

def text : PrintedIops → Text
  | plain n => (Digits.ofNat n).chars
  | kilo n => (Digits.ofNat n).chars ++ ['k']
  | decimalKilo n f => (Digits.ofNat n).chars ++ '.' :: f.chars ++ ['k']

def value : PrintedIops → ℚ
  | plain n => n
  | kilo n => n * 1000
  | decimalKilo n f => (n + f.fraction) * 1000

def IsKilo : PrintedIops → Prop
  | kilo _ => True
  | _ => False

end PrintedIops

namespace PrintedBw

def text : PrintedBw → Text
  | integer n => (Digits.ofNat n).chars
  | decimal n f => (Digits.ofNat n).chars ++ '.' :: f.chars

def value : PrintedBw → ℚ
  | integer n => n
  | decimal n f => n + f.fraction

def IsInteger : PrintedBw → Prop
  | integer _ => True
  | decimal _ _ => False

end PrintedBw

/-- The text announces no IOPS and stays on its line. -/
structure Silent (t : Text) : Prop where
  no_break : '\n' ∉ t
  no_iops : ∀ direction, ¬iopsLabel direction <:+: t

/-- A line such as `  read: IOPS=106k, BW=412MiB/s (432MB/s)(48.3GiB/120004msec)`. -/
structure Line where
  iops : PrintedIops
  bw : PrintedBw
  tail : Text
  silent : Silent tail

def Line.afterIops (line : Line) : Text :=
  ", BW=".toList ++ line.bw.text ++ "MiB/s".toList ++ line.tail

theorem Line.afterIops_eq (line : Line) :
    line.afterIops = ", BW=".toList ++ line.bw.text ++ "MiB/s".toList ++ line.tail := rfl

def Line.text (direction : Direction) (line : Line) : Text :=
  "  ".toList ++ iopsLabel direction ++ line.iops.text ++ line.afterIops

structure Report where
  before : List Text
  read : Option Line
  between : List Text
  write : Option Line
  after : List Text
  silent : ∀ t ∈ before ++ between ++ after, Silent t

def Report.line (report : Report) : Direction → Option Line
  | .read => report.read
  | .write => report.write

def Report.lines (report : Report) : List Text :=
  report.before ++ (report.read.map (Line.text .read)).toList ++ report.between ++
    (report.write.map (Line.text .write)).toList ++ report.after

def Report.text (report : Report) : Text := unlines '\n' report.lines

/-! ## Where the patterns match -/

theorem PrintedIops.mem_text {printed : PrintedIops} {c : Char} (h : c ∈ printed.text) :
    c.isDigit = true ∨ c = 'k' ∨ c = '.' := by
  cases printed with
  | plain n => exact Or.inl ((Digits.ofNat n).isDigit c h)
  | kilo n =>
    rcases List.mem_append.mp h with h | h
    · exact Or.inl ((Digits.ofNat n).isDigit c h)
    · exact Or.inr (Or.inl (List.mem_singleton.mp h))
  | decimalKilo n f =>
    rcases List.mem_append.mp h with h | h
    · rcases List.mem_append.mp h with h | h
      · exact Or.inl ((Digits.ofNat n).isDigit c h)
      · rcases List.mem_cons.mp h with h | h
        · exact Or.inr (Or.inr h)
        · exact Or.inl (f.isDigit c h)
    · exact Or.inr (Or.inl (List.mem_singleton.mp h))

theorem PrintedBw.mem_text {printed : PrintedBw} {c : Char} (h : c ∈ printed.text) :
    c.isDigit = true ∨ c = '.' := by
  cases printed with
  | integer n => exact Or.inl ((Digits.ofNat n).isDigit c h)
  | decimal n f =>
    rcases List.mem_append.mp h with h | h
    · exact Or.inl ((Digits.ofNat n).isDigit c h)
    · rcases List.mem_cons.mp h with h | h
      · exact Or.inr h
      · exact Or.inl (f.isDigit c h)

def Direction.initial : Direction → Char
  | .read => 'r'
  | .write => 'w'

def Direction.others : Direction → Text
  | .read => "ead: IOPS=".toList
  | .write => "rite: IOPS=".toList

theorem iopsLabel_eq (direction : Direction) :
    iopsLabel direction = direction.initial :: direction.others := by
  cases direction <;> rfl

theorem Direction.initial_not_printed (direction : Direction) (line : Line) :
    direction.initial ∉ line.iops.text ++ (", BW=".toList ++ line.bw.text ++ "MiB/s".toList) := by
  have hInitial : direction.initial.isDigit = false ∧ direction.initial ≠ 'k' ∧
      direction.initial ≠ '.' ∧ direction.initial ∉ ", BW=".toList ∧
      direction.initial ∉ "MiB/s".toList := by
    cases direction <;> decide
  obtain ⟨hDigit, hK, hDot, hBw, hUnit⟩ := hInitial
  intro hMem
  rcases List.mem_append.mp hMem with hMem | hMem
  · rcases PrintedIops.mem_text hMem with h | h | h
    · rw [hDigit] at h
      cases h
    · exact hK h
    · exact hDot h
  · rcases List.mem_append.mp hMem with hMem | hMem
    · rcases List.mem_append.mp hMem with hMem | hMem
      · exact hBw hMem
      · rcases PrintedBw.mem_text hMem with h | h
        · rw [hDigit] at h
          cases h
        · exact hDot h
    · exact hUnit hMem

section Search

variable (direction : Direction) (items : List Item)

/-- Nothing is found behind the label of a line. -/
theorem search_behind (line : Line) {passed : Text} (h : direction.initial ∉ passed) :
    search (literal (iopsLabel direction) ++ items)
      (passed ++ (line.iops.text ++ line.afterIops)) = none := by
  have hTail := search_literal_none items (line.silent.no_iops direction)
  have hSkip := search_skip (literal direction.others ++ items)
    (Direction.initial_not_printed direction line) line.tail
  rw [iopsLabel_eq] at hTail ⊢
  change search (.char direction.initial :: (literal direction.others ++ items)) _ = none
  rw [search_skip _ h, Line.afterIops_eq, ← List.append_assoc line.iops.text]
  exact hSkip.trans hTail

theorem search_own (line : Line) :
    search (literal (iopsLabel direction) ++ items) (line.text direction) =
      matchAt items (line.iops.text ++ line.afterIops) := by
  have hBlank : direction.initial ∉ "  ".toList := by cases direction <;> decide
  have hOthers : direction.initial ∉ direction.others := by cases direction <;> decide
  have hMatch := matchAt_literal_append (iopsLabel direction) items
    (line.iops.text ++ line.afterIops)
  have hBehind := search_behind direction items line hOthers
  rw [iopsLabel_eq] at hMatch hBehind
  rw [Line.text, List.append_assoc, List.append_assoc, iopsLabel_eq]
  change search (.char direction.initial :: (literal direction.others ++ items)) _ = _
  rw [search_skip _ hBlank, List.cons_append, search]
  exact (congrArg₂ Option.or hMatch hBehind).trans Option.or_none

theorem search_other {other : Direction} (hNe : direction ≠ other) (line : Line) :
    search (literal (iopsLabel direction) ++ items) (line.text other) = none := by
  rw [Line.text, List.append_assoc]
  cases direction with
  | read =>
    cases other with
    | read => exact absurd rfl hNe
    | write =>
      have hSkip : search (literal (iopsLabel .read) ++ items)
          ("  w".toList ++ ('r' :: ("ite: IOPS=".toList ++ (line.iops.text ++ line.afterIops)))) =
          search (literal (iopsLabel .read) ++ items)
            ('r' :: ("ite: IOPS=".toList ++ (line.iops.text ++ line.afterIops))) :=
        search_skip _ (by decide) _
      have hInitial : Direction.read.initial ∉ "ite: IOPS=".toList := by decide
      have hBehind := search_behind .read items line hInitial
      refine hSkip.trans ?_
      rw [search, hBehind]
      rfl
  | write =>
    cases other with
    | read =>
      have hInitial : Direction.write.initial ∉ "  read: IOPS=".toList := by decide
      exact search_behind .write items line hInitial
    | write => exact absurd rfl hNe

theorem search_silent {t : Text} (h : Silent t) :
    search (literal (iopsLabel direction) ++ items) t = none :=
  search_literal_none items (h.no_iops direction)

theorem search_printed (other : Direction) (line : Option Line) :
    (line.map (Line.text other)).toList.findSome?
        (search (literal (iopsLabel direction) ++ items)) =
      if direction = other then
        line.bind (fun line => matchAt items (line.iops.text ++ line.afterIops))
      else none := by
  cases line with
  | none => split <;> rfl
  | some line =>
    rw [Option.map_some, Option.toList_some, List.findSome?_singleton]
    split
    · rename_i hEq
      rw [← hEq]
      exact search_own direction items line
    · rename_i hNe
      exact search_other direction items hNe line

theorem search_report (hItems : .char '\n' ∉ items) (report : Report) :
    search (literal (iopsLabel direction) ++ items) report.text =
      (report.line direction).bind
        (fun line => matchAt items (line.iops.text ++ line.afterIops)) := by
  have hBreak : .char '\n' ∉ literal (iopsLabel direction) ++ items := by
    intro hMem
    rcases List.mem_append.mp hMem with hMem | hMem
    · revert hMem
      cases direction <;> decide
    · exact hItems hMem
  have hNil : matchAt (literal (iopsLabel direction) ++ items) [] = none := by
    cases direction <;> rfl
  have hSilent : ∀ ts : List Text, (∀ t ∈ ts, Silent t) →
      ts.findSome? (search (literal (iopsLabel direction) ++ items)) = none :=
    fun ts h => List.findSome?_eq_none_iff.mpr (fun t ht => search_silent direction items (h t ht))
  have hBefore := hSilent report.before (fun t ht => report.silent t
    (List.mem_append_left _ (List.mem_append_left _ ht)))
  have hBetween := hSilent report.between (fun t ht => report.silent t
    (List.mem_append_left _ (List.mem_append_right _ ht)))
  have hAfter := hSilent report.after (fun t ht => report.silent t (List.mem_append_right _ ht))
  rw [Report.text, search_unlines hBreak hNil, Report.lines]
  simp only [List.findSome?_append, hBefore, hBetween, hAfter, search_printed, Option.none_or,
    Option.or_none]
  cases direction with
  | read => exact Option.or_none
  | write => rfl

end Search

theorem matchAt_number (n : Nat) {c x : Char} (hc : c.isDigit = false) (hx : x.isDigit = false)
    (captured : Bool) (items : List Item) (t : Text) :
    matchAt (.digits captured :: .char c :: items) ((Digits.ofNat n).chars ++ x :: t) =
      (matchAt (.char c :: items) (x :: t)).map
        (fun groups => if captured then (Digits.ofNat n).chars :: groups else groups) :=
  matchAt_digits (Digits.ofNat n).ne_nil (Digits.ofNat n).isDigit hc hx captured items t

@[simp] theorem number_ofNat (n : Nat) : number (Digits.ofNat n).chars = n :=
  Nat.ofDigitChars_ten_toDigits

theorem matchAt_kilo (captured : Bool) (items : List Item) {line : Line} {n : Nat}
    (h : line.iops = .kilo n) :
    matchAt (.digits captured :: .char 'k' :: items) (line.iops.text ++ line.afterIops) =
      (matchAt items line.afterIops).map
        (fun groups => if captured then (Digits.ofNat n).chars :: groups else groups) := by
  rw [h, PrintedIops.text, List.append_assoc, List.singleton_append,
    matchAt_number n (by decide) (by decide), matchAt, if_pos rfl]

theorem matchAt_not_kilo (captured : Bool) (items : List Item) {line : Line}
    (h : ¬line.iops.IsKilo) :
    matchAt (.digits captured :: .char 'k' :: items) (line.iops.text ++ line.afterIops) = none := by
  cases hIops : line.iops with
  | plain n =>
    have hAfter : line.afterIops = ',' :: line.afterIops.tail := rfl
    rw [PrintedIops.text, hAfter, matchAt_number n (by decide) (by decide)]
    rfl
  | kilo n =>
    rw [hIops] at h
    exact absurd trivial h
  | decimalKilo n f =>
    rw [PrintedIops.text, List.append_assoc, List.append_assoc, List.cons_append,
      matchAt_number n (by decide) (by decide)]
    rfl

theorem matchAt_integer {line : Line} {n : Nat} (h : line.bw = .integer n) :
    matchAt (literal ", BW=".toList ++ .digits true :: literal "MiB/s".toList) line.afterIops =
      some [(Digits.ofNat n).chars] := by
  rw [Line.afterIops_eq, List.append_assoc, List.append_assoc, matchAt_literal_append, h]
  have hUnit : matchAt (literal "MiB/s".toList) ("MiB/s".toList ++ line.tail) = some [] := by
    rw [← List.append_nil (literal _), matchAt_literal_append, matchAt]
  have hMatch := matchAt_number n (c := 'M') (x := 'M') (by decide) (by decide) true
    (literal "iB/s".toList) ("iB/s".toList ++ line.tail)
  exact hMatch.trans (congrArg _ hUnit)

theorem matchAt_decimal {line : Line} (h : ¬line.bw.IsInteger) :
    matchAt (literal ", BW=".toList ++ .digits true :: literal "MiB/s".toList) line.afterIops =
      none := by
  rw [Line.afterIops_eq, List.append_assoc, List.append_assoc, matchAt_literal_append]
  cases hBw : line.bw with
  | integer n =>
    rw [hBw] at h
    exact absurd trivial h
  | decimal n f =>
    rw [PrintedBw.text, List.append_assoc, List.cons_append]
    exact matchAt_number n (by decide) (by decide) true (literal "iB/s".toList) _

end Ebacs.Results
