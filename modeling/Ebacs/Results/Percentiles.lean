import Ebacs.Lib.Regex
import Ebacs.Results.FioLogs

/-! # The latency percentiles

`parse_fio_logs` looks for a percentile of a direction behind the name of the
direction and the words `clat percentiles`, with lazy gaps between them. What
it takes is an entry of the first table behind the first mention of the
direction, or of a later table if that one lacks the percentile; whether the
table belongs to the direction it does not ask.
-/
namespace Ebacs.Results
open Lib Lib.Regex
set_option autoImplicit false

inductive Percentile where
  | first
  | twentieth
  | fiftieth
  | seventieth
  | ninetyNinth
  deriving DecidableEq, Repr

def Percentile.label : Percentile → Text
  | .first => "1.00".toList
  | .twentieth => "20.00".toList
  | .fiftieth => "50.00".toList
  | .seventieth => "70.00".toList
  | .ninetyNinth => "99.00".toList

/-- `\s*(\d+)\]` -/
def valuePieces : List (Piece Char) :=
  [.many true isSpace, .group Char.isDigit, .one (· = ']')]

/-- `20\.00th=\[\s*(\d+)\]`, where the first percentile also asks for the start of a row,
`\n\s*\|\s*`. -/
def entryPieces : Percentile → List (Piece Char)
  | .first =>
    .one (· = '\n') :: .many true isSpace :: .one (· = '|') :: .many true isSpace ::
      (Regex.literal (Percentile.first.label ++ "th=[".toList) ++ valuePieces)
  | p => Regex.literal (p.label ++ "th=[".toList) ++ valuePieces

def clatPercentiles : Text := "clat percentiles".toList

/-- `read.*?clat percentiles.*?20\.00th=\[\s*(\d+)\]` -/
def latencyPattern (direction : Direction) (p : Percentile) : List (Piece Char) :=
  Regex.literal direction.name ++ gap :: (Regex.literal clatPercentiles ++ gap :: entryPieces p)

/-- `float(match.group(1)) if match else 0` -/
def parsePercentile (content : Text) (pattern : List (Piece Char)) : Nat :=
  match find pattern content with
  | some (group :: _) => number group
  | _ => 0

def latency (direction : Direction) (p : Percentile) (content : Text) : Nat :=
  parsePercentile content (latencyPattern direction p)

/-! ## Reports with tables -/

/-- An entry such as `20.00th=[  446],`. -/
structure Entry where
  pad : Nat
  label : Text
  isLabel : ∀ c ∈ label, c.isDigit = true ∨ c = '.'
  blanks : Nat
  value : Digits
  comma : Bool

structure Row where
  head : Entry
  rest : List Entry

inductive TimeUnit where
  | nsec
  | usec
  | msec
  deriving DecidableEq, Repr

structure Table where
  unit : TimeUnit
  rows : List Row

def TimeUnit.text : TimeUnit → Text
  | .nsec => "nsec".toList
  | .usec => "usec".toList
  | .msec => "msec".toList

def Entry.tail (e : Entry) : Text := if e.comma then [','] else []

def Entry.text (e : Entry) : Text :=
  List.replicate e.pad ' ' ++ ' ' :: (e.label ++ "th=[".toList ++
    (List.replicate e.blanks ' ' ++ (e.value.chars ++ ']' :: e.tail)))

def Row.entries (r : Row) : List Entry := r.head :: r.rest

def Row.text (r : Row) : Text := "     |".toList ++ r.entries.flatMap Entry.text

def headerEnd (u : TimeUnit) : Text := " (".toList ++ u.text ++ "):".toList

def header (u : TimeUnit) : Text := "    ".toList ++ clatPercentiles ++ headerEnd u

def Table.lines (t : Table) : List Text := header t.unit :: t.rows.map Row.text

/-- A line of the report outside the tables. -/
structure Plain (t : Text) : Prop where
  no_break : '\n' ∉ t
  no_table : ¬clatPercentiles <:+: t
  no_entry : ¬"th=[".toList <:+: t
  no_bar : (t.dropWhile isSpace).head? ≠ some '|'

inductive Chunk where
  | line (t : Text) (plain : Plain t)
  | table (t : Table)

def Chunk.lines : Chunk → List Text
  | .line t _ => [t]
  | .table t => t.lines

def Chunk.rows : Chunk → List Row
  | .line _ _ => []
  | .table t => t.rows

def Chunk.Mentions (direction : Direction) : Chunk → Prop
  | .line t _ => direction.name <:+: t
  | .table _ => False

instance (direction : Direction) : DecidablePred (Chunk.Mentions direction)
  | .line t _ => inferInstanceAs (Decidable (direction.name <:+: t))
  | .table _ => .isFalse id

def chunksText (chunks : List Chunk) : Text := unlines '\n' (chunks.flatMap Chunk.lines)

/-- The rows behind the first line that mentions a direction. -/
def rowsBehind (direction : Direction) (chunks : List Chunk) : List Row :=
  (chunks.dropWhile (fun c => ¬c.Mentions direction)).flatMap Chunk.rows

/-- The entry that a row has for a percentile; the first one counts at the start of a row only. -/
def Row.entry? (r : Row) : Percentile → Option Entry
  | .first => if r.head.label = Percentile.first.label then some r.head else none
  | p => r.entries.find? (fun e => p.label <:+ e.label)

/-! ## One entry -/

theorem isSpace_of_label {c : Char} (h : c.isDigit = true ∨ c = '.') : isSpace c = false := by
  have hSpaces : ∀ x ∈ [' ', '\t', '\n', '\r', '\x0b', '\x0c', '\x1c', '\x1d', '\x1e', '\x1f'],
      ¬(x.isDigit = true ∨ x = '.') := by simp
  exact decide_eq_false (fun hMem => hSpaces c hMem h)

theorem matchStart_value (e : Entry) (rest : Text) :
    matchStart valuePieces
      (List.replicate e.blanks ' ' ++ (e.value.chars ++ ']' :: rest)) = some [e.value.chars] := by
  have hEnd : matchStart [.one (· = ']')] (']' :: rest) = some [] := rfl
  have hGroup := matchStart_group_run e.value.ne_nil e.value.isDigit (by decide) hEnd
  obtain ⟨d, ds, hDigits⟩ := List.exists_cons_of_ne_nil e.value.ne_nil
  have hDigit : d.isDigit = true := e.value.isDigit d (hDigits ▸ List.mem_cons_self)
  have hSpace : isSpace d = false := isSpace_of_label (.inl hDigit)
  have hBlanks : ∀ c ∈ List.replicate e.blanks ' ', isSpace c = true := by
    intro c hc
    rw [List.eq_of_mem_replicate hc]
    decide
  rw [hDigits, List.cons_append] at hGroup ⊢
  exact matchStart_run hBlanks hSpace hGroup

theorem not_mem_of_label {t : Text} (h : ∀ c ∈ t, c.isDigit = true ∨ c = '.') {x : Char}
    (hx : x.isDigit = false) (hDot : x ≠ '.') : x ∉ t := by
  intro hMem
  rcases h x hMem with hDigit | hEq
  · rw [hx] at hDigit
    cases hDigit
  · exact hDot hEq

theorem Percentile.isLabel (p : Percentile) : ∀ c ∈ p.label, c.isDigit = true ∨ c = '.' := by
  unfold Percentile.label
  cases p <;> simp

/-- What stands before the `th=[` of an entry. -/
def Entry.before (e : Entry) : Text := List.replicate e.pad ' ' ++ ' ' :: e.label

/-- What stands between the `t` of an entry and the closing bracket. -/
def Entry.inner (e : Entry) : Text :=
  "h=[".toList ++ (List.replicate e.blanks ' ' ++ e.value.chars)

theorem Entry.text_eq (e : Entry) :
    e.text = e.before ++ 't' :: e.inner ++ ']' :: e.tail := by
  simp [Entry.text, Entry.before, Entry.inner]

theorem Entry.not_mem_before (e : Entry) : 't' ∉ e.before := by
  have hLabel := not_mem_of_label e.isLabel (x := 't') (by decide) (by decide)
  simp [Entry.before, hLabel]

theorem Entry.not_mem_inner (e : Entry) : 't' ∉ e.inner := by
  have hValue : 't' ∉ e.value.chars := not_mem_of_label (fun c hc => .inl (e.value.isDigit c hc))
    (by decide) (by decide)
  simp [Entry.inner, hValue]

theorem Entry.not_mem_tail (e : Entry) : 't' ∉ e.tail := by
  rw [Entry.tail]
  split <;> decide

/-- The mark before the value of a percentile, `20.00th=[`. -/
def Percentile.mark (p : Percentile) : Text := p.label ++ "th=[".toList

theorem find_entry {p : Percentile} {before : Text} (hBefore : 't' ∉ before) (e : Entry)
    (rest : Text) :
    find (Regex.literal p.mark ++ valuePieces) (before ++ (e.text ++ rest)) =
      if p.label <:+ e.label then some [e.value.chars]
      else find (Regex.literal p.mark ++ valuePieces) (e.tail ++ rest) := by
  have hLabel : 't' ∉ p.label := not_mem_of_label p.isLabel (by decide) (by decide)
  split
  · rename_i hSuffix
    obtain ⟨w, hw⟩ := hSuffix
    have hShape : before ++ (e.text ++ rest) =
        (before ++ (List.replicate e.pad ' ' ++ ' ' :: w)) ++ (p.label ++ 't' :: "h=[".toList ++
          (List.replicate e.blanks ' ' ++ (e.value.chars ++ ']' :: (e.tail ++ rest)))) := by
      simp [Entry.text, ← hw]
    have hw' : 't' ∉ w := fun hMem =>
      not_mem_of_label e.isLabel (x := 't') (by decide) (by decide)
        (hw ▸ List.mem_append_left _ hMem)
    have hMark : 't' ∉ (before ++ (List.replicate e.pad ' ' ++ ' ' :: w)) ++ p.label := by
      simp [hBefore, hw', hLabel]
    rw [hShape]
    exact find_marked hMark (matchStart_value e (e.tail ++ rest))
  · rename_i hSuffix
    have hShape : before ++ (e.text ++ rest) =
        (before ++ e.before ++ 't' :: e.inner) ++ ']' :: (e.tail ++ rest) := by
      simp [Entry.text_eq]
    have hMark : ']' ∉ p.mark := by
      have hClose := not_mem_of_label p.isLabel (x := ']') (by decide) (by decide)
      simp [Percentile.mark, hClose]
    have hNot : ¬p.mark <:+: before ++ e.before ++ 't' :: e.inner := by
      -- the only `t` of the text ends the label of the entry, so the mark would end there
      rintro ⟨a, b, hab⟩
      have hCut : before ++ e.before ++ 't' :: e.inner =
          (a ++ p.label) ++ 't' :: ("h=[".toList ++ b) := by
        rw [← hab]
        simp [Percentile.mark]
      have hEq := append_mark_inj (by simp [hBefore, e.not_mem_before]) e.not_mem_inner hCut
      have hEnds : p.label <:+ (before ++ List.replicate e.pad ' ') ++ ' ' :: e.label :=
        ⟨a, by rw [← hEq]; simp [Entry.before]⟩
      have hBlank := not_mem_of_label p.isLabel (x := ' ') (by decide) (by decide)
      exact hSuffix ((suffix_line_iff hBlank _ _).mp hEnds)
    rw [hShape, find_line hMark hNot]

theorem find_entries {p : Percentile} {before : Text} (hBefore : 't' ∉ before)
    (entries : List Entry) (rest : Text) :
    find (Regex.literal p.mark ++ valuePieces)
        (before ++ (entries.flatMap Entry.text ++ '\n' :: rest)) =
      ((entries.find? (fun e => p.label <:+ e.label)).map (fun e => [e.value.chars])).or
        (find (Regex.literal p.mark ++ valuePieces) rest) := by
  induction entries generalizing before with
  | nil =>
    have hBreak : '\n' ∉ p.mark := by
      have hLabel := not_mem_of_label p.isLabel (x := '\n') (by decide) (by decide)
      simp [Percentile.mark, hLabel]
    have hNot : ¬p.mark <:+: before := by
      intro hIn
      exact hBefore (hIn.subset (by simp [Percentile.mark]))
    rw [List.flatMap_nil, List.nil_append, find_line hBreak hNot]
    rfl
  | cons e entries ih =>
    rw [List.flatMap_cons, List.append_assoc, find_entry hBefore]
    split
    · rename_i hHere
      simp [hHere]
    · rename_i hElse
      rw [ih e.not_mem_tail, List.find?_cons_of_neg (by simpa using hElse)]

/-! ## The start of a row -/

/-- `\s*\|\s*1\.00th=\[\s*(\d+)\]` -/
def rowPieces : List (Piece Char) :=
  .many true isSpace :: .one (· = '|') :: .many true isSpace ::
    (Regex.literal Percentile.first.mark ++ valuePieces)

theorem matchStart_rowPieces (t : Text) :
    matchStart rowPieces t = matchStart (rowPieces.drop 1) (t.dropWhile isSpace) := by
  rw [rowPieces, matchStart_skip]
  · rfl
  · intro x u hx
    rw [matchStart, if_neg]
    intro hBar
    rw [decide_eq_true_eq] at hBar
    rw [hBar] at hx
    exact absurd hx (by decide)

theorem matchStart_rowPieces_blank {t : Text} (hBlank : t.dropWhile isSpace = []) (rest : Text) :
    matchStart rowPieces (t ++ '\n' :: rest) = matchStart rowPieces rest := by
  have hDrop : (t ++ '\n' :: rest).dropWhile isSpace = rest.dropWhile isSpace := by
    rw [List.dropWhile_append, hBlank]
    rfl
  rw [matchStart_rowPieces, hDrop, ← matchStart_rowPieces]

theorem matchStart_rowPieces_other {t : Text} {c : Char} {u : Text}
    (hOther : t.dropWhile isSpace = c :: u) (hBar : c ≠ '|') (rest : Text) :
    matchStart rowPieces (t ++ '\n' :: rest) = none := by
  have hDrop : (t ++ '\n' :: rest).dropWhile isSpace = c :: (u ++ '\n' :: rest) := by
    rw [List.dropWhile_append, hOther]
    rfl
  rw [matchStart_rowPieces, hDrop, rowPieces, List.drop_succ_cons, List.drop_zero, matchStart,
    if_neg (by simpa using hBar)]

theorem Entry.dropWhile_text (e : Entry) (rest : Text) :
    (e.text ++ rest).dropWhile isSpace =
      e.label ++ 't' :: (e.inner ++ ']' :: (e.tail ++ rest)) := by
  have hShape : e.text ++ rest = (List.replicate e.pad ' ' ++ [' ']) ++
      (e.label ++ 't' :: (e.inner ++ ']' :: (e.tail ++ rest))) := by
    simp [Entry.text_eq, Entry.before]
  have hBlanks : ∀ c ∈ List.replicate e.pad ' ' ++ [' '], isSpace c = true := by
    intro c hc
    have hEq : c = ' ' := by
      simp only [List.mem_append, List.mem_replicate, List.mem_singleton] at hc
      exact hc.elim And.right id
    rw [hEq]
    decide
  rw [hShape, List.dropWhile_append_of_pos hBlanks]
  cases hLabel : e.label with
  | nil => rfl
  | cons c label =>
    have hc : isSpace c = false := isSpace_of_label (e.isLabel c (by simp [hLabel]))
    rw [List.cons_append, List.dropWhile_cons_of_neg (by simp [hc])]

theorem matchStart_first (e : Entry) (rest : Text) :
    matchStart (Regex.literal Percentile.first.mark ++ valuePieces)
        (e.label ++ 't' :: (e.inner ++ ']' :: rest)) =
      if e.label = Percentile.first.label then some [e.value.chars] else none := by
  rw [matchStart_literal]
  split
  · rename_i hPre
    obtain ⟨u, hu⟩ := hPre
    have hCut : Percentile.first.label ++ 't' :: ("h=[".toList ++ u) =
        e.label ++ 't' :: (e.inner ++ ']' :: rest) := hu
    have hEq := (append_sep_inj (by decide)
      (not_mem_of_label e.isLabel (by decide) (by decide)) hCut).1
    rw [if_pos hEq.symm, ← hEq]
    have hDrop : (Percentile.first.label ++ 't' :: (e.inner ++ ']' :: rest)).drop
        Percentile.first.mark.length =
          List.replicate e.blanks ' ' ++ (e.value.chars ++ ']' :: rest) := by
      unfold Entry.inner Percentile.mark Percentile.label
      simp
    rw [hDrop, matchStart_value]
  · rename_i hPre
    rw [if_neg]
    intro hEq
    refine hPre ⟨List.replicate e.blanks ' ' ++ (e.value.chars ++ ']' :: rest), ?_⟩
    rw [hEq]
    simp [Entry.inner, Percentile.mark]

theorem matchStart_row (r : Row) (rest : Text) :
    matchStart rowPieces (r.text ++ rest) =
      (r.entry? .first).map (fun e => [e.value.chars]) := by
  obtain ⟨e, others⟩ := r
  have hBar : ((Row.mk e others).text ++ rest).dropWhile isSpace =
      '|' :: (e.text ++ (others.flatMap Entry.text ++ rest)) := by
    unfold Row.text Row.entries
    simp [isSpace]
  have hRefuses : ∀ c t, isSpace c = true →
      matchStart (Regex.literal Percentile.first.mark ++ valuePieces) (c :: t) = none := by
    intro c t hc
    rw [matchStart_literal, if_neg]
    intro hPre
    obtain rfl : '1' = c := (List.cons_prefix_cons.mp hPre).1
    exact absurd hc (by decide)
  rw [matchStart_rowPieces, hBar, rowPieces, List.drop_succ_cons, List.drop_zero, matchStart,
    if_pos (by decide), matchStart_skip hRefuses, e.dropWhile_text, matchStart_first]
  rw [Row.entry?]
  split <;> rfl

/-! ## Lines and tables -/

theorem entryPieces_eq {p : Percentile} (h : p ≠ .first) :
    entryPieces p = Regex.literal p.mark ++ valuePieces := by
  cases p with
  | first => exact absurd rfl h
  | _ => rfl

theorem find_first_break (rest : Text) :
    find (entryPieces .first) ('\n' :: rest) =
      (matchStart rowPieces rest).or (find (entryPieces .first) rest) := rfl

theorem mark_no_break (p : Percentile) : '\n' ∉ p.mark := by
  have hLabel := not_mem_of_label p.isLabel (x := '\n') (by decide) (by decide)
  simp [Percentile.mark, hLabel]

theorem find_first_to_break {t : Text} (hBreak : '\n' ∉ t) (rest : Text) :
    find (entryPieces .first) (t ++ '\n' :: rest) = find (entryPieces .first) ('\n' :: rest) := by
  apply find_skip
  intro c hc u
  rw [entryPieces, matchStart, if_neg]
  intro hEq
  exact hBreak (of_decide_eq_true hEq ▸ hc)

theorem find_mark_break (p : Percentile) (rest : Text) :
    find (Regex.literal p.mark ++ valuePieces) ('\n' :: rest) =
      find (Regex.literal p.mark ++ valuePieces) rest := by
  have hNil : ¬p.mark <:+: ([] : Text) := by
    rw [List.infix_nil]
    simp [Percentile.mark]
  exact find_line (mark_no_break p) hNil rest

theorem find_to_break {t : Text} (hBreak : '\n' ∉ t) (hEntry : ¬"th=[".toList <:+: t)
    (p : Percentile) (rest : Text) :
    find (entryPieces p) (t ++ '\n' :: rest) = find (entryPieces p) ('\n' :: rest) := by
  by_cases hFirst : p = .first
  · rw [hFirst, find_first_to_break hBreak]
  · have hNot : ¬p.mark <:+: t :=
      fun hIn => hEntry ((List.suffix_append p.label _).isInfix.trans hIn)
    rw [entryPieces_eq hFirst, find_line (mark_no_break p) hNot, find_mark_break]

theorem find_silent {t : Text} (hBreak : '\n' ∉ t) (hEntry : ¬"th=[".toList <:+: t)
    (hBar : (t.dropWhile isSpace).head? ≠ some '|') (p : Percentile) (rest : Text) :
    find (entryPieces p) ('\n' :: (t ++ '\n' :: rest)) = find (entryPieces p) ('\n' :: rest) := by
  have hBehind := find_to_break hBreak hEntry p rest
  by_cases hFirst : p = .first
  · subst hFirst
    rw [find_first_break, hBehind]
    cases hDrop : t.dropWhile isSpace with
    | nil =>
      -- a blank line is part of the blanks before the bar of the next line
      rw [matchStart_rowPieces_blank hDrop, find_first_break]
      cases matchStart rowPieces rest <;> rfl
    | cons c u =>
      have hc : c ≠ '|' := by
        rintro rfl
        exact hBar (by rw [hDrop]; rfl)
      rw [matchStart_rowPieces_other hDrop hc, Option.none_or]
  · rw [← hBehind, entryPieces_eq hFirst, find_mark_break]

/-- The characters of a row other than digits. -/
def rowChars : Text := ['.', ' ', 't', 'h', '=', '[', ']', ',', '|']

theorem Entry.not_mem (e : Entry) {c : Char} (hDigit : c.isDigit = false) (hc : c ∉ rowChars) :
    c ∉ e.text := by
  simp only [rowChars, List.mem_cons, List.not_mem_nil, or_false, not_or] at hc
  obtain ⟨hDot, hBlank, ht, hh, hEq, hOpen, hClose, hComma, -⟩ := hc
  have hLabel := not_mem_of_label e.isLabel hDigit hDot
  have hValue : c ∉ e.value.chars :=
    not_mem_of_label (fun d hd => .inl (e.value.isDigit d hd)) hDigit hDot
  have hTail : c ∉ e.tail := by
    rw [Entry.tail]
    split <;> simp [hComma]
  simp [Entry.text, hLabel, hValue, hTail, hBlank, ht, hh, hEq, hOpen, hClose]

theorem Row.not_mem (r : Row) {c : Char} (hDigit : c.isDigit = false) (hc : c ∉ rowChars) :
    c ∉ r.text := by
  have hEntries : c ∉ r.entries.flatMap Entry.text := by
    rw [List.mem_flatMap]
    rintro ⟨e, -, he⟩
    exact e.not_mem hDigit hc he
  have hBar : c ≠ ' ' ∧ c ≠ '|' := by
    constructor <;> (rintro rfl; exact hc (by simp [rowChars]))
  unfold Row.text
  simp [hEntries, hBar]

theorem find_row (r : Row) (p : Percentile) (rest : Text) :
    find (entryPieces p) ('\n' :: (r.text ++ '\n' :: rest)) =
      ((r.entry? p).map (fun e => [e.value.chars])).or (find (entryPieces p) ('\n' :: rest)) := by
  by_cases hFirst : p = .first
  · have hBreak : '\n' ∉ r.text := r.not_mem (by decide) (by decide)
    rw [hFirst, find_first_break, matchStart_row, find_first_to_break hBreak]
  · have hEntry : r.entry? p = r.entries.find? (fun e => p.label <:+ e.label) := by
      cases p with
      | first => exact absurd rfl hFirst
      | _ => rfl
    have hShape : '\n' :: (r.text ++ '\n' :: rest) =
        "\n     |".toList ++ (r.entries.flatMap Entry.text ++ '\n' :: rest) := by
      unfold Row.text
      simp
    rw [entryPieces_eq hFirst, hShape, find_entries (by decide), hEntry, find_mark_break]

theorem find_rows (rows : List Row) (p : Percentile) (rest : Text) :
    find (entryPieces p) ('\n' :: (unlines '\n' (rows.map Row.text) ++ rest)) =
      ((rows.findSome? (fun r => r.entry? p)).map (fun e => [e.value.chars])).or
        (find (entryPieces p) ('\n' :: rest)) := by
  induction rows with
  | nil => rfl
  | cons r rows ih =>
    rw [List.map_cons, unlines_cons, List.append_assoc, List.cons_append, find_row, ih,
      List.findSome?_cons]
    cases r.entry? p <;> rfl

theorem headerEnd_no_break (u : TimeUnit) : '\n' ∉ headerEnd u := by
  unfold headerEnd TimeUnit.text
  cases u <;> simp

theorem headerEnd_no_bracket (u : TimeUnit) : '[' ∉ headerEnd u := by
  unfold headerEnd TimeUnit.text
  cases u <;> simp

theorem no_entry_of_bracket {t : Text} (h : '[' ∉ t) : ¬"th=[".toList <:+: t :=
  fun hIn => h (hIn.subset (by simp))

theorem find_header (u : TimeUnit) (p : Percentile) (rest : Text) :
    find (entryPieces p) ('\n' :: (header u ++ '\n' :: rest)) =
      find (entryPieces p) ('\n' :: rest) := by
  have hBreak : '\n' ∉ header u := by
    unfold header clatPercentiles
    simp [headerEnd_no_break]
  have hBracket : '[' ∉ header u := by
    unfold header clatPercentiles
    simp [headerEnd_no_bracket]
  refine find_silent hBreak (no_entry_of_bracket hBracket) ?_ p rest
  unfold header clatPercentiles
  simp [isSpace]

theorem chunksText_line (t : Text) (plain : Plain t) (chunks : List Chunk) :
    chunksText (.line t plain :: chunks) = t ++ '\n' :: chunksText chunks := by
  simp [chunksText, Chunk.lines]

theorem chunksText_table (t : Table) (chunks : List Chunk) :
    chunksText (.table t :: chunks) =
      header t.unit ++ '\n' :: (unlines '\n' (t.rows.map Row.text) ++ chunksText chunks) := by
  simp [chunksText, Chunk.lines, Table.lines]

theorem find_chunks (chunks : List Chunk) (p : Percentile) :
    find (entryPieces p) ('\n' :: chunksText chunks) =
      ((chunks.flatMap Chunk.rows).findSome? (fun r => r.entry? p)).map
        (fun e => [e.value.chars]) := by
  induction chunks with
  | nil => cases p <;> rfl
  | cons chunk chunks ih =>
    rw [List.flatMap_cons]
    cases chunk with
    | line t plain =>
      rw [chunksText_line, find_silent plain.no_break plain.no_entry plain.no_bar, ih]
      rfl
    | table t =>
      rw [chunksText_table, find_header, find_rows, ih, Chunk.rows, List.findSome?_append]
      cases t.rows.findSome? (fun r => r.entry? p) <;> rfl

/-! ## The search -/

theorem not_mentioned {t : Text} (hRead : 'd' ∉ t) (hWrite : 'w' ∉ t) (direction : Direction) :
    ¬direction.name <:+: t := by
  intro hIn
  cases direction with
  | read => exact hRead (hIn.subset (by unfold Direction.name; simp))
  | write => exact hWrite (hIn.subset (by unfold Direction.name; simp))

theorem Row.not_mentioned (r : Row) (direction : Direction) : ¬direction.name <:+: r.text :=
  Results.not_mentioned (r.not_mem (by decide) (by decide)) (r.not_mem (by decide) (by decide))
    direction

theorem header_not_mentioned (u : TimeUnit) (direction : Direction) :
    ¬direction.name <:+: header u := by
  refine not_mentioned ?_ ?_ direction
  · unfold header clatPercentiles headerEnd TimeUnit.text
    cases u <;> simp
  · unfold header clatPercentiles headerEnd TimeUnit.text
    cases u <;> simp

theorem clatPercentiles_no_break : '\n' ∉ clatPercentiles := by
  unfold clatPercentiles
  simp

theorem afterFirst_header (u : TimeUnit) :
    afterFirst clatPercentiles (header u) = some (headerEnd u) := by
  have hBlank : 'c' ∉ "    ".toList := by simp
  exact afterFirst_marked hBlank (headerEnd u)

theorem behind_tables (chunks : List Chunk) (p : Percentile) :
    (afterFirst clatPercentiles (chunksText chunks)).bind (find (entryPieces p)) =
      ((chunks.flatMap Chunk.rows).findSome? (fun r => r.entry? p)).map
        (fun e => [e.value.chars]) := by
  induction chunks with
  | nil => rfl
  | cons chunk chunks ih =>
    cases chunk with
    | line t plain =>
      rw [chunksText_line, afterFirst_line clatPercentiles_no_break, afterFirst_none plain.no_table]
      exact ih
    | table t =>
      rw [chunksText_table, afterFirst_line clatPercentiles_no_break, afterFirst_header,
        Option.bind_some, find_to_break (headerEnd_no_break t.unit)
          (no_entry_of_bracket (headerEnd_no_bracket t.unit)), find_rows, find_chunks,
        List.flatMap_cons, Chunk.rows, List.findSome?_append]
      cases t.rows.findSome? (fun r => r.entry? p) <;> rfl

theorem Direction.no_break (direction : Direction) : '\n' ∉ direction.name := by
  unfold Direction.name
  cases direction <;> simp

theorem behind_name_line (direction : Direction) (p : Percentile) {t : Text} (plain : Plain t)
    (chunks : List Chunk) (hMentions : direction.name <:+: t) :
    ((afterFirst direction.name (t ++ '\n' :: chunksText chunks)).bind fun u =>
      (afterFirst clatPercentiles u).bind (find (entryPieces p))) =
      (afterFirst clatPercentiles (chunksText chunks)).bind (find (entryPieces p)) := by
  obtain ⟨u, hu⟩ := Option.isSome_iff_exists.mp (afterFirst_isSome hMentions)
  have hSuffix : u <:+ t := (afterFirst_suffix hu).trans (List.drop_suffix _ _)
  have hTable : ¬clatPercentiles <:+: u := fun hIn => plain.no_table (hIn.trans hSuffix.isInfix)
  rw [afterFirst_line direction.no_break, hu]
  dsimp only
  rw [Option.bind_some, afterFirst_line clatPercentiles_no_break, afterFirst_none hTable]

theorem afterFirst_name_table (direction : Direction) (t : Table) (chunks : List Chunk) :
    afterFirst direction.name (chunksText (.table t :: chunks)) =
      afterFirst direction.name (chunksText chunks) := by
  have hRows : ∀ line ∈ t.rows.map Row.text, ¬direction.name <:+: line := by
    intro line hLine
    obtain ⟨r, -, rfl⟩ := List.mem_map.mp hLine
    exact r.not_mentioned direction
  rw [chunksText_table, afterFirst_line direction.no_break,
    afterFirst_none (header_not_mentioned t.unit direction)]
  exact afterFirst_unlines direction.no_break hRows _

theorem find_latencyPattern (direction : Direction) (p : Percentile) (chunks : List Chunk) :
    find (latencyPattern direction p) (chunksText chunks) =
      ((rowsBehind direction chunks).findSome? (fun r => r.entry? p)).map
        (fun e => [e.value.chars]) := by
  rw [latencyPattern, find_literal_gap]
  simp only [find_literal_gap]
  induction chunks with
  | nil => cases direction <;> rfl
  | cons chunk chunks ih =>
    cases chunk with
    | line t plain =>
      rw [chunksText_line]
      by_cases hMentions : direction.name <:+: t
      · have hHere : Chunk.Mentions direction (.line t plain) := hMentions
        rw [rowsBehind, List.dropWhile_cons_of_neg (by simpa using hHere), List.flatMap_cons,
          behind_name_line direction p plain chunks hMentions]
        exact behind_tables chunks p
      · have hElse : ¬Chunk.Mentions direction (.line t plain) := hMentions
        rw [rowsBehind, List.dropWhile_cons_of_pos (by simpa using hElse),
          afterFirst_line direction.no_break, afterFirst_none hMentions]
        exact ih
    | table t =>
      have hElse : ¬Chunk.Mentions direction (.table t) := id
      rw [rowsBehind, List.dropWhile_cons_of_pos (by simpa using hElse), afterFirst_name_table]
      exact ih

/-- A latency is the entry of the first row that has it, in the tables behind the first line that
mentions the direction; where no such row follows, it is zero. -/
theorem latency_of_tables (direction : Direction) (p : Percentile) (chunks : List Chunk) :
    latency direction p (chunksText chunks) =
      (((rowsBehind direction chunks).findSome? (fun r => r.entry? p)).map
        (fun e => number e.value.chars)).getD 0 := by
  rw [latency, parsePercentile, find_latencyPattern]
  cases (rowsBehind direction chunks).findSome? (fun r => r.entry? p) <;> rfl

end Ebacs.Results
