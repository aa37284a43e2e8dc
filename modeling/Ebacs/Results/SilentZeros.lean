import Ebacs.Results.FioLogs

/-! # Zeros in the table of fio results

The patterns match only IOPS in whole thousands, and a bandwidth only behind
them and without a fraction. Everything else that fio prints becomes a 0.
-/
namespace Ebacs.Results
set_option autoImplicit false

open Ebacs.Lib

section Recorded

variable {report : Report} {direction : Direction} {line : Line}

theorem iops_eq : iops direction report.text =
    recordIops ((report.line direction).bind (fun line =>
      matchAt [.digits true, .char 'k'] (line.iops.text ++ line.afterIops))) :=
  congrArg recordIops (search_report direction _ (by decide) report)

theorem iops_of_missing (hLine : report.line direction = none) :
    iops direction report.text = 0 := by
  rw [iops_eq, hLine]
  rfl

theorem iops_of_kilo (hLine : report.line direction = some line) {n : Nat}
    (h : line.iops = .kilo n) : iops direction report.text = n * 1000 := by
  rw [iops_eq, hLine, Option.bind_some, matchAt_kilo true [] h, matchAt]
  change truncate ((number (Digits.ofNat n).chars : ℚ) * 1000) = n * 1000
  rw [number_ofNat]
  exact_mod_cast truncate_intCast ((n : Int) * 1000)

theorem iops_of_not_kilo (hLine : report.line direction = some line)
    (h : ¬line.iops.IsKilo) : iops direction report.text = 0 := by
  rw [iops_eq, hLine, Option.bind_some, matchAt_not_kilo true [] h]
  rfl

theorem bw_eq : bw direction report.text =
    recordBw ((report.line direction).bind (fun line =>
      matchAt (.digits false :: .char 'k' ::
        (literal ", BW=".toList ++ .digits true :: literal "MiB/s".toList))
        (line.iops.text ++ line.afterIops))) :=
  congrArg recordBw (search_report direction _ (by decide) report)

theorem bw_of_missing (hLine : report.line direction = none) :
    bw direction report.text = 0 := by
  rw [bw_eq, hLine]
  rfl

theorem bw_of_integer (hLine : report.line direction = some line) {m n : Nat}
    (hIops : line.iops = .kilo m) (hBw : line.bw = .integer n) :
    bw direction report.text = n := by
  rw [bw_eq, hLine, Option.bind_some, matchAt_kilo false _ hIops, matchAt_integer hBw]
  change ((number (Digits.ofNat n).chars : Nat) : Int) = n
  rw [number_ofNat]

theorem bw_of_not_kilo (hLine : report.line direction = some line)
    (h : ¬line.iops.IsKilo) : bw direction report.text = 0 := by
  rw [bw_eq, hLine, Option.bind_some, matchAt_not_kilo false _ h]
  rfl

theorem bw_of_decimal (hLine : report.line direction = some line) {m : Nat}
    (hIops : line.iops = .kilo m) (hBw : ¬line.bw.IsInteger) :
    bw direction report.text = 0 := by
  rw [bw_eq, hLine, Option.bind_some, matchAt_kilo false _ hIops, matchAt_decimal hBw]
  rfl

end Recorded

theorem Digits.fraction_nonneg (f : Digits) : 0 ≤ f.fraction :=
  div_nonneg (Nat.cast_nonneg _) (pow_nonneg (by norm_num) _)

theorem PrintedIops.value_nonneg (printed : PrintedIops) : 0 ≤ printed.value := by
  cases printed with
  | plain n => exact Nat.cast_nonneg n
  | kilo n => exact mul_nonneg (Nat.cast_nonneg n) (by norm_num)
  | decimalKilo n f =>
    exact mul_nonneg (add_nonneg (Nat.cast_nonneg n) f.fraction_nonneg) (by norm_num)

theorem PrintedBw.value_nonneg (printed : PrintedBw) : 0 ≤ printed.value := by
  cases printed with
  | integer n => exact Nat.cast_nonneg n
  | decimal n f => exact add_nonneg (Nat.cast_nonneg n) f.fraction_nonneg

/-- The recorded value is the printed one without its fraction, and is 0 only when the
printed one is below 1 or missing. -/
def Records (recorded : Int) : Option ℚ → Prop
  | none => recorded = 0
  | some printed => recorded = ⌊printed⌋ ∧ (recorded = 0 → printed < 1)

/-- A matched value is recorded, any other one becomes a 0. -/
theorem records_iff {recorded : Int} {printed : ℚ} (h : 0 ≤ printed) {Matched : Prop}
    (hMatched : Matched → recorded = ⌊printed⌋) (hNot : ¬Matched → recorded = 0) :
    Records recorded (some printed) ↔ Matched ∨ printed < 1 := by
  have hLt : ⌊printed⌋ = 0 ↔ printed < 1 := by
    rw [Int.floor_eq_zero_iff, Set.mem_Ico, and_iff_right h]
  constructor
  · rintro ⟨_, hZero⟩
    rcases Classical.em Matched with hIs | hIsNot
    · exact Or.inl hIs
    · exact Or.inr (hZero (hNot hIsNot))
  · intro hOr
    have hFloor : recorded = ⌊printed⌋ := by
      rcases Classical.em Matched with hIs | hIsNot
      · exact hMatched hIs
      · rw [hNot hIsNot, hLt.mpr (hOr.resolve_left hIsNot)]
    refine ⟨hFloor, fun hZero => ?_⟩
    rwa [hFloor, hLt] at hZero

structure NoSilentZeros (report : Report) : Prop where
  readIops : Records (parseFioLog report.text).readIops (report.read.map (·.iops.value))
  readBw : Records (parseFioLog report.text).readBw (report.read.map (·.bw.value))
  writeIops : Records (parseFioLog report.text).writeIops (report.write.map (·.iops.value))
  writeBw : Records (parseFioLog report.text).writeBw (report.write.map (·.bw.value))

/-- The IOPS are printed in whole thousands and the bandwidth without a fraction, or what is
printed is below 1. -/
structure Line.Parsable (line : Line) : Prop where
  iops : line.iops.IsKilo ∨ line.iops.value < 1
  bw : (line.iops.IsKilo ∧ line.bw.IsInteger) ∨ line.bw.value < 1

theorem PrintedIops.IsKilo.eq {printed : PrintedIops} (h : printed.IsKilo) :
    ∃ n, printed = .kilo n := by
  cases printed with
  | plain n => cases h
  | kilo n => exact ⟨n, rfl⟩
  | decimalKilo n f => cases h

theorem PrintedBw.IsInteger.eq {printed : PrintedBw} (h : printed.IsInteger) :
    ∃ n, printed = .integer n := by
  cases printed with
  | integer n => exact ⟨n, rfl⟩
  | decimal n f => cases h

theorem records_iops_iff (report : Report) (direction : Direction) :
    Records (iops direction report.text) ((report.line direction).map (·.iops.value)) ↔
      ∀ line ∈ report.line direction, line.iops.IsKilo ∨ line.iops.value < 1 := by
  cases hLine : report.line direction with
  | none => exact iff_of_true (iops_of_missing hLine) (by rintro line ⟨⟩)
  | some line =>
    simp only [Option.map_some, Option.mem_some_iff, forall_eq']
    apply records_iff line.iops.value_nonneg
    · intro hKilo
      obtain ⟨n, hn⟩ := hKilo.eq
      rw [iops_of_kilo hLine hn, hn, PrintedIops.value]
      exact_mod_cast (Int.floor_intCast ((n : Int) * 1000)).symm
    · exact iops_of_not_kilo hLine

theorem records_bw_iff (report : Report) (direction : Direction) :
    Records (bw direction report.text) ((report.line direction).map (·.bw.value)) ↔
      ∀ line ∈ report.line direction,
        (line.iops.IsKilo ∧ line.bw.IsInteger) ∨ line.bw.value < 1 := by
  cases hLine : report.line direction with
  | none => exact iff_of_true (bw_of_missing hLine) (by rintro line ⟨⟩)
  | some line =>
    simp only [Option.map_some, Option.mem_some_iff, forall_eq']
    apply records_iff line.bw.value_nonneg
    · rintro ⟨hKilo, hInteger⟩
      obtain ⟨m, hm⟩ := hKilo.eq
      obtain ⟨n, hn⟩ := hInteger.eq
      rw [bw_of_integer hLine hm hn, hn, PrintedBw.value, Int.floor_natCast]
    · intro hNot
      rcases Classical.em line.iops.IsKilo with hKilo | hKilo
      · obtain ⟨m, hm⟩ := hKilo.eq
        exact bw_of_decimal hLine hm (fun hInteger => hNot ⟨hKilo, hInteger⟩)
      · exact bw_of_not_kilo hLine hKilo

theorem no_silent_zeros_iff (report : Report) :
    NoSilentZeros report ↔
      ∀ direction, ∀ line ∈ report.line direction, line.Parsable := by
  constructor
  · rintro ⟨hReadIops, hReadBw, hWriteIops, hWriteBw⟩ direction line hLine
    cases direction with
    | read =>
      exact ⟨(records_iops_iff report .read).mp hReadIops line hLine,
        (records_bw_iff report .read).mp hReadBw line hLine⟩
    | write =>
      exact ⟨(records_iops_iff report .write).mp hWriteIops line hLine,
        (records_bw_iff report .write).mp hWriteBw line hLine⟩
  · intro h
    have hIops : ∀ direction, Records (iops direction report.text) _ :=
      fun direction => (records_iops_iff report direction).mpr
        (fun line hLine => (h direction line hLine).iops)
    have hBw : ∀ direction, Records (bw direction report.text) _ :=
      fun direction => (records_bw_iff report direction).mpr
        (fun line hLine => (h direction line hLine).bw)
    exact ⟨hIops .read, hBw .read, hIops .write, hBw .write⟩

theorem Silent.of_labels {t : Text} (hBreak : '\n' ∉ t) (hRead : ¬iopsLabel .read <:+: t)
    (hWrite : ¬iopsLabel .write <:+: t) : Silent t where
  no_break := hBreak
  no_iops := by
    rintro (_ | _)
    · exact hRead
    · exact hWrite

/-- The read and the write line of the first run in results_workload_hs.txt. -/
def hotspotReport : Report where
  before := []
  read := some {
    iops := .decimalKilo 97 ⟨['4'], by decide, List.forall_mem_singleton.mpr rfl⟩
    bw := .integer 380
    tail := " (399MB/s)(44.6GiB/120005msec)".toList
    silent := Silent.of_labels (by decide +kernel) (by decide +kernel) (by decide +kernel) }
  between := []
  write := some {
    iops := .decimalKilo 24 ⟨['3'], by decide, List.forall_mem_singleton.mpr rfl⟩
    bw := .decimal 95 ⟨['1'], by decide, List.forall_mem_singleton.mpr rfl⟩
    tail := " (99.7MB/s)(11.1GiB/120005msec); 0 zone resets".toList
    silent := Silent.of_labels (by decide +kernel) (by decide +kernel) (by decide +kernel) }
  after := []
  silent := by
    intro t ht
    cases ht

theorem hotspot_recorded_as_zeros :
    hotspotReport.text =
        ("  read: IOPS=97.4k, BW=380MiB/s (399MB/s)(44.6GiB/120005msec)\n" ++
          "  write: IOPS=24.3k, BW=95.1MiB/s (99.7MB/s)(11.1GiB/120005msec); " ++
          "0 zone resets\n").toList ∧
      parseFioLog hotspotReport.text = ⟨0, 0, 0, 0⟩ ∧ ¬NoSilentZeros hotspotReport := by
  have hParsed : parseFioLog hotspotReport.text = ⟨0, 0, 0, 0⟩ := by decide +kernel
  refine ⟨by decide +kernel, hParsed, fun h => ?_⟩
  have hPrinted : hotspotReport.read.map (·.bw.value) = some ((380 : Nat) : ℚ) := rfl
  have hReadBw := h.readBw
  rw [hParsed, hPrinted] at hReadBw
  have hLt : ((380 : Nat) : ℚ) < 1 := hReadBw.2 rfl
  norm_num at hLt

end Ebacs.Results
