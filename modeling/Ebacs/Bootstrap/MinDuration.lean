import Mathlib.Algebra.Ring.Int.Defs
import Mathlib.Algebra.Ring.Nat
import Ebacs.Bootstrap.Lifetimes
import Ebacs.Lib.Text

/-! # The minimum duration of `bootstrap`

From the text of the option `-d` to the constant of the BPF side, which tells
both that exec events are not wanted and how long a reported process has to
have lived. The multiplication from milliseconds to nanoseconds is one of 64
bits, so a large duration arrives there as a smaller one, or as none.
-/
namespace Ebacs.Bootstrap
open Lib
open PageAccess (Pid)
set_option autoImplicit false

def isCSpace (c : Char) : Bool := c ∈ [' ', '\t', '\n', '\x0b', '\x0c', '\r']

def leadingDigits (t : Text) : Int := Nat.ofDigitChars 10 (t.takeWhile Char.isDigit) 0

/-- The number at the start of the text, 0 where there is none. -/
def numeral (arg : Text) : Int :=
  match arg.dropWhile isCSpace with
  | '-' :: digits => -leadingDigits digits
  | '+' :: digits => leadingDigits digits
  | digits => leadingDigits digits

/-- `strtol(arg, NULL, 10)`: the value, and whether `errno` was set. -/
def strtol (arg : Text) : Int × Bool :=
  if 2 ^ 63 ≤ numeral arg then (2 ^ 63 - 1, true)
  else if numeral arg < -2 ^ 63 then (-2 ^ 63, true)
  else (numeral arg, false)

/-- The case `'d'` of `parse_arg`; `none` is the exit with a usage message. -/
def parseArg (arg : Text) : Option Int :=
  let (minDurationMs, errno) := strtol arg
  if errno ∨ minDurationMs ≤ 0 then none else some minDurationMs

/-- `env.min_duration_ms * 1000000ULL` -/
def minDurationNs (minDurationMs : Int) : UInt64 := UInt64.ofInt minDurationMs * 1000000

/-- The process ended with this lifetime since its recorded start. -/
def Recorded (history : List Act) (p : Pid) (durationNs : Nat) : Prop :=
  ∃ x ∈ moments history, x.2.Ends p ∧ ∃ startTs, start x.1 p = some startTs ∧
    durationNs = x.2.time.toNat - startTs.toNat

/-- An EXIT event of a process whose recorded lifetime is at least the given number of
milliseconds. -/
def LivedFor (d : Int) (acts : List Act) : Report → Prop
  | .exec _ => False
  | .exit p durationNs => d * 1000000 ≤ durationNs ∧
    Recorded acts p durationNs

theorem parseArg_eq_some_iff {arg : Text} {d : Int} :
    parseArg arg = some d ↔ numeral arg = d ∧ 1 ≤ d ∧ d < 2 ^ 63 := by
  rcases lt_or_ge (numeral arg) (2 ^ 63) with hHigh | hHigh
  · rcases lt_or_ge (numeral arg) (-2 ^ 63) with hLow | hLow
    · have hValue : strtol arg = (-2 ^ 63, true) := by
        rw [strtol, if_neg (by omega), if_pos hLow]
      simp only [parseArg, hValue, true_or, if_true, reduceCtorEq, false_iff]
      omega
    · have hValue : strtol arg = (numeral arg, false) := by
        rw [strtol, if_neg (by omega), if_neg (by omega)]
      simp only [parseArg, hValue, Bool.false_eq_true, false_or]
      split
      · simp only [reduceCtorEq, false_iff]
        omega
      · rw [Option.some.injEq]
        omega
  · have hValue : strtol arg = (2 ^ 63 - 1, true) := by rw [strtol, if_pos hHigh]
    simp only [parseArg, hValue, true_or, if_true, reduceCtorEq, false_iff]
    omega

theorem numeral_toDigits (n : Nat) : numeral (Nat.toDigits 10 n) = n := by
  have hDigit : ∀ c ∈ Nat.toDigits 10 n, c.isDigit = true :=
    fun c hc => Nat.isDigit_of_mem_toDigits (by decide) (by decide) hc
  have hNot : ∀ c ∈ Nat.toDigits 10 n, isCSpace c = false ∧ c ≠ '-' ∧ c ≠ '+' := by
    intro c hc
    have hIs := hDigit c hc
    refine ⟨?_, ?_, ?_⟩
    · rw [isCSpace, decide_eq_false_iff_not]
      intro hSpace
      simp only [List.mem_cons, List.not_mem_nil, or_false] at hSpace
      rcases hSpace with rfl | rfl | rfl | rfl | rfl | rfl <;> exact absurd hIs (by decide)
    · rintro rfl
      exact absurd hIs (by decide)
    · rintro rfl
      exact absurd hIs (by decide)
  have hDrop : (Nat.toDigits 10 n).dropWhile isCSpace = Nat.toDigits 10 n := by
    rw [List.dropWhile_eq_self_iff]
    intro hPos
    rw [(hNot _ (List.getElem_mem hPos)).1]
    exact Bool.false_ne_true
  rw [numeral, hDrop]
  split
  · rename_i digits hEq
    exact absurd rfl (hNot '-' (hEq ▸ List.mem_cons_self)).2.1
  · rename_i digits hEq
    exact absurd rfl (hNot '+' (hEq ▸ List.mem_cons_self)).2.2
  · rw [leadingDigits, List.takeWhile_eq_self_iff.mpr hDigit, Nat.ofDigitChars_ten_toDigits]

/-- The accepted durations are all those that fit a `long`. -/
theorem parseArg_decimal {d : Int} (hLow : 1 ≤ d) (hHigh : d < 2 ^ 63) :
    parseArg (decimal d) = some d := by
  obtain ⟨n, rfl⟩ := Int.eq_ofNat_of_zero_le (by omega : 0 ≤ d)
  exact parseArg_eq_some_iff.mpr ⟨numeral_toDigits n, hLow, hHigh⟩

theorem minDurationNs_toNat {d : Int} (hd : 0 ≤ d) :
    ((minDurationNs d).toNat : Int) = d * 1000000 % 2 ^ 64 := by
  obtain ⟨n, rfl⟩ := Int.eq_ofNat_of_zero_le hd
  have hValue : (UInt64.ofInt n).toNat = n % 2 ^ 64 := by
    rw [UInt64.ofInt, UInt64.toNat_ofNat']
    omega
  have hFactor : (1000000 : UInt64).toNat = 1000000 := rfl
  rw [minDurationNs, UInt64.toNat_mul, hValue, hFactor, Nat.mod_mul_mod]
  push_cast
  rfl

theorem Recorded.mono {history later : List Act} (hPrefix : history <+: later) {p : Pid}
    {durationNs : Nat} (h : Recorded history p durationNs) : Recorded later p durationNs := by
  obtain ⟨x, hx, hRest⟩ := h
  exact ⟨x, moments_subset hPrefix hx, hRest⟩

/-- With a threshold: the starts in the map, which may lack some when it was full, and the
emitted events. -/
structure Filters (minNs : UInt64) (s : State) (history : List Act) : Prop where
  starts : ∀ p ts, s.execStart.lookupElem p = some ts → start history p = some ts
  reports : ∀ r ∈ s.reports, ∃ p durationNs, r = .exit p durationNs ∧
    minNs.toNat ≤ durationNs ∧ Recorded history p durationNs

section Runs

variable {minNs : UInt64} {s : State} {history : List Act}

theorem Filters.later (h : Filters minNs s history) (a : Act) :
    ∀ r ∈ s.reports, ∃ p durationNs, r = .exit p durationNs ∧ minNs.toNat ≤ durationNs ∧
      Recorded (history ++ [a]) p durationNs := by
  intro r hr
  obtain ⟨p, durationNs, hEq, hMin, hRecorded⟩ := h.reports r hr
  exact ⟨p, durationNs, hEq, hMin, hRecorded.mono (List.prefix_append _ _)⟩

theorem Filters.exec (h : Filters minNs s history) (hMin : minNs ≠ 0) (ctx : Context) :
    Filters minNs (handleExec minNs s ctx) (history ++ [.exec ctx]) := by
  rw [handleExec, if_pos hMin]
  refine ⟨?_, h.later _⟩
  intro p ts hLookup
  have hEnds : ¬(Act.exec ctx).Ends p := id
  rw [start_concat, if_neg hEnds]
  rw [BoundedMap.lookupElem_updateElem] at hLookup
  change (if ctx.pid = p then some ctx.ktime else start history p) = some ts
  split at hLookup
  · rename_i hStored
    rw [if_pos hStored.1.symm]
    exact hLookup
  · rename_i hNot
    rw [if_neg]
    · exact h.starts p ts hLookup
    · rintro rfl
      exact hNot ⟨rfl, Or.inl (BoundedMap.mem_iff_lookupElem.mpr ⟨ts, hLookup⟩)⟩

theorem State.reports_submit (s : State) (e : Event) :
    (s.submit e).reports = s.reports ++ [e.report] := List.map_append

theorem reportExit_execStart (ctx : Context) (durationNs : UInt64) :
    (reportExit minNs s ctx durationNs).execStart = s.execStart.deleteElem ctx.pid := by
  rw [reportExit]
  split
  · rfl
  · cases ctx.reserved with
    | none => rfl
    | some e => rfl

theorem mem_reports_reportExit (hMin : minNs ≠ 0) {ctx : Context} {durationNs : UInt64}
    {r : Report} (hr : r ∈ (reportExit minNs s ctx durationNs).reports) :
    r ∈ s.reports ∨ r = .exit ctx.pid durationNs.toNat ∧ minNs ≤ durationNs := by
  rw [reportExit] at hr
  split at hr
  · exact Or.inl hr
  · rename_i hLong
    have hLe : minNs ≤ durationNs := UInt64.not_lt.mp (fun hLt => hLong ⟨hMin, hLt⟩)
    cases hReserved : ctx.reserved with
    | none =>
      rw [hReserved] at hr
      exact Or.inl hr
    | some e =>
      simp only [hReserved, State.reports_submit] at hr
      rcases List.mem_append.mp hr with hr | hr
      · exact Or.inl hr
      · exact Or.inr ⟨List.mem_singleton.mp hr, hLe⟩

theorem Filters.reported (h : Filters minNs s history) (hMin : minNs ≠ 0) (ctx : Context)
    (hLeader : ctx.tid = ctx.pid) {startTs : UInt64} (hStart : start history ctx.pid = some startTs)
    (hTime : startTs ≤ ctx.ktime) :
    Filters minNs (reportExit minNs s ctx (ctx.ktime - startTs)) (history ++ [.exit ctx]) := by
  constructor
  · intro p ts hLookup
    rw [reportExit_execStart, BoundedMap.lookupElem_deleteElem] at hLookup
    rw [start_after_exit hLeader]
    split at hLookup
    · cases hLookup
    · rename_i hp
      rw [if_neg hp]
      exact h.starts p ts hLookup
  · intro r hr
    rcases mem_reports_reportExit hMin hr with hr | ⟨rfl, hLe⟩
    · exact h.later _ r hr
    · refine ⟨ctx.pid, _, rfl, UInt64.le_iff_toNat_le.mp hLe, (history, .exit ctx), ?_,
        ⟨rfl, hLeader⟩, startTs, hStart, UInt64.toNat_sub_of_le _ _ hTime⟩
      rw [moments_concat]
      exact List.mem_append_right _ (List.mem_singleton_self _)

theorem Filters.exit (h : Filters minNs s history) (hMin : minNs ≠ 0) (ctx : Context)
    (hTime : ∀ ts, start history ctx.pid = some ts → ts ≤ ctx.ktime) :
    Filters minNs (handleExit minNs s ctx) (history ++ [.exit ctx]) := by
  rcases eq_or_ne ctx.tid ctx.pid with hLeader | hThread
  · rw [handleExit, if_neg (not_not_intro hLeader.symm)]
    cases hLookup : s.execStart.lookupElem ctx.pid with
    | some startTs =>
      have hStart := h.starts _ _ hLookup
      exact h.reported hMin ctx hLeader hStart (hTime startTs hStart)
    | none =>
      simp only [if_pos hMin]
      refine ⟨?_, h.later _⟩
      intro p ts hp
      rw [start_after_exit hLeader]
      rcases eq_or_ne p ctx.pid with rfl | hNe
      · rw [hLookup] at hp
        cases hp
      · rw [if_neg hNe]
        exact h.starts p ts hp
  · rw [handleExit_thread hThread]
    refine ⟨?_, h.later _⟩
    intro p ts hLookup
    have hEnds : ¬(Act.exit ctx).Ends p := fun hEnds => hThread hEnds.2
    have hExecs : ¬(Act.exit ctx).Execs p := id
    rw [start_concat, if_neg hEnds, if_neg hExecs]
    exact h.starts p ts hLookup

theorem filters_run (bucket : Pid → Nat) (hMin : minNs ≠ 0) (acts : List Act)
    (hTimes : acts.Pairwise (fun a b => a.time ≤ b.time)) :
    Filters minNs (run bucket minNs acts) acts := by
  induction acts using List.reverseRecOn with
  | nil => exact ⟨nofun, nofun⟩
  | append_singleton acts a ih =>
    have hBefore := ih (List.pairwise_append.mp hTimes).1
    rw [run, List.foldl_append]
    cases a with
    | exec ctx => exact hBefore.exec hMin ctx
    | exit ctx => exact hBefore.exit hMin ctx (fun ts hts => start_le_of_pairwise hTimes hts)

end Runs

/-- The process starts at 0 and ends after the time that the constant stands for. -/
def livesFor (minNs : UInt64) : List Act :=
  [.exec (contextAt 0x700000007 0), .exit (contextAt 0x700000007 minNs)]

theorem livesFor_ordered (minNs : UInt64) :
    (livesFor minNs).Pairwise (fun a b => a.time ≤ b.time) :=
  List.pairwise_pair.mpr (UInt64.le_iff_toNat_le.mpr (Nat.zero_le _))

theorem livesFor_reported (minNs : UInt64) :
    .exit 7 minNs.toNat ∈ (run (fun _ => 0) minNs (livesFor minNs)).reports := by
  have hRecorded : ∀ history, history <+: livesFor minNs →
      (recorded history).card ≤ maxStarts := by
    intro history hPrefix
    calc
      (recorded history).card ≤ history.length := card_recorded_le history
      _ ≤ 2 := hPrefix.length_le
      _ ≤ maxStarts := by decide
  have hReserved : ∀ a ∈ livesFor minNs, a.context.reserved.isSome = true := by
    intro a ha
    rcases List.mem_cons.mp ha with rfl | ha
    · rfl
    · rw [List.mem_singleton.mp ha]
      rfl
  rw [(accounts_run _ minNs _ (livesFor_ordered minNs) hRecorded hReserved).reports,
    List.mem_flatMap]
  refine ⟨([.exec (contextAt 0x700000007 0)], .exit (contextAt 0x700000007 minNs)), ?_, ?_⟩
  · exact List.mem_cons_of_mem _ (List.mem_singleton_self _)
  · have hStart : start [.exec (contextAt 0x700000007 0)] 7 = some 0 := by decide
    have hPid : (contextAt 0x700000007 minNs).pid = 7 := by
      change PageAccess.currentPid 0x700000007 = 7
      decide
    have hTid : (contextAt 0x700000007 minNs).tid = 7 := by
      change (0x700000007 : UInt64).toUInt32.toInt32 = 7
      decide
    have hLong : minNs = 0 ∨ minNs.toNat ≤ minNs.toNat - (0 : UInt64).toNat := Or.inr le_rfl
    have hTime : (contextAt 0x700000007 minNs).ktime = minNs := rfl
    simp only [expected, hPid, hTid, hTime, hStart, ne_eq, not_true_eq_false, if_false]
    rw [if_pos hLong]
    exact List.mem_singleton_self _

/-- The option keeps its promise exactly for the durations whose nanoseconds fit 64 bits. -/
theorem minDuration_kept_iff {arg : Text} {d : Int} (hArg : parseArg arg = some d) :
    (∀ bucket acts, acts.Pairwise (fun a b => a.time ≤ b.time) →
      ∀ r ∈ (run bucket (minDurationNs d) acts).reports, LivedFor d acts r) ↔
    d * 1000000 < 2 ^ 64 := by
  obtain ⟨_, hLow, _⟩ := parseArg_eq_some_iff.mp hArg
  have hNs := minDurationNs_toNat (by omega : 0 ≤ d)
  constructor
  · intro h
    by_contra hWraps
    have hLived := h _ _ (livesFor_ordered _) _ (livesFor_reported (minDurationNs d))
    have hLong := hLived.1
    omega
  · intro hFits bucket acts hTimes r hr
    rw [Int.emod_eq_of_lt (by omega) hFits] at hNs
    have hMin : minDurationNs d ≠ 0 := by
      intro hZero
      rw [hZero] at hNs
      change (0 : Int) = _ at hNs
      omega
    obtain ⟨p, durationNs, rfl, hLe, hRecorded⟩ :=
      (filters_run bucket hMin acts hTimes).reports r hr
    refine ⟨?_, hRecorded⟩
    rw [← hNs]
    exact_mod_cast hLe

theorem minDuration_of_tenth_second :
    parseArg "100".toList = some 100 ∧
    ∀ bucket acts, acts.Pairwise (fun a b => a.time ≤ b.time) →
      ∀ r ∈ (run bucket (minDurationNs 100) acts).reports, LivedFor 100 acts r := by
  have hArg : parseArg "100".toList = some 100 := by decide
  exact ⟨hArg, (minDuration_kept_iff hArg).mpr (by decide)⟩

/-- For the first duration that wraps, a process of less than half a millisecond is reported. -/
theorem minDuration_wraps :
    ¬(∀ arg d, parseArg arg = some d → ∀ bucket acts,
      acts.Pairwise (fun a b => a.time ≤ b.time) →
      ∀ r ∈ (run bucket (minDurationNs d) acts).reports, LivedFor d acts r) := by
  intro h
  have hNs : minDurationNs 18446744073710 = 448384 := by decide
  have hLived := h _ _ (parseArg_decimal (by decide : (1 : Int) ≤ 18446744073710) (by decide)) _ _
    (livesFor_ordered 448384) (.exit 7 448384) (hNs ▸ livesFor_reported 448384)
  exact absurd hLived.1 (by decide)

end Ebacs.Bootstrap
