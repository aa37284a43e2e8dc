import Mathlib.Data.Finset.Basic
import Mathlib.Logic.Function.Basic
import Ebacs.Lib.Text
import Ebacs.Lib.Trace

/-! # The scan for tracked processes

`get_db_bench_pids` lists `/proc` and then opens and reads one `cmdline` after the
other, while processes start, change their program, exit and are reaped. Until it is
reaped a process that has exited keeps its entry, with an empty `cmdline`. A directory
that changes while it is listed promises only the entries that are there all the time.
-/
namespace Ebacs.Avgscale
open Lib
set_option autoImplicit false

/-- `birth` tells the processes that had one PID apart. One that has exited has no `cmdline`. -/
structure Process where
  birth : Nat
  cmdline : Option (List UInt8)

/-- The bytes that the file of the process gives. -/
def Process.content (p : Process) : List UInt8 := p.cmdline.getD []

inductive ProcEntry where
  | process (pid : Nat)
  | other (name : Text)
deriving DecidableEq

def ProcEntry.name : ProcEntry → Text
  | .process pid => decimal pid
  | .other name => name

inductive ScanPc where
  /-- `unlisted` are the processes there since the start that have not come up yet. -/
  | listing (unlisted : List Nat) (entries : List ProcEntry)
  | reading (entries : List ProcEntry)
  | opened (name : Text) (pid birth : Nat) (entries : List ProcEntry)
  | returned
  | raised
deriving DecidableEq

structure Scan where
  processes : Nat → Option Process
  births : Nat
  pc : ScanPc
  pids : Finset Int

inductive ScanMove where
  | spawn (pid : Nat) (cmdline : List UInt8)
  | exec (pid : Nat) (cmdline : List UInt8)
  | exit (pid : Nat)
  | reap (pid : Nat)
  | list (entry : ProcEntry)
  | listed
  /-- The loop goes on to the next entry and opens its `cmdline`, if it may. -/
  | next (permitted : Bool)
  | read
deriving DecidableEq

def isdigit (t : Text) : Bool := !t.isEmpty && t.all Char.isDigit

def leveldbTests : Text := "./leveldb_tests".toList

def Scan.init (running : List Nat) (cmdline : Nat → Option (List UInt8)) : Scan where
  processes pid := if pid ∈ running then some ⟨0, cmdline pid⟩ else none
  births := 1
  pc := .listing running []
  pids := ∅

def ScanPc.forget (pid : Nat) : ScanPc → ScanPc
  | .listing unlisted entries => .listing (unlisted.filter (· ≠ pid)) entries
  | pc => pc

def ProcEntry.process? (processes : Nat → Option Process) : ProcEntry → Option (Nat × Process)
  | .process pid => (processes pid).map (pid, ·)
  | .other _ => none

/-- An entry whose name is not a number, or whose file is gone or forbidden, is passed over. -/
def nextStep (s : Scan) (permitted : Bool) (entry : ProcEntry) (entries : List ProcEntry) :
    ScanPc :=
  if isdigit entry.name then
    match entry.process? s.processes, permitted with
    | some (pid, p), true => .opened entry.name pid p.birth entries
    | _, _ => .reading entries
  else .reading entries

section Model

-- `decode` is the encoding of the locale. On bytes that it does not decode, the read raises.
variable (decode : List UInt8 → Option Text)

/-- The file of a process that has been reaped cannot be read, also when its PID is in use again. -/
def readStep (s : Scan) (name : Text) (pid birth : Nat) (entries : List ProcEntry) : Scan :=
  match s.processes pid with
  | some p =>
    if p.birth ≠ birth then { s with pc := .raised }
    else match decode p.content with
      | some cmdline =>
        if leveldbTests <:+: cmdline then
          match int? name with
          | some i => { s with pids := insert i s.pids, pc := .reading entries }
          | none => { s with pc := .raised }
        else { s with pc := .reading entries }
      | none => { s with pc := .raised }
  | none => { s with pc := .raised }

def Scan.step (s : Scan) : ScanMove → Scan
  | .spawn pid cmdline =>
    match s.processes pid with
    | some _ => s
    | none => { s with
        processes := Function.update s.processes pid (some ⟨s.births, some cmdline⟩)
        births := s.births + 1 }
  | .exec pid cmdline =>
    match s.processes pid with
    | some ⟨birth, some _⟩ => { s with
        processes := Function.update s.processes pid (some ⟨birth, some cmdline⟩) }
    | _ => s
  | .exit pid =>
    match s.processes pid with
    | some p => { s with processes := Function.update s.processes pid (some ⟨p.birth, none⟩) }
    | none => s
  | .reap pid =>
    match s.processes pid with
    | some ⟨_, none⟩ => { s with
        processes := Function.update s.processes pid none
        pc := s.pc.forget pid }
    | _ => s
  | .list entry =>
    match s.pc with
    | .listing unlisted entries => { s with
        pc := .listing (unlisted.filter (fun pid => entry ≠ .process pid)) (entries ++ [entry]) }
    | _ => s
  | .listed =>
    match s.pc with
    | .listing [] entries => { s with pc := .reading entries }
    | _ => s
  | .next permitted =>
    match s.pc with
    | .reading [] => { s with pc := .returned }
    | .reading (entry :: entries) => { s with pc := nextStep s permitted entry entries }
    | _ => s
  | .read =>
    match s.pc with
    | .opened name pid birth entries => readStep decode s name pid birth entries
    | _ => s

/-- The process runs the program that is looked for. -/
def Scan.Runs (s : Scan) (pid : Nat) : Prop :=
  ∃ p cmdline, s.processes pid = some p ∧ decode p.content = some cmdline ∧
    leveldbTests <:+: cmdline

/-- A process is reaped while its `cmdline` is open. -/
def ReapedWhileOpen (x : Scan × ScanMove) : Prop :=
  ∃ name pid birth entries, x.1.pc = .opened name pid birth entries ∧
    x.1.processes pid = some ⟨birth, none⟩ ∧ x.2 = .reap pid

/-- A `cmdline` is read that the encoding does not decode. -/
def FindsUndecodable (x : Scan × ScanMove) : Prop :=
  ∃ name pid entries p, x.1.pc = .opened name pid p.birth entries ∧
    x.1.processes pid = some p ∧ decode p.content = none ∧ x.2 = .read

/-- What ends a scan with an error that is not caught. -/
def Fails (x : Scan × ScanMove) : Prop := ReapedWhileOpen x ∨ FindsUndecodable decode x

end Model

theorem isdigit_decimal (pid : Nat) : isdigit (decimal pid) = true := by
  have hDigits : ∀ c ∈ Nat.toDigits 10 pid, c.isDigit = true :=
    fun c hc => Nat.isDigit_of_mem_toDigits (by decide) (by decide) hc
  have hNe : Nat.toDigits 10 pid ≠ [] := Nat.toDigits_ne_nil
  simp only [isdigit, decimal, Bool.and_eq_true, Bool.not_eq_true', List.isEmpty_eq_false_iff,
    List.all_eq_true]
  exact ⟨hNe, hDigits⟩

/-- PIDs in use and open files are of processes born so far. -/
structure WellFormed (s : Scan) : Prop where
  born : ∀ pid p, s.processes pid = some p → p.birth < s.births
  opened : ∀ name pid birth entries, s.pc = .opened name pid birth entries →
    name = decimal pid ∧ birth < s.births

variable {decode : List UInt8 → Option Text}

/-- What a move can do. -/
inductive Takes (decode : List UInt8 → Option Text) (s : Scan) : ScanMove → Scan → Prop where
  | spawn {pid : Nat} {cmdline : List UInt8} (hFree : s.processes pid = none) :
    Takes decode s (.spawn pid cmdline)
      { s with
        processes := Function.update s.processes pid (some ⟨s.births, some cmdline⟩)
        births := s.births + 1 }
  | changed {move : ScanMove} {pid birth : Nat} {old new : Option (List UInt8)}
    (hp : s.processes pid = some ⟨birth, old⟩)
    (hMove : move = .exit pid ∨ ∃ cmdline, move = .exec pid cmdline) :
    Takes decode s move
      { s with processes := Function.update s.processes pid (some ⟨birth, new⟩) }
  | reaped {pid birth : Nat} (hp : s.processes pid = some ⟨birth, none⟩) :
    Takes decode s (.reap pid)
      { s with processes := Function.update s.processes pid none, pc := s.pc.forget pid }
  | list {entry : ProcEntry} {unlisted : List Nat} {entries : List ProcEntry}
    (hPc : s.pc = .listing unlisted entries) :
    Takes decode s (.list entry)
      { s with
        pc := .listing (unlisted.filter (fun pid => entry ≠ .process pid)) (entries ++ [entry]) }
  | listed {entries : List ProcEntry} (hPc : s.pc = .listing [] entries) :
    Takes decode s .listed { s with pc := .reading entries }
  | returned {permitted : Bool} (hPc : s.pc = .reading []) :
    Takes decode s (.next permitted) { s with pc := .returned }
  | skipped {permitted : Bool} {entry : ProcEntry} {entries : List ProcEntry}
    (hPc : s.pc = .reading (entry :: entries))
    (hSkip : permitted = true → ∀ pid, entry = .process pid → s.processes pid = none) :
    Takes decode s (.next permitted) { s with pc := .reading entries }
  | opened {pid : Nat} {p : Process} {entries : List ProcEntry}
    (hPc : s.pc = .reading (.process pid :: entries)) (hp : s.processes pid = some p) :
    Takes decode s (.next true) { s with pc := .opened (decimal pid) pid p.birth entries }
  | lost {pid birth : Nat} {entries : List ProcEntry}
    (hPc : s.pc = .opened (decimal pid) pid birth entries)
    (hGone : ∀ p, s.processes pid = some p → p.birth ≠ birth) :
    Takes decode s .read { s with pc := .raised }
  | undecodable {pid : Nat} {p : Process} {entries : List ProcEntry}
    (hPc : s.pc = .opened (decimal pid) pid p.birth entries) (hp : s.processes pid = some p)
    (hNone : decode p.content = none) :
    Takes decode s .read { s with pc := .raised }
  | found {pid : Nat} {p : Process} {cmdline : Text} {entries : List ProcEntry}
    (hPc : s.pc = .opened (decimal pid) pid p.birth entries) (hp : s.processes pid = some p)
    (hSome : decode p.content = some cmdline) (hTests : leveldbTests <:+: cmdline) :
    Takes decode s .read { s with pids := insert (pid : Int) s.pids, pc := .reading entries }
  | other {pid : Nat} {p : Process} {cmdline : Text} {entries : List ProcEntry}
    (hPc : s.pc = .opened (decimal pid) pid p.birth entries) (hp : s.processes pid = some p)
    (hSome : decode p.content = some cmdline) (hTests : ¬leveldbTests <:+: cmdline) :
    Takes decode s .read { s with pc := .reading entries }
  | idle {move : ScanMove} (hIdle : ¬Fails decode (s, move)) : Takes decode s move s

section Steps

variable {s : Scan}

theorem not_fails {move : ScanMove} (hReap : ∀ pid, move ≠ .reap pid) (hRead : move ≠ .read) :
    ¬Fails decode (s, move) := by
  rintro (⟨_, pid, _, _, _, _, hMove⟩ | ⟨_, _, _, _, _, _, _, hMove⟩)
  · exact hReap pid hMove
  · exact hRead hMove

theorem takes_next (permitted : Bool) {entry : ProcEntry} {entries : List ProcEntry}
    (hPc : s.pc = .reading (entry :: entries)) :
    Takes decode s (.next permitted) { s with pc := nextStep s permitted entry entries } := by
  cases entry with
  | other name =>
    have hNext : nextStep s permitted (.other name) entries = .reading entries := by
      simp [nextStep, ProcEntry.process?]
    rw [hNext]
    exact .skipped hPc (fun _ pid hEntry => by cases hEntry)
  | process pid =>
    cases hp : s.processes pid with
    | none =>
      have hNext : nextStep s permitted (.process pid) entries = .reading entries := by
        simp [nextStep, ProcEntry.process?, hp]
      rw [hNext]
      refine .skipped hPc (fun _ other hEntry => ?_)
      cases hEntry
      exact hp
    | some p =>
      cases permitted with
      | false =>
        have hNext : nextStep s false (.process pid) entries = .reading entries := by
          simp [nextStep, ProcEntry.process?, hp]
        rw [hNext]
        exact .skipped hPc (fun hTrue => by cases hTrue)
      | true =>
        have hNext : nextStep s true (.process pid) entries =
            .opened (decimal pid) pid p.birth entries := by
          simp [nextStep, ProcEntry.process?, hp, ProcEntry.name, isdigit_decimal]
        rw [hNext]
        exact .opened hPc hp

theorem takes_read {pid birth : Nat} {entries : List ProcEntry}
    (hPc : s.pc = .opened (decimal pid) pid birth entries) :
    Takes decode s .read (readStep decode s (decimal pid) pid birth entries) := by
  rw [readStep]
  split
  · rename_i p hp
    split
    · rename_i hOther
      refine .lost hPc (fun q hq => ?_)
      rw [hp] at hq
      obtain rfl := Option.some.inj hq
      exact hOther
    · rename_i hSame
      obtain rfl := not_not.mp hSame
      split
      · rename_i cmdline hSome
        split
        · rename_i hTests
          rw [int?_decimal]
          exact .found hPc hp hSome hTests
        · rename_i hTests
          exact .other hPc hp hSome hTests
      · rename_i hNone
        exact .undecodable hPc hp hNone
  · rename_i hGone
    refine .lost hPc (fun q hq => ?_)
    rw [hGone] at hq
    cases hq

theorem takes_step (h : WellFormed s) (move : ScanMove) :
    Takes decode s move (s.step decode move) := by
  cases move with
  | spawn pid cmdline =>
    rw [Scan.step]
    split
    · exact .idle (not_fails nofun nofun)
    · exact .spawn (by assumption)
  | exec pid cmdline =>
    rw [Scan.step]
    split
    · exact .changed (by assumption) (Or.inr ⟨cmdline, rfl⟩)
    · exact .idle (not_fails nofun nofun)
  | exit pid =>
    rw [Scan.step]
    split
    · exact .changed (by assumption) (Or.inl rfl)
    · exact .idle (not_fails nofun nofun)
  | reap pid =>
    rw [Scan.step]
    split
    · exact .reaped (by assumption)
    · rename_i hOther
      refine .idle ?_
      rintro (⟨_, other, birth, _, _, hp, hMove⟩ | ⟨_, _, _, _, _, _, _, hMove⟩)
      · cases hMove
        exact hOther birth hp
      · cases hMove
  | list entry =>
    rw [Scan.step]
    split
    · exact .list (by assumption)
    · exact .idle (not_fails nofun nofun)
  | listed =>
    rw [Scan.step]
    split
    · exact .listed (by assumption)
    · exact .idle (not_fails nofun nofun)
  | next permitted =>
    rw [Scan.step]
    split
    · exact .returned (by assumption)
    · exact takes_next permitted (by assumption)
    · exact .idle (not_fails nofun nofun)
  | read =>
    rw [Scan.step]
    split
    · rename_i name pid birth entries hPc
      obtain ⟨rfl, _⟩ := h.opened name pid birth entries hPc
      exact takes_read hPc
    · rename_i hClosed
      refine .idle ?_
      rintro (⟨_, _, _, _, _, _, hMove⟩ | ⟨name, pid, entries, p, hPc, _, _, _⟩)
      · cases hMove
      · exact hClosed name pid p.birth entries hPc

theorem forget_opened {pid : Nat} {pc : ScanPc} {name : Text} {other birth : Nat}
    {entries : List ProcEntry} (h : pc.forget pid = .opened name other birth entries) :
    pc = .opened name other birth entries := by
  cases pc with
  | listing unlisted listed => cases h
  | _ => exact h

theorem WellFormed.takes {t : Scan} {move : ScanMove} (h : WellFormed s)
    (hTakes : Takes decode s move t) : WellFormed t := by
  cases hTakes with
  | @spawn pid cmdline hFree =>
    constructor
    · intro other q hq
      dsimp only at hq
      rw [Function.update_apply] at hq
      split at hq
      · obtain rfl := Option.some.inj hq
        exact Nat.lt_succ_self _
      · exact Nat.lt_succ_of_lt (h.born other q hq)
    · intro name other birth entries hPc
      obtain ⟨hName, hBirth⟩ := h.opened name other birth entries hPc
      exact ⟨hName, Nat.lt_succ_of_lt hBirth⟩
  | @changed _ pid birth old new hp hMove =>
    refine ⟨fun other q hq => ?_, h.opened⟩
    dsimp only at hq
    rw [Function.update_apply] at hq
    split at hq
    · obtain rfl := Option.some.inj hq
      exact h.born pid ⟨birth, old⟩ hp
    · exact h.born other q hq
  | @reaped pid birth hp =>
    constructor
    · intro other q hq
      dsimp only at hq
      rw [Function.update_apply] at hq
      split at hq
      · cases hq
      · exact h.born other q hq
    · intro name other birth entries hPc
      exact h.opened name other birth entries (forget_opened hPc)
  | @opened pid p entries hPc hp =>
    refine ⟨h.born, fun name other birth rest hOpened => ?_⟩
    cases hOpened
    exact ⟨rfl, h.born pid p hp⟩
  | idle => exact h
  | _ => exact ⟨h.born, fun _ _ _ _ hPc => by cases hPc⟩

/-- The scan has failed, or holds a file open that it cannot read any more. -/
def Scan.Broken (s : Scan) : Prop :=
  match s.pc with
  | .opened _ pid birth _ => ∀ p, s.processes pid = some p → p.birth ≠ birth
  | .raised => True
  | _ => False

theorem broken_iff_of_quiet {t : Scan} {move : ScanMove} (hReap : ∀ pid, move ≠ .reap pid)
    (hRead : move ≠ .read) (hSame : t.Broken ↔ s.Broken) :
    t.Broken ↔ s.Broken ∨ Fails decode (s, move) := by
  rw [or_iff_left (not_fails hReap hRead)]
  exact hSame

/-- Only the two failures break a scan, and nothing repairs it. -/
theorem Takes.broken_iff {t : Scan} {move : ScanMove} (h : WellFormed s)
    (hTakes : Takes decode s move t) : t.Broken ↔ s.Broken ∨ Fails decode (s, move) := by
  cases hTakes with
  | @spawn pid cmdline hFree =>
    refine broken_iff_of_quiet (by nofun) (by nofun) ?_
    simp only [Scan.Broken]
    cases hPc : s.pc with
    | opened name other birth entries =>
      obtain ⟨_, hBirth⟩ := h.opened name other birth entries hPc
      dsimp only
      obtain rfl | hOther := eq_or_ne other pid
      · rw [Function.update_self]
        refine iff_of_true (fun p hp => ?_) (fun p hp => ?_)
        · obtain rfl := Option.some.inj hp
          exact hBirth.ne'
        · rw [hFree] at hp
          cases hp
      · rw [Function.update_of_ne hOther]
    | _ => exact Iff.rfl
  | @changed _ pid birth old new hp hMove =>
    refine broken_iff_of_quiet ?_ ?_ ?_
    · rintro _ rfl
      obtain hExit | ⟨_, hExec⟩ := hMove
      · cases hExit
      · cases hExec
    · rintro rfl
      obtain hExit | ⟨_, hExec⟩ := hMove
      · cases hExit
      · cases hExec
    simp only [Scan.Broken]
    cases hPc : s.pc with
    | opened name other birth entries =>
      dsimp only
      obtain rfl | hOther := eq_or_ne other pid
      · rw [Function.update_self, hp]
        simp
      · rw [Function.update_of_ne hOther]
    | _ => exact Iff.rfl
  | @reaped pid birth hp =>
    simp only [Fails, ReapedWhileOpen, FindsUndecodable, Scan.Broken]
    cases hPc : s.pc with
    | opened name other birth' entries =>
      dsimp only [ScanPc.forget]
      obtain rfl | hOther := eq_or_ne other pid
      · rw [Function.update_self, hp]
        refine iff_of_true (fun p hp => by cases hp) ?_
        obtain rfl | hOther := eq_or_ne birth birth'
        · exact Or.inr (Or.inl ⟨_, _, _, _, rfl, hp, rfl⟩)
        · refine Or.inl (fun p hp => ?_)
          obtain rfl := Option.some.inj hp
          exact hOther
      · rw [Function.update_of_ne hOther, or_iff_left]
        rintro (⟨_, _, _, _, hSame, _, hMove⟩ | ⟨_, _, _, _, _, _, _, hMove⟩)
        · cases hSame
          cases hMove
          exact hOther rfl
        · cases hMove
    | _ => simp [ScanPc.forget]
  | idle hIdle => rw [or_iff_left hIdle]
  | lost hPc hGone =>
    simp only [Scan.Broken, hPc]
    exact iff_of_true trivial (Or.inl hGone)
  | undecodable hPc hp hNone =>
    exact iff_of_true trivial (Or.inr (Or.inr ⟨_, _, _, _, hPc, hp, hNone, rfl⟩))
  | found hPc hp hSome | other hPc hp hSome =>
    refine iff_of_false id ?_
    rintro (hBroken | ⟨_, _, _, _, _, _, hMove⟩ | ⟨_, _, _, _, hOpened, hq, hNone, _⟩)
    · simp only [Scan.Broken, hPc] at hBroken
      exact hBroken _ hp rfl
    · cases hMove
    · obtain ⟨_, rfl, _⟩ := ScanPc.opened.inj (hPc.symm.trans hOpened)
      rw [Option.some.inj (hp.symm.trans hq), hNone] at hSome
      cases hSome
  | opened hPc hp =>
    refine broken_iff_of_quiet (by nofun) (by nofun) ?_
    simp [Scan.Broken, hPc, hp]
  | list hPc | listed hPc | returned hPc | skipped hPc =>
    refine broken_iff_of_quiet (by nofun) (by nofun) ?_
    simp [Scan.Broken, hPc]

theorem Takes.pids {t : Scan} {move : ScanMove} (hTakes : Takes decode s move t) {i : Int}
    (h : i ∈ t.pids) : i ∈ s.pids ∨ ∃ pid : Nat, i = pid ∧ s.Runs decode pid := by
  cases hTakes with
  | @found pid p cmdline entries hPc hp hSome hTests =>
    obtain rfl | hOld := Finset.mem_insert.mp h
    · exact Or.inr ⟨pid, rfl, p, cmdline, hp, hSome, hTests⟩
    · exact Or.inl hOld
  | _ => exact Or.inl h

end Steps

structure Scanned (decode : List UInt8 → Option Text) (s : Scan)
    (steps : List (Scan × ScanMove)) : Prop where
  wellFormed : WellFormed s
  found : ∀ i ∈ s.pids, ∃ pid : Nat, i = pid ∧ ∃ x ∈ steps, x.1.Runs decode pid
  broken : s.Broken ↔ ∃ x ∈ steps, Fails decode x

theorem Scanned.step {s : Scan} {steps : List (Scan × ScanMove)} (h : Scanned decode s steps)
    (move : ScanMove) : Scanned decode (s.step decode move) (steps ++ [(s, move)]) := by
  have hTakes : Takes decode s move (s.step decode move) := takes_step h.wellFormed move
  refine ⟨h.wellFormed.takes hTakes, fun i hi => ?_, ?_⟩
  · obtain hOld | ⟨pid, rfl, hRuns⟩ := hTakes.pids hi
    · obtain ⟨pid, hPid, x, hx, hRuns⟩ := h.found i hOld
      exact ⟨pid, hPid, x, List.mem_append_left _ hx, hRuns⟩
    · exact ⟨pid, rfl, _, List.mem_append_right _ List.mem_cons_self, hRuns⟩
  · rw [hTakes.broken_iff h.wellFormed, h.broken]
    simp only [List.mem_append, List.mem_singleton, or_and_right, exists_or, exists_eq_left]

section Runs

variable (decode) (running : List Nat) (cmdline : Nat → Option (List UInt8))
  (moves : List ScanMove)

end Runs

end Ebacs.Avgscale
