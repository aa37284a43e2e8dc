import Mathlib.Data.List.DropRight
import Ebacs.Bootstrap.Handlers
import Ebacs.Lib.Trace

/-! # Lifetimes as a function of the exec and exit history

The start of a process is its latest exec since its last leader exit. The map
holds exactly the starts, so every report can be read off the history alone.
-/
namespace Ebacs.Bootstrap
open Lib
open PageAccess (Pid)
set_option autoImplicit false

def Act.Execs (p : Pid) : Act → Prop
  | .exec ctx => ctx.pid = p
  | .exit _ => False

/-- The exit of the thread whose TID is the PID. -/
def Act.Ends (p : Pid) : Act → Prop
  | .exec _ => False
  | .exit ctx => ctx.pid = p ∧ ctx.tid = ctx.pid

instance (p : Pid) : DecidablePred (Act.Execs p)
  | .exec ctx => inferInstanceAs (Decidable (ctx.pid = p))
  | .exit _ => .isFalse id

instance (p : Pid) : DecidablePred (Act.Ends p)
  | .exec _ => .isFalse id
  | .exit ctx => inferInstanceAs (Decidable (ctx.pid = p ∧ ctx.tid = ctx.pid))

def Act.time (a : Act) : UInt64 := a.context.ktime

def start (history : List Act) (p : Pid) : Option UInt64 :=
  ((history.rtakeWhile (fun a => ¬a.Ends p)).filter (fun a => a.Execs p)).getLast?.map Act.time

def recorded (history : List Act) : Finset Pid :=
  (history.map (fun a => a.context.pid)).toFinset.filter (fun p => (start history p).isSome)

/-- The report of an act after a history. -/
def expected (minDurationNs : UInt64) (history : List Act) : Act → List Report
  | .exec ctx => if minDurationNs = 0 then [.exec ctx.pid] else []
  | .exit ctx =>
    if ctx.tid ≠ ctx.pid then []
    else match start history ctx.pid with
      | some startTs =>
        let duration := ctx.ktime.toNat - startTs.toNat
        if minDurationNs = 0 ∨ minDurationNs.toNat ≤ duration then [.exit ctx.pid duration] else []
      | none => if minDurationNs = 0 then [.exit ctx.pid 0] else []

theorem start_concat (history : List Act) (a : Act) (p : Pid) :
    start (history ++ [a]) p =
      if a.Ends p then none else if a.Execs p then some a.time else start history p := by
  rw [start, List.rtakeWhile_concat]
  by_cases hEnds : a.Ends p
  · simp [hEnds]
  · by_cases hExecs : a.Execs p
    · simp [hEnds, hExecs, List.filter_append]
    · simp [hEnds, hExecs, List.filter_append, start]

theorem time_of_start {history : List Act} {p : Pid} {ts : UInt64}
    (h : start history p = some ts) : ∃ a ∈ history, a.time = ts ∧ a.context.pid = p := by
  obtain ⟨a, hLast, rfl⟩ := Option.map_eq_some_iff.mp h
  have hMem := List.mem_of_getLast? hLast
  rw [List.mem_filter] at hMem
  refine ⟨a, (List.rtakeWhile_suffix _ _).subset hMem.1, rfl, ?_⟩
  have hExecs : a.Execs p := of_decide_eq_true hMem.2
  cases a with
  | exec ctx => exact hExecs
  | exit ctx => exact hExecs.elim

theorem mem_recorded {history : List Act} {p : Pid} :
    p ∈ recorded history ↔ (start history p).isSome = true := by
  rw [recorded, Finset.mem_filter, List.mem_toFinset, List.mem_map]
  refine ⟨fun h => h.2, fun h => ⟨?_, h⟩⟩
  obtain ⟨ts, hStart⟩ := Option.isSome_iff_exists.mp h
  obtain ⟨a, ha, _, hPid⟩ := time_of_start hStart
  exact ⟨a, ha, hPid⟩

theorem card_recorded_le (history : List Act) : (recorded history).card ≤ history.length :=
  calc
    (recorded history).card ≤ (history.map (fun a => a.context.pid)).toFinset.card :=
      Finset.card_filter_le _ _
    _ ≤ history.length := (List.toFinset_card_le _).trans_eq (List.length_map _)

/-- The map and the reports after a history. -/
structure Accounts (minDurationNs : UInt64) (s : State) (history : List Act) : Prop where
  starts : ∀ p, s.execStart.lookupElem p = start history p
  reports : s.reports = (moments history).flatMap (fun x => expected minDurationNs x.1 x.2)

section Step

variable {minDurationNs : UInt64} {s : State} {history : List Act}

theorem Accounts.exec (h : Accounts minDurationNs s history) (ctx : Context)
    (hReserved : ctx.reserved.isSome = true)
    (hRoom : (recorded (history ++ [.exec ctx])).card ≤ maxStarts) :
    Accounts minDurationNs (handleExec minDurationNs s ctx) (history ++ [.exec ctx]) := by
  obtain ⟨hMap, hReports⟩ := handleExec_eq minDurationNs s hReserved
  have hStart : ∀ p, start (history ++ [.exec ctx]) p =
      if p = ctx.pid then some ctx.ktime else start history p := by
    intro p
    have hEnds : ¬(Act.exec ctx).Ends p := id
    rw [start_concat, if_neg hEnds]
    exact if_congr eq_comm rfl rfl
  constructor
  · intro p
    have hFits : ctx.pid ∈ s.execStart ∨ s.execStart.size < maxStarts := by
      refine BoundedMap.room_of_subset _ hRoom (fun q hq => ?_) ?_
      · obtain ⟨ts, hts⟩ := BoundedMap.mem_iff_lookupElem.mp hq
        rw [h.starts] at hts
        rw [mem_recorded, hStart]
        split
        · rfl
        · rw [hts]
          rfl
      · rw [mem_recorded, hStart, if_pos rfl]
        rfl
    rw [hMap, BoundedMap.lookupElem_updateElem, hStart, h.starts]
    simp only [hFits, and_true]
  · rw [hReports, h.reports, moments_concat, List.flatMap_append, List.flatMap_singleton]
    rfl

theorem Accounts.thread (h : Accounts minDurationNs s history) (ctx : Context)
    (hThread : ctx.tid ≠ ctx.pid) :
    Accounts minDurationNs (handleExit minDurationNs s ctx) (history ++ [.exit ctx]) := by
  rw [handleExit_thread hThread]
  constructor
  · intro p
    have hEnds : ¬(Act.exit ctx).Ends p := fun hEnds => hThread hEnds.2
    have hExecs : ¬(Act.exit ctx).Execs p := id
    rw [start_concat, if_neg hEnds, if_neg hExecs]
    exact h.starts p
  · rw [h.reports, moments_concat, List.flatMap_append, List.flatMap_singleton]
    simp [expected, hThread]

theorem start_after_exit {ctx : Context} (hLeader : ctx.tid = ctx.pid) (p : Pid) :
    start (history ++ [.exit ctx]) p = if p = ctx.pid then none else start history p := by
  have hExecs : ¬(Act.exit ctx).Execs p := id
  rw [start_concat, if_neg hExecs]
  exact if_congr ⟨fun hEnds => hEnds.1.symm, fun hp => ⟨hp.symm, hLeader⟩⟩ rfl rfl

/-- A leader exit that gets as far as the report. -/
theorem Accounts.reported (h : Accounts minDurationNs s history) (ctx : Context)
    (hReserved : ctx.reserved.isSome = true) (hLeader : ctx.tid = ctx.pid) {durationNs : UInt64}
    (hExpected : expected minDurationNs history (.exit ctx) =
      if minDurationNs = 0 ∨ minDurationNs ≤ durationNs then [.exit ctx.pid durationNs.toNat]
      else []) :
    Accounts minDurationNs (reportExit minDurationNs s ctx durationNs) (history ++ [.exit ctx]) := by
  obtain ⟨hStarts, hReports⟩ := reportExit_eq minDurationNs s durationNs hReserved
  constructor
  · intro p
    rw [hStarts, BoundedMap.lookupElem_deleteElem, start_after_exit hLeader, h.starts]
  · rw [hReports, h.reports, moments_concat, List.flatMap_append, List.flatMap_singleton, hExpected]

theorem Accounts.leader (h : Accounts minDurationNs s history) (ctx : Context)
    (hReserved : ctx.reserved.isSome = true) (hLeader : ctx.tid = ctx.pid)
    (hTime : ∀ ts, start history ctx.pid = some ts → ts ≤ ctx.ktime) :
    Accounts minDurationNs (handleExit minDurationNs s ctx) (history ++ [.exit ctx]) := by
  rw [handleExit, if_neg (not_not_intro hLeader.symm), h.starts]
  cases hStart : start history ctx.pid with
  | some startTs =>
    have hDuration : (ctx.ktime - startTs).toNat = ctx.ktime.toNat - startTs.toNat :=
      UInt64.toNat_sub_of_le _ _ (hTime startTs hStart)
    refine h.reported ctx hReserved hLeader ?_
    simp only [expected, hLeader, ne_eq, not_true_eq_false, if_false, hStart, hDuration,
      UInt64.le_iff_toNat_le]
  | none =>
    by_cases hMin : minDurationNs = 0
    · rw [if_neg (not_not_intro hMin)]
      refine h.reported ctx hReserved hLeader ?_
      simp [expected, hLeader, hStart, hMin]
    · rw [if_pos hMin]
      constructor
      · intro p
        rw [start_after_exit hLeader, h.starts]
        split
        · rename_i hp
          rw [hp, hStart]
        · rfl
      · rw [h.reports, moments_concat, List.flatMap_append, List.flatMap_singleton]
        simp [expected, hLeader, hStart, hMin]

end Step

theorem start_le_of_pairwise {history : List Act} {a : Act} {p : Pid} {ts : UInt64}
    (hTimes : (history ++ [a]).Pairwise (fun a b => a.time ≤ b.time))
    (h : start history p = some ts) : ts ≤ a.time := by
  obtain ⟨b, hb, rfl, _⟩ := time_of_start h
  exact (List.pairwise_append.mp hTimes).2.2 b hb a (List.mem_singleton_self a)

theorem accounts_run (bucket : Pid → Nat) (minDurationNs : UInt64) (acts : List Act)
    (hTimes : acts.Pairwise (fun a b => a.time ≤ b.time))
    (hRecorded : ∀ history, history <+: acts → (recorded history).card ≤ maxStarts)
    (hReserved : ∀ a ∈ acts, a.context.reserved.isSome = true) :
    Accounts minDurationNs (run bucket minDurationNs acts) acts := by
  induction acts using List.reverseRecOn with
  | nil => exact ⟨fun _ => rfl, rfl⟩
  | append_singleton acts a ih =>
    have hBefore := ih (List.pairwise_append.mp hTimes).1
      (fun history hPrefix => hRecorded history (hPrefix.trans (List.prefix_append _ _)))
      (fun b hb => hReserved b (List.mem_append_left _ hb))
    have hLast := hReserved a (List.mem_append_right _ (List.mem_singleton_self a))
    rw [run, List.foldl_append]
    cases a with
    | exec ctx => exact hBefore.exec ctx hLast (hRecorded _ List.prefix_rfl)
    | exit ctx =>
      by_cases hLeader : ctx.tid = ctx.pid
      · exact hBefore.leader ctx hLast hLeader (fun ts hts => start_le_of_pairwise hTimes hts)
      · exact hBefore.thread ctx hLeader

/-- The reports of a run are those that its history calls for, the map holds the starts, no
start lies behind the exit it is subtracted from, and the exit of a thread changes nothing. -/
theorem lifetimes_exact (bucket : Pid → Nat) (minDurationNs : UInt64) (acts : List Act)
    (hTimes : acts.Pairwise (fun a b => a.time ≤ b.time))
    (hRecorded : ∀ history, history <+: acts → (recorded history).card ≤ maxStarts)
    (hReserved : ∀ a ∈ acts, a.context.reserved.isSome = true) :
    (run bucket minDurationNs acts).reports =
      (moments acts).flatMap (fun x => expected minDurationNs x.1 x.2) ∧
    (∀ p, (run bucket minDurationNs acts).execStart.lookupElem p = start acts p) ∧
    (∀ x ∈ moments acts, ∀ p ts, start x.1 p = some ts → ts ≤ x.2.time) ∧
    (∀ s ctx, ctx.tid ≠ ctx.pid → handleExit minDurationNs s ctx = s) := by
  have hAccounts := accounts_run bucket minDurationNs acts hTimes hRecorded hReserved
  refine ⟨hAccounts.reports, hAccounts.starts, ?_, fun s ctx h => handleExit_thread h⟩
  intro x hx p ts hts
  obtain ⟨rest, hRest⟩ := prefix_of_mem_moments hx
  rw [← hRest] at hTimes
  exact start_le_of_pairwise (List.pairwise_append.mp hTimes).1 hts

def contextAt (pidTgid ktime : UInt64) : Context :=
  ⟨pidTgid, ktime, 1, 0, .replicate 16 0, [], some ⟨0, 0, 0, 0, .replicate 16 0,
    .replicate 127 0, false⟩⟩

/-- A process that execs twice, loses a thread and ends. -/
def execTwice : List Act :=
  [.exec (contextAt 0x700000007 10), .exec (contextAt 0x700000007 25),
    .exit (contextAt 0x700000008 30), .exit (contextAt 0x700000007 40)]

theorem lifetimes_of_execTwice :
    (run (fun _ => 0) 0 execTwice).reports = [.exec 7, .exec 7, .exit 7 15] := by
  have hRecorded : ∀ history, history <+: execTwice → (recorded history).card ≤ maxStarts := by
    intro history hPrefix
    calc
      (recorded history).card ≤ history.length := card_recorded_le history
      _ ≤ execTwice.length := hPrefix.length_le
      _ ≤ maxStarts := by decide
  have h := lifetimes_exact (fun _ => 0) 0 execTwice (by decide) hRecorded (by decide)
  rw [h.1]
  decide

end Ebacs.Bootstrap
