import Ebacs.Lib.BoundedMap
import Ebacs.Lib.Bytes
import Ebacs.PageAccess.Probes

/-! # The handlers of `bootstrap`

Both tracepoint handlers of `bootstrap.bpf.c` over the map of start times. An
event is filled into a reserved piece of the ring buffer, whose fields that a
handler does not write keep what they held before.
-/
namespace Ebacs.Bootstrap
open Lib
open PageAccess (Pid currentPid)
set_option autoImplicit false

abbrev maxStarts : Nat := 8192

abbrev ExecStart := BoundedMap Pid UInt64 maxStarts

structure Event where
  pid : Int32
  ppid : Int32
  exitCode : UInt32
  durationNs : UInt64
  comm : Vector UInt8 16
  filename : Vector UInt8 127
  exitEvent : Bool
  deriving DecidableEq

/-- What the helpers return while a handler runs; `reserved` is the piece of the ring buffer,
or `none` when the reservation is refused. -/
structure Context where
  pidTgid : UInt64
  ktime : UInt64
  parentTgid : Int32
  exitCode : Int32
  comm : Vector UInt8 16
  filename : List UInt8
  reserved : Option Event

def Context.pid (ctx : Context) : Pid := currentPid ctx.pidTgid

def Context.tid (ctx : Context) : Pid := ctx.pidTgid.toUInt32.toInt32

structure State where
  execStart : ExecStart
  emitted : List Event

def State.init (bucket : Pid → Nat) : State := ⟨.empty bucket, []⟩

def State.submit (s : State) (e : Event) : State := { s with emitted := s.emitted ++ [e] }

def handleExec (minDurationNs : UInt64) (s : State) (ctx : Context) : State :=
  let s := { s with execStart := (s.execStart.updateElem ctx.pid ctx.ktime).getD s.execStart }
  if minDurationNs ≠ 0 then s
  else match ctx.reserved with
    | none => s
    | some e => s.submit { e with
        exitEvent := false
        pid := ctx.pid
        ppid := ctx.parentTgid
        comm := ctx.comm
        filename := readStr e.filename ctx.filename }

/-- The part of `handle_exit` behind the lookup of the start time. -/
def reportExit (minDurationNs : UInt64) (s : State) (ctx : Context) (durationNs : UInt64) : State :=
  let s := { s with execStart := s.execStart.deleteElem ctx.pid }
  if minDurationNs ≠ 0 ∧ durationNs < minDurationNs then s
  else match ctx.reserved with
    | none => s
    | some e => s.submit { e with
        exitEvent := true
        durationNs := durationNs
        pid := ctx.pid
        ppid := ctx.parentTgid
        exitCode := (ctx.exitCode >>> 8).toUInt32 &&& 0xff
        comm := ctx.comm }

def handleExit (minDurationNs : UInt64) (s : State) (ctx : Context) : State :=
  if ctx.pid ≠ ctx.tid then s
  else match s.execStart.lookupElem ctx.pid with
    | some startTs => reportExit minDurationNs s ctx (ctx.ktime - startTs)
    | none => if minDurationNs ≠ 0 then s else reportExit minDurationNs s ctx 0

inductive Act where
  | exec (ctx : Context)
  | exit (ctx : Context)

def Act.context : Act → Context
  | .exec ctx => ctx
  | .exit ctx => ctx

def step (minDurationNs : UInt64) (s : State) : Act → State
  | .exec ctx => handleExec minDurationNs s ctx
  | .exit ctx => handleExit minDurationNs s ctx

def run (bucket : Pid → Nat) (minDurationNs : UInt64) (acts : List Act) : State :=
  acts.foldl (step minDurationNs) (State.init bucket)

/-- What an emitted event tells about the life of a process. -/
inductive Report where
  | exec (pid : Pid)
  | exit (pid : Pid) (durationNs : Nat)
  deriving DecidableEq, Repr

def Event.report (e : Event) : Report :=
  if e.exitEvent then .exit e.pid e.durationNs.toNat else .exec e.pid

def State.reports (s : State) : List Report := s.emitted.map Event.report

theorem handleExec_eq (minDurationNs : UInt64) (s : State) {ctx : Context}
    (hReserved : ctx.reserved.isSome = true) :
    (handleExec minDurationNs s ctx).execStart =
      (s.execStart.updateElem ctx.pid ctx.ktime).getD s.execStart ∧
    (handleExec minDurationNs s ctx).reports =
      s.reports ++ if minDurationNs = 0 then [.exec ctx.pid] else [] := by
  obtain ⟨e, he⟩ := Option.isSome_iff_exists.mp hReserved
  by_cases hMin : minDurationNs = 0
  · simp [handleExec, hMin, he, State.submit, State.reports, Event.report]
  · simp [handleExec, hMin, State.reports]

theorem reportExit_eq (minDurationNs : UInt64) (s : State) {ctx : Context} (durationNs : UInt64)
    (hReserved : ctx.reserved.isSome = true) :
    (reportExit minDurationNs s ctx durationNs).execStart = s.execStart.deleteElem ctx.pid ∧
    (reportExit minDurationNs s ctx durationNs).reports = s.reports ++
      if minDurationNs = 0 ∨ minDurationNs ≤ durationNs then [.exit ctx.pid durationNs.toNat]
      else [] := by
  obtain ⟨e, he⟩ := Option.isSome_iff_exists.mp hReserved
  have hEarly : (minDurationNs ≠ 0 ∧ durationNs < minDurationNs) ↔
      ¬(minDurationNs = 0 ∨ minDurationNs ≤ durationNs) := by
    rw [not_or, UInt64.not_le]
  by_cases hLong : minDurationNs = 0 ∨ minDurationNs ≤ durationNs
  · have hNot := hEarly.not.mpr (not_not_intro hLong)
    simp only [reportExit, if_neg hNot, he, if_pos hLong]
    exact ⟨rfl, List.map_append⟩
  · rw [reportExit, if_pos (hEarly.mpr hLong), if_neg hLong, List.append_nil]
    exact ⟨rfl, rfl⟩

theorem handleExit_thread {minDurationNs : UInt64} {s : State} {ctx : Context}
    (h : ctx.tid ≠ ctx.pid) : handleExit minDurationNs s ctx = s := by
  rw [handleExit, if_pos h.symm]

end Ebacs.Bootstrap
