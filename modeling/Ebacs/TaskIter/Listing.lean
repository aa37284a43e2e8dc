import Mathlib.Data.List.Forall2
import Ebacs.TaskIter.Records

/-! # The tasks that `task_iter` lists

The kernel calls `get_tasks` for one task after the other, on whatever CPU the
reader runs, and keeps the records until `read` takes them. Every record has the
size that `main` asks for, so that no read returns a part of one.
-/
namespace Ebacs.TaskIter
open Lib
set_option autoImplicit false

abbrev Cpu := Nat

inductive Pc where
  | reading
  | left (err : Int)
deriving DecidableEq

structure System where
  taskInfoBuf : Cpu → List UInt8
  /-- What was written and not read. -/
  seq : List UInt8
  finished : Bool
  buf : List UInt8
  printed : List (List UInt8)
  pc : Pc
  /-- All tasks so far that `get_tasks` was called with. -/
  visited : List Task

inductive Move where
  | visit (cpu : Cpu) (task : Task)
  /-- The call without a task, behind the last one. -/
  | finish (cpu : Cpu)
  | read
  | fail (errno : Nat) (positive : 0 < errno)

def eagain : Nat := 11

def getTasksStep (s : System) (cpu : Cpu) (task : Option Task) : System :=
  let (taskInfo, written) := Bpf.getTasks (s.taskInfoBuf cpu) task
  { s with
    taskInfoBuf := Function.update s.taskInfoBuf cpu taskInfo
    seq := s.seq ++ written
    finished := task.isNone
    visited := s.visited ++ task.toList }

/-- A read that returns `n` bytes puts them at the start of `buf`. -/
def readStep (s : System) : System :=
  if s.seq = [] then
    -- a read waits for the next record while there may be one
    if s.finished then { s with pc := .left 0 } else s
  else
    let n := min s.seq.length sizeofTaskInfo
    let buf := s.seq.take n ++ s.buf.drop n
    { s with seq := s.seq.drop n, buf := buf, printed := s.printed ++ [printTask buf] }

def System.step (s : System) : Move → System
  | .visit cpu task => if s.finished then s else getTasksStep s cpu (some task)
  | .finish cpu => if s.finished then s else getTasksStep s cpu none
  | .read => if s.pc = .reading then readStep s else s
  | .fail errno _ =>
    if s.pc = .reading then
      if errno = eagain then s else { s with pc := .left (-errno) }
    else s

/-- The buffers hold anything at all in the beginning. -/
def System.init (taskInfoBuf : Cpu → Vector UInt8 sizeofTaskInfo)
    (buf : Vector UInt8 sizeofTaskInfo) : System where
  taskInfoBuf cpu := (taskInfoBuf cpu).toList
  seq := []
  finished := false
  buf := buf.toList
  printed := []
  pc := .reading
  visited := []

def System.run (s : System) (moves : List Move) : System := moves.foldl step s

/-- A record of the task, over what an earlier one left in the buffer. -/
def RecordOf (record : List UInt8) (task : Task) : Prop :=
  ∃ stale : List UInt8, stale.length = sizeofTaskInfo ∧
    record = Store.fill (Bpf.stores task) stale

theorem RecordOf.length {record : List UInt8} {task : Task} (h : RecordOf record task) :
    record.length = sizeofTaskInfo := by
  obtain ⟨stale, hStale, rfl⟩ := h
  rw [Store.length_fill, hStale]

theorem RecordOf.line {record : List UInt8} {task : Task} (h : RecordOf record task) :
    printTask record = task.line := by
  obtain ⟨stale, hStale, rfl⟩ := h
  exact printTask_fill task hStale

/-- The tasks are those printed and then those whose records wait. -/
structure Lists (s : System) (waiting : List Task) : Prop where
  percpu : ∀ cpu, (s.taskInfoBuf cpu).length = sizeofTaskInfo
  buf : s.buf.length = sizeofTaskInfo
  records : ∃ records, List.Forall₂ RecordOf records waiting ∧ s.seq = records.flatten
  printed : s.visited.map Task.line = s.printed ++ waiting.map Task.line
  ended : s.pc = .left 0 → s.finished = true ∧ waiting = []

section Steps

variable {s : System} {waiting : List Task}

theorem Lists.visit (h : Lists s waiting) (hOpen : s.finished = false) (cpu : Cpu) (task : Task) :
    Lists (getTasksStep s cpu (some task)) (waiting ++ [task]) where
  percpu other := by
    rw [getTasksStep]
    dsimp only
    obtain rfl | hOther := eq_or_ne other cpu
    · rw [Function.update_self, Bpf.getTasks, Store.length_fill, h.percpu]
    · rw [Function.update_of_ne hOther, h.percpu]
  buf := h.buf
  records := by
    obtain ⟨records, hRecords, hSeq⟩ := h.records
    refine ⟨records ++ [Store.fill (Bpf.stores task) (s.taskInfoBuf cpu)], ?_, ?_⟩
    · exact List.rel_append hRecords (.cons ⟨_, h.percpu cpu, rfl⟩ .nil)
    · simp [getTasksStep, Bpf.getTasks, hSeq]
  printed := by
    simp [getTasksStep, h.printed]
  ended hLeft := by
    have hEnd := (h.ended hLeft).1
    rw [hOpen] at hEnd
    cases hEnd

theorem Lists.finish (h : Lists s waiting) (hOpen : s.finished = false) (cpu : Cpu) :
    Lists (getTasksStep s cpu none) waiting where
  percpu other := by
    rw [getTasksStep]
    dsimp only [Bpf.getTasks]
    rw [Function.update_eq_self, h.percpu]
  buf := h.buf
  records := by
    obtain ⟨records, hRecords, hSeq⟩ := h.records
    exact ⟨records, hRecords, by simp [getTasksStep, Bpf.getTasks, hSeq]⟩
  printed := by
    simp [getTasksStep, h.printed]
  ended hLeft := by
    have hEnd := (h.ended hLeft).1
    rw [hOpen] at hEnd
    cases hEnd

theorem Lists.seq_nil (h : Lists s waiting) : s.seq = [] ↔ waiting = [] := by
  obtain ⟨records, hRecords, hSeq⟩ := h.records
  rw [hSeq]
  cases hRecords with
  | nil => exact iff_of_true rfl rfl
  | cons hRecord _ =>
    refine iff_of_false (fun hNil => ?_) (List.cons_ne_nil _ _)
    have hLen := congrArg List.length hNil
    rw [List.flatten_cons, List.length_append, hRecord.length] at hLen
    simp [sizeofTaskInfo] at hLen

/-- A read takes exactly the record of the first task that waits. -/
theorem Lists.read {task : Task} (h : Lists s (task :: waiting)) (hReading : s.pc = .reading) :
    Lists (readStep s) waiting ∧ (readStep s).printed = s.printed ++ [task.line] ∧
      (readStep s).pc = .reading ∧ (readStep s).visited = s.visited ∧
      (readStep s).finished = s.finished := by
  obtain ⟨records, hRecords, hSeq⟩ := h.records
  obtain _ | ⟨hRecord, hRest⟩ := hRecords
  rename_i record rest
  have hLen := hRecord.length
  have hMin : min s.seq.length sizeofTaskInfo = record.length := by
    rw [hSeq, List.flatten_cons, List.length_append, hLen]
    omega
  have hNe : s.seq ≠ [] := fun hNil => List.cons_ne_nil _ _ (h.seq_nil.mp hNil)
  have hBuf : s.seq.take record.length ++ s.buf.drop record.length = record := by
    rw [hSeq, List.flatten_cons, List.take_left, hLen, ← h.buf, List.drop_length, List.append_nil]
  have hStep : readStep s = { s with
      seq := rest.flatten
      buf := record
      printed := s.printed ++ [task.line] } := by
    rw [readStep, if_neg hNe]
    dsimp only
    rw [hMin, hBuf, hRecord.line, hSeq, List.flatten_cons, List.drop_left]
  rw [hStep]
  refine ⟨⟨h.percpu, hLen, ⟨rest, hRest, rfl⟩, ?_, ?_⟩, rfl, hReading, rfl, rfl⟩
  · rw [h.printed]
    simp
  · intro hLeft
    rw [hReading] at hLeft
    cases hLeft

theorem Lists.step (h : Lists s waiting) (move : Move) :
    ∃ waiting', Lists (s.step move) waiting' := by
  cases move with
  | visit cpu task =>
    rw [System.step]
    split
    · exact ⟨waiting, h⟩
    · rename_i hOpen
      exact ⟨waiting ++ [task], h.visit (Bool.eq_false_of_not_eq_true hOpen) cpu task⟩
  | finish cpu =>
    rw [System.step]
    split
    · exact ⟨waiting, h⟩
    · rename_i hOpen
      exact ⟨waiting, h.finish (Bool.eq_false_of_not_eq_true hOpen) cpu⟩
  | read =>
    rw [System.step]
    split
    · rename_i hReading
      cases waiting with
      | nil =>
        rw [readStep, if_pos (h.seq_nil.mpr rfl)]
        split
        · rename_i hFinished
          exact ⟨[], h.percpu, h.buf, h.records, h.printed, fun _ => ⟨hFinished, rfl⟩⟩
        · exact ⟨[], h⟩
      | cons task waiting => exact ⟨waiting, (h.read hReading).1⟩
    · exact ⟨waiting, h⟩
  | fail errno positive =>
    rw [System.step]
    split
    · split
      · exact ⟨waiting, h⟩
      · refine ⟨waiting, h.percpu, h.buf, h.records, h.printed, fun hLeft => ?_⟩
        have hZero : -(errno : Int) = 0 := Pc.left.inj hLeft
        omega
    · exact ⟨waiting, h⟩

/-- Behind the last task, as many reads as records wait and one more end the loop. -/
theorem Lists.drained (h : Lists s waiting) (hReading : s.pc = .reading)
    (hFinished : s.finished = true) :
    (s.run (List.replicate (waiting.length + 1) .read)).pc = .left 0 ∧
    (s.run (List.replicate (waiting.length + 1) .read)).printed = s.visited.map Task.line := by
  have hRead : s.step .read = readStep s := if_pos hReading
  rw [List.replicate_succ, System.run, List.foldl_cons, hRead]
  induction waiting generalizing s with
  | nil =>
    rw [readStep, if_pos (h.seq_nil.mpr rfl), if_pos hFinished]
    refine ⟨rfl, ?_⟩
    rw [h.printed, List.map_nil, List.append_nil]
    rfl
  | cons task waiting ih =>
    obtain ⟨hLists, _, hPc, hVisited, hEnd⟩ := h.read hReading
    rw [List.length_cons, List.replicate_succ, List.foldl_cons, ← hVisited]
    have hNext : (readStep s).step .read = readStep (readStep s) := if_pos hPc
    rw [hNext]
    exact ih hLists hPc (hEnd.trans hFinished) hNext

end Steps

theorem lists_run (taskInfoBuf : Cpu → Vector UInt8 sizeofTaskInfo)
    (buf : Vector UInt8 sizeofTaskInfo) (moves : List Move) :
    ∃ waiting, Lists ((System.init taskInfoBuf buf).run moves) waiting := by
  induction moves using List.reverseRecOn with
  | nil =>
    refine ⟨[], fun cpu => ?_, ?_, ⟨[], .nil, rfl⟩, rfl, fun hLeft => ?_⟩
    · exact Vector.length_toList
    · exact Vector.length_toList
    · cases hLeft
  | append_singleton moves move ih =>
    obtain ⟨waiting, hLists⟩ := ih
    rw [System.run, List.foldl_append]
    exact hLists.step move

/-- Whatever the buffers held, and whichever CPUs the calls ran on: the lines are those of the
tasks in the order of the iteration, none is left out when the loop ends at the end of the
iteration, and it does end there when every task has been visited. -/
theorem tasks_listed (taskInfoBuf : Cpu → Vector UInt8 sizeofTaskInfo)
    (buf : Vector UInt8 sizeofTaskInfo) (moves : List Move) :
    let s := (System.init taskInfoBuf buf).run moves
    s.printed <+: s.visited.map Task.line ∧
    (s.pc = .left 0 → s.finished = true ∧ s.printed = s.visited.map Task.line) ∧
    (s.pc = .reading → s.finished = true →
      let waiting := s.visited.length - s.printed.length
      let t := s.run (List.replicate (waiting + 1) .read)
      t.pc = .left 0 ∧ t.printed = s.visited.map Task.line) := by
  intro s
  obtain ⟨waiting, hLists⟩ : ∃ waiting, Lists s waiting := lists_run taskInfoBuf buf moves
  refine ⟨⟨waiting.map Task.line, hLists.printed.symm⟩, fun hLeft => ?_, fun hReading hEnd => ?_⟩
  · obtain ⟨hFinished, rfl⟩ := hLists.ended hLeft
    refine ⟨hFinished, ?_⟩
    rw [hLists.printed, List.map_nil, List.append_nil]
  · have hCount : s.visited.length - s.printed.length = waiting.length := by
      have hLen := congrArg List.length hLists.printed
      rw [List.length_map, List.length_append, List.length_map] at hLen
      omega
    intro count t
    have hDrained := hLists.drained hReading hEnd
    rw [← hCount] at hDrained
    exact hDrained

end Ebacs.TaskIter
