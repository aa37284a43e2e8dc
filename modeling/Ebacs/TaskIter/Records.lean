import Ebacs.Bootstrap.Output

/-! # From a task to its line

`get_tasks` stores into the buffer of its CPU, which still holds the record of an
earlier task, and hands all of it to the reader. The fields that are printed are
stored anew each time, the string up to its NUL.
-/
namespace Ebacs.TaskIter
open Lib
open Bootstrap (ascii)
set_option autoImplicit false

/-- `task->state` up to kernel 5.13, `task->__state` from 5.14 on. -/
inductive StateField where
  | pre514 (state : Int64)
  | post514 (state : UInt32)

/-- What `bpf_get_task_stack` returns, and what it leaves in the buffer. -/
structure Stack where
  res : Int64
  bytes : List UInt8
  error_le : -4095 ≤ res.toInt
  le_size : res.toInt ≤ 1016
  within : bytes.length ≤ 1016

structure Task where
  tgid : Int32
  pid : Int32
  state : StateField
  comm : List UInt8
  stack : Stack

/-- The fields start at 0, 4, 8, 12, 28 and 32. -/
def sizeofTaskInfo : Nat := 1048

namespace Bpf

def getTaskState : StateField → UInt32
  | .pre514 state => state.toUInt64.toUInt32
  | .post514 state => state

/-- `res <= 0 ? res : res / sizeof(t->kstack[0])` is an `unsigned long`, stored as an `int`. -/
def kstackLen (res : Int64) : Int32 :=
  (if res ≤ 0 then res.toUInt64 else res.toUInt64 / 8).toUInt32.toInt32

def stores (task : Task) : List Store := [
  ⟨0, (wordBytes task.tgid.toUInt32).toList⟩,
  ⟨4, (wordBytes task.pid.toUInt32).toList⟩,
  ⟨8, (wordBytes (getTaskState task.state)).toList⟩,
  ⟨12, (cString task.comm).take 15 ++ [0]⟩,
  ⟨32, task.stack.bytes⟩,
  ⟨28, (wordBytes (kstackLen task.stack.res).toUInt32).toList⟩]

/-- What is left in the buffer of the CPU, and what `bpf_seq_write` appends. The last call of an
iteration has no task. -/
def getTasks (taskInfoBuf : List UInt8) : Option Task → List UInt8 × List UInt8
  | none => (taskInfoBuf, [])
  | some task => (Store.fill (stores task) taskInfoBuf, Store.fill (stores task) taskInfoBuf)

end Bpf

def getTaskState (state : UInt32) : Text :=
  match state.toNat with
  | 0x0000 => "RUNNING".toList
  | 0x0001 => "INTERRUPTIBLE".toList
  | 0x0002 => "UNINTERRUPTIBLE".toList
  | 0x0200 => "WAKING".toList
  | 0x0400 => "NOLOAD".toList
  | 0x0402 => "IDLE".toList
  | 0x0800 => "NEW".toList
  | _ => "<unknown>".toList

def errorLine (pid : Int32) (comm : List UInt8) (kstackLen : Int) (state : UInt32) : List UInt8 :=
  ascii "Error getting kernel stack for task. Task Info. Pid: ".toList ++
    ascii (decimal pid.toInt) ++ ascii ". Process Name: ".toList ++ comm ++
    ascii ". Kernel Stack Error: ".toList ++ ascii (decimal kstackLen) ++
    ascii ". State: ".toList ++ ascii (getTaskState state) ++ ascii "\n".toList

def stackLine (pid : Int32) (comm : List UInt8) (kstackLen : Int) (state : UInt32) : List UInt8 :=
  ascii "Task Info. Pid: ".toList ++ ascii (decimal pid.toInt) ++
    ascii ". Process Name: ".toList ++ comm ++ ascii ". Kernel Stack Len: ".toList ++
    ascii (decimal kstackLen) ++ ascii ". State: ".toList ++ ascii (getTaskState state) ++
    ascii "\n".toList

/-- What `main` prints for what it finds in `buf`. -/
def printTask (buf : List UInt8) : List UInt8 :=
  let pid := (word (field buf 0 4)).toInt32
  let state := word (field buf 8 4)
  let comm := cString (buf.drop 12)
  let kstackLen := (word (field buf 28 4)).toInt32
  if kstackLen ≤ 0 then errorLine pid comm kstackLen.toInt state
  else stackLine pid comm kstackLen.toInt state

/-- The line of a task by itself: a stack of less than one address is an error. -/
def Task.line (task : Task) : List UInt8 :=
  let comm := (cString task.comm).take 15
  let state := Bpf.getTaskState task.state
  if task.stack.res.toInt < 8 then errorLine task.tgid comm (min task.stack.res.toInt 0) state
  else stackLine task.tgid comm (task.stack.res.toInt / 8) state

theorem toInt_toInt32 (w : UInt32) : w.toInt32.toInt = Int.bmod w.toNat 4294967296 :=
  BitVec.toInt_eq_toNat_bmod w.toBitVec

theorem toInt_eq_bmod (w : Int64) : w.toInt = Int.bmod w.toUInt64.toNat 18446744073709551616 :=
  BitVec.toInt_eq_toNat_bmod w.toBitVec

/-- The conversions keep the value of every length and error code. -/
theorem toInt_kstackLen (stack : Stack) :
    (Bpf.kstackLen stack.res).toInt =
      if stack.res.toInt < 8 then min stack.res.toInt 0 else stack.res.toInt / 8 := by
  have hLow := stack.error_le
  have hHigh := stack.le_size
  have hLt := stack.res.toUInt64.toNat_lt
  have hValue := toInt_eq_bmod stack.res
  have hLe : stack.res ≤ 0 ↔ stack.res.toInt ≤ 0 := Int64.le_iff_toInt_le
  have hEight : (8 : UInt64).toNat = 8 := rfl
  rw [Int.bmod_def] at hValue
  rw [Bpf.kstackLen, toInt_toInt32, UInt64.toNat_toUInt32, Int.bmod_def]
  split
  · rename_i hError
    rw [hLe] at hError
    split <;> omega
  · rename_i hLength
    rw [hLe] at hLength
    rw [UInt64.toNat_div, hEight]
    split <;> omega

section Decoding

variable {buf : List UInt8}

theorem fields_fill (task : Task) (hLen : buf.length = sizeofTaskInfo) :
    field (Store.fill (Bpf.stores task) buf) 0 4 = wordBytes task.tgid.toUInt32 ∧
    field (Store.fill (Bpf.stores task) buf) 8 4 = wordBytes (Bpf.getTaskState task.state) ∧
    field (Store.fill (Bpf.stores task) buf) 28 4 =
      wordBytes (Bpf.kstackLen task.stack.res).toUInt32 := by
  have hSize : buf.length = 1048 := hLen
  simp (disch := (simp only [Store.length_apply, hSize, Vector.length_toList, List.length_append,
      List.length_take, List.length_cons, List.length_nil]; omega)) only
    [Bpf.stores, Store.fill, List.foldl_cons, List.foldl_nil, field_apply_other, field_apply_own,
      and_self]

theorem nul_mem_field {u : List UInt8} (hShort : u.length < 16) (hLen : 28 ≤ buf.length) :
    0 ∈ (field ((Store.mk 12 (u ++ [0])).apply buf) 12 16).toList := by
  have hNul : (field ((Store.mk 12 (u ++ [0])).apply buf) 12 16)[u.length] = 0 := by
    rw [getElem_field, Store.getD_apply (by omega)]
    dsimp only
    rw [if_pos (Nat.le_add_right _ _), Nat.add_sub_cancel_left,
      List.getD_append_right _ _ _ _ le_rfl, Nat.sub_self]
    rfl
  have hMem : (field ((Store.mk 12 (u ++ [0])).apply buf) 12 16)[u.length] ∈
      field ((Store.mk 12 (u ++ [0])).apply buf) 12 16 := Vector.getElem_mem hShort
  rw [hNul] at hMem
  exact Vector.mem_toList_iff.mpr hMem

theorem field_fill_later {later : List Store} (hLater : ∀ s ∈ later, 28 ≤ s.offset)
    (hLen : 28 ≤ buf.length) : field (Store.fill later buf) 12 16 = field buf 12 16 := by
  induction later generalizing buf with
  | nil => rfl
  | cons s later ih =>
    have hApplied : 28 ≤ (s.apply buf).length := by
      rwa [Store.length_apply]
    have hRest := ih (fun t ht => hLater t (List.mem_cons_of_mem _ ht)) hApplied
    rw [Store.fill, List.foldl_cons]
    exact hRest.trans (field_apply_other hLen (Or.inr (hLater s List.mem_cons_self)))

/-- The name ends at its own NUL: what stands behind it is of no task in particular. -/
theorem cString_name {text : List UInt8} (hShort : text.length < 16) (hNoNul : 0 ∉ text)
    {later : List Store} (hLater : ∀ s ∈ later, 28 ≤ s.offset) (hLen : 28 ≤ buf.length) :
    cString ((Store.fill later ((Store.mk 12 (text ++ [0])).apply buf)).drop 12) = text := by
  have hWithin : (Store.mk 12 (text ++ [0])).Within buf.length := by
    simp only [Store.Within, List.length_append, List.length_singleton]
    omega
  have hOwn := Store.drop_apply hWithin
  dsimp only at hOwn
  have hNul := nul_mem_field hShort hLen
  have hNamed : 12 + 16 ≤ ((Store.mk 12 (text ++ [0])).apply buf).length := by
    rwa [Store.length_apply]
  rw [drop_eq_field_append (n := 16) (by rwa [Store.length_fill]),
    field_fill_later hLater hNamed, cString_append hNul,
    ← cString_append hNul (List.drop (12 + 16) _), ← drop_eq_field_append hNamed, hOwn,
    List.append_assoc, cString]
  exact (takeWhile_eq_iff hNoNul (by simp)).mpr (by simp)

theorem cString_comm_fill (task : Task) (hLen : buf.length = sizeofTaskInfo) :
    cString ((Store.fill (Bpf.stores task) buf).drop 12) = (cString task.comm).take 15 := by
  have hSize : buf.length = 1048 := hLen
  have hNoNul : 0 ∉ (cString task.comm).take 15 := by
    intro hMem
    simpa using List.all_eq_true.mp List.all_takeWhile 0 (List.mem_of_mem_take hMem)
  have hLater : ∀ s ∈ (Bpf.stores task).drop 4, 28 ≤ s.offset := by
    simp [Bpf.stores]
  have hBefore : 28 ≤ (Store.fill ((Bpf.stores task).take 3) buf).length := by
    rw [Store.length_fill]
    omega
  refine cString_name ?_ hNoNul hLater hBefore
  rw [List.length_take]
  omega

theorem printTask_fill (task : Task) (hLen : buf.length = sizeofTaskInfo) :
    printTask (Store.fill (Bpf.stores task) buf) = task.line := by
  obtain ⟨hPid, hState, hKstackLen⟩ := fields_fill task hLen
  have hSign : Bpf.kstackLen task.stack.res ≤ 0 ↔ (Bpf.kstackLen task.stack.res).toInt ≤ 0 :=
    Int32.le_iff_toInt_le
  rw [printTask, hPid, hState, hKstackLen, cString_comm_fill task hLen]
  simp only [word_wordBytes, Int32.toInt32_toUInt32, hSign, toInt_kstackLen, Task.line]
  split <;> split <;> first | rfl | omega

end Decoding

end Ebacs.TaskIter
