import Ebacs.Bootstrap.Lifetimes
import Ebacs.Lib.RingQueue
import Ebacs.Lib.Text

/-! # From a record of `bootstrap` to its line

A handler stores into its record field by field, and `handle_event` prints a
line from the bytes it finds there. A line shows the fields of its own kind only,
so it does not depend on what the record held before.
-/
namespace Ebacs.Bootstrap
open Lib
open PageAccess (Pid)
set_option autoImplicit false

/-- A handler call that asks for a record. -/
inductive Call where
  | exec (ctx : Context)
  | exit (ctx : Context) (durationNs : UInt64)

def Call.context : Call → Context
  | .exec ctx => ctx
  | .exit ctx _ => ctx

abbrev ringSize : Nat := 256 * 1024

/-- The fields start at 0, 4, 8, 16, 24, 40 and 167. -/
def sizeofEvent : Nat := 168

def Event.ofBytes (record : List UInt8) : Event where
  pid := (word (field record 0 4)).toInt32
  ppid := (word (field record 4 4)).toInt32
  exitCode := word (field record 8 4)
  durationNs := long (field record 16 8)
  comm := field record 24 16
  filename := field record 40 127
  exitEvent := field record 167 1 ≠ #v[0]

def Call.stores : Call → List Store
  | .exec ctx => [
      ⟨167, [0]⟩,
      ⟨0, (wordBytes ctx.pid.toUInt32).toList⟩,
      ⟨4, (wordBytes ctx.parentTgid.toUInt32).toList⟩,
      ⟨24, ctx.comm.toList⟩,
      ⟨40, ctx.filename.take 126 ++ [0]⟩]
  | .exit ctx durationNs => [
      ⟨167, [1]⟩,
      ⟨16, (longBytes durationNs).toList⟩,
      ⟨0, (wordBytes ctx.pid.toUInt32).toList⟩,
      ⟨4, (wordBytes ctx.parentTgid.toUInt32).toList⟩,
      ⟨8, (wordBytes ((ctx.exitCode >>> 8).toUInt32 &&& 0xff)).toList⟩,
      ⟨24, ctx.comm.toList⟩]

def ascii (t : Text) : List UInt8 := t.map (fun c => UInt8.ofNat c.toNat)

/-- `%-ns` -/
def padRight (n : Nat) (t : List UInt8) : List UInt8 := t ++ List.replicate (n - t.length) 32

/-- The columns that both kinds of line start with. -/
def columns (ts event comm : List UInt8) (pid ppid : Int32) : List UInt8 :=
  padRight 8 ts ++ [32] ++ padRight 5 event ++ [32] ++ padRight 16 comm ++ [32] ++
    padRight 7 (ascii (decimal pid.toInt)) ++ [32] ++ padRight 7 (ascii (decimal ppid.toInt)) ++ [32]

def exitColumns (exitCode : UInt32) (durationNs : UInt64) : List UInt8 :=
  ascii "[".toList ++ ascii (decimal exitCode.toNat) ++ ascii "]".toList ++
    (if durationNs ≠ 0 then
      ascii " (".toList ++ ascii (decimal (durationNs / 1000000).toNat) ++ ascii "ms)".toList
    else []) ++ ascii "\n".toList

/-- `ts` is the time of day when the record is handled. -/
def handleEvent (ts : List UInt8) (record : List UInt8) : List UInt8 :=
  let e := Event.ofBytes record
  let comm := cString (record.drop 24)
  if e.exitEvent then
    columns ts (ascii "EXIT".toList) comm e.pid e.ppid ++ exitColumns e.exitCode e.durationNs
  else
    columns ts (ascii "EXEC".toList) comm e.pid e.ppid ++ cString (record.drop 40) ++
      ascii "\n".toList

/-- The line of a call by itself. -/
def Call.line (ts : List UInt8) : Call → List UInt8
  | .exec ctx =>
    columns ts (ascii "EXEC".toList) (cString ctx.comm.toList) ctx.pid ctx.parentTgid ++
      cString (ctx.filename.take 126) ++ ascii "\n".toList
  | .exit ctx durationNs =>
    columns ts (ascii "EXIT".toList) (cString ctx.comm.toList) ctx.pid ctx.parentTgid ++
      exitColumns ((ctx.exitCode >>> 8).toUInt32 &&& 0xff) durationNs

theorem Call.stores_within (call : Call) : ∀ s ∈ call.stores, s.Within sizeofEvent := by
  intro s hs
  cases call with
  | exec ctx =>
    simp only [stores, List.mem_cons, List.not_mem_nil, or_false] at hs
    obtain rfl | rfl | rfl | rfl | rfl := hs
    all_goals simp [Store.Within, sizeofEvent]
    omega
  | exit ctx durationNs =>
    simp only [stores, List.mem_cons, List.not_mem_nil, or_false] at hs
    obtain rfl | rfl | rfl | rfl | rfl | rfl := hs
    all_goals simp [Store.Within, sizeofEvent]

/-- What a call does to the record it is given. -/
def Call.event (e : Event) : Call → Event
  | .exec ctx => { e with
      exitEvent := false
      pid := ctx.pid
      ppid := ctx.parentTgid
      comm := ctx.comm
      filename := readStr e.filename ctx.filename }
  | .exit ctx durationNs => { e with
      exitEvent := true
      durationNs := durationNs
      pid := ctx.pid
      ppid := ctx.parentTgid
      exitCode := (ctx.exitCode >>> 8).toUInt32 &&& 0xff
      comm := ctx.comm }

section Decoding

variable {record : List UInt8}

theorem field_apply_flag (b : UInt8) (hEnd : 168 ≤ record.length) :
    field ((Store.mk 167 [b]).apply record) 167 1 = #v[b] :=
  field_apply_own #v[b] hEnd

theorem field_apply_filename (src : List UInt8) (hEnd : 168 ≤ record.length) :
    field ((Store.mk 40 (src.take 126 ++ [0])).apply record) 40 127 =
      readStr (field record 40 127) src := by
  apply Vector.ext
  intro i hi
  have hIn : 40 + i < record.length := by omega
  rw [getElem_field, Store.getD_apply hIn, readStr, Vector.getElem_ofFn]
  dsimp only
  rw [if_pos (Nat.le_add_right _ _), Nat.add_sub_cancel_left, Fin.getElem_fin, getElem_field]

/-- The stores of a call are the assignments of its handler. -/
theorem ofBytes_fill (call : Call) (hLen : record.length = sizeofEvent) :
    Event.ofBytes (Store.fill call.stores record) = call.event (.ofBytes record) := by
  have hSize : record.length = 168 := hLen
  cases call with
  | exec ctx =>
    simp (disch := (simp only [Store.length_apply, hSize, Vector.length_toList, List.length_append,
        List.length_take, List.length_cons, List.length_nil]; omega)) only
      [Call.stores, Store.fill, List.foldl_cons, List.foldl_nil, Event.ofBytes, field_apply_other,
        field_apply_own, field_apply_flag, field_apply_filename, word_wordBytes,
        Int32.toInt32_toUInt32, Call.event]
    simp
  | exit ctx durationNs =>
    simp (disch := (simp only [Store.length_apply, hSize, Vector.length_toList, List.length_cons,
        List.length_nil]; omega)) only
      [Call.stores, Store.fill, List.foldl_cons, List.foldl_nil, Event.ofBytes, field_apply_other,
        field_apply_own, field_apply_flag, word_wordBytes, long_longBytes, Int32.toInt32_toUInt32,
        Call.event]
    simp

theorem cString_comm (call : Call) (hLen : record.length = sizeofEvent)
    (hNul : 0 ∈ call.context.comm.toList) :
    cString ((Store.fill call.stores record).drop 24) = cString call.context.comm.toList := by
  have hComm : field (Store.fill call.stores record) 24 16 = call.context.comm := by
    have hEvent := congrArg Event.comm (ofBytes_fill call hLen)
    cases call with
    | exec ctx => exact hEvent
    | exit ctx durationNs => exact hEvent
  have hEnd : 24 + 16 ≤ (Store.fill call.stores record).length := by
    rw [Store.length_fill, hLen]
    decide
  rw [drop_eq_field_append hEnd, hComm, cString_append hNul]

theorem cString_filename (ctx : Context) (hLen : record.length = sizeofEvent) :
    cString ((Store.fill (Call.exec ctx).stores record).drop 40) =
      cString (ctx.filename.take 126) := by
  have hLast : (Call.exec ctx).stores = (Call.exec ctx).stores.take 4 ++
      [⟨40, ctx.filename.take 126 ++ [0]⟩] := rfl
  rw [hLast, Store.fill_concat]
  generalize hRest : Store.fill ((Call.exec ctx).stores.take 4) record = rest
  have hWithin : (Store.mk 40 (ctx.filename.take 126 ++ [0])).Within rest.length := by
    rw [← hRest, Store.length_fill, hLen]
    exact Call.stores_within (.exec ctx) _ (hLast ▸ List.mem_append_right _ List.mem_cons_self)
  have hNul : (0 : UInt8) ∈ ctx.filename.take 126 ++ [0] :=
    List.mem_append_right _ List.mem_cons_self
  have hDrop := Store.drop_apply hWithin
  dsimp only at hDrop
  rw [hDrop, cString_append hNul, cString_concat_zero]

/-- The line of a record is the line of the call that filled it. -/
theorem handleEvent_fill (ts : List UInt8) (call : Call) (hLen : record.length = sizeofEvent)
    (hNul : 0 ∈ call.context.comm.toList) :
    handleEvent ts (Store.fill call.stores record) = call.line ts := by
  rw [handleEvent, ofBytes_fill call hLen, cString_comm call hLen hNul]
  cases call with
  | exec ctx =>
    rw [cString_filename ctx hLen]
    rfl
  | exit ctx durationNs => rfl

end Decoding

end Ebacs.Bootstrap
