import Ebacs.Lib.RingQueue
import Ebacs.Profile.Printers

/-! # The samples of `profile`

The BPF program runs on every CPU at once and fills a record of 2080 bytes. The
helper clears the two stacks behind their last address. Neither printer reads that
far, so the stores below leave these bytes open, and what is shown for a record is
what its own sample holds whatever they are.
-/
namespace Ebacs.Profile
open Lib
set_option autoImplicit false

/-- A call of `bpf_get_stack`: what it returns and the addresses it copied. -/
structure Walk where
  ret : Int32
  addrs : List Address
  sized : ret ≤ 0 ∧ addrs = [] ∨ ret.toInt = 8 * addrs.length ∧ addrs.length ≤ maxStackDepth

/-- What the helpers give one call of the BPF program; a failed read of `comm` is `none`. -/
structure Sample where
  pidTgid : UInt64
  cpuId : UInt32
  comm : Option (Vector UInt8 taskCommLen)
  kstack : Walk
  ustack : Walk

def Sample.pid (sample : Sample) : UInt32 := (sample.pidTgid >>> 32).toUInt32

def addrBytes (addrs : List Address) : List UInt8 := addrs.flatMap (fun a => (longBytes a).toList)

/-- The helper clears the name when it fails. -/
def commStores : Option (Vector UInt8 taskCommLen) → List Store
  | some comm => [⟨8, comm.toList⟩]
  | none => [⟨8, List.replicate taskCommLen 0⟩, ⟨8, [0]⟩]

/-- The fields start at 0, 4, 8, 24, 28, 32 and 1056. -/
def profile (sample : Sample) : List Store :=
  [⟨0, (wordBytes sample.pid).toList⟩, ⟨4, (wordBytes sample.cpuId).toList⟩] ++
    commStores sample.comm ++
  [⟨32, addrBytes sample.kstack.addrs⟩,
    ⟨24, (wordBytes sample.kstack.ret.toUInt32).toList⟩,
    ⟨1056, addrBytes sample.ustack.addrs⟩,
    ⟨28, (wordBytes sample.ustack.ret.toUInt32).toList⟩]

def stackAt (record : List UInt8) (offset : Nat) : Vector Address maxStackDepth :=
  .ofFn (fun i : Fin maxStackDepth => long (field record (offset + 8 * i) 8))

/-- The record as both printers read it. -/
def decode (record : List UInt8) : Option StacktraceEvent :=
  let kstackSz := (word (field record 24 4)).toInt32
  let ustackSz := (word (field record 28 4)).toInt32
  if hk : StackSize kstackSz then
    if hu : StackSize ustackSz then
      some {
        pid := word (field record 0 4)
        cpuId := word (field record 4 4)
        comm := field record 8 taskCommLen
        kstackSz := kstackSz
        ustackSz := ustackSz
        kstack := stackAt record 32
        ustack := stackAt record 1056
        kstackSize := hk
        ustackSize := hu }
    else none
  else none

theorem length_addrBytes (addrs : List Address) : (addrBytes addrs).length = 8 * addrs.length := by
  induction addrs with
  | nil => rfl
  | cons a addrs ih =>
    rw [addrBytes, List.flatMap_cons, List.length_append, Vector.length_toList, List.length_cons]
    change 8 + (addrBytes addrs).length = _
    omega

theorem Walk.length_le (w : Walk) : w.addrs.length ≤ 128 := by
  obtain ⟨-, hNone⟩ | ⟨-, hDepth⟩ := w.sized
  · rw [hNone]
    exact Nat.zero_le _
  · exact hDepth

theorem Walk.stackSize (w : Walk) : StackSize w.ret := by
  obtain ⟨hNone, -⟩ | ⟨hSize, hDepth⟩ := w.sized
  · exact .inl hNone
  · refine .inr ⟨⟨w.addrs.length, hSize⟩, ?_⟩
    rw [Int32.le_iff_toInt_le, hSize]
    change 8 * (w.addrs.length : Int) ≤ 1024
    have hDepth' : w.addrs.length ≤ 128 := hDepth
    omega

theorem profile_within (sample : Sample) :
    ∀ s ∈ profile sample, s.Within sizeofStacktraceEvent := by
  have hk := sample.kstack.length_le
  have hu := sample.ustack.length_le
  have hSize : sizeofStacktraceEvent = 2080 := rfl
  intro s hs
  simp only [profile, List.mem_append, List.mem_cons, List.not_mem_nil, or_false] at hs
  rw [Store.Within, hSize]
  obtain ((rfl | rfl) | hComm) | rfl | rfl | rfl | rfl := hs
  · simp
  · simp
  · cases hName : sample.comm with
    | none =>
      rw [hName] at hComm
      simp only [commStores, List.mem_cons, List.not_mem_nil, or_false] at hComm
      obtain rfl | rfl := hComm
      · rw [List.length_replicate]
        decide
      · decide
    | some comm =>
      rw [hName] at hComm
      obtain rfl := List.mem_singleton.mp hComm
      dsimp only
      rw [Vector.length_toList]
      decide
  · dsimp only
    rw [length_addrBytes]
    omega
  · simp
  · dsimp only
    rw [length_addrBytes]
    omega
  · simp

def padded (addrs : List Address) : Vector Address maxStackDepth :=
  .ofFn (fun i : Fin maxStackDepth => addrs.getD i 0)

/-- The event of a sample in a cleared record. -/
def Sample.event (sample : Sample) : StacktraceEvent where
  pid := sample.pid
  cpuId := sample.cpuId
  comm := sample.comm.getD (.replicate taskCommLen 0)
  kstackSz := sample.kstack.ret
  ustackSz := sample.ustack.ret
  kstack := padded sample.kstack.addrs
  ustack := padded sample.ustack.addrs
  kstackSize := sample.kstack.stackSize
  ustackSize := sample.ustack.stackSize

theorem field_append_right (u rest : List UInt8) (offset n : Nat) :
    field (u ++ rest) (u.length + offset) n = field rest offset n := by
  apply Vector.ext
  intro i hi
  rw [getElem_field, getElem_field, Nat.add_assoc, List.getD_append_right _ _ _ _ (by omega),
    Nat.add_sub_cancel_left]

theorem field_append_left {n : Nat} (v : Vector UInt8 n) (rest : List UInt8) :
    field (v.toList ++ rest) 0 n = v := by
  apply Vector.ext
  intro i hi
  have hList : i < v.toList.length := by rwa [Vector.length_toList]
  rw [getElem_field, Nat.zero_add, List.getD_append _ _ _ _ hList, List.getD_eq_getElem _ _ hList,
    Vector.getElem_toList]

theorem field_addrBytes {addrs : List Address} {i : Nat} (hi : i < addrs.length) :
    field (addrBytes addrs) (8 * i) 8 = longBytes addrs[i] := by
  induction addrs generalizing i with
  | nil => cases hi
  | cons a addrs ih =>
    have hCons : addrBytes (a :: addrs) = (longBytes a).toList ++ addrBytes addrs :=
      List.flatMap_cons
    rw [hCons]
    cases i with
    | zero => exact field_append_left (longBytes a) _
    | succ i =>
      have hOffset : 8 * (i + 1) = (longBytes a).toList.length + 8 * i := by
        rw [Vector.length_toList]
        omega
      rw [hOffset, field_append_right, ih (Nat.lt_of_succ_lt_succ hi), List.getElem_cons_succ]

theorem getElem_stackAt {record : List UInt8} {offset i : Nat} (hi : i < maxStackDepth) :
    (stackAt record offset)[i] = long (field record (offset + 8 * i) 8) := by
  rw [stackAt, Vector.getElem_ofFn]

theorem getElem_padded {addrs : List Address} {i : Nat} (hi : i < maxStackDepth) :
    (padded addrs)[i] = addrs.getD i 0 := by
  rw [padded, Vector.getElem_ofFn]

section Decoding

variable {stale : List UInt8}

/-- The second store of a failed read clears what is clear. -/
theorem fill_commStores (comm : Option (Vector UInt8 taskCommLen)) (record : List UInt8) :
    Store.fill (commStores comm) record =
      (Store.mk 8 (comm.getD (.replicate taskCommLen 0)).toList).apply record := by
  cases comm with
  | some comm => rfl
  | none =>
    apply List.ext_getElem?
    intro i
    change ((Store.mk 8 [0]).apply ((Store.mk 8 (List.replicate 16 0)).apply record))[i]? = _
    obtain hIn | hOut := Nat.lt_or_ge i record.length
    · rw [Store.getElem?_apply (by rwa [Store.length_apply]), Store.getD_apply hIn,
        Store.getElem?_apply hIn]
      dsimp only
      obtain hBefore | hFirst | hBehind := Nat.lt_trichotomy i 8
      · rw [if_neg (by omega), if_neg (by omega), if_neg (by omega)]
      · rw [hFirst]
        rfl
      · have hRest : [(0 : UInt8)].length ≤ i - 8 := by
          rw [List.length_singleton]
          omega
        rw [if_pos (by omega), if_pos (by omega), if_pos (by omega),
          List.getD_eq_default _ _ hRest]
        rfl
    · rw [List.getElem?_eq_none (by rwa [Store.length_apply, Store.length_apply]),
        List.getElem?_eq_none (by rwa [Store.length_apply])]

theorem fill_profile (sample : Sample) (record : List UInt8) :
    Store.fill (profile sample) record =
      Store.fill [
        ⟨0, (wordBytes sample.pid).toList⟩,
        ⟨4, (wordBytes sample.cpuId).toList⟩,
        ⟨8, (sample.comm.getD (.replicate taskCommLen 0)).toList⟩,
        ⟨32, addrBytes sample.kstack.addrs⟩,
        ⟨24, (wordBytes sample.kstack.ret.toUInt32).toList⟩,
        ⟨1056, addrBytes sample.ustack.addrs⟩,
        ⟨28, (wordBytes sample.ustack.ret.toUInt32).toList⟩] record := by
  have hAppend : ∀ (first second : List Store) (r : List UInt8),
      Store.fill (first ++ second) r = Store.fill second (Store.fill first r) :=
    fun _ _ _ => List.foldl_append
  rw [profile, hAppend, hAppend, fill_commStores]
  rfl

/-- All but the ends of the stacks. -/
theorem fields_fill (sample : Sample) (hLen : stale.length = sizeofStacktraceEvent) :
    let record := Store.fill (profile sample) stale
    word (field record 0 4) = sample.pid ∧ word (field record 4 4) = sample.cpuId ∧
      field record 8 taskCommLen = sample.comm.getD (.replicate taskCommLen 0) ∧
      (word (field record 24 4)).toInt32 = sample.kstack.ret ∧
      (word (field record 28 4)).toInt32 = sample.ustack.ret := by
  have hSize : stale.length = 2080 := hLen
  have hk := sample.kstack.length_le
  have hu := sample.ustack.length_le
  intro record
  have hRecord : record = _ := fill_profile sample stale
  rw [hRecord]
  simp (disch := (simp only [Store.length_apply, hSize, Vector.length_toList, length_addrBytes,
      taskCommLen]; omega)) only
    [Store.fill, List.foldl_cons, List.foldl_nil, field_apply_other, field_apply_own,
      word_wordBytes, Int32.toInt32_toUInt32, and_self]

theorem stackAt_fill (sample : Sample) (hLen : stale.length = sizeofStacktraceEvent) :
    let record := Store.fill (profile sample) stale
    (∀ i < sample.kstack.addrs.length,
      long (field record (32 + 8 * i) 8) = sample.kstack.addrs.getD i 0) ∧
    (∀ i < sample.ustack.addrs.length,
      long (field record (1056 + 8 * i) 8) = sample.ustack.addrs.getD i 0) := by
  have hSize : stale.length = 2080 := hLen
  have hk := sample.kstack.length_le
  have hu := sample.ustack.length_le
  intro record
  have hRecord : record = _ := fill_profile sample stale
  rw [hRecord]
  constructor
  · intro i hi
    simp (disch := (simp only [Store.length_apply, hSize, Vector.length_toList, length_addrBytes,
        taskCommLen]; omega)) only
      [Store.fill, List.foldl_cons, List.foldl_nil, field_apply_other, field_apply_within]
    rw [Nat.add_sub_cancel_left, field_addrBytes hi, long_longBytes, List.getD_eq_getElem _ _ hi]
  · intro i hi
    simp (disch := (simp only [Store.length_apply, hSize, Vector.length_toList, length_addrBytes,
        taskCommLen]; omega)) only
      [Store.fill, List.foldl_cons, List.foldl_nil, field_apply_other, field_apply_within]
    rw [Nat.add_sub_cancel_left, field_addrBytes hi, long_longBytes, List.getD_eq_getElem _ _ hi]

/-- The stack of a record up to the size that is stored with it. -/
theorem addresses_stackAt (w : Walk) {record : List UInt8} {offset : Nat}
    (h : ∀ i < w.addrs.length, long (field record (offset + 8 * i) 8) = w.addrs.getD i 0) :
    addresses (stackAt record offset) w.ret = addresses (padded w.addrs) w.ret := by
  have hCount : w.ret.toInt.toNat / 8 = w.addrs.length := by
    obtain ⟨hNone, hEmpty⟩ | ⟨hSize, -⟩ := w.sized
    · have hToInt : w.ret.toInt ≤ 0 := Int32.le_iff_toInt_le.mp hNone
      rw [hEmpty, List.length_nil]
      omega
    · rw [hSize]
      omega
  have hDepth := w.length_le
  rw [addresses, addresses, hCount]
  apply List.ext_getElem
  · simp only [List.length_take, Vector.length_toList]
  · intro i hi hi'
    have hAddr : i < w.addrs.length := (List.length_take_le _ _).trans_lt' hi
    have hBound : i < maxStackDepth := hAddr.trans_le hDepth
    rw [List.getElem_take, List.getElem_take, Vector.getElem_toList, Vector.getElem_toList,
      getElem_stackAt hBound, getElem_padded hBound, h i hAddr]

end Decoding

/-- Two events that no printer tells apart. -/
structure Alike (e e' : StacktraceEvent) : Prop where
  pid : e.pid = e'.pid
  cpuId : e.cpuId = e'.cpuId
  comm : e.comm = e'.comm
  kstackSz : e.kstackSz = e'.kstackSz
  ustackSz : e.ustackSz = e'.ustackSz
  kernel : addresses e.kstack e.kstackSz = addresses e'.kstack e'.kstackSz
  user : addresses e.ustack e.ustackSz = addresses e'.ustack e'.ustackSz

section Alike

variable {e e' : StacktraceEvent}

theorem Alike.c_eventHandler (h : Alike e e') (symbolizer : Symbolizer) (size : Nat) :
    C.eventHandler symbolizer e size = C.eventHandler symbolizer e' size := by
  rw [C.eventHandler, C.eventHandler, h.kernel, h.user]
  simp only [C.commText, h.pid, h.cpuId, h.comm, h.kstackSz, h.ustackSz]

theorem Alike.rust_eventHandler (h : Alike e e') (symbolizer : Symbolizer) (size : Nat) :
    Rust.eventHandler symbolizer e size = Rust.eventHandler symbolizer e' size := by
  rw [Rust.eventHandler, Rust.eventHandler, h.kernel, h.user]
  simp only [Rust.commText, h.pid, h.cpuId, h.comm, h.kstackSz, h.ustackSz]

end Alike

theorem decode_eq {record : List UInt8} (hk : StackSize (word (field record 24 4)).toInt32)
    (hu : StackSize (word (field record 28 4)).toInt32) :
    decode record = some {
      pid := word (field record 0 4)
      cpuId := word (field record 4 4)
      comm := field record 8 taskCommLen
      kstackSz := (word (field record 24 4)).toInt32
      ustackSz := (word (field record 28 4)).toInt32
      kstack := stackAt record 32
      ustack := stackAt record 1056
      kstackSize := hk
      ustackSize := hu } := by
  rw [decode, dif_pos hk, dif_pos hu]

theorem decode_fill (sample : Sample) {stale : List UInt8}
    (hLen : stale.length = sizeofStacktraceEvent) :
    ∃ event, decode (Store.fill (profile sample) stale) = some event ∧
      Alike event sample.event := by
  obtain ⟨hPid, hCpu, hComm, hKernel, hUser⟩ := fields_fill sample hLen
  obtain ⟨hKstack, hUstack⟩ := stackAt_fill sample hLen
  generalize Store.fill (profile sample) stale = record at *
  have hk : StackSize (word (field record 24 4)).toInt32 := by
    rw [hKernel]
    exact sample.kstack.stackSize
  have hu : StackSize (word (field record 28 4)).toInt32 := by
    rw [hUser]
    exact sample.ustack.stackSize
  refine ⟨_, decode_eq hk hu, hPid, hCpu, hComm, hKernel, hUser, ?_, ?_⟩
  · change addresses (stackAt record 32) (word (field record 24 4)).toInt32 = _
    rw [hKernel]
    exact addresses_stackAt sample.kstack hKstack
  · change addresses (stackAt record 1056) (word (field record 28 4)).toInt32 = _
    rw [hUser]
    exact addresses_stackAt sample.ustack hUstack

abbrev ringSize : Nat := 256 * 1024

/-- `header` is what the ring buffer writes in front of a record. -/
def layout (header : Nat → Bool → Vector UInt8 RingBuffer.headerLen) : RingQueue.Layout Sample where
  size := sizeofStacktraceEvent
  stores := profile
  within := profile_within
  header := header

/-- Both printers show the sample for the record. -/
def ShownAs (sample : Sample) (record : List UInt8) : Prop :=
  ∃ event, decode record = some event ∧ ∀ symbolizer,
    C.eventHandler symbolizer event record.length =
      C.eventHandler symbolizer sample.event sizeofStacktraceEvent ∧
    Rust.eventHandler symbolizer event record.length =
      Rust.eventHandler symbolizer sample.event sizeofStacktraceEvent

theorem shownAs_fill (sample : Sample) {stale : List UInt8}
    (hLen : stale.length = sizeofStacktraceEvent) :
    ShownAs sample (Store.fill (profile sample) stale) := by
  obtain ⟨event, hDecode, hAlike⟩ := decode_fill sample hLen
  refine ⟨event, hDecode, fun symbolizer => ?_⟩
  rw [Store.length_fill, hLen]
  exact ⟨hAlike.c_eventHandler symbolizer _, hAlike.rust_eventHandler symbolizer _⟩

/-- However the calls on the CPUs and the user side are mixed, the records come in the order of
their reservation, both printers show each as its own sample, and at most 125 wait. -/
theorem samples_shown (header : Nat → Bool → Vector UInt8 RingBuffer.headerLen)
    (acts : List (RingQueue.Act Sample)) :
    let q := RingQueue.run (layout header) (.zeroed ringSize) acts
    q.handed.length ≤ q.calls.length ∧ q.calls.length ≤ q.handed.length + 125 ∧
      List.Forall₂ ShownAs (q.calls.take q.handed.length) q.handed := by
  intro q
  have h : RingQueue.Sound (layout header) q :=
    RingQueue.sound_foldl _ (RingQueue.sound_init _ (.zeroed ringSize) rfl rfl) acts
  have hSize : RingBuffer.recordLen (layout header).size = 2088 := by
    have hSizeof : (layout header).size = sizeofStacktraceEvent := rfl
    rw [hSizeof]
    rfl
  have hOrder := h.order
  have hRoom : _ ≤ _ + 262144 := h.room
  have hCalls : q.calls.length = q.reservations.length := List.length_map _
  rw [h.producer, h.consumer, hSize] at hRoom
  refine ⟨by omega, by omega, h.forall₂_handed.imp ?_⟩
  rintro sample record ⟨stale, hStale, rfl⟩
  exact shownAs_fill sample hStale

end Ebacs.Profile
