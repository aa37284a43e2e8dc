import Mathlib.Data.List.Forall2
import Mathlib.Data.List.GetD
import Ebacs.Lib.RingBuffer
import Ebacs.Lib.Trace

/-! # A ring buffer with concurrent producers

Several producers fill records of one ring buffer at the same time. A producer
reserves a record, stores into it piece by piece and submits it. The consumer is
given the records in the order of their reservation, and waits at one that has not
been submitted. No order of these steps lets a record show the stores of another.
-/
namespace Ebacs.Lib
set_option autoImplicit false

/-- Bytes that a producer puts at an offset of its record. -/
structure Store where
  offset : Nat
  bytes : List UInt8

namespace Store

def apply (s : Store) (record : List UInt8) : List UInt8 :=
  record.mapIdx (fun i b => if s.offset ≤ i then s.bytes.getD (i - s.offset) b else b)

def Within (s : Store) (size : Nat) : Prop := s.offset + s.bytes.length ≤ size

instance (s : Store) (size : Nat) : Decidable (s.Within size) :=
  inferInstanceAs (Decidable (_ ≤ _))

def fill (stores : List Store) (record : List UInt8) : List UInt8 :=
  stores.foldl (fun record s => s.apply record) record

theorem length_apply (s : Store) (record : List UInt8) :
    (s.apply record).length = record.length := by
  rw [apply, List.length_mapIdx]

theorem length_fill (stores : List Store) (record : List UInt8) :
    (fill stores record).length = record.length := by
  induction stores generalizing record with
  | nil => rfl
  | cons s stores ih =>
    rw [fill, List.foldl_cons]
    exact (ih (s.apply record)).trans (s.length_apply record)

theorem fill_concat (stores : List Store) (s : Store) (record : List UInt8) :
    fill (stores ++ [s]) record = s.apply (fill stores record) := by
  rw [fill, List.foldl_append]
  rfl

theorem getElem?_apply {s : Store} {record : List UInt8} {i : Nat} (hi : i < record.length) :
    (s.apply record)[i]? =
      some (if s.offset ≤ i then s.bytes.getD (i - s.offset) (record.getD i 0)
        else record.getD i 0) := by
  rw [apply, List.getElem?_mapIdx, List.getElem?_eq_getElem hi, Option.map_some,
    List.getD_eq_getElem _ _ hi]

theorem getD_apply {s : Store} {record : List UInt8} {i : Nat} (hi : i < record.length) :
    (s.apply record).getD i 0 =
      if s.offset ≤ i then s.bytes.getD (i - s.offset) (record.getD i 0) else record.getD i 0 := by
  rw [List.getD_eq_getElem?_getD, getElem?_apply hi, Option.getD_some]

theorem drop_apply {s : Store} {record : List UInt8} (h : s.Within record.length) :
    (s.apply record).drop s.offset =
      s.bytes ++ record.drop (s.offset + s.bytes.length) := by
  have hEnd : s.offset + s.bytes.length ≤ record.length := h
  apply List.ext_getElem?
  intro i
  rw [List.getElem?_drop]
  obtain hIn | hOut := Nat.lt_or_ge (s.offset + i) record.length
  · rw [getElem?_apply hIn, if_pos (Nat.le_add_right _ _), Nat.add_sub_cancel_left]
    obtain hOwn | hRest := Nat.lt_or_ge i s.bytes.length
    · rw [List.getElem?_append_left hOwn, List.getD_eq_getElem _ _ hOwn,
        List.getElem?_eq_getElem hOwn]
    · have hIndex : s.offset + s.bytes.length + (i - s.bytes.length) = s.offset + i := by omega
      rw [List.getElem?_append_right hRest, List.getD_eq_default _ _ hRest, List.getElem?_drop,
        hIndex, List.getD_eq_getElem _ _ hIn, List.getElem?_eq_getElem hIn]
  · rw [List.getElem?_eq_none (by rwa [length_apply]), List.getElem?_eq_none]
    rw [List.length_append, List.length_drop]
    omega

end Store

/-- The `n` bytes of a record from an offset on. -/
def field (record : List UInt8) (offset n : Nat) : Vector UInt8 n :=
  .ofFn (fun i : Fin n => record.getD (offset + i) 0)

section Field

variable {record : List UInt8} {offset n : Nat}

theorem getElem_field {i : Nat} (hi : i < n) :
    (field record offset n)[i] = record.getD (offset + i) 0 := by
  rw [field, Vector.getElem_ofFn]

theorem field_congr {record' : List UInt8}
    (h : ∀ i < n, record'.getD (offset + i) 0 = record.getD (offset + i) 0) :
    field record' offset n = field record offset n :=
  congrArg Vector.ofFn (funext (fun i => h i i.isLt))

theorem field_apply_other {s : Store} (hEnd : offset + n ≤ record.length)
    (hApart : s.offset + s.bytes.length ≤ offset ∨ offset + n ≤ s.offset) :
    field (s.apply record) offset n = field record offset n := by
  apply field_congr
  intro i hi
  rw [Store.getD_apply (by omega)]
  split
  · exact List.getD_eq_default _ _ (by omega)
  · rfl

theorem field_apply_own (v : Vector UInt8 n) (hEnd : offset + n ≤ record.length) :
    field ((Store.mk offset v.toList).apply record) offset n = v := by
  apply Vector.ext
  intro i hi
  have hList : i < v.toList.length := by rwa [Vector.length_toList]
  have hIn : offset + i < record.length := by omega
  rw [getElem_field, Store.getD_apply hIn]
  dsimp only
  rw [if_pos (Nat.le_add_right _ _), Nat.add_sub_cancel_left, List.getD_eq_getElem _ _ hList,
    Vector.getElem_toList]

/-- A piece of what was stored. -/
theorem field_apply_within {s : Store} (hEnd : offset + n ≤ record.length) (hFrom : s.offset ≤ offset)
    (hTo : offset + n ≤ s.offset + s.bytes.length) :
    field (s.apply record) offset n = field s.bytes (offset - s.offset) n := by
  apply Vector.ext
  intro i hi
  have hIn : offset + i < record.length := by omega
  have hOwn : offset - s.offset + i < s.bytes.length := by omega
  have hIndex : offset + i - s.offset = offset - s.offset + i := by omega
  rw [getElem_field, getElem_field, Store.getD_apply hIn, if_pos (by omega), hIndex,
    List.getD_eq_getElem _ _ hOwn, List.getD_eq_getElem _ _ hOwn]

theorem drop_eq_field_append (hEnd : offset + n ≤ record.length) :
    record.drop offset = (field record offset n).toList ++ record.drop (offset + n) := by
  have hField : (field record offset n).toList = (record.drop offset).take n := by
    apply List.ext_getElem
    · rw [Vector.length_toList, List.length_take, List.length_drop]
      omega
    · intro i hi _
      rw [Vector.length_toList] at hi
      have hIn : offset + i < record.length := by omega
      rw [Vector.getElem_toList, getElem_field, List.getElem_take, List.getElem_drop,
        List.getD_eq_getElem _ _ hIn]
  rw [hField, ← List.drop_drop, List.take_append_drop]

end Field

namespace RingBuffer

variable {capacity : Nat}

def record (rb : RingBuffer capacity) (size pos : Nat) : List UInt8 :=
  (List.range size).map (fun k => rb.byteAt (pos + headerLen + k))

/-- How far behind `p` the byte of `p + k` comes up in the area. -/
theorem turn_eq (p : Nat) {k : Nat} (hk : k < capacity) :
    ((p + k) % capacity + (capacity - p % capacity)) % capacity = k := by
  have hLt : p % capacity < capacity := Nat.mod_lt p (by omega)
  rw [Nat.add_mod p k, Nat.mod_eq_of_lt hk]
  obtain hWithin | hWraps := Nat.lt_or_ge (p % capacity + k) capacity
  · have hSum : p % capacity + k + (capacity - p % capacity) = k + capacity := by omega
    rw [Nat.mod_eq_of_lt hWithin, hSum, Nat.add_mod_right, Nat.mod_eq_of_lt hk]
  · have hSum : p % capacity + k - capacity + (capacity - p % capacity) = k := by omega
    have hRest : p % capacity + k - capacity < capacity := by omega
    rw [Nat.mod_eq_sub_mod hWraps, Nat.mod_eq_of_lt hRest, hSum, Nat.mod_eq_of_lt hk]

/-- Within one turn of the buffer a write reaches its own positions and no others. -/
theorem byteAt_write_of_turn (rb : RingBuffer capacity) {bytes : List UInt8} {lo p q : Nat}
    (hp : lo ≤ p) (hEnd : p + bytes.length ≤ lo + capacity) (hq : lo ≤ q)
    (hLast : q < lo + capacity) :
    (rb.write p bytes).byteAt q =
      if p ≤ q then bytes.getD (q - p) (rb.byteAt q) else rb.byteAt q := by
  change bytes.getD ((q % capacity + (capacity - p % capacity)) % capacity) (rb.byteAt q) = _
  split
  · rename_i hBehind
    obtain ⟨k, rfl⟩ := Nat.exists_eq_add_of_le hBehind
    rw [turn_eq p (by omega), Nat.add_sub_cancel_left]
  · rename_i hBefore
    -- `q` comes up again behind the last of the written bytes
    obtain ⟨k, hk⟩ := Nat.exists_eq_add_of_le (show p ≤ q + capacity by omega)
    obtain hFull | hLess := Nat.lt_or_ge k capacity
    · rw [← Nat.add_mod_right q capacity, hk, turn_eq p hFull]
      exact List.getD_eq_default _ _ (by omega)
    · omega

theorem length_record (rb : RingBuffer capacity) (size pos : Nat) :
    (rb.record size pos).length = size := by
  rw [record, List.length_map, List.length_range]

theorem getElem?_record (rb : RingBuffer capacity) {size k : Nat} (pos : Nat) (hk : k < size) :
    (rb.record size pos)[k]? = some (rb.byteAt (pos + headerLen + k)) := by
  rw [record, List.getElem?_map, List.getElem?_range hk, Option.map_some]

theorem headerLen_add_le (size : Nat) : headerLen + size ≤ recordLen size := by
  rw [recordLen]
  omega

section Disjoint

variable {rb : RingBuffer capacity} {size lo pos : Nat}

theorem record_congr {rb' : RingBuffer capacity}
    (h : ∀ k < size, rb'.byteAt (pos + headerLen + k) = rb.byteAt (pos + headerLen + k)) :
    rb'.record size pos = rb.record size pos := by
  refine List.map_congr_left (fun k hk => ?_)
  exact h k (List.mem_range.mp hk)

/-- A write that stays inside another record leaves this one alone. -/
theorem record_write_other {p : Nat} {bytes : List UInt8} (hLo : lo ≤ pos)
    (hHi : pos + recordLen size ≤ lo + capacity) (hp : lo ≤ p)
    (hEnd : p + bytes.length ≤ lo + capacity)
    (hApart : p + bytes.length ≤ pos + headerLen ∨ pos + recordLen size ≤ p) :
    (rb.write p bytes).record size pos = rb.record size pos := by
  have hLen := headerLen_add_le size
  apply record_congr
  intro k hk
  rw [byteAt_write_of_turn rb hp hEnd (by omega) (by omega)]
  split
  · rename_i hBehind
    exact List.getD_eq_default _ _ (by omega)
  · rfl

theorem record_write_own {s : Store} (hLo : lo ≤ pos)
    (hHi : pos + recordLen size ≤ lo + capacity) (hWithin : s.Within size) :
    (rb.write (pos + headerLen + s.offset) s.bytes).record size pos =
      s.apply (rb.record size pos) := by
  have hLen := headerLen_add_le size
  have hEnd : s.offset + s.bytes.length ≤ size := hWithin
  apply List.ext_getElem?
  intro k
  obtain hk | hk := Nat.lt_or_ge k size
  · have hOld : (rb.record size pos).getD k 0 = rb.byteAt (pos + headerLen + k) := by
      rw [List.getD_eq_getElem?_getD, getElem?_record _ pos hk, Option.getD_some]
    rw [getElem?_record _ pos hk, Store.getElem?_apply (by rwa [length_record]), hOld,
      byteAt_write_of_turn rb (by omega) (by omega) (show lo ≤ _ by omega) (by omega)]
    have hOffset : pos + headerLen + s.offset ≤ pos + headerLen + k ↔ s.offset ≤ k :=
      Nat.add_le_add_iff_left
    have hRest : pos + headerLen + k - (pos + headerLen + s.offset) = k - s.offset :=
      Nat.add_sub_add_left _ _ _
    simp only [hOffset, hRest]
  · rw [List.getElem?_eq_none (by rwa [length_record]),
      List.getElem?_eq_none (by rwa [Store.length_apply, length_record])]

end Disjoint

end RingBuffer

structure Reservation (α : Type) where
  call : α
  pos : Nat
  /-- The stores that the producer has not made yet. -/
  todo : List Store
  busy : Bool

/-- The buffer with everything that was reserved in it and handed over since the start. -/
structure RingQueue (α : Type) (capacity : Nat) where
  rb : RingBuffer capacity
  reservations : List (Reservation α)
  handed : List (List UInt8)

namespace RingQueue

variable {α : Type} {capacity : Nat}

def init (rb : RingBuffer capacity) : RingQueue α capacity := ⟨rb, [], []⟩

inductive Act (α : Type) where
  | reserve (call : α)
  /-- The next store into the record of number `i`. -/
  | store (i : Nat)
  | submit (i : Nat)
  | consume

/-- A producer `call` stores `stores call` into its record of `size` bytes. `header` is what the
buffer keeps in front of a record, while it is busy and after. -/
structure Layout (α : Type) where
  size : Nat
  stores : α → List Store
  within : ∀ call, ∀ s ∈ stores call, s.Within size
  header : Nat → Bool → Vector UInt8 RingBuffer.headerLen

variable (layout : Layout α)

def reserve (q : RingQueue α capacity) (call : α) : RingQueue α capacity :=
  let pos := q.rb.producerPos
  { q with
    rb := { q.rb.write pos (layout.header pos true).toList with
      producerPos := pos + RingBuffer.recordLen layout.size }
    reservations := q.reservations ++ [⟨call, pos, layout.stores call, true⟩] }

def step (q : RingQueue α capacity) : Act α → RingQueue α capacity
  | .reserve call => if q.rb.HasRoom layout.size then q.reserve layout call else q
  | .store i =>
    match q.reservations[i]? with
    | some ⟨call, pos, s :: todo, true⟩ =>
      { q with
        rb := q.rb.write (pos + RingBuffer.headerLen + s.offset) s.bytes
        reservations := q.reservations.set i ⟨call, pos, todo, true⟩ }
    | _ => q
  | .submit i =>
    match q.reservations[i]? with
    | some ⟨call, pos, [], true⟩ =>
      { q with
        rb := q.rb.write pos (layout.header pos false).toList
        reservations := q.reservations.set i ⟨call, pos, [], false⟩ }
    | _ => q
  | .consume =>
    match q.reservations[q.handed.length]? with
    | some ⟨_, _, _, false⟩ =>
      { q with
        rb := q.rb.release layout.size
        handed := q.handed ++ [q.rb.record layout.size q.rb.consumerPos] }
    | _ => q

def run (rb : RingBuffer capacity) (acts : List (Act α)) : RingQueue α capacity :=
  acts.foldl (step layout) (init rb)

def calls (q : RingQueue α capacity) : List α := q.reservations.map Reservation.call

section Calls

variable {layout} {q : RingQueue α capacity}

theorem calls_set {i : Nat} {r r' : Reservation α} (hi : q.reservations[i]? = some r)
    (hCall : r'.call = r.call) : (q.reservations.set i r').map Reservation.call = q.calls := by
  apply List.ext_getElem?
  intro j
  rw [calls, List.getElem?_map, List.getElem?_map]
  obtain rfl | hOther := eq_or_ne j i
  · rw [List.getElem?_set_self (List.getElem?_eq_some_iff.mp hi).1, hi, Option.map_some,
      Option.map_some, hCall]
  · rw [List.getElem?_set_ne hOther.symm]

theorem calls_reserve (hRoom : q.rb.HasRoom layout.size) (call : α) :
    (step layout q (.reserve call)).calls = q.calls ++ [call] := by
  rw [step, if_pos hRoom, calls, reserve, List.map_append]
  rfl

theorem calls_store (i : Nat) : (step layout q (.store i)).calls = q.calls := by
  rw [step]
  split
  · rename_i hi
    exact calls_set hi rfl
  · rfl

theorem calls_submit (i : Nat) : (step layout q (.submit i)).calls = q.calls := by
  rw [step]
  split
  · rename_i hi
    exact calls_set hi rfl
  · rfl

theorem calls_consume : (step layout q .consume).calls = q.calls := by
  rw [step]
  split <;> rfl

theorem handed_store (i : Nat) : (step layout q (.store i)).handed = q.handed := by
  rw [step]
  split <;> rfl

theorem handed_submit (i : Nat) : (step layout q (.submit i)).handed = q.handed := by
  rw [step]
  split <;> rfl

/-- The oldest record is handed over unless its producer still holds it. -/
theorem consume_cases (q : RingQueue α capacity) :
    (∃ r, q.reservations[q.handed.length]? = some r ∧ r.busy = false ∧
      step layout q .consume = { q with
        rb := q.rb.release layout.size
        handed := q.handed ++ [q.rb.record layout.size q.rb.consumerPos] }) ∨
    ((∀ r, q.reservations[q.handed.length]? = some r → r.busy = true) ∧
      step layout q .consume = q) := by
  rw [step]
  split
  · rename_i hNext
    exact .inl ⟨_, hNext, rfl, rfl⟩
  · rename_i hNone
    refine .inr ⟨fun r hNext => ?_, rfl⟩
    obtain ⟨call, pos, todo, busy⟩ := r
    cases busy with
    | true => rfl
    | false => exact absurd hNext (hNone call pos todo)

theorem busy_store {i j : Nat} {r : Reservation α}
    (hj : (step layout q (.store i)).reservations[j]? = some r) :
    ∃ r', q.reservations[j]? = some r' ∧ r'.busy = r.busy := by
  rw [step] at hj
  split at hj
  · rename_i hi
    obtain rfl | hOther := eq_or_ne j i
    · rw [List.getElem?_set_self (List.getElem?_eq_some_iff.mp hi).1] at hj
      rw [← Option.some.inj hj]
      exact ⟨_, hi, rfl⟩
    · rw [List.getElem?_set_ne hOther.symm] at hj
      exact ⟨r, hj, rfl⟩
  · exact ⟨r, hj, rfl⟩

theorem busy_submit {i j : Nat} {r : Reservation α}
    (hj : (step layout q (.submit i)).reservations[j]? = some r) (hBusy : r.busy = true) :
    q.reservations[j]? = some r ∧ (j = i → r.todo ≠ []) := by
  rw [step] at hj
  split at hj
  · rename_i hi
    obtain rfl | hOther := eq_or_ne j i
    · rw [List.getElem?_set_self (List.getElem?_eq_some_iff.mp hi).1] at hj
      rw [← Option.some.inj hj] at hBusy
      cases hBusy
    · rw [List.getElem?_set_ne hOther.symm] at hj
      exact ⟨hj, fun hSame => absurd hSame hOther⟩
  · rename_i hNone
    refine ⟨hj, ?_⟩
    rintro rfl hDone
    obtain ⟨call, pos, todo, busy⟩ := r
    obtain rfl : todo = [] := hDone
    obtain rfl : busy = true := hBusy
    exact hNone call pos hj

end Calls

/-- The record shows the stores that were made, over what lay there before. -/
def Shows (r : Reservation α) (bytes : List UInt8) : Prop :=
  ∃ made stale, layout.stores r.call = made ++ r.todo ∧ stale.length = layout.size ∧
    bytes = Store.fill made stale

structure Sound (q : RingQueue α capacity) : Prop where
  producer : q.rb.producerPos = RingBuffer.recordLen layout.size * q.reservations.length
  consumer : q.rb.consumerPos = RingBuffer.recordLen layout.size * q.handed.length
  order : q.handed.length ≤ q.reservations.length
  room : q.rb.producerPos ≤ q.rb.consumerPos + capacity
  placed : ∀ i r, q.reservations[i]? = some r → r.pos = RingBuffer.recordLen layout.size * i
  finished : ∀ (i : Nat) (r : Reservation α), q.reservations[i]? = some r → r.busy = false → r.todo = []
  released : ∀ i r, i < q.handed.length → q.reservations[i]? = some r → r.busy = false
  live : ∀ i r, q.handed.length ≤ i → q.reservations[i]? = some r →
    Shows layout r (q.rb.record layout.size r.pos)
  shown : ∀ (i : Nat) (r : Reservation α) (bytes : List UInt8), q.handed[i]? = some bytes → q.reservations[i]? = some r →
    Shows layout r bytes

section Steps

variable {layout} {q : RingQueue α capacity} {i : Nat} {r : Reservation α}

theorem Sound.lt_of_some (hi : q.reservations[i]? = some r) : i < q.reservations.length :=
  (List.getElem?_eq_some_iff.mp hi).1

/-- A live record lies between the consumer and the end of its turn. -/
theorem Sound.between (h : Sound layout q) (hLive : q.handed.length ≤ i)
    (hi : q.reservations[i]? = some r) :
    q.rb.consumerPos ≤ r.pos ∧
      r.pos + RingBuffer.recordLen layout.size ≤ q.rb.consumerPos + capacity := by
  have hFrom := Nat.mul_le_mul_left (RingBuffer.recordLen layout.size) hLive
  have hTo := Nat.mul_le_mul_left (RingBuffer.recordLen layout.size)
    (Nat.succ_le_of_lt (lt_of_some hi))
  have hRoom := h.room
  rw [Nat.mul_succ, ← h.producer] at hTo
  rw [h.placed i r hi]
  constructor
  · rw [h.consumer]
    exact hFrom
  · exact hTo.trans hRoom

/-- What is written inside one live record does not show in another. -/
theorem Sound.record_write (h : Sound layout q) (hLive : q.handed.length ≤ i)
    (hi : q.reservations[i]? = some r) {j p : Nat} {bytes : List UInt8} (hOther : j ≠ i)
    (hFrom : RingBuffer.recordLen layout.size * j ≤ p)
    (hTo : p + bytes.length ≤ RingBuffer.recordLen layout.size * (j + 1))
    (hLo : q.rb.consumerPos ≤ p) (hHi : p + bytes.length ≤ q.rb.consumerPos + capacity) :
    (q.rb.write p bytes).record layout.size r.pos = q.rb.record layout.size r.pos := by
  obtain ⟨hLo', hHi'⟩ := h.between hLive hi
  refine RingBuffer.record_write_other hLo' hHi' hLo hHi ?_
  rw [h.placed i r hi]
  obtain hBefore | hAfter := Nat.lt_or_gt_of_ne hOther
  · left
    have hMul := Nat.mul_le_mul_left (RingBuffer.recordLen layout.size)
      (Nat.succ_le_of_lt hBefore)
    exact (hTo.trans hMul).trans (Nat.le_add_right _ _)
  · right
    have hMul := Nat.mul_le_mul_left (RingBuffer.recordLen layout.size)
      (Nat.succ_le_of_lt hAfter)
    rw [Nat.mul_succ] at hMul
    exact hMul.trans hFrom

theorem Sound.reserve (h : Sound layout q) (hRoom : q.rb.HasRoom layout.size) (call : α) :
    Sound layout (q.reserve layout call) := by
  have hOrder := h.order
  have hLen := RingBuffer.headerLen_add_le layout.size
  have hEnd : q.rb.producerPos + RingBuffer.recordLen layout.size ≤
      q.rb.consumerPos + capacity := by
    have hMin : _ ≤ capacity - 1 := hRoom
    omega
  have hAhead : q.rb.consumerPos ≤ q.rb.producerPos := by
    rw [h.consumer, h.producer]
    exact Nat.mul_le_mul_left _ hOrder
  have hHeader : (layout.header q.rb.producerPos true).toList.length = RingBuffer.headerLen :=
    Vector.length_toList
  have hNew : ∀ i r, (q.reservations ++ [⟨call, q.rb.producerPos, layout.stores call, true⟩])[i]? =
      some r → q.reservations[i]? = some r ∨
        i = q.reservations.length ∧ r = ⟨call, q.rb.producerPos, layout.stores call, true⟩ := by
    intro i r hi
    obtain hLt | hGe := Nat.lt_or_ge i q.reservations.length
    · rw [List.getElem?_append_left hLt] at hi
      exact .inl hi
    · have hLast : i = q.reservations.length := by
        have hBound := (List.getElem?_eq_some_iff.mp hi).1
        rw [List.length_append, List.length_singleton] at hBound
        omega
      rw [hLast, List.getElem?_concat_length] at hi
      exact .inr ⟨hLast, (Option.some.inj hi).symm⟩
  refine ⟨?_, h.consumer, ?_, hEnd, fun i r hi => ?_, fun i r hi hFree => ?_,
    fun i r hHanded hi => ?_, fun i r hLive hi => ?_, fun i r bytes hBytes hi => ?_⟩
  · simp only [RingQueue.reserve, List.length_append, List.length_singleton]
    rw [Nat.mul_succ, h.producer]
  · simp only [RingQueue.reserve, List.length_append, List.length_singleton]
    exact Nat.le_succ_of_le hOrder
  · obtain hOld | ⟨rfl, rfl⟩ := hNew i r hi
    · exact h.placed i r hOld
    · exact h.producer
  · obtain hOld | ⟨rfl, rfl⟩ := hNew i r hi
    · exact h.finished i r hOld hFree
    · cases hFree
  · obtain hOld | ⟨rfl, rfl⟩ := hNew i r hi
    · exact h.released i r hHanded hOld
    · exact absurd hHanded (Nat.not_lt_of_le hOrder)
  · obtain hOld | ⟨rfl, rfl⟩ := hNew i r hi
    · have hBefore := Sound.lt_of_some hOld
      have hSame : (q.rb.write q.rb.producerPos
          (layout.header q.rb.producerPos true).toList).record layout.size r.pos =
            q.rb.record layout.size r.pos := by
        refine h.record_write hLive hOld (Nat.ne_of_gt hBefore) (Nat.le_of_eq h.producer.symm) ?_
          hAhead (by omega)
        rw [Nat.mul_succ, ← h.producer]
        omega
      change Shows layout r ((q.rb.write _ _).record layout.size r.pos)
      rw [hSame]
      exact h.live i r hLive hOld
    · exact ⟨[], _, rfl, RingBuffer.length_record _ _ _, rfl⟩
  · have hBefore : i < q.reservations.length :=
      Nat.lt_of_lt_of_le (List.getElem?_eq_some_iff.mp hBytes).1 hOrder
    obtain hOld | ⟨rfl, -⟩ := hNew i r hi
    · exact h.shown i r bytes hBytes hOld
    · exact absurd hBefore (Nat.lt_irrefl _)

theorem Sound.live_of_busy (h : Sound layout q) (hi : q.reservations[i]? = some r)
    (hBusy : r.busy = true) : q.handed.length ≤ i := by
  apply Nat.le_of_not_lt
  intro hHanded
  rw [h.released i r hHanded hi] at hBusy
  cases hBusy

/-- What the producer of a busy record may do to it. -/
theorem Sound.rewrite (h : Sound layout q) (hi : q.reservations[i]? = some r)
    (hBusy : r.busy = true) {r' : Reservation α} {p : Nat} {bytes : List UInt8}
    (hPos : r'.pos = r.pos) (hFinished : r'.busy = false → r'.todo = []) (hFrom : r.pos ≤ p)
    (hTo : p + bytes.length ≤ r.pos + RingBuffer.recordLen layout.size)
    (hShows : Shows layout r' ((q.rb.write p bytes).record layout.size r.pos)) :
    Sound layout { q with
      rb := q.rb.write p bytes
      reservations := q.reservations.set i r' } := by
  have hLive := h.live_of_busy hi hBusy
  have hIndex := Sound.lt_of_some hi
  have hSet : ∀ j r₁, (q.reservations.set i r')[j]? = some r₁ →
      j = i ∧ r₁ = r' ∨ j ≠ i ∧ q.reservations[j]? = some r₁ := by
    intro j r₁ hj
    obtain rfl | hOther := eq_or_ne j i
    · rw [List.getElem?_set_self hIndex] at hj
      exact .inl ⟨rfl, (Option.some.inj hj).symm⟩
    · rw [List.getElem?_set_ne hOther.symm] at hj
      exact .inr ⟨hOther, hj⟩
  obtain ⟨hLo, hHi⟩ := h.between hLive hi
  have hPlaced := h.placed i r hi
  refine ⟨?_, h.consumer, ?_, h.room, fun j r₁ hj => ?_, fun j r₁ hj hFree => ?_,
    fun j r₁ hHanded hj => ?_, fun j r₁ hLive₁ hj => ?_, fun j r₁ shown hShown hj => ?_⟩
  · rw [List.length_set]
    exact h.producer
  · rw [List.length_set]
    exact h.order
  · obtain ⟨rfl, rfl⟩ | ⟨-, hOld⟩ := hSet j r₁ hj
    · exact hPos.trans hPlaced
    · exact h.placed j r₁ hOld
  · obtain ⟨rfl, rfl⟩ | ⟨-, hOld⟩ := hSet j r₁ hj
    · exact hFinished hFree
    · exact h.finished j r₁ hOld hFree
  · obtain ⟨rfl, rfl⟩ | ⟨-, hOld⟩ := hSet j r₁ hj
    · exact absurd hHanded (Nat.not_lt_of_le hLive)
    · exact h.released j r₁ hHanded hOld
  · obtain ⟨rfl, rfl⟩ | ⟨hOther, hOld⟩ := hSet j r₁ hj
    · rw [hPos]
      exact hShows
    · rw [h.record_write hLive₁ hOld hOther.symm (hPlaced ▸ hFrom)
        (by rw [Nat.mul_succ, ← hPlaced]; exact hTo) (hLo.trans hFrom) (hTo.trans hHi)]
      exact h.live j r₁ hLive₁ hOld
  · obtain ⟨rfl, rfl⟩ | ⟨-, hOld⟩ := hSet j r₁ hj
    · exact absurd (List.getElem?_eq_some_iff.mp hShown).1 (Nat.not_lt_of_le hLive)
    · exact h.shown j r₁ shown hShown hOld

theorem Sound.store (h : Sound layout q) {call : α} {pos : Nat} {s : Store} {todo : List Store}
    (hi : q.reservations[i]? = some ⟨call, pos, s :: todo, true⟩)
    (hLive : q.handed.length ≤ i) :
    Sound layout { q with
      rb := q.rb.write (pos + RingBuffer.headerLen + s.offset) s.bytes
      reservations := q.reservations.set i ⟨call, pos, todo, true⟩ } := by
  obtain ⟨made, stale, hStores, hStale, hBytes⟩ := h.live i _ hLive hi
  obtain ⟨hLo, hHi⟩ := h.between hLive hi
  change layout.stores call = made ++ s :: todo at hStores
  have hWithin : s.Within layout.size := by
    refine layout.within call s ?_
    rw [hStores]
    exact List.mem_append_right _ List.mem_cons_self
  have hEnd : s.offset + s.bytes.length ≤ layout.size := hWithin
  have hLen := RingBuffer.headerLen_add_le layout.size
  refine h.rewrite hi rfl rfl nofun (by dsimp only; omega) (by dsimp only; omega) ?_
  refine ⟨made ++ [s], stale, ?_, hStale, ?_⟩
  · rw [hStores, List.append_assoc]
    rfl
  · rw [RingBuffer.record_write_own hLo hHi hWithin, hBytes, Store.fill_concat]

theorem Sound.submit (h : Sound layout q) {call : α} {pos : Nat}
    (hi : q.reservations[i]? = some ⟨call, pos, [], true⟩) (hLive : q.handed.length ≤ i) :
    Sound layout { q with
      rb := q.rb.write pos (layout.header pos false).toList
      reservations := q.reservations.set i ⟨call, pos, [], false⟩ } := by
  obtain ⟨made, stale, hShows⟩ := h.live i _ hLive hi
  obtain ⟨hLo, hHi⟩ : q.rb.consumerPos ≤ pos ∧
      pos + RingBuffer.recordLen layout.size ≤ q.rb.consumerPos + capacity := h.between hLive hi
  have hHeader : (layout.header pos false).toList.length = RingBuffer.headerLen :=
    Vector.length_toList
  have hLen := RingBuffer.headerLen_add_le layout.size
  have hSame : (q.rb.write pos (layout.header pos false).toList).record layout.size pos =
      q.rb.record layout.size pos :=
    RingBuffer.record_write_other hLo hHi hLo (by omega) (.inl (by omega))
  refine h.rewrite hi rfl rfl (fun _ => rfl) le_rfl (by dsimp only; omega) ?_
  rw [hSame]
  exact ⟨made, stale, hShows⟩

theorem Sound.consume (h : Sound layout q)
    (hNext : q.reservations[q.handed.length]? = some r) (hFree : r.busy = false) :
    Sound layout { q with
      rb := q.rb.release layout.size
      handed := q.handed ++ [q.rb.record layout.size q.rb.consumerPos] } := by
  have hIndex := Sound.lt_of_some hNext
  have hRoom := h.room
  have hLive := h.live _ r le_rfl hNext
  rw [h.placed _ r hNext, ← h.consumer] at hLive
  refine ⟨h.producer, ?_, ?_, ?_, h.placed, h.finished, fun i r₁ hHanded hi => ?_,
    fun i r₁ hLive₁ hi => ?_, fun i r₁ bytes hBytes hi => ?_⟩
  · rw [List.length_append, List.length_singleton, Nat.mul_succ, ← h.consumer]
    rfl
  · rw [List.length_append, List.length_singleton]
    exact hIndex
  · change q.rb.producerPos ≤ q.rb.consumerPos + RingBuffer.recordLen layout.size + capacity
    omega
  · rw [List.length_append, List.length_singleton] at hHanded
    obtain hLt | rfl := Nat.lt_succ_iff_lt_or_eq.mp hHanded
    · exact h.released i r₁ hLt hi
    · rw [hNext] at hi
      rw [← Option.some.inj hi]
      exact hFree
  · rw [List.length_append, List.length_singleton] at hLive₁
    exact h.live i r₁ (Nat.le_of_succ_le hLive₁) hi
  · obtain hLt | hGe := Nat.lt_or_ge i q.handed.length
    · rw [List.getElem?_append_left hLt] at hBytes
      exact h.shown i r₁ bytes hBytes hi
    · obtain rfl : i = q.handed.length := by
        have hBound := (List.getElem?_eq_some_iff.mp hBytes).1
        rw [List.length_append, List.length_singleton] at hBound
        omega
      rw [List.getElem?_concat_length] at hBytes
      rw [hNext] at hi
      rw [← Option.some.inj hBytes, ← Option.some.inj hi]
      exact hLive

theorem Sound.step (h : Sound layout q) (act : Act α) : Sound layout (step layout q act) := by
  cases act with
  | reserve call =>
    rw [RingQueue.step]
    split
    · rename_i hRoom
      exact h.reserve hRoom call
    · exact h
  | store i =>
    rw [RingQueue.step]
    split
    · rename_i hi
      exact h.store hi (h.live_of_busy hi rfl)
    · exact h
  | submit i =>
    rw [RingQueue.step]
    split
    · rename_i hi
      exact h.submit hi (h.live_of_busy hi rfl)
    · exact h
  | consume =>
    rw [RingQueue.step]
    split
    · rename_i hNext
      exact h.consume hNext rfl
    · exact h

end Steps

/-- What is handed over are the first reservations, in their order, each as its own call filled
it. -/
theorem Sound.forall₂_handed {q : RingQueue α capacity} (h : Sound layout q) :
    List.Forall₂ (fun call bytes => ∃ stale, stale.length = layout.size ∧
      bytes = Store.fill (layout.stores call) stale) (q.calls.take q.handed.length) q.handed := by
  have hOrder := h.order
  refine List.forall₂_iff_get.mpr ⟨?_, fun i hi hi' => ?_⟩
  · rw [List.length_take, calls, List.length_map]
    omega
  · have hIndex : i < q.reservations.length := by omega
    have hr := List.getElem?_eq_getElem hIndex
    have hDone := h.finished i _ hr (h.released i _ hi' hr)
    obtain ⟨made, stale, hStores, hStale, hBytes⟩ :=
      h.shown i _ _ (List.getElem?_eq_getElem hi') hr
    rw [hDone, List.append_nil] at hStores
    have hCall : (q.calls.take q.handed.length).get ⟨i, hi⟩ = (q.reservations[i]).call := by
      simp [calls]
    rw [hCall, hStores]
    exact ⟨stale, hStale, hBytes⟩

theorem sound_init (rb : RingBuffer capacity) (hProducer : rb.producerPos = 0)
    (hConsumer : rb.consumerPos = 0) : Sound layout (init rb) where
  producer := hProducer
  consumer := hConsumer
  order := le_rfl
  room := by
    rw [init, hProducer]
    exact Nat.zero_le _
  placed := nofun
  finished := nofun
  released := nofun
  live := nofun
  shown := nofun

theorem sound_foldl {q : RingQueue α capacity} (h : Sound layout q) (acts : List (Act α)) :
    Sound layout (acts.foldl (step layout) q) :=
  foldl_invariant (Sound layout) (fun _ _ => True) (fun _ act _ h => h.step act) acts h
    (fun _ _ => trivial)

end RingQueue

end Ebacs.Lib
