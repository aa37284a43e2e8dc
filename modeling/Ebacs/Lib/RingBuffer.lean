import Mathlib.Data.Nat.Basic
import Mathlib.Data.List.GetD

/-! # A ring buffer of records

A byte area that is used over and over. A record is a header and its data,
rounded up to whole words of eight bytes, and nothing is cleared between uses.
Positions count all bytes ever produced, so that two positions name the same
byte when they are equal up to the capacity.
-/
namespace Ebacs.Lib
set_option autoImplicit false

structure RingBuffer (capacity : Nat) where
  area : Nat → UInt8
  producerPos : Nat
  consumerPos : Nat

namespace RingBuffer

variable {capacity : Nat}

def zeroed (capacity : Nat) : RingBuffer capacity := ⟨fun _ => 0, 0, 0⟩

def headerLen : Nat := 8

def recordLen (size : Nat) : Nat := (headerLen + size + 7) / 8 * 8

def byteAt (rb : RingBuffer capacity) (pos : Nat) : UInt8 := rb.area (pos % capacity)

def write (rb : RingBuffer capacity) (pos : Nat) (bytes : List UInt8) : RingBuffer capacity :=
  { rb with area := fun offset =>
      bytes.getD ((offset + (capacity - pos % capacity)) % capacity) (rb.area offset) }

/-- A reservation must leave at least one byte between its end and the oldest record. -/
def HasRoom (rb : RingBuffer capacity) (size : Nat) : Prop :=
  rb.producerPos + recordLen size - rb.consumerPos ≤ capacity - 1

instance (rb : RingBuffer capacity) (size : Nat) : Decidable (rb.HasRoom size) :=
  inferInstanceAs (Decidable (_ ≤ _))

/-- The bytes of the reserved record before anything is written to them. -/
def reserved (rb : RingBuffer capacity) (i : Nat) : UInt8 :=
  rb.byteAt (rb.producerPos + headerLen + i)

def submit (rb : RingBuffer capacity) (header data : List UInt8) : RingBuffer capacity :=
  { rb.write rb.producerPos (header ++ data) with
    producerPos := rb.producerPos + recordLen data.length }

/-- The bytes of the oldest record. -/
def oldest (rb : RingBuffer capacity) (i : Nat) : UInt8 :=
  rb.byteAt (rb.consumerPos + headerLen + i)

def release (rb : RingBuffer capacity) (size : Nat) : RingBuffer capacity :=
  { rb with consumerPos := rb.consumerPos + recordLen size }

theorem add_mod_slots {len slots i k : Nat} (hk : k < len) :
    (len * i + k) % (len * slots) = len * (i % slots) + k := by
  rw [Nat.mod_mul, Nat.mul_add_mod, Nat.mod_eq_of_lt hk, Nat.mul_add_div (by omega),
    Nat.div_eq_of_lt hk, Nat.add_zero, Nat.add_comm]

/-- How many slots behind slot `b` slot `a` comes up next. -/
theorem turn_eq_zero_iff {slots a b : Nat} (ha : a < slots) (hb : b < slots) :
    (a + (slots - b)) % slots = 0 ↔ a = b := by
  rcases Nat.lt_or_ge a b with hLt | hGe
  · rw [Nat.mod_eq_of_lt (by omega)]
    omega
  · rw [Nat.mod_eq_sub_mod (by omega), Nat.mod_eq_of_lt (by omega)]
    omega

theorem distance_mod_slots {len slots k : Nat} (hk : k < len) (a b : Nat) (hb : b ≤ slots) :
    (len * a + k + (len * slots - len * b)) % (len * slots) =
      len * ((a + (slots - b)) % slots) + k := by
  have hWithin : len * b ≤ len * slots := Nat.mul_le_mul_left len hb
  have hSum : len * a + k + (len * slots - len * b) = len * (a + (slots - b)) + k := by
    rw [Nat.mul_add, Nat.mul_sub]
    omega
  rw [hSum, add_mod_slots hk]

/-- In a buffer of whole slots a record reaches the bytes of its own slot and no others. -/
theorem byteAt_write {len slots : Nat} (rb : RingBuffer (len * slots)) (hSlots : 0 < slots)
    {bytes : List UInt8} (hFits : bytes.length ≤ len) (n i : Nat) {k : Nat} (hk : k < len) :
    (rb.write (len * n) bytes).byteAt (len * i + k) =
      if i % slots = n % slots then bytes.getD k (rb.byteAt (len * i + k))
      else rb.byteAt (len * i + k) := by
  have hi := Nat.mod_lt i hSlots
  have hn := Nat.mod_lt n hSlots
  have hTurn := turn_eq_zero_iff hi hn
  change bytes.getD (((len * i + k) % (len * slots) +
    (len * slots - len * n % (len * slots))) % (len * slots)) (rb.byteAt (len * i + k)) = _
  rw [add_mod_slots hk, Nat.mul_mod_mul_left, distance_mod_slots hk _ _ (Nat.le_of_lt hn)]
  split
  · rename_i hSame
    rw [hTurn.mpr hSame, Nat.mul_zero, Nat.zero_add]
  · rename_i hOther
    have hPos : 1 ≤ (i % slots + (slots - n % slots)) % slots :=
      Nat.one_le_iff_ne_zero.mpr (mt hTurn.mp hOther)
    have hBeyond : bytes.length ≤ len * ((i % slots + (slots - n % slots)) % slots) + k := by
      calc
        bytes.length ≤ len * 1 := by omega
        _ ≤ len * ((i % slots + (slots - n % slots)) % slots) := Nat.mul_le_mul_left len hPos
        _ ≤ _ := Nat.le_add_right _ _
    exact List.getD_eq_default _ _ hBeyond

end RingBuffer

end Ebacs.Lib
