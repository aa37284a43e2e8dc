import Mathlib.Data.Nat.Basic
import Ebacs.Sockfilter.Handler

/-! # The records in the ring buffer of `sockfilter`

A record takes 32 bytes, which divide the buffer, so a record always lies where
an earlier one did. Its fields fall on the same fields, and the three upper
bytes of `ip_proto`, which nobody writes, stay clear for ever.
-/
namespace Ebacs.Sockfilter
open Lib
set_option autoImplicit false

/-- The frames that `socket_handler` asks a record for. -/
def Accepted (skb : SkBuff) : Prop :=
  ntohs (short (skbLoadBytes skb 12 2)) = ethPIp ∧ ipIsFragment skb ethHlen = false

instance (skb : SkBuff) : Decidable (Accepted skb) := inferInstanceAs (Decidable (_ ∧ _))

/-- An Ethernet frame for this host with a packet from 10.0.0.1 and of the given protocol. -/
def frameOf (proto : UInt8) : SkBuff where
  data := [2, 0, 0, 0, 0, 1, 2, 0, 0, 0, 0, 2, 8, 0] ++
    [0x45, 0, 0, 24, 0, 0, 0x40, 0, 64, proto, 0, 0, 10, 0, 0, 1, 10, 0, 0, 2] ++
    [0x30, 0x39, 0, 80]
  pktType := packetHost
  ifindex := 1

/-- The record of number `i`, counted from the start. -/
def recordOf (rb : Ring) (i : Nat) : SoEvent := .ofBytes (fun k => rb.byteAt (32 * i + (8 + k)))

def UpperClear (e : SoEvent) : Prop := ∀ k, 0 < k → k < 4 → e.ipProto.getD k 0 = 0

theorem ofBytes_congr {b b' : Nat → UInt8} (h : ∀ k < 24, b k = b' k) :
    SoEvent.ofBytes b = SoEvent.ofBytes b' := by
  simp only [SoEvent.ofBytes, SoEvent.mk.injEq]
  refine ⟨?_, ?_, ?_, ?_, ?_, ?_⟩ <;>
    exact congrArg Vector.ofFn (funext (fun i => h _ (by omega)))

theorem length_bytes (e : SoEvent) : e.bytes.length = 24 := by
  simp [SoEvent.bytes]

theorem ofBytes_bytes (e : SoEvent) (b : Nat → UInt8) :
    SoEvent.ofBytes (fun k => e.bytes.getD k (b k)) = e := by
  obtain ⟨srcAddr, dstAddr, ports, ipProto, pktType, ifindex⟩ := e
  simp only [SoEvent.ofBytes, SoEvent.bytes, toList_eq_getD, SoEvent.mk.injEq]
  refine ⟨?_, ?_, ?_, ?_, ?_, ?_⟩ <;>
  · apply ext_getD
    intro k hk
    rw [getD_ofFn hk]
    obtain rfl | rfl | rfl | rfl : k = 0 ∨ k = 1 ∨ k = 2 ∨ k = 3 := by omega
    all_goals rfl

theorem recordOf_submit (rb : Ring) {n : Nat} (hPos : rb.producerPos = 32 * n)
    (header : Vector UInt8 RingBuffer.headerLen) (e : SoEvent) (i : Nat) :
    recordOf (rb.submit header.toList e.bytes) i =
      if i % 8192 = n % 8192 then e else recordOf rb i := by
  have hHeader : header.toList.length = 8 := Vector.length_toList
  have hLength : (header.toList ++ e.bytes).length ≤ 32 := by
    rw [List.length_append, hHeader, length_bytes]
  have hByte : ∀ k < 24, (rb.submit header.toList e.bytes).byteAt (32 * i + (8 + k)) =
      if i % 8192 = n % 8192 then e.bytes.getD k (rb.byteAt (32 * i + (8 + k)))
      else rb.byteAt (32 * i + (8 + k)) := by
    intro k hk
    have hWrite := @RingBuffer.byteAt_write 32 8192 rb (by omega) _ hLength n i (8 + k) (by omega)
    rw [← hPos] at hWrite
    refine hWrite.trans ?_
    rw [List.getD_append_right _ _ _ _ (by omega), hHeader, Nat.add_sub_cancel_left]
  rw [recordOf, ofBytes_congr hByte]
  split
  · exact ofBytes_bytes e _
  · rfl

theorem submit_producerPos (rb : Ring) (header : List UInt8) (e : SoEvent) :
    (rb.submit header e.bytes).producerPos = rb.producerPos + 32 := by
  rw [RingBuffer.submit, length_bytes]
  rfl

theorem ofBytes_reserved {rb : Ring} {n : Nat} (hPos : rb.producerPos = 32 * n) :
    SoEvent.ofBytes rb.reserved = recordOf rb n := by
  refine ofBytes_congr (fun k _ => ?_)
  rw [RingBuffer.reserved, hPos, Nat.add_assoc]
  rfl

theorem ofBytes_oldest {rb : Ring} {n : Nat} (hPos : rb.consumerPos = 32 * n) :
    SoEvent.ofBytes rb.oldest = recordOf rb n := by
  refine ofBytes_congr (fun k _ => ?_)
  rw [RingBuffer.oldest, hPos, Nat.add_assoc]
  rfl

def protoByte (skb : SkBuff) : UInt8 := skbLoadByte skb (ethHlen + protocol)

/-- The event of a frame when the record it gets does not show. -/
def eventOf (skb : SkBuff) : SoEvent where
  srcAddr := skbLoadBytes skb (ethHlen + saddr) 4
  dstAddr := skbLoadBytes skb (ethHlen + daddr) 4
  ports := skbLoadBytes skb (ethHlen + ((skbLoadByte skb (ethHlen + 0) &&& 0xF).toNat <<< 2)) 4
  ipProto := .ofFn (fun i : Fin 4 => if i.val = 0 then protoByte skb else 0)
  pktType := wordBytes skb.pktType
  ifindex := wordBytes skb.ifindex

theorem toNat_word_ipProto (skb : SkBuff) :
    (word (eventOf skb).ipProto).toNat = (protoByte skb).toNat := by
  rw [toNat_word]
  simp [eventOf, getD_ofFn]

/-- One byte written over a field with clear upper bytes makes the whole field. -/
theorem ofFn_ipProto (skb : SkBuff) {e : SoEvent} (h : UpperClear e) :
    Vector.ofFn (fun i : Fin 4 => if i.val = 0 then skbLoadByte skb (ethHlen + protocol)
      else e.ipProto.getD i 0) = (eventOf skb).ipProto := by
  apply ext_getD
  intro k hk
  rw [eventOf, getD_ofFn hk, getD_ofFn hk]
  rcases Nat.eq_zero_or_pos k with rfl | hPos
  · rfl
  · rw [if_neg (Nat.ne_of_gt hPos), if_neg (Nat.ne_of_gt hPos)]
    exact h k hPos hk

theorem ipProto_fillEvent (skb : SkBuff) {e : SoEvent} (h : UpperClear e) :
    (fillEvent skb ethHlen e).ipProto = (eventOf skb).ipProto := by
  rw [fillEvent]
  dsimp only
  rw [ofFn_ipProto skb h]
  split <;> rfl

theorem upperClear_fillEvent (skb : SkBuff) {e : SoEvent} (h : UpperClear e) :
    UpperClear (fillEvent skb ethHlen e) := by
  intro k hPos hk
  rw [ipProto_fillEvent skb h, eventOf, getD_ofFn hk, if_neg (Nat.ne_of_gt hPos)]

theorem fillEvent_eq {skb : SkBuff} (hProto : protoByte skb ≠ 47) {e : SoEvent}
    (h : UpperClear e) : fillEvent skb ethHlen e = eventOf skb := by
  have hWord : word (eventOf skb).ipProto ≠ ipprotoGre := by
    intro hGre
    have hNat := toNat_word_ipProto skb
    rw [hGre] at hNat
    exact hProto (UInt8.toNat_inj.mp hNat.symm)
  rw [fillEvent]
  dsimp only
  rw [ofFn_ipProto skb h, if_pos hWord]
  rfl

/-- The buffer against the records that were submitted and handed over. -/
structure Sound (ifIndextoname : UInt32 → Option Text) (s : State) : Prop where
  producer : s.rb.producerPos = 32 * s.submitted.length
  consumer : s.rb.consumerPos = 32 * s.handled.length
  order : s.handled.length ≤ s.submitted.length
  room : s.submitted.length < s.handled.length + 8192
  clear : ∀ i, UpperClear (recordOf s.rb i)
  filled : ∀ x ∈ s.submitted, ∃ e, UpperClear e ∧ x.2 = fillEvent x.1 ethHlen e
  pending : ∀ i x, s.handled.length ≤ i → s.submitted[i]? = some x → recordOf s.rb i = x.2
  printed : ∀ i x, i < s.handled.length → s.submitted[i]? = some x →
    s.handled[i]? = some (handleEvent ifIndextoname x.2)

section Steps

variable {header : Nat → Vector UInt8 RingBuffer.headerLen}
  {ifIndextoname : UInt32 → Option Text} {s : State}

/-- What happens to an accepted frame that gets a record. -/
def State.submit (header : Nat → Vector UInt8 RingBuffer.headerLen) (s : State) (skb : SkBuff) :
    State :=
  let e := fillEvent skb ethHlen (.ofBytes s.rb.reserved)
  { s with
    rb := s.rb.submit (header s.rb.producerPos).toList e.bytes
    submitted := s.submitted ++ [(skb, e)] }

theorem socketHandler_of_room {rb : Ring} {skb : SkBuff} (h : Accepted skb)
    (hRoom : rb.HasRoom sizeofSoEvent) :
    socketHandler header rb skb =
      let e := fillEvent skb ethHlen (.ofBytes rb.reserved)
      ⟨rb.submit (header rb.producerPos).toList e.bytes, some e, skb.len⟩ := by
  obtain ⟨hType, hWhole⟩ := h
  rw [socketHandler]
  dsimp only
  rw [if_neg (not_not.mpr hType), if_neg (Bool.eq_false_iff.mp hWhole), if_neg (not_not.mpr hRoom)]

theorem socketHandler_of_not {rb : Ring} {skb : SkBuff}
    (h : ¬(Accepted skb ∧ rb.HasRoom sizeofSoEvent)) :
    socketHandler header rb skb = ⟨rb, none, 0⟩ := by
  rw [socketHandler]
  dsimp only
  split
  · rfl
  · rename_i hType
    split
    · rfl
    · rename_i hWhole
      split
      · rfl
      · rename_i hRoom
        exact absurd ⟨⟨not_not.mp hType, Bool.eq_false_iff.mpr hWhole⟩, not_not.mp hRoom⟩ h

theorem step_frame (skb : SkBuff) :
    step header ifIndextoname s (.frame skb) =
      if Accepted skb ∧ s.rb.HasRoom sizeofSoEvent then s.submit header skb else s := by
  split
  · rename_i h
    rw [step, socketHandler_of_room h.1 h.2]
    rfl
  · rename_i h
    rw [step, socketHandler_of_not h]

theorem Sound.hasRoom_iff (h : Sound ifIndextoname s) :
    s.rb.HasRoom sizeofSoEvent ↔ s.submitted.length + 1 < s.handled.length + 8192 := by
  have hLen : RingBuffer.recordLen sizeofSoEvent = 32 := rfl
  have hOrder := h.order
  rw [RingBuffer.HasRoom, h.producer, h.consumer, hLen]
  change _ ≤ 262143 ↔ _
  omega

theorem Sound.frame (h : Sound ifIndextoname s) (hRoom : s.rb.HasRoom sizeofSoEvent)
    (skb : SkBuff) : Sound ifIndextoname (s.submit header skb) := by
  have hCount := h.hasRoom_iff.mp hRoom
  have hOrder := h.order
  have hReserved : UpperClear (.ofBytes s.rb.reserved) := by
    rw [ofBytes_reserved h.producer]
    exact h.clear _
  have hRecord := recordOf_submit s.rb h.producer (header s.rb.producerPos)
    (fillEvent skb ethHlen (.ofBytes s.rb.reserved))
  have hLength : (s.submit header skb).submitted.length = s.submitted.length + 1 := by
    rw [State.submit, List.length_append]
    rfl
  have hOld : ∀ i x, i < s.submitted.length → (s.submit header skb).submitted[i]? = some x →
      s.submitted[i]? = some x := by
    intro i x hi hx
    rwa [State.submit, List.getElem?_append_left hi] at hx
  refine ⟨?_, h.consumer, ?_, ?_, fun i => ?_, fun x hx => ?_, fun i x hi hx => ?_,
    fun i x hi hx => ?_⟩
  · rw [hLength, State.submit, submit_producerPos, h.producer]
    omega
  · rw [hLength]
    exact Nat.le_succ_of_le hOrder
  · rw [hLength]
    exact hCount
  · rw [State.submit, hRecord]
    split
    · exact upperClear_fillEvent skb hReserved
    · exact h.clear i
  · rcases List.mem_append.mp hx with hx | hx
    · exact h.filled x hx
    · rw [List.mem_singleton.mp hx]
      exact ⟨_, hReserved, rfl⟩
  · have hBound : i < s.submitted.length + 1 := by
      rw [← hLength]
      exact (List.getElem?_eq_some_iff.mp hx).1
    change s.handled.length ≤ i at hi
    rw [State.submit, hRecord]
    rcases Nat.lt_or_ge i s.submitted.length with hLt | hGe
    · rw [if_neg (by omega)]
      exact h.pending i x hi (hOld i x hLt hx)
    · obtain rfl : i = s.submitted.length := by omega
      rw [State.submit, List.getElem?_concat_length] at hx
      rw [if_pos rfl, ← Option.some.inj hx]
  · exact h.printed i x hi (hOld i x (Nat.lt_of_lt_of_le hi hOrder) hx)

theorem Sound.poll (h : Sound ifIndextoname s) (hSome : s.rb.consumerPos < s.rb.producerPos) :
    Sound ifIndextoname { s with
      rb := s.rb.release sizeofSoEvent
      handled := s.handled ++ [handleEvent ifIndextoname (.ofBytes s.rb.oldest)] } := by
  have hLess : s.handled.length < s.submitted.length := by
    rw [h.consumer, h.producer] at hSome
    omega
  have hRoom := h.room
  refine ⟨h.producer, ?_, ?_, ?_, h.clear, h.filled, fun i x hi hx => ?_, fun i x hi hx => ?_⟩
  · change s.rb.consumerPos + 32 = _
    rw [h.consumer, List.length_append, List.length_singleton]
    omega
  · rw [List.length_append, List.length_singleton]
    exact hLess
  · rw [List.length_append, List.length_singleton]
    exact Nat.lt_of_lt_of_le hRoom (by omega)
  · rw [List.length_append, List.length_singleton] at hi
    exact h.pending i x (by omega) hx
  · rw [List.length_append, List.length_singleton] at hi
    rcases Nat.lt_or_ge i s.handled.length with hLt | hGe
    · rw [List.getElem?_append_left hLt]
      exact h.printed i x hLt hx
    · obtain rfl : i = s.handled.length := by omega
      rw [List.getElem?_concat_length, ofBytes_oldest h.consumer, h.pending _ x le_rfl hx]

theorem Sound.step (h : Sound ifIndextoname s) (act : Act) :
    Sound ifIndextoname (step header ifIndextoname s act) := by
  cases act with
  | frame skb =>
    rw [step_frame]
    split
    · rename_i hBoth
      exact h.frame hBoth.2 skb
    · exact h
  | poll =>
    rw [Sockfilter.step]
    split
    · rename_i hSome
      exact h.poll hSome
    · exact h

end Steps

theorem sound_init (ifIndextoname : UInt32 → Option Text) : Sound ifIndextoname State.init where
  producer := rfl
  consumer := rfl
  order := le_rfl
  room := by decide
  clear := fun _ _ _ hk => getD_ofFn hk
  filled := nofun
  pending := nofun
  printed := nofun

theorem sound_foldl (header : Nat → Vector UInt8 RingBuffer.headerLen)
    {ifIndextoname : UInt32 → Option Text} {s : State} (h : Sound ifIndextoname s)
    (acts : List Act) : Sound ifIndextoname (acts.foldl (step header ifIndextoname) s) := by
  induction acts generalizing s with
  | nil => exact h
  | cons act acts ih => exact ih (h.step act)

theorem sound_run (header : Nat → Vector UInt8 RingBuffer.headerLen)
    (ifIndextoname : UInt32 → Option Text) (acts : List Act) :
    Sound ifIndextoname (run header ifIndextoname acts) :=
  sound_foldl header (sound_init ifIndextoname) acts

end Ebacs.Sockfilter
