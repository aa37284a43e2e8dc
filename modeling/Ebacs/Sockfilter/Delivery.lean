import Mathlib.Data.List.Forall2
import Ebacs.Lib.Trace
import Ebacs.Sockfilter.Records

/-! # From frames to output

Which frames get a record, and what happens to the records in the order in which
they are handed over.
-/
namespace Ebacs.Sockfilter
open Lib
set_option autoImplicit false

/-- The frame of a step that gets a record. -/
def kept (x : State × Act) : Option SkBuff :=
  match x.2 with
  | .frame skb =>
    if Accepted skb ∧ x.1.submitted.length < x.1.handled.length + 8191 then some skb else none
  | .poll => none

/-- Nothing is printed for a record. -/
def Silent (ifIndextoname : UInt32 → Option Text) (skb : SkBuff) : Prop :=
  skb.pktType ≠ packetHost ∨ ifIndextoname skb.ifindex = none

section Steps

variable {header : Nat → Vector UInt8 RingBuffer.headerLen}
  {ifIndextoname : UInt32 → Option Text} {s : State}

theorem submitted_step (h : Sound ifIndextoname s) (act : Act) :
    (step header ifIndextoname s act).submitted.map Prod.fst =
      s.submitted.map Prod.fst ++ (kept (s, act)).toList := by
  cases act with
  | frame skb =>
    have hRoom := h.hasRoom_iff
    rw [step_frame, kept]
    dsimp only
    split
    · rename_i hBoth
      rw [if_pos ⟨hBoth.1, Nat.succ_lt_succ_iff.mp (hRoom.mp hBoth.2)⟩, State.submit,
        List.map_append]
      rfl
    · rename_i hNot
      rw [if_neg (fun hBoth => hNot ⟨hBoth.1, hRoom.mpr (Nat.succ_lt_succ hBoth.2)⟩)]
      exact (List.append_nil _).symm
  | poll =>
    rw [step]
    split
    · exact (List.append_nil _).symm
    · exact (List.append_nil _).symm

/-- The table of protocols has an entry for every number that a record can hold. -/
theorem ipProto_lt_max {skb : SkBuff} {e : SoEvent} (h : UpperClear e) :
    ¬ipprotoMax ≤ word (fillEvent skb ethHlen e).ipProto := by
  have hByte := (protoByte skb).toNat_lt
  rw [ipProto_fillEvent skb h, UInt32.le_iff_toNat_le, toNat_word_ipProto]
  change ¬263 ≤ _
  omega

theorem pktType_fillEvent (skb : SkBuff) (e : SoEvent) :
    word (fillEvent skb ethHlen e).pktType = skb.pktType := by
  rw [fillEvent]
  dsimp only
  exact word_wordBytes skb.pktType

theorem ifindex_fillEvent (skb : SkBuff) (e : SoEvent) :
    word (fillEvent skb ethHlen e).ifindex = skb.ifindex := by
  rw [fillEvent]
  dsimp only
  exact word_wordBytes skb.ifindex

theorem handleEvent_eq_none_iff {skb : SkBuff} {e : SoEvent} (h : UpperClear e) :
    handleEvent ifIndextoname (fillEvent skb ethHlen e) = none ↔ Silent ifIndextoname skb := by
  rw [handleEvent, pktType_fillEvent, ifindex_fillEvent, Silent]
  split
  · rename_i hOther
    exact iff_of_true rfl (.inl hOther)
  · rename_i hHost
    rw [if_neg (ipProto_lt_max h)]
    cases hName : ifIndextoname skb.ifindex with
    | none => exact iff_of_true rfl (.inr rfl)
    | some ifname =>
      refine iff_of_false nofun ?_
      rintro (hOther | hNone)
      · exact hHost hOther
      · cases hNone

end Steps

/-- In every run the frames with a record are the accepted frames that find fewer than 8191
records waiting. Their records are handed over in that order, and one stays silent only for a
frame that is not for this host or came in on an interface without a name. -/
theorem frames_delivered (header : Nat → Vector UInt8 RingBuffer.headerLen)
    (ifIndextoname : UInt32 → Option Text) (acts : List Act) :
    let s := run header ifIndextoname acts
    s.submitted.map Prod.fst =
        (trace (step header ifIndextoname) State.init acts).filterMap kept ∧
      s.handled.length ≤ s.submitted.length ∧
      s.submitted.length ≤ s.handled.length + 8191 ∧
      List.Forall₂ (fun x out => out = handleEvent ifIndextoname x.2 ∧
          (out = none ↔ Silent ifIndextoname x.1))
        (s.submitted.take s.handled.length) s.handled := by
  intro s
  have h := sound_run header ifIndextoname acts
  have hOrder := h.order
  have hRoom := h.room
  refine ⟨?_, hOrder, Nat.lt_succ_iff.mp hRoom, List.forall₂_iff_get.mpr ⟨?_, fun i hi hi' => ?_⟩⟩
  · induction acts using List.reverseRecOn with
    | nil => rfl
    | append_singleton acts act ih =>
      have hBefore := sound_run header ifIndextoname acts
      have hRun : s = step header ifIndextoname (run header ifIndextoname acts) act := by
        change run header ifIndextoname (acts ++ [act]) = _
        rw [run, List.foldl_append]
        rfl
      rw [hRun, submitted_step hBefore, ih hBefore hBefore.order hBefore.room, trace_concat,
        List.filterMap_append]
      rfl
  · rw [List.length_take]
    exact Nat.min_eq_left hOrder
  · have hIndex : i < s.submitted.length := Nat.lt_of_lt_of_le hi' hOrder
    have hPrinted := h.printed i _ hi' (List.getElem?_eq_getElem hIndex)
    have hOut : s.handled.get ⟨i, hi'⟩ = handleEvent ifIndextoname s.submitted[i].2 := by
      rw [List.getElem?_eq_getElem hi'] at hPrinted
      exact Option.some.inj hPrinted
    obtain ⟨e, hClear, hFilled⟩ := h.filled s.submitted[i] (List.getElem_mem hIndex)
    have hTake : (s.submitted.take s.handled.length).get ⟨i, hi⟩ = s.submitted[i] :=
      List.getElem_take
    rw [hTake, hOut]
    refine ⟨rfl, ?_⟩
    rw [hFilled]
    exact handleEvent_eq_none_iff hClear

end Ebacs.Sockfilter
