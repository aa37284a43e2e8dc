import Ebacs.Sockfilter.Records

/-! # What an event shows of earlier packets

Addresses are not loaded for GRE, so the record of such a frame keeps those of
the frame that used its memory a whole turn of the buffer before. The event of
any other frame depends on the frame alone.
-/
namespace Ebacs.Sockfilter
open Lib
set_option autoImplicit false

section Histories

variable (header : Nat → Vector UInt8 RingBuffer.headerLen)
  (ifIndextoname : UInt32 → Option Text)

/-- The event submitted for a frame after a history. -/
def submittedFor (history : List Act) (skb : SkBuff) : Option SoEvent :=
  (socketHandler header (run header ifIndextoname history).rb skb).event

def Independent (skb : SkBuff) : Prop :=
  ∀ history history' e e', submittedFor header ifIndextoname history skb = some e →
    submittedFor header ifIndextoname history' skb = some e' → e = e'

/-- A frame and its record handed over, again and again. -/
def rounds (skb : SkBuff) (m : Nat) : List Act :=
  (List.replicate m [Act.frame skb, Act.poll]).flatten

end Histories

section Histories

variable {header : Nat → Vector UInt8 RingBuffer.headerLen}
  {ifIndextoname : UInt32 → Option Text} {s : State} {skb : SkBuff}

theorem submittedFor_of_room (hAccepted : Accepted skb) {history : List Act}
    (hRoom : (run header ifIndextoname history).rb.HasRoom sizeofSoEvent) :
    let s := run header ifIndextoname history
    submittedFor header ifIndextoname history skb =
      some (fillEvent skb ethHlen (recordOf s.rb s.submitted.length)) := by
  intro s
  have hSound := sound_run header ifIndextoname history
  rw [submittedFor, socketHandler_of_room hAccepted hRoom, ← ofBytes_reserved hSound.producer]

theorem submittedFor_eq_some {history : List Act} {e : SoEvent}
    (h : submittedFor header ifIndextoname history skb = some e) :
    Accepted skb ∧ ∃ old, UpperClear old ∧ e = fillEvent skb ethHlen old := by
  by_cases hBoth : Accepted skb ∧ (run header ifIndextoname history).rb.HasRoom sizeofSoEvent
  · rw [submittedFor_of_room hBoth.1 hBoth.2] at h
    exact ⟨hBoth.1, _, (sound_run header ifIndextoname history).clear _, (Option.some.inj h).symm⟩
  · rw [submittedFor, socketHandler_of_not hBoth] at h
    cases h

theorem srcAddr_fillEvent_gre (hGre : protoByte skb = 47) {e : SoEvent} (h : UpperClear e) :
    (fillEvent skb ethHlen e).srcAddr = e.srcAddr := by
  have hWord : word (eventOf skb).ipProto = ipprotoGre := by
    apply UInt32.toNat_inj.mp
    rw [toNat_word_ipProto, hGre]
    rfl
  rw [fillEvent]
  dsimp only
  rw [ofFn_ipProto skb h, if_neg (not_not.mpr hWord)]

/-- One round takes the next slot and leaves nothing to be handed over. -/
theorem foldl_round (header : Nat → Vector UInt8 RingBuffer.headerLen)
    (h : Sound ifIndextoname s) (hDone : s.handled.length = s.submitted.length)
    (hAccepted : Accepted skb) :
    let s' := [Act.frame skb, Act.poll].foldl (step header ifIndextoname) s
    s'.submitted.length = s.submitted.length + 1 ∧ s'.handled.length = s.handled.length + 1 ∧
    ∀ i, recordOf s'.rb i = if i % 8192 = s.submitted.length % 8192 then
      fillEvent skb ethHlen (recordOf s.rb s.submitted.length) else recordOf s.rb i := by
  have hRoom : s.rb.HasRoom sizeofSoEvent := h.hasRoom_iff.mpr (by omega)
  have hFrame : step header ifIndextoname s (.frame skb) = s.submit header skb := by
    rw [step_frame, if_pos ⟨hAccepted, hRoom⟩]
  have hPending : (s.submit header skb).rb.consumerPos < (s.submit header skb).rb.producerPos := by
    rw [State.submit, submit_producerPos]
    change s.rb.consumerPos < _
    rw [h.consumer, h.producer]
    omega
  rw [List.foldl_cons, hFrame, List.foldl_cons, List.foldl_nil, step, if_pos hPending]
  refine ⟨List.length_append, List.length_append, fun i => ?_⟩
  rw [← ofBytes_reserved h.producer]
  exact recordOf_submit s.rb h.producer _ _ i

variable (header ifIndextoname)

theorem run_rounds (hAccepted : Accepted skb) (hPlain : protoByte skb ≠ 47) (m : Nat) :
    let s := run header ifIndextoname (rounds skb m)
    s.submitted.length = m ∧ s.handled.length = m ∧
    (0 < m → m ≤ 8192 → recordOf s.rb 8192 = eventOf skb) := by
  induction m with
  | zero => exact ⟨rfl, rfl, nofun⟩
  | succ m ih =>
    obtain ⟨hSubmitted, hHandled, hSlot⟩ := ih
    have hSound := sound_run header ifIndextoname (rounds skb m)
    have hNext : run header ifIndextoname (rounds skb (m + 1)) =
        [Act.frame skb, Act.poll].foldl (step header ifIndextoname)
          (run header ifIndextoname (rounds skb m)) := by
      rw [rounds, List.replicate_succ', List.flatten_append, run, List.foldl_append]
      rfl
    obtain ⟨hSubmitted', hHandled', hRecord⟩ :=
      foldl_round header hSound (hHandled.trans hSubmitted.symm) hAccepted
    rw [hNext]
    refine ⟨by omega, by omega, fun _ hTurn => ?_⟩
    rw [hRecord, hSubmitted]
    split
    · exact fillEvent_eq hPlain (hSound.clear _)
    · rename_i hOther
      exact hSlot (by omega) (by omega)

/-- After a whole turn of the buffer a GRE frame shows the source of the frames before. -/
theorem submittedFor_gre_after_rounds (hAccepted : Accepted skb) (hGre : protoByte skb = 47)
    {earlier : SkBuff} (hEarlier : Accepted earlier) (hPlain : protoByte earlier ≠ 47) :
    ∃ e, submittedFor header ifIndextoname (rounds earlier 8192) skb = some e ∧
      e.srcAddr = (eventOf earlier).srcAddr := by
  obtain ⟨hSubmitted, hHandled, hSlot⟩ := run_rounds header ifIndextoname
    hEarlier hPlain 8192
  have hSound := sound_run header ifIndextoname (rounds earlier 8192)
  have hRoom := hSound.hasRoom_iff.mpr (by omega)
  refine ⟨_, submittedFor_of_room hAccepted hRoom, ?_⟩
  rw [srcAddr_fillEvent_gre hGre (hSound.clear _), hSubmitted, hSlot (by omega) le_rfl]

theorem submittedFor_gre_first (hAccepted : Accepted skb) (hGre : protoByte skb = 47) :
    ∃ e, submittedFor header ifIndextoname [] skb = some e ∧ e.srcAddr = .replicate 4 0 := by
  have hSound := sound_run header ifIndextoname []
  have hRoom := hSound.hasRoom_iff.mpr (show 0 + 1 < 0 + 8192 by decide)
  refine ⟨_, submittedFor_of_room hAccepted hRoom, ?_⟩
  rw [srcAddr_fillEvent_gre hGre (hSound.clear _)]
  rfl

end Histories

theorem tcp_frame_plain : Accepted (frameOf 6) ∧ protoByte (frameOf 6) ≠ 47 := by decide

/-- A GRE frame after a turn of TCP frames from 10.0.0.1, and the same frame as the first. -/
theorem gre_events_differ (header : Nat → Vector UInt8 RingBuffer.headerLen)
    (ifIndextoname : UInt32 → Option Text) {skb : SkBuff} (hAccepted : Accepted skb)
    (hGre : protoByte skb = 47) :
    ∃ e e', submittedFor header ifIndextoname (rounds (frameOf 6) 8192) skb = some e ∧
      submittedFor header ifIndextoname [] skb = some e' ∧
      e.srcAddr = .ofFn (fun i : Fin 4 => [10, 0, 0, 1].getD i 0) ∧
      e'.srcAddr = .replicate 4 0 ∧ e ≠ e' := by
  obtain ⟨hTcp, hPlain⟩ := tcp_frame_plain
  obtain ⟨e, he, hSrc⟩ := submittedFor_gre_after_rounds header ifIndextoname hAccepted hGre hTcp
    hPlain
  obtain ⟨e', he', hSrc'⟩ := submittedFor_gre_first header ifIndextoname hAccepted hGre
  refine ⟨e, e', he, he', hSrc, hSrc', ?_⟩
  rintro rfl
  rw [hSrc] at hSrc'
  exact absurd hSrc' (by decide)

/-- The event of a frame is independent of the history unless the frame is accepted and carries
GRE. -/
theorem independent_iff (header : Nat → Vector UInt8 RingBuffer.headerLen)
    (ifIndextoname : UInt32 → Option Text) (skb : SkBuff) :
    Independent header ifIndextoname skb ↔ (Accepted skb → protoByte skb ≠ 47) := by
  constructor
  · intro h hAccepted hGre
    obtain ⟨e, e', he, he', _, _, hDiffer⟩ :=
      gre_events_differ header ifIndextoname hAccepted hGre
    exact hDiffer (h _ _ e e' he he')
  · intro h history history' e e' he he'
    obtain ⟨hAccepted, old, hClear, rfl⟩ := submittedFor_eq_some he
    obtain ⟨_, old', hClear', rfl⟩ := submittedFor_eq_some he'
    rw [fillEvent_eq (h hAccepted) hClear, fillEvent_eq (h hAccepted) hClear']

theorem gre_reveals_source :
    ∃ e e', submittedFor (fun _ => .replicate 8 0) (fun _ => none) (rounds (frameOf 6) 8192)
        (frameOf 47) = some e ∧
      submittedFor (fun _ => .replicate 8 0) (fun _ => none) [] (frameOf 47) = some e' ∧
      e.srcAddr = .ofFn (fun i : Fin 4 => [10, 0, 0, 1].getD i 0) ∧
      e'.srcAddr = .replicate 4 0 ∧ e ≠ e' :=
  gre_events_differ _ _ (by decide) (by decide)

end Ebacs.Sockfilter
