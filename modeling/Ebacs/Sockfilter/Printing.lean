import Ebacs.Sockfilter.Records

/-! # The lines that `sockfilter` prints

A packet that got a record is printed, whenever its record is handed over, with
the protocol, addresses and ports that its own bytes encode in network order.
-/
namespace Ebacs.Sockfilter
open Lib
set_option autoImplicit false

def byte (skb : SkBuff) (k : Nat) : UInt8 := skb.data.getD k 0

/-- An Ethernet frame for this host with an unfragmented IPv4 packet of TCP or UDP, whose header
of `ihl` words is complete and followed by four bytes at least. -/
structure IsPacket (skb : SkBuff) (ihl : Nat) : Prop where
  host : skb.pktType = packetHost
  etherType : byte skb 12 = 0x08 ∧ byte skb 13 = 0x00
  version : (byte skb 14).toNat = 0x40 + ihl
  headerLength : 5 ≤ ihl ∧ ihl ≤ 15
  /-- Neither more fragments nor an offset. -/
  whole : (byte skb 20).toNat % 64 = 0 ∧ byte skb 21 = 0
  transport : byte skb 23 = 6 ∨ byte skb 23 = 17
  complete : 14 + 4 * ihl + 4 ≤ skb.len

def dotted (a b c d : UInt8) : Text :=
  decimal a.toNat ++ ['.'] ++ decimal b.toNat ++ ['.'] ++ decimal c.toNat ++ ['.'] ++
    decimal d.toNat

/-- The number that two bytes in network order encode. -/
def port (skb : SkBuff) (k : Nat) : Nat := 256 * (byte skb k).toNat + (byte skb (k + 1)).toNat

def packetLine (ifname : Text) (skb : SkBuff) (ihl : Nat) : Text :=
  printLine ifname (if byte skb 23 = 6 then "TCP".toList else "UDP".toList)
    (dotted (byte skb 26) (byte skb 27) (byte skb 28) (byte skb 29)) (port skb (14 + 4 * ihl))
    (dotted (byte skb 30) (byte skb 31) (byte skb 32) (byte skb 33)) (port skb (14 + 4 * ihl + 2))

theorem getD_skbLoadBytes {skb : SkBuff} (offset : Nat) {n : Nat} (h : offset + n ≤ skb.len) {i : Nat}
    (hi : i < n) : (skbLoadBytes skb offset n).getD i 0 = byte skb (offset + i) := by
  rw [skbLoadBytes, if_pos h, getD_ofFn hi]
  rfl

theorem length_decimal_byte (b : UInt8) : (decimal b.toNat).length ≤ 3 := by
  have hAll : ∀ n < 256, (decimal (n : Nat)).length ≤ 3 := by decide +kernel
  exact hAll b.toNat b.toNat_lt

theorem length_dotted (a b c d : UInt8) : (dotted a b c d).length ≤ 15 := by
  have ha := length_decimal_byte a
  have hb := length_decimal_byte b
  have hc := length_decimal_byte c
  have hd := length_decimal_byte d
  simp only [dotted, List.length_append, List.length_singleton]
  omega

theorem toNat_and_ff (w : UInt32) : (w &&& 0xFF).toNat = w.toNat % 256 := by
  rw [UInt32.toNat_and]
  exact Nat.and_two_pow_sub_one_eq_mod w.toNat 8

theorem toNat_shiftRight_and_ff (w : UInt32) {k : UInt32} (hk : k.toNat < 32) :
    ((w >>> k) &&& 0xFF).toNat = (w.toNat >>> k.toNat) % 256 := by
  rw [toNat_and_ff, UInt32.toNat_shiftRight, Nat.mod_eq_of_lt hk]

/-- The text of an address is that of its bytes in network order. -/
theorem ltoa_ntohl (v : Vector UInt8 4) :
    ltoa (ntohl (word v)) = dotted (v.getD 0 0) (v.getD 1 0) (v.getD 2 0) (v.getD 3 0) := by
  have hWord := toNat_ntohl_word v
  have h0 := (v.getD 0 0).toNat_lt
  have h1 := (v.getD 1 0).toNat_lt
  have h2 := (v.getD 2 0).toNat_lt
  have h3 := (v.getD 3 0).toNat_lt
  have hFirst : ((ntohl (word v) >>> 24) &&& 0xFF).toNat = (v.getD 0 0).toNat := by
    rw [toNat_shiftRight_and_ff _ (by decide), Nat.shiftRight_eq_div_pow, hWord]
    change _ / 16777216 % 256 = _
    omega
  have hSecond : ((ntohl (word v) >>> 16) &&& 0xFF).toNat = (v.getD 1 0).toNat := by
    rw [toNat_shiftRight_and_ff _ (by decide), Nat.shiftRight_eq_div_pow, hWord]
    change _ / 65536 % 256 = _
    omega
  have hThird : ((ntohl (word v) >>> 8) &&& 0xFF).toNat = (v.getD 2 0).toNat := by
    rw [toNat_shiftRight_and_ff _ (by decide), Nat.shiftRight_eq_div_pow, hWord]
    change _ / 256 % 256 = _
    omega
  have hFourth : (ntohl (word v) &&& 0xFF).toNat = (v.getD 3 0).toNat := by
    rw [toNat_and_ff, hWord]
    omega
  rw [ltoa, hFirst, hSecond, hThird, hFourth]
  exact List.take_of_length_le (length_dotted _ _ _ _)

theorem toNat_port16 (e : SoEvent) (i : Nat) :
    (ntohs (e.port16 i)).toNat =
      256 * (e.ports.getD (2 * i) 0).toNat + (e.ports.getD (2 * i + 1) 0).toNat := by
  rw [SoEvent.port16, toNat_ntohs_short, getD_ofFn (by decide), getD_ofFn (by decide)]
  rfl

section Packet

variable {skb : SkBuff} {ihl : Nat}

theorem IsPacket.length (h : IsPacket skb ihl) : 38 ≤ skb.len := by
  have hComplete := h.complete
  have hHeader := h.headerLength.1
  omega

theorem IsPacket.accepted (h : IsPacket skb ihl) : Accepted skb := by
  have hLength := h.length
  have hTwo : ∀ offset, offset + 2 ≤ 38 →
      (ntohs (short (skbLoadBytes skb offset 2))).toNat = port skb offset := by
    intro offset hOffset
    rw [toNat_ntohs_short, getD_skbLoadBytes _ (by omega) (by decide),
      getD_skbLoadBytes _ (by omega) (by decide)]
    rfl
  constructor
  · apply UInt16.toNat_inj.mp
    rw [hTwo 12 (by decide), port, h.etherType.1, h.etherType.2]
    rfl
  · have hFlags : ntohs (short (skbLoadBytes skb (ethHlen + fragOff) 2)) &&& (ipMf ||| ipOffset) =
        0 := by
      apply UInt16.toNat_inj.mp
      rw [UInt16.toNat_and, hTwo _ (by decide)]
      change port skb 20 &&& (2 ^ 14 - 1) = 0
      rw [Nat.and_two_pow_sub_one_eq_mod, port, h.whole.2]
      have hLow := h.whole.1
      change (256 * (byte skb 20).toNat + 0) % 16384 = 0
      omega
    rw [ipIsFragment, hFlags]
    rfl

theorem IsPacket.load (h : IsPacket skb ihl) {offset i : Nat} (hi : i < 4)
    (hInside : offset + 4 ≤ 14 + 4 * ihl + 4) :
    (skbLoadBytes skb offset 4).getD i 0 = byte skb (offset + i) :=
  getD_skbLoadBytes offset (hInside.trans h.complete) hi

theorem IsPacket.protoByte_eq (h : IsPacket skb ihl) : protoByte skb = byte skb 23 :=
  getD_skbLoadBytes 23 (Nat.le_trans (by decide) h.length) (by decide)

theorem IsPacket.not_gre (h : IsPacket skb ihl) : protoByte skb ≠ 47 := by
  rw [h.protoByte_eq]
  rcases h.transport with hTcp | hUdp
  · rw [hTcp]
    decide
  · rw [hUdp]
    decide

theorem IsPacket.verlen (h : IsPacket skb ihl) :
    (skbLoadByte skb (ethHlen + 0) &&& 0xF).toNat <<< 2 = 4 * ihl := by
  have hHigh := h.headerLength.2
  have hByte : skbLoadByte skb (ethHlen + 0) = byte skb 14 :=
    getD_skbLoadBytes 14 (Nat.le_trans (by decide) h.length) (by decide)
  rw [hByte, UInt8.toNat_and, h.version]
  change ((0x40 + ihl) &&& (2 ^ 4 - 1)) <<< 2 = _
  rw [Nat.and_two_pow_sub_one_eq_mod, Nat.shiftLeft_eq]
  omega

theorem IsPacket.protocolName (h : IsPacket skb ihl) :
    ipprotoMapping (word (eventOf skb).ipProto).toNat =
      some (if byte skb 23 = 6 then "TCP".toList else "UDP".toList) := by
  rw [toNat_word_ipProto, h.protoByte_eq]
  rcases h.transport with hTcp | hUdp
  · rw [hTcp]
    rfl
  · rw [hUdp]
    rfl

theorem IsPacket.address (h : IsPacket skb ihl) {offset : Nat} (hOffset : offset ≤ 30) :
    ltoa (ntohl (word (skbLoadBytes skb offset 4))) =
      dotted (byte skb offset) (byte skb (offset + 1)) (byte skb (offset + 2))
        (byte skb (offset + 3)) := by
  have hHeader := h.headerLength.1
  rw [ltoa_ntohl, h.load (by decide) (by omega), h.load (by decide) (by omega),
    h.load (by decide) (by omega), h.load (by decide) (by omega)]
  rfl

theorem IsPacket.ports (h : IsPacket skb ihl) :
    (ntohs ((eventOf skb).port16 0)).toNat = port skb (14 + 4 * ihl) ∧
    (ntohs ((eventOf skb).port16 1)).toNat = port skb (14 + 4 * ihl + 2) := by
  have hPorts : (eventOf skb).ports = skbLoadBytes skb (14 + 4 * ihl) 4 := by
    rw [eventOf, h.verlen]
    rfl
  constructor
  · rw [toNat_port16, hPorts, h.load (by decide) le_rfl, h.load (by decide) le_rfl]
    rfl
  · rw [toNat_port16, hPorts, h.load (by decide) le_rfl, h.load (by decide) le_rfl]
    rfl

/-- The line for the event of a packet is that of its bytes. -/
theorem IsPacket.handleEvent_eq (h : IsPacket skb ihl) {ifIndextoname : UInt32 → Option Text}
    {ifname : Text} (hName : ifIndextoname skb.ifindex = some ifname) :
    handleEvent ifIndextoname (eventOf skb) = some (packetLine ifname skb ihl) := by
  have hHost : word (eventOf skb).pktType = packetHost := by
    rw [eventOf, word_wordBytes, h.host]
  have hRange : ¬ipprotoMax ≤ word (eventOf skb).ipProto := by
    rw [UInt32.le_iff_toNat_le, toNat_word_ipProto]
    have hByte := (protoByte skb).toNat_lt
    change ¬263 ≤ _
    omega
  have hIndex : word (eventOf skb).ifindex = skb.ifindex := by rw [eventOf, word_wordBytes]
  have hSource : ltoa (ntohl (word (eventOf skb).srcAddr)) =
      dotted (byte skb 26) (byte skb 27) (byte skb 28) (byte skb 29) :=
    h.address (by decide : 26 ≤ 30)
  have hDest : ltoa (ntohl (word (eventOf skb).dstAddr)) =
      dotted (byte skb 30) (byte skb 31) (byte skb 32) (byte skb 33) :=
    h.address (by decide : 30 ≤ 30)
  rw [handleEvent, if_neg (not_not.mpr hHost), if_neg hRange, hIndex, hName]
  dsimp only
  rw [h.protocolName, h.ports.1, h.ports.2, hSource, hDest]
  rfl

end Packet

section Delivery

variable (header : Nat → Vector UInt8 RingBuffer.headerLen)
  (ifIndextoname : UInt32 → Option Text)

/-- Later steps add to the records submitted and change none. -/
theorem submitted_prefix (acts : List Act) (s : State) :
    s.submitted <+: (acts.foldl (step header ifIndextoname) s).submitted := by
  induction acts generalizing s with
  | nil => exact List.prefix_rfl
  | cons act acts ih =>
    refine List.IsPrefix.trans ?_ (ih _)
    cases act with
    | frame skb =>
      rw [step_frame]
      split
      · exact List.prefix_append _ _
      · exact List.prefix_rfl
    | poll =>
      rw [step]
      split <;> exact List.prefix_rfl

theorem run_frame {history : List Act} {skb : SkBuff} (hAccepted : Accepted skb)
    (hRoom : (run header ifIndextoname history).rb.HasRoom sizeofSoEvent) (rest : List Act) :
    run header ifIndextoname (history ++ .frame skb :: rest) =
      rest.foldl (step header ifIndextoname)
        ((run header ifIndextoname history).submit header skb) := by
  have hStep : step header ifIndextoname (run header ifIndextoname history) (.frame skb) =
      (run header ifIndextoname history).submit header skb := by
    rw [step_frame, if_pos ⟨hAccepted, hRoom⟩]
  rw [run, List.foldl_append, List.foldl_cons]
  exact congrArg (rest.foldl (step header ifIndextoname)) hStep

theorem getElem?_submitted (s : State) (skb : SkBuff) (rest : List Act) :
    (rest.foldl (step header ifIndextoname) (s.submit header skb)).submitted[s.submitted.length]? =
      some (skb, fillEvent skb ethHlen (.ofBytes s.rb.reserved)) := by
  obtain ⟨later, hLater⟩ := submitted_prefix header ifIndextoname rest (s.submit header skb)
  rw [← hLater, State.submit, List.append_assoc, List.getElem?_append_right le_rfl, Nat.sub_self]
  rfl

/-- Polling hands over one record after the other until none is left. -/
theorem length_handled_polls {s : State} (h : Sound ifIndextoname s) (k : Nat) :
    min (s.handled.length + k) s.submitted.length ≤
      ((List.replicate k Act.poll).foldl (step header ifIndextoname) s).handled.length := by
  induction k generalizing s with
  | zero => exact Nat.min_le_left _ _
  | succ k ih =>
    rw [List.replicate_succ, List.foldl_cons]
    refine le_trans ?_ (ih (h.step .poll))
    rw [step]
    split
    · change _ ≤ min ((s.handled ++ [_]).length + k) s.submitted.length
      rw [List.length_append, List.length_singleton]
      omega
    · rename_i hNone
      rw [h.consumer, h.producer] at hNone
      omega

end Delivery

/-- Whatever came before and comes after, the record of a packet prints the packet's line when
it is handed over, and enough polls hand it over. -/
theorem packet_printed (header : Nat → Vector UInt8 RingBuffer.headerLen)
    (ifIndextoname : UInt32 → Option Text) (history : List Act) (skb : SkBuff) (ihl : Nat)
    (hPacket : IsPacket skb ihl)
    (hRoom : (run header ifIndextoname history).rb.HasRoom sizeofSoEvent) (ifname : Text)
    (hName : ifIndextoname skb.ifindex = some ifname) :
    let number := (run header ifIndextoname history).submitted.length
    (∀ rest, number < (run header ifIndextoname (history ++ .frame skb :: rest)).handled.length →
      (run header ifIndextoname (history ++ .frame skb :: rest)).handled[number]? =
        some (some (packetLine ifname skb ihl))) ∧
    number < (run header ifIndextoname
      (history ++ .frame skb :: List.replicate (number + 1) .poll)).handled.length := by
  intro number
  have hBefore := sound_run header ifIndextoname history
  have hAfter : Sound ifIndextoname ((run header ifIndextoname history).submit header skb) :=
    hBefore.frame hRoom skb
  have hRun := run_frame header ifIndextoname hPacket.accepted hRoom
  constructor
  · intro rest hHanded
    rw [hRun] at hHanded ⊢
    have hSound := sound_foldl header hAfter rest
    have hOwn := getElem?_submitted header ifIndextoname (run header ifIndextoname history) skb rest
    obtain ⟨old, hClear, hEvent⟩ := hSound.filled _ (List.mem_of_getElem? hOwn)
    rw [hSound.printed number _ hHanded hOwn, hEvent, fillEvent_eq hPacket.not_gre hClear,
      hPacket.handleEvent_eq hName]
  · rw [hRun]
    refine Nat.lt_of_lt_of_le ?_ (length_handled_polls header ifIndextoname hAfter (number + 1))
    have hLength : ((run header ifIndextoname history).submit header skb).submitted.length =
        number + 1 := List.length_append
    rw [hLength]
    omega

/-- A GRE frame that has been shown and a TCP frame that waits. -/
def greBefore : List Act := [.frame (frameOf 47), .frame (frameOf 6), .poll]

theorem tcp_frame_printed :
    (run (fun _ => .replicate 8 0) (fun _ => some "lo".toList)
      (greBefore ++ .frame (frameOf 6) :: List.replicate 3 .poll)).handled[2]? =
    some (some "interface: lo\tprotocol: TCP\t10.0.0.1:12345(src) -> 10.0.0.2:80(dst)\n".toList) := by
  have hPacket : IsPacket (frameOf 6) 5 :=
    ⟨rfl, by decide, by decide, by decide, by decide, by decide, by decide⟩
  obtain ⟨hLine, hHanded⟩ := packet_printed (fun _ => .replicate 8 0) (fun _ => some "lo".toList)
    greBefore (frameOf 6) 5 hPacket (by decide) "lo".toList rfl
  have hText : packetLine "lo".toList (frameOf 6) 5 =
      "interface: lo\tprotocol: TCP\t10.0.0.1:12345(src) -> 10.0.0.2:80(dst)\n".toList := by
    decide +kernel
  rw [← hText]
  exact hLine (List.replicate 3 .poll) hHanded

end Ebacs.Sockfilter
