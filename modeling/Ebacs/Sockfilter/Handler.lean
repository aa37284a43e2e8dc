import Ebacs.Lib.Bytes
import Ebacs.Lib.RingBuffer
import Ebacs.Lib.Text

/-! # The two sides of `sockfilter`

`socket_handler` fills a record of the ring buffer field by field, in memory
that still holds an earlier record. `handle_event` of the user side prints a
line for a record that is handed to it.
-/
namespace Ebacs.Sockfilter
open Lib
set_option autoImplicit false

structure SkBuff where
  data : List UInt8
  pktType : UInt32
  ifindex : UInt32

def SkBuff.len (skb : SkBuff) : Nat := skb.data.length

/-- A failed load clears its destination. -/
def skbLoadBytes (skb : SkBuff) (offset n : Nat) : Vector UInt8 n :=
  if offset + n ≤ skb.len then .ofFn (fun i => skb.data.getD (offset + i) 0)
  else .replicate n 0

def skbLoadByte (skb : SkBuff) (offset : Nat) : UInt8 := (skbLoadBytes skb offset 1).getD 0 0

/-- The fields as they stand in memory. -/
structure SoEvent where
  srcAddr : Vector UInt8 4
  dstAddr : Vector UInt8 4
  ports : Vector UInt8 4
  ipProto : Vector UInt8 4
  pktType : Vector UInt8 4
  ifindex : Vector UInt8 4
  deriving DecidableEq

def sizeofSoEvent : Nat := 24

def SoEvent.bytes (e : SoEvent) : List UInt8 :=
  e.srcAddr.toList ++ e.dstAddr.toList ++ e.ports.toList ++ e.ipProto.toList ++
    e.pktType.toList ++ e.ifindex.toList

def SoEvent.ofBytes (b : Nat → UInt8) : SoEvent where
  srcAddr := .ofFn (fun i : Fin 4 => b i)
  dstAddr := .ofFn (fun i : Fin 4 => b (4 + i))
  ports := .ofFn (fun i : Fin 4 => b (8 + i))
  ipProto := .ofFn (fun i : Fin 4 => b (12 + i))
  pktType := .ofFn (fun i : Fin 4 => b (16 + i))
  ifindex := .ofFn (fun i : Fin 4 => b (20 + i))

abbrev ringSize : Nat := 256 * 1024

abbrev Ring := RingBuffer ringSize

def ethHlen : Nat := 14

def ethPIp : UInt16 := 0x0800

def ipMf : UInt16 := 0x2000

def ipOffset : UInt16 := 0x1FFF

def ipprotoGre : UInt32 := 47

/-- `offsetof` in `struct iphdr` -/
def fragOff : Nat := 6

def protocol : Nat := 9

def saddr : Nat := 12

def daddr : Nat := 16

def ipIsFragment (skb : SkBuff) (nhoff : Nat) : Bool :=
  ntohs (short (skbLoadBytes skb (nhoff + fragOff) 2)) &&& (ipMf ||| ipOffset) ≠ 0

/-- What `socket_handler` does to the reserved record `e`. -/
def fillEvent (skb : SkBuff) (nhoff : Nat) (e : SoEvent) : SoEvent :=
  -- one byte of the four
  let e := { e with ipProto := .ofFn (fun i : Fin 4 =>
    if i.val = 0 then skbLoadByte skb (nhoff + protocol) else e.ipProto.getD i 0) }
  let e := if word e.ipProto ≠ ipprotoGre then
    { e with
      srcAddr := skbLoadBytes skb (nhoff + saddr) 4
      dstAddr := skbLoadBytes skb (nhoff + daddr) 4 } else e
  let verlen := skbLoadByte skb (nhoff + 0)
  { e with
    ports := skbLoadBytes skb (nhoff + ((verlen &&& 0xF).toNat <<< 2)) 4
    pktType := wordBytes skb.pktType
    ifindex := wordBytes skb.ifindex }

structure Handled where
  rb : Ring
  event : Option SoEvent
  ret : Nat

/-- `header` is what the ring buffer writes in front of the record at a position. -/
def socketHandler (header : Nat → Vector UInt8 RingBuffer.headerLen) (rb : Ring) (skb : SkBuff) :
    Handled :=
  let nhoff := ethHlen
  if ntohs (short (skbLoadBytes skb 12 2)) ≠ ethPIp then ⟨rb, none, 0⟩
  else if ipIsFragment skb nhoff then ⟨rb, none, 0⟩
  else if ¬rb.HasRoom sizeofSoEvent then ⟨rb, none, 0⟩
  else
    let e := fillEvent skb nhoff (.ofBytes rb.reserved)
    ⟨rb.submit (header rb.producerPos).toList e.bytes, some e, skb.len⟩

def packetHost : UInt32 := 0

def ipprotoMax : UInt32 := 263

def ipprotoMapping : Nat → Option Text
  | 0 => some "IP".toList
  | 1 => some "ICMP".toList
  | 2 => some "IGMP".toList
  | 4 => some "IPIP".toList
  | 6 => some "TCP".toList
  | 8 => some "EGP".toList
  | 12 => some "PUP".toList
  | 17 => some "UDP".toList
  | 22 => some "IDP".toList
  | 29 => some "TP".toList
  | 33 => some "DCCP".toList
  | 41 => some "IPV6".toList
  | 46 => some "RSVP".toList
  | 47 => some "GRE".toList
  | 50 => some "ESP".toList
  | 51 => some "AH".toList
  | 92 => some "MTP".toList
  | 94 => some "BEETPH".toList
  | 98 => some "ENCAP".toList
  | 103 => some "PIM".toList
  | 108 => some "COMP".toList
  | 132 => some "SCTP".toList
  | 136 => some "UDPLITE".toList
  | 137 => some "MPLS".toList
  | 255 => some "RAW".toList
  | _ => none

/-- `snprintf` into 16 bytes keeps 15 characters. -/
def ltoa (addr : UInt32) : Text :=
  (decimal ((addr >>> 24) &&& 0xFF).toNat ++ ['.'] ++ decimal ((addr >>> 16) &&& 0xFF).toNat ++
    ['.'] ++ decimal ((addr >>> 8) &&& 0xFF).toNat ++ ['.'] ++ decimal (addr &&& 0xFF).toNat).take 15

def SoEvent.port16 (e : SoEvent) (i : Nat) : UInt16 :=
  short (.ofFn (fun j : Fin 2 => e.ports.getD (2 * i + j) 0))

def printLine (ifname proto sstr : Text) (sport : Nat) (dstr : Text) (dport : Nat) : Text :=
  "interface: ".toList ++ ifname ++ "\tprotocol: ".toList ++ proto ++ ['\t'] ++ sstr ++ [':'] ++
    decimal sport ++ "(src) -> ".toList ++ dstr ++ [':'] ++ decimal dport ++ "(dst)\n".toList

/-- The line that is printed, if any. An entry that the table lacks is a null pointer. -/
def handleEvent (ifIndextoname : UInt32 → Option Text) (e : SoEvent) : Option Text :=
  if word e.pktType ≠ packetHost then none
  else if ipprotoMax ≤ word e.ipProto then none
  else match ifIndextoname (word e.ifindex) with
    | none => none
    | some ifname =>
      some (printLine ifname ((ipprotoMapping (word e.ipProto).toNat).getD "(null)".toList)
        (ltoa (ntohl (word e.srcAddr))) (ntohs (e.port16 0)).toNat
        (ltoa (ntohl (word e.dstAddr))) (ntohs (e.port16 1)).toNat)

inductive Act where
  | frame (skb : SkBuff)
  | poll

structure State where
  rb : Ring
  /-- The frames that got a record, with the record as submitted. -/
  submitted : List (SkBuff × SoEvent)
  /-- What `handle_event` printed for each record it was given. -/
  handled : List (Option Text)

def State.init : State := ⟨.zeroed ringSize, [], []⟩

/-- The kernel and the user side, each call at once. -/
def step (header : Nat → Vector UInt8 RingBuffer.headerLen) (ifIndextoname : UInt32 → Option Text)
    (s : State) : Act → State
  | .frame skb =>
    let handled := socketHandler header s.rb skb
    match handled.event with
    | none => { s with rb := handled.rb }
    | some e => { s with rb := handled.rb, submitted := s.submitted ++ [(skb, e)] }
  | .poll =>
    if s.rb.consumerPos < s.rb.producerPos then
      { s with
        rb := s.rb.release sizeofSoEvent
        handled := s.handled ++ [handleEvent ifIndextoname (.ofBytes s.rb.oldest)] }
    else s

def run (header : Nat → Vector UInt8 RingBuffer.headerLen) (ifIndextoname : UInt32 → Option Text)
    (acts : List Act) : State :=
  acts.foldl (step header ifIndextoname) State.init

end Ebacs.Sockfilter
