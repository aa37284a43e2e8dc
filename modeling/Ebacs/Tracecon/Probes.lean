import Ebacs.Lib.BoundedMap
import Ebacs.Lib.Bytes
import Ebacs.PageAccess.Probes

/-! # The probes of `tracecon`

The four probes of `tracecon.bpf.c` over their three maps. Two maps are keyed
by thread and hold what the enter probe of a pending call saw; the third is
keyed by address and shared by all threads.
-/
namespace Ebacs.Tracecon
open Lib
open PageAccess (Pid currentPid)
set_option autoImplicit false

abbrev Tid := UInt32

abbrev Address := UInt32

abbrev Pointer := UInt64

abbrev hostnameLen : Nat := 84

abbrev maxEntries : Nat := 10240

abbrev Hostname := Vector UInt8 hostnameLen

structure Lookup where
  c : Hostname
  results : Pointer
  deriving DecidableEq

structure Event where
  tag : UInt8
  ip : Vector UInt8 4
  hostname : Hostname
  deriving DecidableEq

structure Maps where
  lookups : BoundedMap Tid Lookup maxEntries
  hostnames : BoundedMap Address Lookup maxEntries
  sockets : BoundedMap Tid Pointer maxEntries
  events : List Event

def Maps.init (tidBucket : Tid → Nat) (addressBucket : Address → Nat) : Maps :=
  ⟨.empty tidBucket, .empty addressBucket, .empty tidBucket, []⟩

/-- User memory as `bpf_probe_read_user` sees it; `none` is a failed read. -/
structure UserMemory where
  pointer : Pointer → Option Pointer
  word : Pointer → Option UInt32

def getTid (targetPid : Pid) (pidTgid : UInt64) : Tid :=
  let pid := currentPid pidTgid
  if targetPid ≠ 0 ∧ targetPid ≠ pid then 0 else pidTgid.toUInt32

/-- A failed read clears its destination. -/
def readUserStr (dst : Hostname) : Option (List UInt8) → Hostname
  | some src => readStr dst src
  | none => .replicate hostnameLen 0

def emptyLookup : Lookup := ⟨.replicate hostnameLen 0, 0⟩

def getaddrinfoEnter (targetPid : Pid) (s : Maps) (pidTgid : UInt64)
    (hostname : Option (List UInt8)) (res : Pointer) : Maps :=
  let tid := getTid targetPid pidTgid
  if tid = 0 then s
  else
    let lookup : Lookup := ⟨readUserStr emptyLookup.c hostname, res⟩
    { s with lookups := (s.lookups.updateElem tid lookup).getD s.lookups }

/-- `offsetof(struct addrinfo, ai_addr)` -/
def aiAddr : Pointer := 24

/-- `offsetof(struct sockaddr_in, sin_addr)` -/
def sinAddr : Pointer := 4

/-- The chain of reads from `lookup->results`; each failed read leaves a zero behind. -/
def readAddress (user : UserMemory) (results : Pointer) : Address :=
  let result := (user.pointer results).getD 0
  let addr := (user.pointer (result + aiAddr)).getD 0
  (user.word (addr + sinAddr)).getD 0

def getaddrinfoExit (targetPid : Pid) (s : Maps) (pidTgid : UInt64) (ret : Int32)
    (user : UserMemory) : Maps :=
  let tid := getTid targetPid pidTgid
  if tid = 0 then s
  else if ret ≠ 0 then { s with lookups := s.lookups.deleteElem tid }
  else match s.lookups.lookupElem tid with
    | none => s
    | some lookup =>
      let ipv4Addr := readAddress user lookup.results
      { s with
        hostnames := (s.hostnames.updateElem ipv4Addr lookup).getD s.hostnames
        lookups := s.lookups.deleteElem tid }

def tcpV4ConnectEnter (targetPid : Pid) (s : Maps) (pidTgid : UInt64) (sk : Pointer) : Maps :=
  let tid := getTid targetPid pidTgid
  if tid = 0 then s
  else { s with sockets := (s.sockets.updateElem tid sk).getD s.sockets }

def ipEvent (ip : Address) : Event := ⟨0, wordBytes ip, .replicate hostnameLen 0⟩

def hostnameEvent (c : Hostname) : Event := ⟨1, .replicate 4 0, c⟩

/-- `daddr` reads `__sk_common.skc_daddr` of a socket. -/
def tcpV4ConnectExit (targetPid : Pid) (s : Maps) (pidTgid : UInt64) (ret : Int32)
    (daddr : Pointer → Option Address) : Maps :=
  let tid := getTid targetPid pidTgid
  if tid = 0 then s
  else if ret ≠ 0 then { s with sockets := s.sockets.deleteElem tid }
  else match s.sockets.lookupElem tid with
    | none => s
    | some sk =>
      let ip := (daddr sk).getD 0
      match s.hostnames.lookupElem ip with
      | none =>
        { s with
          events := s.events ++ [ipEvent ip]
          sockets := s.sockets.deleteElem tid }
      | some lookup =>
        { s with
          hostnames := s.hostnames.deleteElem ip
          events := s.events ++ [hostnameEvent lookup.c]
          sockets := s.sockets.deleteElem tid }

inductive Act where
  | getaddrinfoEnter (pidTgid : UInt64) (hostname : Option (List UInt8)) (res : Pointer)
  | getaddrinfoExit (pidTgid : UInt64) (ret : Int32) (user : UserMemory)
  | tcpV4ConnectEnter (pidTgid : UInt64) (sk : Pointer)
  | tcpV4ConnectExit (pidTgid : UInt64) (ret : Int32) (daddr : Pointer → Option Address)

def Act.pidTgid : Act → UInt64
  | .getaddrinfoEnter pidTgid _ _ => pidTgid
  | .getaddrinfoExit pidTgid _ _ => pidTgid
  | .tcpV4ConnectEnter pidTgid _ => pidTgid
  | .tcpV4ConnectExit pidTgid _ _ => pidTgid

def Act.tid (a : Act) : Tid := a.pidTgid.toUInt32

def step (targetPid : Pid) (s : Maps) : Act → Maps
  | .getaddrinfoEnter pidTgid hostname res => getaddrinfoEnter targetPid s pidTgid hostname res
  | .getaddrinfoExit pidTgid ret user => getaddrinfoExit targetPid s pidTgid ret user
  | .tcpV4ConnectEnter pidTgid sk => tcpV4ConnectEnter targetPid s pidTgid sk
  | .tcpV4ConnectExit pidTgid ret daddr => tcpV4ConnectExit targetPid s pidTgid ret daddr

def run (tidBucket : Tid → Nat) (addressBucket : Address → Nat) (targetPid : Pid)
    (acts : List Act) : Maps :=
  acts.foldl (step targetPid) (Maps.init tidBucket addressBucket)

/-- A thread of a target process, with a TID that the probes can tell from "no thread". -/
def Target (targetPid : Pid) (pidTgid : UInt64) : Prop :=
  (targetPid = 0 ∨ targetPid = currentPid pidTgid) ∧ pidTgid.toUInt32 ≠ 0

instance (targetPid : Pid) (pidTgid : UInt64) : Decidable (Target targetPid pidTgid) :=
  inferInstanceAs (Decidable (_ ∧ _))

theorem getTid_of_target {targetPid : Pid} {pidTgid : UInt64} (h : Target targetPid pidTgid) :
    getTid targetPid pidTgid = pidTgid.toUInt32 := by
  rw [getTid, if_neg]
  rintro ⟨hSome, hOther⟩
  exact h.1.elim hSome hOther

theorem getTid_of_not_target {targetPid : Pid} {pidTgid : UInt64}
    (h : ¬Target targetPid pidTgid) : getTid targetPid pidTgid = 0 := by
  rw [getTid]
  split
  · rfl
  · rename_i hSelected
    by_contra hTid
    refine h ⟨?_, hTid⟩
    by_contra hOther
    rw [not_or] at hOther
    exact hSelected hOther

theorem step_of_not_target {targetPid : Pid} {s : Maps} {a : Act}
    (h : ¬Target targetPid a.pidTgid) : step targetPid s a = s := by
  have hTid := getTid_of_not_target h
  cases a with
  | getaddrinfoEnter pidTgid hostname res => exact if_pos hTid
  | getaddrinfoExit pidTgid ret user => exact if_pos hTid
  | tcpV4ConnectEnter pidTgid sk => exact if_pos hTid
  | tcpV4ConnectExit pidTgid ret daddr => exact if_pos hTid

end Ebacs.Tracecon
