import Ebacs.Lib.ElementMap
import Ebacs.Tracecon.PendingCalls

/-! # The probes of `tracecon` as interleaved steps

On several CPUs the handlers of different threads run at the same time, each a
sequence of helper calls and of reads through the pointers these return. Two
of the maps are keyed by thread, so no other handler touches what a handler has
found there. The names are shared, and a connect looks a name up, copies it and
deletes it in three steps.
-/
namespace Ebacs.Tracecon
open Lib
open PageAccess (Pid)
set_option autoImplicit false

structure Shared where
  lookups : ElementMap Tid Lookup maxEntries
  hostnames : ElementMap Address Lookup maxEntries
  sockets : ElementMap Tid Pointer maxEntries
  events : List Event

inductive Pc where
  | updateLookup
  | dropLookup
  | findLookup
  | readResults (lookup : Slot)
  | updateHostname (lookup : Slot) (ipv4Addr : Address)
  | deleteLookup
  | updateSocket
  | dropSocket
  | findSocket
  | readDaddr (sockpp : Slot)
  | findHostname (ip : Address)
  | copyHostname (ip : Address) (lookup : Slot)
  | deleteHostname (ip : Address) (c : Hostname)
  | output (event : Event)
  | deleteSocket
  deriving DecidableEq

/-- The first step of a handler that has found its thread to be a target. -/
def Act.begins : Act → Pc
  | .getaddrinfoEnter _ _ _ => .updateLookup
  | .getaddrinfoExit _ ret _ => if ret ≠ 0 then .dropLookup else .findLookup
  | .tcpV4ConnectEnter _ _ => .updateSocket
  | .tcpV4ConnectExit _ ret _ => if ret ≠ 0 then .dropSocket else .findSocket

section Steps

variable (tid : Tid) (slot : Slot) (m : Shared)

/-- `slot` is the element that an update is given; a linked one is never handed out. The handler
returns with `none`. -/
def getaddrinfoEnterStep (hostname : Option (List UInt8)) (res : Pointer) : Pc → Option Pc × Shared
  | .updateLookup =>
    if h : m.lookups.Linked slot then (some .updateLookup, m)
    else (none, { m with
      lookups := m.lookups.updateElem tid ⟨readUserStr emptyLookup.c hostname, res⟩ slot h })
  | pc => (some pc, m)

def getaddrinfoExitStep (user : UserMemory) : Pc → Option Pc × Shared
  | .dropLookup | .deleteLookup => (none, { m with lookups := m.lookups.deleteElem tid })
  | .findLookup =>
    match m.lookups.slots.lookupElem tid with
    | none => (none, m)
    | some lookup => (some (.readResults lookup), m)
  | .readResults lookup =>
    (some (.updateHostname lookup (readAddress user (m.lookups.elements lookup).results)), m)
  | .updateHostname lookup ipv4Addr =>
    if h : m.hostnames.Linked slot then (some (.updateHostname lookup ipv4Addr), m)
    else (some .deleteLookup, { m with
      hostnames := m.hostnames.updateElem ipv4Addr (m.lookups.elements lookup) slot h })
  | pc => (some pc, m)

def tcpV4ConnectEnterStep (sk : Pointer) : Pc → Option Pc × Shared
  | .updateSocket =>
    if h : m.sockets.Linked slot then (some .updateSocket, m)
    else (none, { m with sockets := m.sockets.updateElem tid sk slot h })
  | pc => (some pc, m)

def tcpV4ConnectExitStep (daddr : Pointer → Option Address) : Pc → Option Pc × Shared
  | .dropSocket | .deleteSocket => (none, { m with sockets := m.sockets.deleteElem tid })
  | .findSocket =>
    match m.sockets.slots.lookupElem tid with
    | none => (none, m)
    | some sockpp => (some (.readDaddr sockpp), m)
  | .readDaddr sockpp => (some (.findHostname ((daddr (m.sockets.elements sockpp)).getD 0)), m)
  | .findHostname ip =>
    match m.hostnames.slots.lookupElem ip with
    | none => (some (.output (ipEvent ip)), m)
    | some lookup => (some (.copyHostname ip lookup), m)
  | .copyHostname ip lookup =>
    -- the element may have been given to another key since it was found
    (some (.deleteHostname ip (m.hostnames.elements lookup).c), m)
  | .deleteHostname ip c =>
    (some (.output (hostnameEvent c)), { m with hostnames := m.hostnames.deleteElem ip })
  | .output event => (some .deleteSocket, { m with events := m.events ++ [event] })
  | pc => (some pc, m)

def Act.advance (pc : Pc) : Act → Option Pc × Shared
  | .getaddrinfoEnter _ hostname res => getaddrinfoEnterStep tid slot m hostname res pc
  | .getaddrinfoExit _ _ user => getaddrinfoExitStep tid slot m user pc
  | .tcpV4ConnectEnter _ sk => tcpV4ConnectEnterStep tid slot m sk pc
  | .tcpV4ConnectExit _ _ daddr => tcpV4ConnectExitStep tid m daddr pc

end Steps

structure System where
  threads : Tid → Option (Act × Pc)
  shared : Shared
  started : List Act

inductive Move where
  | start (act : Act)
  | next (tid : Tid) (slot : Slot)

def System.init (tidBucket : Tid → Nat) (addressBucket : Address → Nat) (lookups : Slot → Lookup)
    (sockets : Slot → Pointer) : System where
  threads := fun _ => none
  shared := ⟨.empty tidBucket lookups, .empty addressBucket lookups, .empty tidBucket sockets, []⟩
  started := []

def System.enter (s : System) (act : Act) : System :=
  { s with
    threads := Function.update s.threads act.tid (some (act, act.begins))
    started := s.started ++ [act] }

/-- A thread that is inside a handler starts no other; a handler of a thread that is not a target
returns at once. -/
def System.start (targetPid : Pid) (s : System) (act : Act) : System :=
  if (s.threads act.tid).isSome then s
  else if Target targetPid act.pidTgid then s.enter act
  else { s with started := s.started ++ [act] }

def System.next (s : System) (tid : Tid) (slot : Slot) : System :=
  match s.threads tid with
  | none => s
  | some (act, pc) =>
    let r := act.advance tid slot s.shared pc
    { s with
      threads := Function.update s.threads tid (r.1.map (fun pc => (act, pc)))
      shared := r.2 }

def System.move (targetPid : Pid) (s : System) : Move → System
  | .start act => s.start targetPid act
  | .next tid slot => s.next tid slot

def interleaved (tidBucket : Tid → Nat) (addressBucket : Address → Nat) (lookups : Slot → Lookup)
    (sockets : Slot → Pointer) (targetPid : Pid) (moves : List Move) : System :=
  moves.foldl (System.move targetPid) (System.init tidBucket addressBucket lookups sockets)

/-- The maps keyed by thread have room for the thread, and a connect deletes the name that it has
copied. -/
def System.Admits (s : System) : Move → Prop
  | .start _ => True
  | .next tid _ =>
    match s.threads tid with
    | some (_, .updateLookup) => s.shared.lookups.Room tid
    | some (_, .updateSocket) => s.shared.sockets.Room tid
    | some (_, .deleteHostname ip c) => (s.shared.hostnames.value ip).map Lookup.c = some c
    | _ => True

end Ebacs.Tracecon
