import Ebacs.Tracecon.Interleaving

/-! # Handlers and their commits

A handler commits where it has its effect on the names, or on the map keyed by
thread if it has none on them. What it does before and after concerns its own
thread only, so the whole handlers in the order of their commits account for
the maps and, apart from the events that are not out yet, for the events.
-/
namespace Ebacs.Tracecon
open Lib
open PageAccess (Pid)
set_option autoImplicit false

/-- A handler has had its effect on the names and has decided its event. -/
def Pc.committed : Pc → Bool
  | .deleteLookup | .output _ | .deleteSocket => true
  | _ => false

/-- The handler of a thread that has not committed yet. -/
def System.open (s : System) (tid : Tid) : List Act :=
  match s.threads tid with
  | some (act, pc) => if pc.committed then [] else [act]
  | none => []

/-- What a handler knows at a step. -/
def Act.At (m : Shared) : Act → Pc → Prop
  | .getaddrinfoEnter _ _ _, .updateLookup => True
  | .getaddrinfoExit _ ret _, .dropLookup => ret ≠ 0
  | .getaddrinfoExit _ ret _, .findLookup => ret = 0
  | .getaddrinfoExit pidTgid ret _, .readResults slot =>
    ret = 0 ∧ ∃ lookup, m.lookups.Points pidTgid.toUInt32 slot lookup
  | .getaddrinfoExit pidTgid ret user, .updateHostname slot ipv4Addr =>
    ret = 0 ∧ ∃ lookup, m.lookups.Points pidTgid.toUInt32 slot lookup ∧
      ipv4Addr = readAddress user lookup.results
  | .getaddrinfoExit _ _ _, .deleteLookup => True
  | .tcpV4ConnectEnter _ _, .updateSocket => True
  | .tcpV4ConnectExit _ ret _, .dropSocket => ret ≠ 0
  | .tcpV4ConnectExit _ ret _, .findSocket => ret = 0
  | .tcpV4ConnectExit pidTgid ret _, .readDaddr slot =>
    ret = 0 ∧ ∃ sk, m.sockets.Points pidTgid.toUInt32 slot sk
  | .tcpV4ConnectExit pidTgid ret daddr, .findHostname ip
  | .tcpV4ConnectExit pidTgid ret daddr, .copyHostname ip _
  | .tcpV4ConnectExit pidTgid ret daddr, .deleteHostname ip _ =>
    ret = 0 ∧ ∃ sk, m.sockets.value pidTgid.toUInt32 = some sk ∧ ip = (daddr sk).getD 0
  | .tcpV4ConnectExit _ _ _, .output _ | .tcpV4ConnectExit _ _ _, .deleteSocket => True
  | _, _ => False

/-- What the whole handlers have left of the lookup of a thread. -/
def Pc.lookup? (m : Shared) (tid : Tid) : Option Pc → Option Lookup
  | some .deleteLookup => none
  | _ => m.lookups.value tid

def Pc.socket? (m : Shared) (tid : Tid) : Option Pc → Option Pointer
  | some (.output _) | some .deleteSocket => none
  | _ => m.sockets.value tid

def System.pc (s : System) (tid : Tid) : Option Pc := (s.threads tid).map Prod.snd

/-- The interleaved handlers against the whole ones, in the order of their commits. The events in
`owed` are decided and not out yet. -/
structure Refines (targetPid : Pid) (s : System) (order : List Act) (t : Maps)
    (owed : List (Tid × Event)) : Prop where
  program : ∀ tid, order.filter (·.tid = tid) ++ s.open tid = s.started.filter (·.tid = tid)
  own : ∀ tid act pc, s.threads tid = some (act, pc) →
    act.tid = tid ∧ Target targetPid act.pidTgid ∧ act.At s.shared pc
  lookups : ∀ tid, t.lookups.lookupElem tid = Pc.lookup? s.shared tid (s.pc tid)
  sockets : ∀ tid, t.sockets.lookupElem tid = Pc.socket? s.shared tid (s.pc tid)
  hostnames : ∀ a, t.hostnames.lookupElem a = s.shared.hostnames.value a
  events : (s.shared.events ++ owed.map Prod.snd).Perm t.events
  owing : ∀ tid event, (tid, event) ∈ owed ↔ ∃ act, s.threads tid = some (act, .output event)
  once : owed.Nodup

/-! ## One thread at a time -/

section Next

variable {s : System} {tid tid' : Tid} {act : Act} {pc : Pc} {slot : Slot} {next : Option Pc}
  {m : Shared}

theorem System.next_eq (hThread : s.threads tid = some (act, pc))
    (hAdvance : act.advance tid slot s.shared pc = (next, m)) :
    s.next tid slot = { s with
      threads := Function.update s.threads tid (next.map (fun pc => (act, pc)))
      shared := m } := by
  rw [System.next, hThread]
  dsimp only
  rw [hAdvance]

theorem System.threads_other (h : tid' ≠ tid) :
    (s.next tid slot).threads tid' = s.threads tid' := by
  rw [System.next]
  split
  · rfl
  · exact Function.update_of_ne h ..

theorem System.threads_self (hThread : s.threads tid = some (act, pc))
    (hAdvance : act.advance tid slot s.shared pc = (next, m)) :
    (s.next tid slot).threads tid = next.map (fun pc => (act, pc)) := by
  rw [System.next_eq hThread hAdvance]
  exact Function.update_self ..

theorem System.pc_self (hThread : s.threads tid = some (act, pc))
    (hAdvance : act.advance tid slot s.shared pc = (next, m)) :
    (s.next tid slot).pc tid = next := by
  rw [System.pc, System.threads_self hThread hAdvance, Option.map_map]
  exact Option.map_id'

end Next

theorem Pc.lookup?_congr {m m' : Shared} {tid : Tid}
    (h : m'.lookups.value tid = m.lookups.value tid) (pc : Option Pc) :
    Pc.lookup? m' tid pc = Pc.lookup? m tid pc := by
  unfold Pc.lookup?
  split
  · rfl
  · exact h

theorem Pc.socket?_congr {m m' : Shared} {tid : Tid}
    (h : m'.sockets.value tid = m.sockets.value tid) (pc : Option Pc) :
    Pc.socket? m' tid pc = Pc.socket? m tid pc := by
  unfold Pc.socket?
  split
  · rfl
  · rfl
  · exact h

theorem Act.At.frame {m m' : Shared} {act : Act} {pc : Pc} (h : act.At m pc)
    (hLookups : ElementMap.Keeps m.lookups m'.lookups act.tid)
    (hSockets : ElementMap.Keeps m.sockets m'.sockets act.tid) : act.At m' pc := by
  cases act with
  | getaddrinfoEnter pidTgid hostname res => cases pc <;> exact h
  | tcpV4ConnectEnter pidTgid sk => cases pc <;> exact h
  | getaddrinfoExit pidTgid ret user =>
    cases pc with
    | readResults slot =>
      obtain ⟨hRet, lookup, hPoints⟩ := h
      exact ⟨hRet, lookup, hLookups.points hPoints⟩
    | updateHostname slot ipv4Addr =>
      obtain ⟨hRet, lookup, hPoints, hAddress⟩ := h
      exact ⟨hRet, lookup, hLookups.points hPoints, hAddress⟩
    | _ => exact h
  | tcpV4ConnectExit pidTgid ret daddr =>
    cases pc with
    | readDaddr slot =>
      obtain ⟨hRet, sk, hPoints⟩ := h
      exact ⟨hRet, sk, hSockets.points hPoints⟩
    | findHostname ip =>
      obtain ⟨hRet, sk, hValue, hAddress⟩ := h
      exact ⟨hRet, sk, hSockets.value.trans hValue, hAddress⟩
    | copyHostname ip slot =>
      obtain ⟨hRet, sk, hValue, hAddress⟩ := h
      exact ⟨hRet, sk, hSockets.value.trans hValue, hAddress⟩
    | deleteHostname ip c =>
      obtain ⟨hRet, sk, hValue, hAddress⟩ := h
      exact ⟨hRet, sk, hSockets.value.trans hValue, hAddress⟩
    | _ => exact h

/-- A handler touches the entries of its own thread only. -/
theorem Act.advance_keeps {tid tid' : Tid} (h : tid' ≠ tid) (slot : Slot) (m : Shared) (pc : Pc)
    (act : Act) :
    ElementMap.Keeps m.lookups (act.advance tid slot m pc).2.lookups tid' ∧
      ElementMap.Keeps m.sockets (act.advance tid slot m pc).2.sockets tid' := by
  cases act with
  | getaddrinfoEnter pidTgid hostname res =>
    cases pc with
    | updateLookup =>
      rw [advance, getaddrinfoEnterStep]
      split
      · exact ⟨.refl _ _, .refl _ _⟩
      · rename_i hSlot
        exact ⟨m.lookups.keeps_updateElem h _ _ hSlot, .refl _ _⟩
    | _ => exact ⟨.refl _ _, .refl _ _⟩
  | getaddrinfoExit pidTgid ret user =>
    cases pc with
    | dropLookup => exact ⟨m.lookups.keeps_deleteElem h, .refl _ _⟩
    | deleteLookup => exact ⟨m.lookups.keeps_deleteElem h, .refl _ _⟩
    | findLookup =>
      rw [advance, getaddrinfoExitStep]
      split <;> exact ⟨.refl _ _, .refl _ _⟩
    | updateHostname lookup ipv4Addr =>
      rw [advance, getaddrinfoExitStep]
      split <;> exact ⟨.refl _ _, .refl _ _⟩
    | _ => exact ⟨.refl _ _, .refl _ _⟩
  | tcpV4ConnectEnter pidTgid sk =>
    cases pc with
    | updateSocket =>
      rw [advance, tcpV4ConnectEnterStep]
      split
      · exact ⟨.refl _ _, .refl _ _⟩
      · rename_i hSlot
        exact ⟨.refl _ _, m.sockets.keeps_updateElem h _ _ hSlot⟩
    | _ => exact ⟨.refl _ _, .refl _ _⟩
  | tcpV4ConnectExit pidTgid ret daddr =>
    cases pc with
    | dropSocket => exact ⟨.refl _ _, m.sockets.keeps_deleteElem h⟩
    | deleteSocket => exact ⟨.refl _ _, m.sockets.keeps_deleteElem h⟩
    | findSocket =>
      rw [advance, tcpV4ConnectExitStep]
      split <;> exact ⟨.refl _ _, .refl _ _⟩
    | findHostname ip =>
      rw [advance, tcpV4ConnectExitStep]
      split <;> exact ⟨.refl _ _, .refl _ _⟩
    | _ => exact ⟨.refl _ _, .refl _ _⟩

theorem step_other (targetPid : Pid) (t : Maps) (act : Act) {tid : Tid} (h : tid ≠ act.tid) :
    (step targetPid t act).lookups.lookupElem tid = t.lookups.lookupElem tid ∧
      (step targetPid t act).sockets.lookupElem tid = t.sockets.lookupElem tid := by
  by_cases hTarget : Target targetPid act.pidTgid
  · have hTid := getTid_of_target hTarget
    have hUpdate : ∀ {ν : Type} (m : BoundedMap Tid ν maxEntries) (v : ν),
        ((m.updateElem act.tid v).getD m).lookupElem tid = m.lookupElem tid := by
      intro ν m v
      rw [BoundedMap.lookupElem_updateElem, if_neg (fun hEq => h hEq.1)]
    have hDelete : ∀ {ν : Type} (m : BoundedMap Tid ν maxEntries),
        (m.deleteElem act.tid).lookupElem tid = m.lookupElem tid := by
      intro ν m
      rw [BoundedMap.lookupElem_deleteElem, if_neg h]
    cases act with
    | getaddrinfoEnter pidTgid hostname res =>
      change Target targetPid pidTgid at hTarget
      rw [step, getaddrinfoEnter_of_target t hTarget]
      exact ⟨hUpdate _ _, rfl⟩
    | getaddrinfoExit pidTgid ret user =>
      change getTid targetPid pidTgid = pidTgid.toUInt32 at hTid
      simp only [step, getaddrinfoExit, hTid]
      split
      · exact ⟨rfl, rfl⟩
      · split
        · exact ⟨hDelete _, rfl⟩
        · split
          · exact ⟨rfl, rfl⟩
          · exact ⟨hDelete _, rfl⟩
    | tcpV4ConnectEnter pidTgid sk =>
      change Target targetPid pidTgid at hTarget
      rw [step, tcpV4ConnectEnter_of_target t hTarget]
      exact ⟨rfl, hUpdate _ _⟩
    | tcpV4ConnectExit pidTgid ret daddr =>
      change getTid targetPid pidTgid = pidTgid.toUInt32 at hTid
      simp only [step, tcpV4ConnectExit, hTid]
      split
      · exact ⟨rfl, rfl⟩
      · split
        · exact ⟨rfl, hDelete _⟩
        · split
          · exact ⟨rfl, rfl⟩
          · split
            · exact ⟨rfl, hDelete _⟩
            · exact ⟨rfl, hDelete _⟩
  · rw [step_of_not_target hTarget]
    exact ⟨rfl, rfl⟩

section Steps

variable {targetPid : Pid} {s : System} {order : List Act} {t : Maps} {owed : List (Tid × Event)}
  {tid : Tid} {act : Act} {pc : Pc} {slot : Slot} {next : Option Pc} {m : Shared}

/-- What is left to show of a step of one thread. -/
theorem Refines.set (h : Refines targetPid s order t owed) (hThread : s.threads tid = some (act, pc))
    (hAdvance : act.advance tid slot s.shared pc = (next, m))
    {order' : List Act} {t' : Maps} {owed' : List (Tid × Event)}
    (hOthers : ∀ tid', tid' ≠ tid → order'.filter (·.tid = tid') = order.filter (·.tid = tid') ∧
      t'.lookups.lookupElem tid' = t.lookups.lookupElem tid' ∧
      t'.sockets.lookupElem tid' = t.sockets.lookupElem tid')
    (hProgram : order'.filter (·.tid = tid) ++ (s.next tid slot).open tid =
      order.filter (·.tid = tid) ++ s.open tid)
    (hAt : ∀ pc', next = some pc' → act.At m pc')
    (hLookup : t'.lookups.lookupElem tid = Pc.lookup? m tid next)
    (hSocket : t'.sockets.lookupElem tid = Pc.socket? m tid next)
    (hNames : ∀ a, t'.hostnames.lookupElem a = m.hostnames.value a)
    (hEvents : (m.events ++ owed'.map Prod.snd).Perm t'.events)
    (hOwing : ∀ tid' event, (tid', event) ∈ owed' ↔
      if tid' = tid then next = some (.output event) else (tid', event) ∈ owed)
    (hOnce : owed'.Nodup) :
    Refines targetPid (s.next tid slot) order' t' owed' := by
  obtain ⟨hTid, hTarget, -⟩ := h.own tid act pc hThread
  have hShared : (s.next tid slot).shared = m := by rw [System.next_eq hThread hAdvance]
  have hStarted : (s.next tid slot).started = s.started := by rw [System.next_eq hThread hAdvance]
  have hSelf := System.threads_self hThread hAdvance
  have hKeeps : ∀ tid', tid' ≠ tid → ElementMap.Keeps s.shared.lookups m.lookups tid' ∧
      ElementMap.Keeps s.shared.sockets m.sockets tid' := by
    intro tid' hOther
    have hFrame := Act.advance_keeps hOther slot s.shared pc act
    rwa [hAdvance] at hFrame
  constructor
  case program =>
    intro tid'
    rw [hStarted]
    obtain rfl | hOther := eq_or_ne tid' tid
    · exact hProgram.trans (h.program tid')
    · rw [System.open, System.threads_other hOther, (hOthers tid' hOther).1]
      exact h.program tid'
  case own =>
    intro tid' act' pc' hThread'
    rw [hShared]
    obtain rfl | hOther := eq_or_ne tid' tid
    · rw [hSelf, Option.map_eq_some_iff] at hThread'
      obtain ⟨pc'', hNext, hEq⟩ := hThread'
      obtain ⟨rfl, rfl⟩ := Prod.mk.inj hEq
      exact ⟨hTid, hTarget, hAt _ hNext⟩
    · rw [System.threads_other hOther] at hThread'
      obtain ⟨rfl, hTarget', hAt'⟩ := h.own tid' act' pc' hThread'
      obtain ⟨hLookups, hSockets⟩ := hKeeps _ hOther
      exact ⟨rfl, hTarget', hAt'.frame hLookups hSockets⟩
  case lookups =>
    intro tid'
    rw [hShared]
    obtain rfl | hOther := eq_or_ne tid' tid
    · rw [System.pc_self hThread hAdvance]
      exact hLookup
    · have hPc : (s.next tid slot).pc tid' = s.pc tid' := by
        rw [System.pc, System.threads_other hOther, System.pc]
      have hValue := (hKeeps tid' hOther).1.value
      rw [hPc, (hOthers tid' hOther).2.1, h.lookups, Pc.lookup?_congr hValue]
  case sockets =>
    intro tid'
    rw [hShared]
    obtain rfl | hOther := eq_or_ne tid' tid
    · rw [System.pc_self hThread hAdvance]
      exact hSocket
    · have hPc : (s.next tid slot).pc tid' = s.pc tid' := by
        rw [System.pc, System.threads_other hOther, System.pc]
      have hValue := (hKeeps tid' hOther).2.value
      rw [hPc, (hOthers tid' hOther).2.2, h.sockets, Pc.socket?_congr hValue]
  case hostnames =>
    rw [hShared]
    exact hNames
  case events =>
    rw [hShared]
    exact hEvents
  case owing =>
    intro tid' event
    rw [hOwing]
    obtain rfl | hOther := eq_or_ne tid' tid
    · rw [if_pos rfl, hSelf]
      constructor
      · rintro rfl
        exact ⟨act, rfl⟩
      · rintro ⟨act', hEq⟩
        obtain ⟨pc', hNext, hPair⟩ := Option.map_eq_some_iff.mp hEq
        rw [hNext, (Prod.mk.inj hPair).2]
    · rw [if_neg hOther, System.threads_other hOther]
      exact h.owing tid' event
  case once => exact hOnce

theorem Pc.lookup?_open {pc : Pc} (hOpen : pc.committed = false) (m : Shared) (tid : Tid) :
    Pc.lookup? m tid (some pc) = m.lookups.value tid := by
  cases pc with
  | deleteLookup => cases hOpen
  | _ => rfl

theorem Pc.socket?_open {pc : Pc} (hOpen : pc.committed = false) (m : Shared) (tid : Tid) :
    Pc.socket? m tid (some pc) = m.sockets.value tid := by
  cases pc with
  | output event => cases hOpen
  | deleteSocket => cases hOpen
  | _ => rfl

theorem Refines.lookup_open (h : Refines targetPid s order t owed)
    (hThread : s.threads tid = some (act, pc)) (hOpen : pc.committed = false) :
    t.lookups.lookupElem tid = s.shared.lookups.value tid := by
  rw [h.lookups, System.pc, hThread]
  exact Pc.lookup?_open hOpen s.shared tid

theorem Refines.socket_open (h : Refines targetPid s order t owed)
    (hThread : s.threads tid = some (act, pc)) (hOpen : pc.committed = false) :
    t.sockets.lookupElem tid = s.shared.sockets.value tid := by
  rw [h.sockets, System.pc, hThread]
  exact Pc.socket?_open hOpen s.shared tid

theorem Refines.not_owed (h : Refines targetPid s order t owed)
    (hThread : s.threads tid = some (act, pc)) {event : Event} (hPc : pc ≠ .output event) :
    (tid, event) ∉ owed := by
  rw [h.owing]
  rintro ⟨act', hOut⟩
  exact hPc (Prod.mk.inj (Option.some.inj (hThread.symm.trans hOut))).2

/-- A step before the commit that changes nothing. -/
theorem Refines.wait (h : Refines targetPid s order t owed)
    (hThread : s.threads tid = some (act, pc)) (hOpen : pc.committed = false) {pc' : Pc}
    (hAdvance : act.advance tid slot s.shared pc = (some pc', s.shared))
    (hOpen' : pc'.committed = false) (hAt : act.At s.shared pc') :
    Refines targetPid (s.next tid slot) order t owed := by
  refine h.set hThread hAdvance (fun _ _ => ⟨rfl, rfl, rfl⟩) ?_ ?_ ?_ ?_ h.hostnames h.events ?_
    h.once
  · rw [System.open, System.open, hThread, System.threads_self hThread hAdvance]
    simp [hOpen, hOpen']
  · rintro _ ⟨⟩
    exact hAt
  · rw [h.lookup_open hThread hOpen, Pc.lookup?_open hOpen']
  · rw [h.socket_open hThread hOpen, Pc.socket?_open hOpen']
  · intro tid' event
    obtain rfl | hOther := eq_or_ne tid' tid
    · rw [if_pos rfl]
      refine iff_of_false (h.not_owed hThread ?_) ?_
      · rintro rfl
        cases hOpen
      · rintro ⟨rfl⟩
        cases hOpen'
    · rw [if_neg hOther]

/-- The commit: the whole handler takes place, and its event is owed. -/
theorem Refines.commit (h : Refines targetPid s order t owed)
    (hThread : s.threads tid = some (act, pc)) (hOpen : pc.committed = false)
    (hAdvance : act.advance tid slot s.shared pc = (next, m))
    (hNext : ∀ pc', next = some pc' → pc'.committed = true ∧ act.At m pc') (event? : Option Event)
    (hOutput : ∀ event, next = some (.output event) ↔ event? = some event)
    (hEvents : m.events = s.shared.events)
    (hLookup : (step targetPid t act).lookups.lookupElem tid = Pc.lookup? m tid next)
    (hSocket : (step targetPid t act).sockets.lookupElem tid = Pc.socket? m tid next)
    (hNames : ∀ a, (step targetPid t act).hostnames.lookupElem a = m.hostnames.value a)
    (hEmits : (step targetPid t act).events = t.events ++ event?.toList) :
    ∃ owed', Refines targetPid (s.next tid slot) (order ++ [act]) (step targetPid t act) owed' := by
  obtain ⟨rfl, -, -⟩ := h.own tid act pc hThread
  have hNot : ∀ event, (act.tid, event) ∉ owed := by
    intro event
    refine h.not_owed hThread ?_
    rintro rfl
    cases hOpen
  refine ⟨owed ++ event?.toList.map (fun event => (act.tid, event)), h.set hThread hAdvance ?_ ?_
    (fun pc' hPc => (hNext pc' hPc).2) hLookup hSocket hNames ?_ ?_ ?_⟩
  · intro tid' hOther
    refine ⟨?_, step_other targetPid t act hOther⟩
    simp [List.filter_append, Ne.symm hOther]
  · have hClosed : (s.next act.tid slot).open act.tid = [] := by
      rw [System.open, System.threads_self hThread hAdvance]
      cases hCase : next with
      | none => rfl
      | some pc' => exact if_pos (hNext pc' hCase).1
    have hStill : s.open act.tid = [act] := by
      rw [System.open, hThread]
      exact if_neg (by simp [hOpen])
    rw [hClosed, hStill]
    simp [List.filter_append]
  · have hMap : (event?.toList.map (fun event => (act.tid, event))).map Prod.snd =
        event?.toList := by simp
    rw [hEvents, hEmits, List.map_append, ← List.append_assoc, hMap]
    exact h.events.append_right _
  · intro tid' event
    rw [List.mem_append]
    obtain rfl | hOther := eq_or_ne tid' act.tid
    · rw [if_pos rfl, hOutput]
      simp [hNot event]
    · rw [if_neg hOther]
      simp [Ne.symm hOther]
  · refine h.once.append ?_ ?_
    · cases event? <;> simp
    · intro x hx hx'
      obtain ⟨event, -, rfl⟩ := List.mem_map.mp hx'
      exact hNot event hx

/-- A commit that ends the handler and leaves names and events alone. -/
theorem Refines.commit_silent (h : Refines targetPid s order t owed)
    (hThread : s.threads tid = some (act, pc)) (hOpen : pc.committed = false)
    (hAdvance : act.advance tid slot s.shared pc = (none, m))
    (hNames : m.hostnames = s.shared.hostnames) (hEvents : m.events = s.shared.events) {t' : Maps}
    (hStep : step targetPid t act = t') (hNames' : t'.hostnames = t.hostnames)
    (hEvents' : t'.events = t.events) (hLookup : t'.lookups.lookupElem tid = m.lookups.value tid)
    (hSocket : t'.sockets.lookupElem tid = m.sockets.value tid) :
    ∃ owed', Refines targetPid (s.next tid slot) (order ++ [act]) (step targetPid t act) owed' := by
  rw [← hStep] at hNames' hEvents' hLookup hSocket
  refine h.commit hThread hOpen hAdvance nofun none (by simp) hEvents hLookup hSocket ?_ ?_
  · rw [hNames, hNames']
    exact h.hostnames
  · rw [hEvents']
    exact (List.append_nil _).symm

/-- A step behind the commit that takes nothing from what is owed. -/
theorem Refines.close (h : Refines targetPid s order t owed)
    (hThread : s.threads tid = some (act, pc)) (hDone : pc.committed = true)
    (hPc : ∀ event, pc ≠ .output event)
    (hAdvance : act.advance tid slot s.shared pc = (none, m))
    (hLookup : t.lookups.lookupElem tid = m.lookups.value tid)
    (hSocket : t.sockets.lookupElem tid = m.sockets.value tid)
    (hNames : m.hostnames = s.shared.hostnames) (hEvents : m.events = s.shared.events) :
    Refines targetPid (s.next tid slot) order t owed := by
  refine h.set hThread hAdvance (fun _ _ => ⟨rfl, rfl, rfl⟩) ?_ nofun hLookup hSocket ?_ ?_ ?_
    h.once
  · rw [System.open, System.open, hThread, System.threads_self hThread hAdvance]
    simp [hDone]
  · rw [hNames]
    exact h.hostnames
  · rw [hEvents]
    exact h.events
  · intro tid' event
    obtain rfl | hOther := eq_or_ne tid' tid
    · rw [if_pos rfl]
      exact iff_of_false (h.not_owed hThread (hPc event)) nofun
    · rw [if_neg hOther]

theorem Refines.room_lookups (h : Refines targetPid s order t owed)
    (hRoom : s.shared.lookups.Room tid) : tid ∈ t.lookups ∨ t.lookups.size < maxEntries := by
  refine hRoom.of_subset ?_
  intro tid' hMem
  obtain ⟨lookup, hLookup⟩ := BoundedMap.mem_iff_lookupElem.mp hMem
  rw [h.lookups] at hLookup
  unfold Pc.lookup? at hLookup
  split at hLookup
  · cases hLookup
  · exact ElementMap.mem_slots_iff.mpr ⟨lookup, hLookup⟩

theorem Refines.room_sockets (h : Refines targetPid s order t owed)
    (hRoom : s.shared.sockets.Room tid) : tid ∈ t.sockets ∨ t.sockets.size < maxEntries := by
  refine hRoom.of_subset ?_
  intro tid' hMem
  obtain ⟨sk, hSocket⟩ := BoundedMap.mem_iff_lookupElem.mp hMem
  rw [h.sockets] at hSocket
  unfold Pc.socket? at hSocket
  split at hSocket
  · cases hSocket
  · cases hSocket
  · exact ElementMap.mem_slots_iff.mpr ⟨sk, hSocket⟩

end Steps

end Ebacs.Tracecon
