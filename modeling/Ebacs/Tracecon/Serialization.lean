import Ebacs.Tracecon.Commits

/-! # When interleaved handlers act like whole ones

Every step of a handler keeps the account of the commits, as long as a connect
deletes the name that it has copied. Handlers that have all returned then have
done what whole handlers do in some order.
-/
namespace Ebacs.Tracecon
open Lib
open PageAccess (Pid)
set_option autoImplicit false

section Steps

variable {targetPid : Pid} {s : System} {order : List Act} {t : Maps} {owed : List (Tid × Event)}
  {tid : Tid} {act : Act} {pc : Pc} {slot : Slot}

/-- A step leaves the whole handlers alone, or it adds one. -/
def Advances (targetPid : Pid) (s : System) (order : List Act) (t : Maps) (act : Act) : Prop :=
  (∃ owed, Refines targetPid s order t owed) ∨
  ∃ owed, Refines targetPid s (order ++ [act]) (step targetPid t act) owed

theorem Refines.getaddrinfoEnter {pidTgid : UInt64} {hostname : Option (List UInt8)}
    {res : Pointer} (h : Refines targetPid s order t owed)
    (hThread : s.threads tid = some (.getaddrinfoEnter pidTgid hostname res, pc))
    (hAdmits : s.Admits (.next tid slot)) :
    Advances targetPid (s.next tid slot) order t (.getaddrinfoEnter pidTgid hostname res) := by
  obtain ⟨rfl, hTarget, hAt⟩ := h.own _ _ _ hThread
  cases pc with
  | updateLookup =>
    rw [System.Admits, hThread] at hAdmits
    by_cases hSlot : s.shared.lookups.Linked slot
    · exact .inl ⟨owed, h.wait hThread rfl (dif_pos hSlot) rfl trivial⟩
    · refine .inr (h.commit_silent hThread rfl (dif_neg hSlot) rfl rfl
        (getaddrinfoEnter_of_target t hTarget hostname res) rfl rfl ?_ (h.socket_open hThread rfl))
      rw [BoundedMap.lookupElem_updateElem, if_pos ⟨rfl, h.room_lookups hAdmits⟩]
      exact (ElementMap.value_updateElem_self hSlot hAdmits).symm
  | _ => exact hAt.elim

theorem Refines.tcpV4ConnectEnter {pidTgid : UInt64} {sk : Pointer}
    (h : Refines targetPid s order t owed)
    (hThread : s.threads tid = some (.tcpV4ConnectEnter pidTgid sk, pc))
    (hAdmits : s.Admits (.next tid slot)) :
    Advances targetPid (s.next tid slot) order t (.tcpV4ConnectEnter pidTgid sk) := by
  obtain ⟨rfl, hTarget, hAt⟩ := h.own _ _ _ hThread
  cases pc with
  | updateSocket =>
    rw [System.Admits, hThread] at hAdmits
    by_cases hSlot : s.shared.sockets.Linked slot
    · exact .inl ⟨owed, h.wait hThread rfl (dif_pos hSlot) rfl trivial⟩
    · refine .inr (h.commit_silent hThread rfl (dif_neg hSlot) rfl rfl
        (tcpV4ConnectEnter_of_target t hTarget sk) rfl rfl (h.lookup_open hThread rfl) ?_)
      rw [BoundedMap.lookupElem_updateElem, if_pos ⟨rfl, h.room_sockets hAdmits⟩]
      exact (ElementMap.value_updateElem_self hSlot hAdmits).symm
  | _ => exact hAt.elim

theorem lookupElem_deleteElem_self {ν : Type} (m : BoundedMap Tid ν maxEntries) (tid : Tid) :
    (m.deleteElem tid).lookupElem tid = none := by
  rw [BoundedMap.lookupElem_deleteElem, if_pos rfl]

theorem getaddrinfoExit_failed {pidTgid : UInt64} (hTarget : Target targetPid pidTgid) {ret : Int32}
    (hRet : ret ≠ 0) (user : UserMemory) :
    step targetPid t (.getaddrinfoExit pidTgid ret user) =
      { t with lookups := t.lookups.deleteElem pidTgid.toUInt32 } := by
  simp only [step, getaddrinfoExit, getTid_of_target hTarget, if_neg hTarget.2, if_pos hRet]

theorem getaddrinfoExit_missing {pidTgid : UInt64} (hTarget : Target targetPid pidTgid)
    (hNone : t.lookups.lookupElem pidTgid.toUInt32 = none) (user : UserMemory) :
    step targetPid t (.getaddrinfoExit pidTgid 0 user) = t := by
  simp [step, getaddrinfoExit, getTid_of_target hTarget, hTarget.2, hNone]

/-- The commit of a lookup that was answered. -/
theorem Refines.updateHostname {pidTgid : UInt64} {ret : Int32} {user : UserMemory} {lookup : Slot}
    (h : Refines targetPid s order t owed) (hTarget : Target targetPid pidTgid) (hRet : ret = 0)
    (hThread : s.threads pidTgid.toUInt32 = some (.getaddrinfoExit pidTgid ret user,
      .updateHostname lookup (readAddress user (s.shared.lookups.elements lookup).results)))
    (hFound : s.shared.lookups.slots.lookupElem pidTgid.toUInt32 = some lookup)
    (hSlot : ¬s.shared.hostnames.Linked slot) :
    ∃ owed', Refines targetPid (s.next pidTgid.toUInt32 slot)
      (order ++ [.getaddrinfoExit pidTgid ret user])
      (step targetPid t (.getaddrinfoExit pidTgid ret user)) owed' := by
  have hSome : t.lookups.lookupElem pidTgid.toUInt32 = some (s.shared.lookups.elements lookup) :=
    (h.lookup_open hThread rfl).trans (ElementMap.value_eq_some_iff.mpr ⟨_, hFound, rfl⟩)
  have hStep : step targetPid t (.getaddrinfoExit pidTgid ret user) = _ :=
    getaddrinfoExit_of_target hTarget hSome ret user
  rw [if_pos hRet] at hStep
  refine h.commit hThread rfl (dif_neg hSlot) ?_ none (by simp) rfl ?_ ?_ ?_ ?_
  · rintro _ ⟨⟩
    exact ⟨rfl, trivial⟩
  · rw [hStep]
    exact lookupElem_deleteElem_self ..
  · rw [hStep]
    exact h.socket_open hThread rfl
  · intro a
    rw [hStep, BoundedMap.lookupElem_updateElem, h.hostnames]
    refine Eq.trans ?_ (ElementMap.value_updateElem _ _ _ _ _ hSlot).symm
    simp only [ElementMap.room_iff_of_value h.hostnames]
  · rw [hStep]
    exact (List.append_nil _).symm

theorem Refines.getaddrinfoExit {pidTgid : UInt64} {ret : Int32} {user : UserMemory}
    (h : Refines targetPid s order t owed)
    (hThread : s.threads tid = some (.getaddrinfoExit pidTgid ret user, pc)) :
    Advances targetPid (s.next tid slot) order t (.getaddrinfoExit pidTgid ret user) := by
  obtain ⟨rfl, hTarget, hAt⟩ := h.own _ _ _ hThread
  change Target targetPid pidTgid at hTarget
  change s.threads pidTgid.toUInt32 = _ at hThread
  cases pc with
  | dropLookup =>
    exact .inr (h.commit_silent hThread rfl rfl rfl rfl (getaddrinfoExit_failed hTarget hAt user)
      rfl rfl ((lookupElem_deleteElem_self ..).trans (ElementMap.value_deleteElem_self ..).symm)
      (h.socket_open hThread rfl))
  | findLookup =>
    obtain rfl : ret = 0 := hAt
    have hOpen := h.lookup_open hThread rfl
    cases hFound : s.shared.lookups.slots.lookupElem pidTgid.toUInt32 with
    | none =>
      have hNone : t.lookups.lookupElem pidTgid.toUInt32 = none :=
        hOpen.trans (ElementMap.value_eq_none_iff.mpr hFound)
      have hAdvance : Act.advance pidTgid.toUInt32 slot s.shared .findLookup
          (.getaddrinfoExit pidTgid 0 user) = (none, s.shared) := by
        rw [Act.advance, getaddrinfoExitStep, hFound]
      exact .inr (h.commit_silent hThread rfl hAdvance rfl rfl
        (getaddrinfoExit_missing hTarget hNone user) rfl rfl hOpen (h.socket_open hThread rfl))
    | some lookup =>
      have hAdvance : Act.advance pidTgid.toUInt32 slot s.shared .findLookup
          (.getaddrinfoExit pidTgid 0 user) = (some (.readResults lookup), s.shared) := by
        rw [Act.advance, getaddrinfoExitStep, hFound]
      exact .inl ⟨owed, h.wait hThread rfl hAdvance rfl ⟨rfl, _, hFound, rfl⟩⟩
  | readResults lookup =>
    obtain ⟨hRet, _, hSlot, rfl⟩ := hAt
    exact .inl ⟨owed, h.wait hThread rfl rfl rfl ⟨hRet, _, ⟨hSlot, rfl⟩, rfl⟩⟩
  | updateHostname lookup ipv4Addr =>
    obtain ⟨hRet, _, ⟨hFound, rfl⟩, rfl⟩ := hAt
    by_cases hSlot : s.shared.hostnames.Linked slot
    · exact .inl ⟨owed, h.wait hThread rfl (dif_pos hSlot) rfl ⟨hRet, _, ⟨hFound, rfl⟩, rfl⟩⟩
    · exact .inr (h.updateHostname hTarget hRet hThread hFound hSlot)
  | deleteLookup =>
    have hNone := h.lookups pidTgid.toUInt32
    have hSocket := h.sockets pidTgid.toUInt32
    rw [System.pc, hThread] at hNone hSocket
    exact .inl ⟨owed, h.close hThread rfl (fun _ hPc => by cases hPc) rfl
      (hNone.trans (ElementMap.value_deleteElem_self ..).symm) hSocket rfl rfl⟩
  | _ => exact hAt.elim

theorem tcpV4ConnectExit_failed {pidTgid : UInt64} (hTarget : Target targetPid pidTgid)
    {ret : Int32} (hRet : ret ≠ 0) (daddr : Pointer → Option Address) :
    step targetPid t (.tcpV4ConnectExit pidTgid ret daddr) =
      { t with sockets := t.sockets.deleteElem pidTgid.toUInt32 } := by
  simp only [step, tcpV4ConnectExit, getTid_of_target hTarget, if_neg hTarget.2, if_pos hRet]

theorem tcpV4ConnectExit_missing {pidTgid : UInt64} (hTarget : Target targetPid pidTgid)
    (hNone : t.sockets.lookupElem pidTgid.toUInt32 = none) (daddr : Pointer → Option Address) :
    step targetPid t (.tcpV4ConnectExit pidTgid 0 daddr) = t := by
  simp [step, tcpV4ConnectExit, getTid_of_target hTarget, hTarget.2, hNone]

/-- The output of an event that was owed. -/
theorem Refines.output {pidTgid : UInt64} {ret : Int32} {daddr : Pointer → Option Address}
    {event : Event} (h : Refines targetPid s order t owed)
    (hThread : s.threads tid = some (.tcpV4ConnectExit pidTgid ret daddr, .output event)) :
    Refines targetPid (s.next tid slot) order t (owed.erase (tid, event)) := by
  have hOwed : (tid, event) ∈ owed := (h.owing tid event).mpr ⟨_, hThread⟩
  have hLookup := h.lookups tid
  have hSocket := h.sockets tid
  rw [System.pc, hThread] at hLookup hSocket
  refine h.set hThread rfl (fun _ _ => ⟨rfl, rfl, rfl⟩) ?_ ?_ hLookup hSocket h.hostnames ?_ ?_
    (h.once.erase _)
  · rw [System.open, System.open, hThread, System.threads_self hThread rfl]
    rfl
  · rintro _ ⟨⟩
    trivial
  · have hPerm : (event :: (owed.erase (tid, event)).map Prod.snd).Perm (owed.map Prod.snd) :=
      ((List.perm_cons_erase hOwed).map Prod.snd).symm
    rw [List.append_assoc, List.singleton_append]
    exact (hPerm.append_left _).trans h.events
  · intro tid' event'
    rw [h.once.mem_erase_iff]
    obtain rfl | hOther := eq_or_ne tid' tid
    · rw [if_pos rfl]
      refine iff_of_false ?_ (fun hPc => by cases hPc)
      rintro ⟨hNe, hMem⟩
      refine h.not_owed hThread ?_ hMem
      rintro ⟨rfl⟩
      exact hNe rfl
    · simp [hOther]

/-- The two commits of a connect, with and without a name. -/
theorem Refines.connect {pidTgid : UInt64} {ret : Int32} {daddr : Pointer → Option Address}
    {sk : Pointer} {event : Event} {hostnames : ElementMap Address Lookup maxEntries}
    (h : Refines targetPid s order t owed) (hTarget : Target targetPid pidTgid)
    (hThread : s.threads pidTgid.toUInt32 = some (.tcpV4ConnectExit pidTgid ret daddr, pc))
    (hOpen : pc.committed = false) (hRet : ret = 0)
    (hValue : s.shared.sockets.value pidTgid.toUInt32 = some sk)
    (hAdvance : Act.advance pidTgid.toUInt32 slot s.shared pc (.tcpV4ConnectExit pidTgid ret daddr) =
      (some (.output event), { s.shared with hostnames := hostnames }))
    (hEvent : connectEvent ((daddr sk).getD 0) (t.hostnames.lookupElem ((daddr sk).getD 0)) = event)
    (hNames : ∀ a, hostnames.value a =
      if a = (daddr sk).getD 0 then none else s.shared.hostnames.value a) :
    ∃ owed', Refines targetPid (s.next pidTgid.toUInt32 slot)
      (order ++ [.tcpV4ConnectExit pidTgid ret daddr])
      (step targetPid t (.tcpV4ConnectExit pidTgid ret daddr)) owed' := by
  have hSome : t.sockets.lookupElem pidTgid.toUInt32 = some sk :=
    (h.socket_open hThread hOpen).trans hValue
  have hStep : step targetPid t (.tcpV4ConnectExit pidTgid ret daddr) = _ :=
    tcpV4ConnectExit_of_target hTarget hSome ret daddr
  simp only [if_pos hRet] at hStep
  refine h.commit hThread hOpen hAdvance ?_ (some event) ?_ rfl ?_ ?_ ?_ ?_
  · rintro _ ⟨⟩
    exact ⟨rfl, trivial⟩
  · intro event'
    simp
  · rw [hStep]
    exact h.lookup_open hThread hOpen
  · rw [hStep]
    exact (BoundedMap.lookupElem_deleteElem ..).trans (if_pos rfl)
  · intro a
    rw [hStep, hNames]
    exact (BoundedMap.lookupElem_deleteElem ..).trans (by rw [h.hostnames])
  · rw [hStep, hEvent]
    rfl

/-- The search for a name: without one the event is decided here. -/
theorem Refines.findHostname {pidTgid : UInt64} {ret : Int32} {daddr : Pointer → Option Address}
    {sk : Pointer} (h : Refines targetPid s order t owed) (hTarget : Target targetPid pidTgid)
    (hRet : ret = 0) (hValue : s.shared.sockets.value pidTgid.toUInt32 = some sk)
    (hThread : s.threads pidTgid.toUInt32 =
      some (.tcpV4ConnectExit pidTgid ret daddr, .findHostname ((daddr sk).getD 0))) :
    Advances targetPid (s.next pidTgid.toUInt32 slot) order t
      (.tcpV4ConnectExit pidTgid ret daddr) := by
  cases hFound : s.shared.hostnames.slots.lookupElem ((daddr sk).getD 0) with
  | none =>
    have hNone := ElementMap.value_eq_none_iff.mpr hFound
    have hAdvance : Act.advance pidTgid.toUInt32 slot s.shared (.findHostname ((daddr sk).getD 0))
        (.tcpV4ConnectExit pidTgid ret daddr) =
          (some (.output (ipEvent ((daddr sk).getD 0))), s.shared) := by
      rw [Act.advance, tcpV4ConnectExitStep, hFound]
    refine .inr (h.connect hTarget hThread rfl hRet hValue hAdvance ?_ ?_)
    · rw [h.hostnames, hNone]
      rfl
    · intro a
      split
      · rename_i hEq
        rw [hEq, hNone]
      · rfl
  | some lookup =>
    have hAdvance : Act.advance pidTgid.toUInt32 slot s.shared (.findHostname ((daddr sk).getD 0))
        (.tcpV4ConnectExit pidTgid ret daddr) =
          (some (.copyHostname ((daddr sk).getD 0) lookup), s.shared) := by
      rw [Act.advance, tcpV4ConnectExitStep, hFound]
    exact .inl ⟨owed, h.wait hThread rfl hAdvance rfl ⟨hRet, sk, hValue, rfl⟩⟩

theorem Refines.tcpV4ConnectExit {pidTgid : UInt64} {ret : Int32}
    {daddr : Pointer → Option Address} (h : Refines targetPid s order t owed)
    (hThread : s.threads tid = some (.tcpV4ConnectExit pidTgid ret daddr, pc))
    (hAdmits : s.Admits (.next tid slot)) :
    Advances targetPid (s.next tid slot) order t (.tcpV4ConnectExit pidTgid ret daddr) := by
  obtain ⟨rfl, hTarget, hAt⟩ := h.own _ _ _ hThread
  change Target targetPid pidTgid at hTarget
  change s.threads pidTgid.toUInt32 = _ at hThread
  change s.Admits (.next pidTgid.toUInt32 slot) at hAdmits
  cases pc with
  | dropSocket =>
    exact .inr (h.commit_silent hThread rfl rfl rfl rfl (tcpV4ConnectExit_failed hTarget hAt daddr)
      rfl rfl (h.lookup_open hThread rfl) ((lookupElem_deleteElem_self ..).trans (ElementMap.value_deleteElem_self ..).symm))
  | findSocket =>
    obtain rfl : ret = 0 := hAt
    have hOpen := h.socket_open hThread rfl
    cases hFound : s.shared.sockets.slots.lookupElem pidTgid.toUInt32 with
    | none =>
      have hNone : t.sockets.lookupElem pidTgid.toUInt32 = none :=
        hOpen.trans (ElementMap.value_eq_none_iff.mpr hFound)
      have hAdvance : Act.advance pidTgid.toUInt32 slot s.shared .findSocket
          (.tcpV4ConnectExit pidTgid 0 daddr) = (none, s.shared) := by
        rw [Act.advance, tcpV4ConnectExitStep, hFound]
      exact .inr (h.commit_silent hThread rfl hAdvance rfl rfl
        (tcpV4ConnectExit_missing hTarget hNone daddr) rfl rfl (h.lookup_open hThread rfl) hOpen)
    | some sockpp =>
      have hAdvance : Act.advance pidTgid.toUInt32 slot s.shared .findSocket
          (.tcpV4ConnectExit pidTgid 0 daddr) = (some (.readDaddr sockpp), s.shared) := by
        rw [Act.advance, tcpV4ConnectExitStep, hFound]
      exact .inl ⟨owed, h.wait hThread rfl hAdvance rfl ⟨rfl, _, hFound, rfl⟩⟩
  | readDaddr sockpp =>
    obtain ⟨hRet, _, hFound, rfl⟩ := hAt
    have hValue := ElementMap.value_eq_some_iff.mpr ⟨_, hFound, rfl⟩
    exact .inl ⟨owed, h.wait hThread rfl rfl rfl ⟨hRet, _, hValue, rfl⟩⟩
  | findHostname ip =>
    obtain ⟨hRet, sk, hValue, rfl⟩ := hAt
    exact h.findHostname hTarget hRet hValue hThread
  | copyHostname ip lookup => exact .inl ⟨owed, h.wait hThread rfl rfl rfl hAt⟩
  | deleteHostname ip c =>
    obtain ⟨hRet, sk, hValue, rfl⟩ := hAt
    rw [System.Admits, hThread] at hAdmits
    obtain ⟨lookup, hLookup, rfl⟩ := Option.map_eq_some_iff.mp hAdmits
    refine .inr (h.connect hTarget hThread rfl hRet hValue rfl ?_ ?_)
    · rw [h.hostnames, hLookup]
      rfl
    · intro a
      rw [ElementMap.value_deleteElem]
  | output event => exact .inl ⟨_, h.output hThread⟩
  | deleteSocket =>
    have hLookup := h.lookups pidTgid.toUInt32
    have hNone := h.sockets pidTgid.toUInt32
    rw [System.pc, hThread] at hLookup hNone
    exact .inl ⟨owed, h.close hThread rfl (fun _ hPc => by cases hPc) rfl hLookup
      (hNone.trans (ElementMap.value_deleteElem_self ..).symm) rfl rfl⟩
  | _ => exact hAt.elim

theorem Refines.advance (h : Refines targetPid s order t owed)
    (hThread : s.threads tid = some (act, pc)) (hAdmits : s.Admits (.next tid slot)) :
    Advances targetPid (s.next tid slot) order t act := by
  cases act with
  | getaddrinfoEnter pidTgid hostname res => exact h.getaddrinfoEnter hThread hAdmits
  | getaddrinfoExit pidTgid ret user => exact h.getaddrinfoExit hThread
  | tcpV4ConnectEnter pidTgid sk => exact h.tcpV4ConnectEnter hThread hAdmits
  | tcpV4ConnectExit pidTgid ret daddr => exact h.tcpV4ConnectExit hThread hAdmits

theorem Act.at_begins (act : Act) (m : Shared) : act.At m act.begins := by
  cases act with
  | getaddrinfoEnter pidTgid hostname res => trivial
  | tcpV4ConnectEnter pidTgid sk => trivial
  | getaddrinfoExit pidTgid ret user =>
    rw [Act.begins]
    split
    · assumption
    · rename_i hRet
      exact not_not.mp hRet
  | tcpV4ConnectExit pidTgid ret daddr =>
    rw [Act.begins]
    split
    · assumption
    · rename_i hRet
      exact not_not.mp hRet

theorem Act.begins_open (act : Act) : act.begins.committed = false := by
  cases act with
  | getaddrinfoEnter pidTgid hostname res => rfl
  | tcpV4ConnectEnter pidTgid sk => rfl
  | getaddrinfoExit pidTgid ret user =>
    rw [Act.begins]
    split <;> rfl
  | tcpV4ConnectExit pidTgid ret daddr =>
    rw [Act.begins]
    split <;> rfl

theorem Refines.enter (h : Refines targetPid s order t owed) (hIdle : s.threads act.tid = none)
    (hTarget : Target targetPid act.pidTgid) :
    Refines targetPid (s.enter act) order t owed := by
  have hSelf : (s.enter act).threads act.tid = some (act, act.begins) := Function.update_self ..
  have hElse : ∀ tid, tid ≠ act.tid → (s.enter act).threads tid = s.threads tid :=
    fun tid hOther => Function.update_of_ne hOther ..
  have hShared : (s.enter act).shared = s.shared := rfl
  constructor
  case program =>
    intro tid
    have hStarted : (s.enter act).started = s.started ++ [act] := rfl
    rw [hStarted, List.filter_append, ← h.program tid, System.open, System.open]
    obtain rfl | hOther := eq_or_ne tid act.tid
    · simp [hSelf, hIdle, act.begins_open]
    · simp [hElse tid hOther, Ne.symm hOther]
  case own =>
    intro tid act' pc' hThread
    obtain rfl | hOther := eq_or_ne tid act.tid
    · obtain ⟨rfl, rfl⟩ := Prod.mk.inj (Option.some.inj (hSelf.symm.trans hThread))
      exact ⟨rfl, hTarget, act.at_begins s.shared⟩
    · exact h.own tid act' pc' ((hElse tid hOther).symm.trans hThread)
  case lookups =>
    intro tid
    rw [h.lookups]
    obtain rfl | hOther := eq_or_ne tid act.tid
    · rw [System.pc, System.pc, hIdle, hSelf]
      exact (Pc.lookup?_open act.begins_open s.shared act.tid).symm
    · rw [System.pc, System.pc, hElse tid hOther, hShared]
  case sockets =>
    intro tid
    rw [h.sockets]
    obtain rfl | hOther := eq_or_ne tid act.tid
    · rw [System.pc, System.pc, hIdle, hSelf]
      exact (Pc.socket?_open act.begins_open s.shared act.tid).symm
    · rw [System.pc, System.pc, hElse tid hOther, hShared]
  case hostnames => exact h.hostnames
  case events => exact h.events
  case owing =>
    intro tid event
    rw [h.owing]
    obtain rfl | hOther := eq_or_ne tid act.tid
    · refine iff_of_false ?_ ?_
      · rintro ⟨act', hOut⟩
        cases hIdle.symm.trans hOut
      · rintro ⟨act', hOut⟩
        have hBegins := (Prod.mk.inj (Option.some.inj (hSelf.symm.trans hOut))).2
        have hOpen := act.begins_open
        rw [hBegins] at hOpen
        cases hOpen
    · rw [hElse tid hOther]
  case once => exact h.once

theorem Refines.pass (h : Refines targetPid s order t owed) (hIdle : s.threads act.tid = none) :
    Refines targetPid { s with started := s.started ++ [act] } (order ++ [act]) t owed := by
  refine { h with program := ?_ }
  intro tid
  rw [List.filter_append, List.filter_append, ← h.program tid, System.open, System.open]
  obtain rfl | hOther := eq_or_ne tid act.tid
  · simp [hIdle]
  · simp [Ne.symm hOther]

theorem Refines.start (h : Refines targetPid s order t owed) (act : Act) :
    Advances targetPid (s.start targetPid act) order t act := by
  rw [System.start]
  split
  · exact .inl ⟨owed, h⟩
  · rename_i hBusy
    have hIdle : s.threads act.tid = none := by simpa using hBusy
    split
    · rename_i hTarget
      exact .inl ⟨owed, h.enter hIdle hTarget⟩
    · rename_i hOther
      rw [Advances, step_of_not_target hOther]
      exact .inr ⟨owed, h.pass hIdle⟩

end Steps

section Runs

variable (tidBucket : Tid → Nat) (addressBucket : Address → Nat) (lookups : Slot → Lookup)
  (sockets : Slot → Pointer) (targetPid : Pid)

theorem refines_init :
    Refines targetPid (System.init tidBucket addressBucket lookups sockets) []
      (Maps.init tidBucket addressBucket) [] where
  program := fun _ => rfl
  own := nofun
  lookups := fun _ => rfl
  sockets := fun _ => rfl
  hostnames := fun _ => rfl
  events := .nil
  owing := fun _ _ => iff_of_false nofun nofun
  once := .nil

theorem Advances.run {s : System} {order : List Act} {act : Act}
    (h : Advances targetPid s order (run tidBucket addressBucket targetPid order) act) :
    ∃ order' owed, Refines targetPid s order' (run tidBucket addressBucket targetPid order') owed := by
  obtain ⟨owed, h⟩ | ⟨owed, h⟩ := h
  · exact ⟨order, owed, h⟩
  · refine ⟨order ++ [act], owed, ?_⟩
    rw [Tracecon.run, List.foldl_append]
    exact h

theorem refines_interleaved (moves : List Move)
    (hAdmits : ∀ x ∈ trace (System.move targetPid)
      (System.init tidBucket addressBucket lookups sockets) moves, x.1.Admits x.2) :
    ∃ order owed,
      Refines targetPid (interleaved tidBucket addressBucket lookups sockets targetPid moves) order
        (run tidBucket addressBucket targetPid order) owed := by
  refine foldl_invariant
    (fun s => ∃ order owed, Refines targetPid s order
      (run tidBucket addressBucket targetPid order) owed)
    System.Admits ?_ moves ⟨[], [], refines_init tidBucket addressBucket lookups sockets targetPid⟩
    hAdmits
  rintro s (act | ⟨tid, slot⟩) hAdmits ⟨order, owed, h⟩
  · exact Advances.run tidBucket addressBucket targetPid (h.start act)
  · rw [System.move]
    cases hThread : s.threads tid with
    | none =>
      rw [System.next, hThread]
      exact ⟨order, owed, h⟩
    | some thread =>
      exact Advances.run tidBucket addressBucket targetPid (h.advance hThread hAdmits)

/-- Handlers that ran side by side and have all returned have done what whole handlers do, one after
the other in an order that keeps the order of each thread; only the order of the events of
different threads may differ. -/
theorem handlers_serialized (moves : List Move)
    (hAdmits : ∀ x ∈ trace (System.move targetPid)
      (System.init tidBucket addressBucket lookups sockets) moves, x.1.Admits x.2)
    (hIdle : ∀ tid,
      (interleaved tidBucket addressBucket lookups sockets targetPid moves).threads tid = none) :
    let s := interleaved tidBucket addressBucket lookups sockets targetPid moves
    ∃ order : List Act,
      (∀ tid, order.filter (·.tid = tid) = s.started.filter (·.tid = tid)) ∧
      (∀ tid, s.shared.lookups.value tid =
        (run tidBucket addressBucket targetPid order).lookups.lookupElem tid) ∧
      (∀ tid, s.shared.sockets.value tid =
        (run tidBucket addressBucket targetPid order).sockets.lookupElem tid) ∧
      (∀ a, s.shared.hostnames.value a =
        (run tidBucket addressBucket targetPid order).hostnames.lookupElem a) ∧
      s.shared.events.Perm (run tidBucket addressBucket targetPid order).events := by
  intro s
  obtain ⟨order, owed, h⟩ :=
    refines_interleaved tidBucket addressBucket lookups sockets targetPid moves hAdmits
  have hOwed : owed = [] := by
    rw [List.eq_nil_iff_forall_not_mem]
    rintro ⟨tid, event⟩ hMem
    obtain ⟨act, hThread⟩ := (h.owing tid event).mp hMem
    cases (hIdle tid).symm.trans hThread
  refine ⟨order, fun tid => ?_, fun tid => ?_, fun tid => ?_, fun a => (h.hostnames a).symm, ?_⟩
  · have hProgram := h.program tid
    rw [System.open, hIdle tid, List.append_nil] at hProgram
    exact hProgram
  · rw [h.lookups, System.pc, hIdle tid]
    rfl
  · rw [h.sockets, System.pc, hIdle tid]
    rfl
  · have hEvents := h.events
    rw [hOwed, List.map_nil, List.append_nil] at hEvents
    exact hEvents

end Runs

/-- A thread without a handler of its own stays idle. -/
theorem threads_of_not_started {targetPid : Pid} {tid : Tid} {moves : List Move}
    (h : ∀ act, .start act ∈ moves → act.tid ≠ tid) {s : System} (hIdle : s.threads tid = none) :
    (moves.foldl (System.move targetPid) s).threads tid = none := by
  induction moves generalizing s with
  | nil => exact hIdle
  | cons move moves ih =>
    refine ih (fun act hMem => h act (List.mem_cons_of_mem _ hMem)) ?_
    cases move with
    | start act =>
      have hOther : tid ≠ act.tid := (h act List.mem_cons_self).symm
      rw [System.move, System.start]
      split
      · exact hIdle
      · split
        · exact (Function.update_of_ne hOther ..).trans hIdle
        · exact hIdle
    | next tid' slot =>
      rw [System.move]
      obtain rfl | hOther := eq_or_ne tid tid'
      · rw [System.next, hIdle]
        exact hIdle
      · exact (System.threads_other hOther).trans hIdle

/-- One thread resolves a name while another one connects to its address. -/
def sideBySide : List Move :=
  let localhost : Address := 0x0100007f
  let user : UserMemory := ⟨fun p => some (p + 1), fun _ => some localhost⟩
  [.start (.getaddrinfoEnter 0x500000007 (some [101]) 0x1000),
    .start (.tcpV4ConnectEnter 0x500000008 0x3000), .next 8 0, .next 7 0,
    .start (.tcpV4ConnectExit 0x500000008 0 (fun _ => some localhost)), .next 8 0,
    .start (.getaddrinfoExit 0x500000007 0 user), .next 7 0, .next 7 0, .next 8 0, .next 7 0,
    .next 8 0, .next 7 0, .next 8 0, .next 8 0, .next 8 0, .next 8 0]

theorem handlers_serialized_sideBySide :
    let s := interleaved (fun _ => 0) (fun _ => 0) (fun _ => emptyLookup) (fun _ => 0) 0 sideBySide
    s.shared.events = [hostnameEvent (readStr emptyLookup.c [101])] ∧
      ∃ order : List Act, (∀ tid, order.filter (·.tid = tid) = s.started.filter (·.tid = tid)) ∧
        s.shared.events.Perm (run (fun _ => 0) (fun _ => 0) 0 order).events := by
  intro s
  have hAdmits : ∀ x ∈ trace (System.move 0)
      (System.init (fun _ => 0) (fun _ => 0) (fun _ => emptyLookup) (fun _ => 0)) sideBySide,
      x.1.Admits x.2 := by
    simp only [sideBySide, trace, List.forall_mem_cons]
    exact ⟨trivial, trivial, .inr (by decide), .inr (by decide), trivial, trivial, trivial, trivial,
      trivial, trivial, trivial, trivial, trivial, trivial, rfl, trivial, trivial,
      fun _ hx => absurd hx List.not_mem_nil⟩
  have hIdle : ∀ tid, s.threads tid = none := by
    intro tid
    obtain rfl | hFirst := eq_or_ne tid 7
    · rfl
    · obtain rfl | hSecond := eq_or_ne tid 8
      · rfl
      · refine threads_of_not_started ?_ rfl
        intro act hMem
        simp only [sideBySide, List.mem_cons, List.not_mem_nil, or_false, Move.start.injEq,
          reduceCtorEq, false_or] at hMem
        obtain rfl | rfl | rfl | rfl := hMem
        · exact hFirst.symm
        · exact hSecond.symm
        · exact hSecond.symm
        · exact hFirst.symm
  obtain ⟨order, hProgram, -, -, -, hEvents⟩ :=
    handlers_serialized (fun _ => 0) (fun _ => 0) (fun _ => emptyLookup) (fun _ => 0) 0 sideBySide
      hAdmits hIdle
  exact ⟨rfl, order, hProgram, hEvents⟩

/-- Two threads connect to one address. While the first one holds the element of its name, the
second one takes the name, and the element is given to the name of another address. -/
def elementReused : List Move :=
  let found (a : Address) : UserMemory := ⟨fun p => some p, fun _ => some a⟩
  [.start (.getaddrinfoEnter 7 (some [97]) 0), .next 7 0, .start (.getaddrinfoExit 7 0 (found 1)),
    .next 7 0, .next 7 0, .next 7 0, .next 7 0,
    .start (.tcpV4ConnectEnter 8 0), .next 8 0,
    .start (.tcpV4ConnectExit 8 0 (fun _ => some 1)), .next 8 0, .next 8 0, .next 8 0,
    .start (.tcpV4ConnectEnter 9 0), .next 9 1,
    .start (.tcpV4ConnectExit 9 0 (fun _ => some 1)), .next 9 0, .next 9 0, .next 9 0, .next 9 0,
    .next 9 0, .next 9 0, .next 9 0,
    .start (.getaddrinfoEnter 7 (some [98]) 0), .next 7 0, .start (.getaddrinfoExit 7 0 (found 2)),
    .next 7 0, .next 7 0, .next 7 0, .next 7 0,
    .next 8 0, .next 8 0, .next 8 0, .next 8 0]

/-- Without the condition a connection is reported with the name of another address. -/
theorem elementReused_events :
    (interleaved (fun _ => 0) (fun _ => 0) (fun _ => emptyLookup) (fun _ => 0) 0
      elementReused).shared.events =
        [hostnameEvent (readStr emptyLookup.c [97]), hostnameEvent (readStr emptyLookup.c [98])] :=
  rfl

end Ebacs.Tracecon
