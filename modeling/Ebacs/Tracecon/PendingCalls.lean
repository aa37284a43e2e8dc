import Mathlib.Logic.Function.Basic
import Ebacs.Lib.Trace
import Ebacs.Tracecon.Probes

/-! # Pending calls and the maps keyed by thread

Which calls are pending is a matter of the enters and exits alone. A map keyed
by thread holds what the enter probe recorded of the pending calls of target
threads, whatever the calls return and whatever other threads do.
-/
namespace Ebacs.Tracecon
open Lib
open PageAccess (Pid)
set_option autoImplicit false

structure Pending (ρ : Type) where
  pidTgid : UInt64
  request : ρ

abbrev PendingCalls (ρ : Type) := Tid → Option (Pending ρ)

structure Request where
  hostname : Option (List UInt8)
  res : Pointer

def Request.lookup (r : Request) : Lookup := ⟨readUserStr emptyLookup.c r.hostname, r.res⟩

structure Calls where
  resolving : PendingCalls Request
  connecting : PendingCalls Pointer

def Calls.init : Calls := ⟨fun _ => none, fun _ => none⟩

section Threads

variable {ρ ν : Type}

def begin (pending : PendingCalls ρ) (pidTgid : UInt64) (request : ρ) : PendingCalls ρ :=
  Function.update pending pidTgid.toUInt32 (some ⟨pidTgid, request⟩)

def finish (pending : PendingCalls ρ) (pidTgid : UInt64) : PendingCalls ρ :=
  Function.update pending pidTgid.toUInt32 none

def Free (pending : PendingCalls ρ) (pidTgid : UInt64) : Prop := pending pidTgid.toUInt32 = none

/-- The call that the thread leaves is its own. -/
def Inside (pending : PendingCalls ρ) (pidTgid : UInt64) : Prop :=
  ∃ call, pending pidTgid.toUInt32 = some call ∧ call.pidTgid = pidTgid

instance (pending : PendingCalls ρ) (pidTgid : UInt64) : Decidable (Free pending pidTgid) :=
  inferInstanceAs (Decidable (pending pidTgid.toUInt32 = none))

instance (pending : PendingCalls ρ) (pidTgid : UInt64) : Decidable (Inside pending pidTgid) :=
  decidable_of_iff ((pending pidTgid.toUInt32).any (fun call => call.pidTgid = pidTgid) = true)
    (by simp [Inside, Option.any_eq_true])

/-- What a map should hold for a thread. -/
def held (targetPid : Pid) (record : ρ → ν) (pending : PendingCalls ρ) (tid : Tid) : Option ν :=
  (pending tid).bind
    (fun call => if Target targetPid call.pidTgid then some (record call.request) else none)

def Tracks (targetPid : Pid) (record : ρ → ν) (m : BoundedMap Tid ν maxEntries)
    (pending : PendingCalls ρ) : Prop :=
  ∀ tid, m.lookupElem tid = held targetPid record pending tid

end Threads

def Calls.step (c : Calls) : Act → Calls
  | .getaddrinfoEnter pidTgid hostname res =>
    { c with resolving := begin c.resolving pidTgid ⟨hostname, res⟩ }
  | .getaddrinfoExit pidTgid _ _ => { c with resolving := finish c.resolving pidTgid }
  | .tcpV4ConnectEnter pidTgid sk => { c with connecting := begin c.connecting pidTgid sk }
  | .tcpV4ConnectExit pidTgid _ _ => { c with connecting := finish c.connecting pidTgid }

def calls (acts : List Act) : Calls := acts.foldl Calls.step Calls.init

/-- On one thread an exit follows its own enter and calls of one kind do not overlap. -/
def Calls.Admits (c : Calls) : Act → Prop
  | .getaddrinfoEnter pidTgid _ _ => Free c.resolving pidTgid
  | .getaddrinfoExit pidTgid _ _ => Inside c.resolving pidTgid
  | .tcpV4ConnectEnter pidTgid _ => Free c.connecting pidTgid
  | .tcpV4ConnectExit pidTgid _ _ => Inside c.connecting pidTgid

instance (c : Calls) : DecidablePred c.Admits
  | .getaddrinfoEnter pidTgid _ _ => inferInstanceAs (Decidable (Free c.resolving pidTgid))
  | .getaddrinfoExit pidTgid _ _ => inferInstanceAs (Decidable (Inside c.resolving pidTgid))
  | .tcpV4ConnectEnter pidTgid _ => inferInstanceAs (Decidable (Free c.connecting pidTgid))
  | .tcpV4ConnectExit pidTgid _ _ => inferInstanceAs (Decidable (Inside c.connecting pidTgid))

def WellNested (acts : List Act) : Prop := ∀ x ∈ moments acts, (calls x.1).Admits x.2

/-- The target threads inside a call of one kind. -/
def insiders {ρ : Type} (targetPid : Pid) (acts : List Act) (pending : PendingCalls ρ) :
    Finset Tid :=
  (acts.map Act.tid).toFinset.filter (fun tid => (held targetPid id pending tid).isSome)

/-- Never more pending calls of target threads than a map has entries. -/
def ThreadsFit (targetPid : Pid) (acts : List Act) : Prop :=
  ∀ history, history <+: acts →
    (insiders targetPid history (calls history).resolving).card ≤ maxEntries ∧
    (insiders targetPid history (calls history).connecting).card ≤ maxEntries

section Threads

variable {ρ ν : Type} {targetPid : Pid} {record : ρ → ν} {m : BoundedMap Tid ν maxEntries}
  {pending : PendingCalls ρ} {pidTgid : UInt64} {request : ρ}

theorem held_update (tid' : Tid) (call : Option (Pending ρ)) (tid : Tid) :
    held targetPid record (Function.update pending tid' call) tid =
      if tid = tid' then held targetPid record (fun _ => call) tid
      else held targetPid record pending tid := by
  simp only [held, Function.update_apply]
  split <;> rfl

theorem held_begin (tid : Tid) :
    held targetPid record (begin pending pidTgid request) tid =
      if tid = pidTgid.toUInt32 then
        if Target targetPid pidTgid then some (record request) else none
      else held targetPid record pending tid := by
  rw [begin, held_update]
  rfl

theorem held_finish (tid : Tid) :
    held targetPid record (finish pending pidTgid) tid =
      if tid = pidTgid.toUInt32 then none else held targetPid record pending tid := by
  rw [finish, held_update]
  rfl

theorem isSome_held (record : ρ → ν) (tid : Tid) :
    (held targetPid record pending tid).isSome = (held targetPid id pending tid).isSome := by
  rw [held, held]
  cases pending tid with
  | none => rfl
  | some call =>
    rw [Option.bind_some, Option.bind_some]
    split <;> rfl

theorem Tracks.begin (h : Tracks targetPid record m pending) (hTarget : Target targetPid pidTgid)
    (hRoom : pidTgid.toUInt32 ∈ m ∨ m.size < maxEntries) :
    Tracks targetPid record ((m.updateElem pidTgid.toUInt32 (record request)).getD m)
      (begin pending pidTgid request) := by
  intro tid
  rw [BoundedMap.lookupElem_updateElem, held_begin, if_pos hTarget, h tid]
  simp only [hRoom, and_true]

theorem Tracks.begin_other (h : Tracks targetPid record m pending) (hFree : Free pending pidTgid)
    (hOther : ¬Target targetPid pidTgid) :
    Tracks targetPid record m (Tracecon.begin pending pidTgid request) := by
  intro tid
  rw [held_begin, if_neg hOther, h tid]
  split
  · rename_i hTid
    rw [hTid, held, hFree, Option.bind_none]
  · rfl

theorem Tracks.finish (h : Tracks targetPid record m pending) :
    Tracks targetPid record (m.deleteElem pidTgid.toUInt32) (finish pending pidTgid) := by
  intro tid
  rw [BoundedMap.lookupElem_deleteElem, held_finish, h tid]

theorem Tracks.finish_other (h : Tracks targetPid record m pending)
    (hInside : Inside pending pidTgid) (hOther : ¬Target targetPid pidTgid) :
    Tracks targetPid record m (Tracecon.finish pending pidTgid) := by
  obtain ⟨call, hCall, hOwn⟩ := hInside
  intro tid
  rw [held_finish, h tid]
  split
  · rename_i hTid
    rw [hTid, held, hCall, Option.bind_some, hOwn, if_neg hOther]
  · rfl

theorem Tracks.lookup_of_inside (h : Tracks targetPid record m pending)
    (hTarget : Target targetPid pidTgid) {call : Pending ρ}
    (hCall : pending pidTgid.toUInt32 = some call) (hOwn : call.pidTgid = pidTgid) :
    m.lookupElem pidTgid.toUInt32 = some (record call.request) := by
  rw [h, held, hCall, Option.bind_some, hOwn, if_pos hTarget]

theorem Tracks.room (h : Tracks targetPid record m pending) (hTarget : Target targetPid pidTgid)
    {acts : List Act} (hTids : ∀ tid call, pending tid = some call → tid ∈ acts.map Act.tid)
    {a : Act} (ha : a.pidTgid = pidTgid)
    (hFit : (insiders targetPid (acts ++ [a]) (Tracecon.begin pending pidTgid request)).card ≤
      maxEntries) : pidTgid.toUInt32 ∈ m ∨ m.size < maxEntries := by
  refine BoundedMap.room_of_subset _ hFit (fun tid htid => ?_) ?_
  · obtain ⟨v, hv⟩ := BoundedMap.mem_iff_lookupElem.mp htid
    rw [h tid] at hv
    obtain ⟨call, hCall, _⟩ := Option.bind_eq_some_iff.mp hv
    rw [insiders, Finset.mem_filter, List.mem_toFinset, List.map_append, List.mem_append]
    refine ⟨Or.inl (hTids tid call hCall), ?_⟩
    rw [held_begin, if_pos hTarget]
    split
    · rfl
    · rw [← isSome_held record, hv]
      rfl
  · rw [insiders, Finset.mem_filter, List.mem_toFinset, held_begin, if_pos rfl, if_pos hTarget,
      List.map_append, List.mem_append, ← ha]
    exact ⟨Or.inr (List.mem_singleton_self _), rfl⟩

end Threads

theorem calls_concat (acts : List Act) (a : Act) : calls (acts ++ [a]) = (calls acts).step a := by
  rw [calls, List.foldl_append]
  rfl

theorem tid_mem_of_begin {ρ : Type} {pending : PendingCalls ρ} {pidTgid : UInt64} {request : ρ}
    {tids : List Tid} (h : ∀ tid call, pending tid = some call → tid ∈ tids) {tid : Tid}
    {call : Pending ρ} (hCall : begin pending pidTgid request tid = some call) :
    tid ∈ tids ++ [pidTgid.toUInt32] := by
  by_cases hTid : tid = pidTgid.toUInt32
  · exact List.mem_append_right _ (List.mem_singleton.mpr hTid)
  · rw [begin, Function.update_of_ne hTid] at hCall
    exact List.mem_append_left _ (h tid call hCall)

theorem pending_of_finish {ρ : Type} {pending : PendingCalls ρ} {pidTgid : UInt64} {tid : Tid}
    {call : Pending ρ} (hCall : finish pending pidTgid tid = some call) :
    pending tid = some call := by
  rw [finish, Function.update_apply] at hCall
  split at hCall
  · cases hCall
  · exact hCall

theorem tid_mem_of_pending (acts : List Act) :
    (∀ tid call, (calls acts).resolving tid = some call → tid ∈ acts.map Act.tid) ∧
    (∀ tid call, (calls acts).connecting tid = some call → tid ∈ acts.map Act.tid) := by
  induction acts using List.reverseRecOn with
  | nil => exact ⟨nofun, nofun⟩
  | append_singleton acts a ih =>
    obtain ⟨hResolving, hConnecting⟩ := ih
    rw [calls_concat, List.map_append]
    cases a with
    | getaddrinfoEnter pidTgid hostname res =>
      exact ⟨fun tid call hCall => tid_mem_of_begin hResolving hCall,
        fun tid call hCall => List.mem_append_left _ (hConnecting tid call hCall)⟩
    | getaddrinfoExit pidTgid ret user =>
      exact ⟨fun tid call hCall =>
        List.mem_append_left _ (hResolving tid call (pending_of_finish hCall)),
        fun tid call hCall => List.mem_append_left _ (hConnecting tid call hCall)⟩
    | tcpV4ConnectEnter pidTgid sk =>
      exact ⟨fun tid call hCall => List.mem_append_left _ (hResolving tid call hCall),
        fun tid call hCall => tid_mem_of_begin hConnecting hCall⟩
    | tcpV4ConnectExit pidTgid ret daddr =>
      exact ⟨fun tid call hCall => List.mem_append_left _ (hResolving tid call hCall),
        fun tid call hCall =>
          List.mem_append_left _ (hConnecting tid call (pending_of_finish hCall))⟩

/-- Both maps keyed by thread, against the pending calls. -/
structure Attends (targetPid : Pid) (s : Maps) (c : Calls) : Prop where
  lookups : Tracks targetPid Request.lookup s.lookups c.resolving
  sockets : Tracks targetPid id s.sockets c.connecting

section Step

variable {targetPid : Pid} {s : Maps} {acts : List Act}

theorem Attends.other {c : Calls} (h : Attends targetPid s c) {a : Act} (hAdmits : c.Admits a)
    (hOther : ¬Target targetPid a.pidTgid) : Attends targetPid (step targetPid s a) (c.step a) := by
  rw [step_of_not_target hOther]
  cases a with
  | getaddrinfoEnter pidTgid hostname res => exact ⟨h.lookups.begin_other hAdmits hOther, h.sockets⟩
  | getaddrinfoExit pidTgid ret user => exact ⟨h.lookups.finish_other hAdmits hOther, h.sockets⟩
  | tcpV4ConnectEnter pidTgid sk => exact ⟨h.lookups, h.sockets.begin_other hAdmits hOther⟩
  | tcpV4ConnectExit pidTgid ret daddr => exact ⟨h.lookups, h.sockets.finish_other hAdmits hOther⟩

theorem getaddrinfoEnter_of_target (s : Maps) {pidTgid : UInt64}
    (hTarget : Target targetPid pidTgid) (hostname : Option (List UInt8)) (res : Pointer) :
    getaddrinfoEnter targetPid s pidTgid hostname res =
      { s with lookups := (s.lookups.updateElem pidTgid.toUInt32
          (Request.lookup ⟨hostname, res⟩)).getD s.lookups } := by
  simp only [getaddrinfoEnter, getTid_of_target hTarget, if_neg hTarget.2]
  rfl

theorem tcpV4ConnectEnter_of_target (s : Maps) {pidTgid : UInt64}
    (hTarget : Target targetPid pidTgid) (sk : Pointer) :
    tcpV4ConnectEnter targetPid s pidTgid sk =
      { s with sockets := (s.sockets.updateElem pidTgid.toUInt32 sk).getD s.sockets } := by
  simp only [tcpV4ConnectEnter, getTid_of_target hTarget, if_neg hTarget.2]

theorem getaddrinfoExit_of_target {pidTgid : UInt64} (hTarget : Target targetPid pidTgid)
    {lookup : Lookup} (hLookup : s.lookups.lookupElem pidTgid.toUInt32 = some lookup) (ret : Int32)
    (user : UserMemory) :
    getaddrinfoExit targetPid s pidTgid ret user =
      { s with
        hostnames := if ret = 0 then
          (s.hostnames.updateElem (readAddress user lookup.results) lookup).getD s.hostnames
          else s.hostnames
        lookups := s.lookups.deleteElem pidTgid.toUInt32 } := by
  simp only [getaddrinfoExit, getTid_of_target hTarget, if_neg hTarget.2]
  by_cases hRet : ret = 0
  · simp only [hRet, ne_eq, not_true_eq_false, if_false, if_true, hLookup]
  · simp only [hRet, ne_eq, not_false_eq_true, if_true, if_false]

/-- The event for a connection to `ip`, from what the shared map holds for it. -/
def connectEvent (ip : Address) : Option Lookup → Event
  | none => ipEvent ip
  | some lookup => hostnameEvent lookup.c

theorem tcpV4ConnectExit_of_target {pidTgid : UInt64} (hTarget : Target targetPid pidTgid)
    {sk : Pointer} (hSocket : s.sockets.lookupElem pidTgid.toUInt32 = some sk) (ret : Int32)
    (daddr : Pointer → Option Address) :
    tcpV4ConnectExit targetPid s pidTgid ret daddr =
      { s with
        hostnames := if ret = 0 then s.hostnames.deleteElem ((daddr sk).getD 0) else s.hostnames
        events := s.events ++ if ret = 0 then
          [connectEvent ((daddr sk).getD 0) (s.hostnames.lookupElem ((daddr sk).getD 0))] else []
        sockets := s.sockets.deleteElem pidTgid.toUInt32 } := by
  simp only [tcpV4ConnectExit, getTid_of_target hTarget, if_neg hTarget.2]
  by_cases hRet : ret = 0
  · cases hHost : s.hostnames.lookupElem ((daddr sk).getD 0) with
    | none =>
      have hAbsent := BoundedMap.deleteElem_of_not_mem (BoundedMap.lookupElem_eq_none_iff.mp hHost)
      simp only [hRet, ne_eq, not_true_eq_false, if_false, if_true, hSocket, hHost, hAbsent,
        connectEvent]
    | some lookup =>
      simp only [hRet, ne_eq, not_true_eq_false, if_false, if_true, hSocket, hHost,
        connectEvent]
  · simp only [hRet, ne_eq, not_false_eq_true, if_true, if_false, List.append_nil]

theorem Attends.step (h : Attends targetPid s (calls acts)) {a : Act}
    (hAdmits : (calls acts).Admits a) (hFit : ThreadsFit targetPid (acts ++ [a])) :
    Attends targetPid (step targetPid s a) (calls (acts ++ [a])) := by
  obtain ⟨hResolving, hConnecting⟩ := hFit (acts ++ [a]) List.prefix_rfl
  obtain ⟨hResolvers, hConnectors⟩ := tid_mem_of_pending acts
  rw [calls_concat] at hResolving hConnecting ⊢
  by_cases hTarget : Target targetPid a.pidTgid
  · cases a with
    | getaddrinfoEnter pidTgid hostname res =>
      change Target targetPid pidTgid at hTarget
      rw [Tracecon.step, getaddrinfoEnter_of_target s hTarget]
      exact ⟨h.lookups.begin hTarget (h.lookups.room hTarget hResolvers rfl hResolving), h.sockets⟩
    | getaddrinfoExit pidTgid ret user =>
      change Target targetPid pidTgid at hTarget
      obtain ⟨call, hCall, hOwn⟩ := hAdmits
      have hLookup := h.lookups.lookup_of_inside hTarget hCall hOwn
      rw [Tracecon.step, getaddrinfoExit_of_target hTarget hLookup]
      exact ⟨h.lookups.finish, h.sockets⟩
    | tcpV4ConnectEnter pidTgid sk =>
      change Target targetPid pidTgid at hTarget
      rw [Tracecon.step, tcpV4ConnectEnter_of_target s hTarget]
      exact ⟨h.lookups, h.sockets.begin hTarget (h.sockets.room hTarget hConnectors rfl hConnecting)⟩
    | tcpV4ConnectExit pidTgid ret daddr =>
      change Target targetPid pidTgid at hTarget
      obtain ⟨call, hCall, hOwn⟩ := hAdmits
      have hSocket := h.sockets.lookup_of_inside hTarget hCall hOwn
      rw [Tracecon.step, tcpV4ConnectExit_of_target hTarget hSocket]
      exact ⟨h.lookups, h.sockets.finish⟩
  · exact h.other hAdmits hTarget

end Step

theorem WellNested.before {acts : List Act} {a : Act} (h : WellNested (acts ++ [a])) :
    WellNested acts ∧ (calls acts).Admits a := by
  rw [WellNested, moments_concat] at h
  exact ⟨fun x hx => h x (List.mem_append_left _ hx),
    h (acts, a) (List.mem_append_right _ (List.mem_singleton_self _))⟩

theorem ThreadsFit.before {targetPid : Pid} {acts : List Act} {a : Act}
    (h : ThreadsFit targetPid (acts ++ [a])) : ThreadsFit targetPid acts :=
  fun history hPrefix => h history (hPrefix.trans (List.prefix_append _ _))

theorem attends_run (tidBucket : Tid → Nat) (addressBucket : Address → Nat) (targetPid : Pid)
    (acts : List Act) (hNested : WellNested acts) (hFit : ThreadsFit targetPid acts) :
    Attends targetPid (run tidBucket addressBucket targetPid acts) (calls acts) := by
  induction acts using List.reverseRecOn with
  | nil => exact ⟨fun _ => rfl, fun _ => rfl⟩
  | append_singleton acts a ih =>
    obtain ⟨hBefore, hAdmits⟩ := hNested.before
    rw [run, List.foldl_append]
    exact (ih hBefore hFit.before).step hAdmits hFit

theorem Tracks.mem_iff {ρ ν : Type} {targetPid : Pid} {record : ρ → ν}
    {m : BoundedMap Tid ν maxEntries} {pending : PendingCalls ρ}
    (h : Tracks targetPid record m pending) (tid : Tid) :
    tid ∈ m ↔ ∃ call, pending tid = some call ∧ Target targetPid call.pidTgid := by
  rw [BoundedMap.mem_iff_lookupElem, h tid, held]
  cases pending tid with
  | none => simp
  | some call => by_cases hTarget : Target targetPid call.pidTgid <;> simp [hTarget]

/-- In every reachable state each map keyed by thread holds exactly the target threads inside
the call it serves, each with what its own pending enter recorded. -/
theorem thread_state_exact (tidBucket : Tid → Nat) (addressBucket : Address → Nat)
    (targetPid : Pid) (acts : List Act) (hNested : WellNested acts)
    (hFit : ThreadsFit targetPid acts) :
    let s := run tidBucket addressBucket targetPid acts
    let c := calls acts
    (∀ tid, tid ∈ s.lookups ↔
      ∃ call, c.resolving tid = some call ∧ Target targetPid call.pidTgid) ∧
    (∀ tid, tid ∈ s.sockets ↔
      ∃ call, c.connecting tid = some call ∧ Target targetPid call.pidTgid) ∧
    (∀ tid lookup, s.lookups.lookupElem tid = some lookup →
      ∃ call, c.resolving tid = some call ∧ lookup = call.request.lookup) ∧
    (∀ tid sk, s.sockets.lookupElem tid = some sk →
      ∃ call, c.connecting tid = some call ∧ sk = call.request) := by
  intro s c
  obtain ⟨hLookups, hSockets⟩ := attends_run tidBucket addressBucket targetPid acts hNested hFit
  refine ⟨hLookups.mem_iff, hSockets.mem_iff, fun tid lookup hv => ?_, fun tid sk hv => ?_⟩
  · rw [hLookups tid] at hv
    obtain ⟨call, hCall, hRecorded⟩ := Option.bind_eq_some_iff.mp hv
    split at hRecorded
    · exact ⟨call, hCall, (Option.some.inj hRecorded).symm⟩
    · cases hRecorded
  · rw [hSockets tid] at hv
    obtain ⟨call, hCall, hRecorded⟩ := Option.bind_eq_some_iff.mp hv
    split at hRecorded
    · exact ⟨call, hCall, (Option.some.inj hRecorded).symm⟩
    · cases hRecorded

theorem threadsFit_of_length {targetPid : Pid} {acts : List Act} (h : acts.length ≤ maxEntries) :
    ThreadsFit targetPid acts := by
  have hCard : ∀ {ρ : Type} (pending : PendingCalls ρ) (history : List Act), history <+: acts →
      (insiders targetPid history pending).card ≤ maxEntries := by
    intro ρ pending history hPrefix
    calc
      (insiders targetPid history pending).card ≤ (history.map Act.tid).toFinset.card :=
        Finset.card_filter_le _ _
      _ ≤ history.length := (List.toFinset_card_le _).trans_eq (List.length_map _)
      _ ≤ acts.length := hPrefix.length_le
      _ ≤ maxEntries := h
  exact fun history hPrefix => ⟨hCard _ history hPrefix, hCard _ history hPrefix⟩

/-- A target thread whose connect fails while it resolves, beside a thread of no target. -/
def nestedCalls : List Act :=
  [.getaddrinfoEnter 0x500000007 (some [101]) 0x1000, .getaddrinfoEnter 0x600000009 none 0x2000,
    .tcpV4ConnectEnter 0x500000007 0x3000, .tcpV4ConnectExit 0x500000007 (-111) (fun _ => none)]

theorem thread_state_of_nestedCalls :
    let s := run (fun _ => 0) (fun _ => 0) 5 nestedCalls
    7 ∈ s.lookups ∧ 9 ∉ s.lookups ∧ 7 ∉ s.sockets := by
  intro s
  have h := thread_state_exact (fun _ => 0) (fun _ => 0) 5 nestedCalls
    (by rw [WellNested]; decide) (threadsFit_of_length (by decide))
  refine ⟨(h.1 7).mpr ⟨⟨0x500000007, some [101], 0x1000⟩, rfl, by decide⟩, ?_, ?_⟩
  · rintro hMem
    obtain ⟨call, hCall, hTarget⟩ := (h.1 9).mp hMem
    obtain rfl : ⟨0x600000009, none, 0x2000⟩ = call := Option.some.inj hCall
    exact absurd hTarget (by decide)
  · rintro hMem
    obtain ⟨call, hCall, _⟩ := (h.2.1 7).mp hMem
    cases hCall

end Ebacs.Tracecon
