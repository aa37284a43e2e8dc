import Mathlib.Data.List.DropRight
import Ebacs.Tracecon.PendingCalls

/-! # Attribution of connections to names

The name of an address is that of the latest lookup which answered with it,
until a connection to the address has taken the name. The shared map holds
exactly these names, so each event can be read off the history.
-/
namespace Ebacs.Tracecon
open Lib
open PageAccess (Pid)
set_option autoImplicit false

/-- The address of the first result that a lookup has stored. -/
def firstResult (user : UserMemory) (results : Pointer) : Option Address := do
  let result ← user.pointer results
  let addr ← user.pointer (result + aiAddr)
  user.word (addr + sinAddr)

/-- The answer and the request of the lookup that an act completes for a target thread. -/
def completedLookup (targetPid : Pid) : List Act × Act → Option (Address × Request)
  | (history, .getaddrinfoExit pidTgid ret user) =>
    if ret = 0 ∧ Target targetPid pidTgid then
      ((calls history).resolving pidTgid.toUInt32).bind (fun call =>
        (firstResult user call.request.res).map (fun a => (a, call.request)))
    else none
  | _ => none

/-- The address that an act completes a connect of a target thread to. -/
def completedConnect (targetPid : Pid) : List Act × Act → Option Address
  | (history, .tcpV4ConnectExit pidTgid ret daddr) =>
    if ret = 0 ∧ Target targetPid pidTgid then
      ((calls history).connecting pidTgid.toUInt32).bind (fun call => daddr call.request)
    else none
  | _ => none

def answeredWith (targetPid : Pid) (a : Address) (x : List Act × Act) : Option Request :=
  (completedLookup targetPid x).bind (fun answer => if answer.1 = a then some answer.2 else none)

/-- The latest lookup answered with `a` that no connect to `a` has followed. -/
def attributed (targetPid : Pid) (history : List Act) (a : Address) : Option Request :=
  (((moments history).rtakeWhile (fun x => completedConnect targetPid x ≠ some a)).filterMap
    (answeredWith targetPid a)).getLast?

/-- A name cut to 83 bytes, in an array of zeros. -/
def nameField (name : List UInt8) : Hostname :=
  .ofFn (fun i : Fin hostnameLen => (name.take (hostnameLen - 1)).getD i 0)

def expected (targetPid : Pid) (history : List Act) (act : Act) : List Event :=
  match completedConnect targetPid (history, act) with
  | none => []
  | some a =>
    match attributed targetPid history a with
    | some request => [hostnameEvent (nameField (request.hostname.getD []))]
    | none => [ipEvent a]

/-- The reads of an exit probe succeed. A name that cannot be read counts as empty. -/
def ReadsSucceed (targetPid : Pid) (c : Calls) : Act → Prop
  | .getaddrinfoExit pidTgid ret user => Target targetPid pidTgid → ret = 0 →
    ∀ call ∈ c.resolving pidTgid.toUInt32, (firstResult user call.request.res).isSome = true
  | .tcpV4ConnectExit pidTgid ret daddr => Target targetPid pidTgid → ret = 0 →
    ∀ call ∈ c.connecting pidTgid.toUInt32, (daddr call.request).isSome = true
  | _ => True

def named (targetPid : Pid) (history : List Act) : Finset Address :=
  (((moments history).filterMap (completedLookup targetPid)).map Prod.fst).toFinset.filter
    (fun a => (attributed targetPid history a).isSome)

/-- Never more names wait for a connection than the map has entries. -/
def NamesFit (targetPid : Pid) (acts : List Act) : Prop :=
  ∀ history, history <+: acts → (named targetPid history).card ≤ maxEntries

theorem readUserStr_empty (hostname : Option (List UInt8)) :
    readUserStr emptyLookup.c hostname = nameField (hostname.getD []) := by
  cases hostname with
  | none =>
    apply Vector.ext
    intro i hi
    simp [readUserStr, nameField]
  | some name => exact readStr_zeros name

theorem attributed_concat (targetPid : Pid) (history : List Act) (act : Act) (a : Address) :
    attributed targetPid (history ++ [act]) a =
      if completedConnect targetPid (history, act) = some a then none
      else (answeredWith targetPid a (history, act)).or (attributed targetPid history a) := by
  rw [attributed, moments_concat, List.rtakeWhile_concat]
  by_cases hConnect : completedConnect targetPid (history, act) = some a
  · simp [hConnect]
  · cases hAnswer : answeredWith targetPid a (history, act) with
    | none => simp [hConnect, List.filterMap_append, hAnswer, attributed]
    | some request => simp [hConnect, List.filterMap_append, hAnswer]

theorem isSome_attributed_of_answer {targetPid : Pid} {history : List Act} {a : Address}
    (h : (attributed targetPid history a).isSome = true) :
    a ∈ ((moments history).filterMap (completedLookup targetPid)).map Prod.fst := by
  obtain ⟨request, hRequest⟩ := Option.isSome_iff_exists.mp h
  have hMem := List.mem_of_getLast? hRequest
  obtain ⟨x, hx, hAnswer⟩ := List.mem_filterMap.mp hMem
  obtain ⟨answer, hLookup, hSame⟩ := Option.bind_eq_some_iff.mp hAnswer
  have hAddress : answer.1 = a := by
    by_contra hOther
    rw [if_neg hOther] at hSame
    cases hSame
  refine List.mem_map.mpr ⟨answer, ?_, hAddress⟩
  exact List.mem_filterMap.mpr ⟨x, (List.rtakeWhile_suffix _ _).subset hx, hLookup⟩

theorem mem_named {targetPid : Pid} {history : List Act} {a : Address} :
    a ∈ named targetPid history ↔ (attributed targetPid history a).isSome = true := by
  rw [named, Finset.mem_filter, List.mem_toFinset]
  exact ⟨fun h => h.2, fun h => ⟨isSome_attributed_of_answer h, h⟩⟩

theorem readAddress_of_firstResult {user : UserMemory} {results : Pointer} {a : Address}
    (h : firstResult user results = some a) : readAddress user results = a := by
  obtain ⟨result, hResult, h⟩ := Option.bind_eq_some_iff.mp h
  obtain ⟨addr, hAddr, h⟩ := Option.bind_eq_some_iff.mp h
  simp only [readAddress, hResult, hAddr, h, Option.getD_some]

/-- The shared map and the events against the history. -/
structure Attributes (targetPid : Pid) (s : Maps) (acts : List Act) : Prop where
  names : ∀ a, s.hostnames.lookupElem a = (attributed targetPid acts a).map Request.lookup
  events : s.events = (moments acts).flatMap (fun x => expected targetPid x.1 x.2)

section Step

variable {targetPid : Pid} {s : Maps} {acts : List Act}

/-- An act that completes nothing leaves names and events alone. -/
theorem Attributes.frame (h : Attributes targetPid s acts) {s' : Maps} {act : Act}
    (hLookup : completedLookup targetPid (acts, act) = none)
    (hConnect : completedConnect targetPid (acts, act) = none)
    (hNames : s'.hostnames = s.hostnames) (hEvents : s'.events = s.events) :
    Attributes targetPid s' (acts ++ [act]) := by
  constructor
  · intro a
    rw [hNames, h.names, attributed_concat, hConnect, if_neg nofun, answeredWith, hLookup]
    rfl
  · rw [hEvents, h.events, moments_concat, List.flatMap_append, List.flatMap_singleton, expected,
      hConnect, List.append_nil]

theorem Attributes.answer (h : Attributes targetPid s acts) {s' : Maps} {act : Act} {a : Address}
    {request : Request} (hLookup : completedLookup targetPid (acts, act) = some (a, request))
    (hConnect : completedConnect targetPid (acts, act) = none)
    (hFit : (named targetPid (acts ++ [act])).card ≤ maxEntries)
    (hNames : s'.hostnames = (s.hostnames.updateElem a request.lookup).getD s.hostnames)
    (hEvents : s'.events = s.events) : Attributes targetPid s' (acts ++ [act]) := by
  have hNext : ∀ a', attributed targetPid (acts ++ [act]) a' =
      if a' = a then some request else attributed targetPid acts a' := by
    intro a'
    rw [attributed_concat, hConnect, if_neg nofun, answeredWith, hLookup, Option.bind_some]
    by_cases hSame : a' = a
    · rw [if_pos hSame, if_pos hSame.symm]
      rfl
    · rw [if_neg hSame, if_neg (Ne.symm hSame)]
      rfl
  have hRoom : a ∈ s.hostnames ∨ s.hostnames.size < maxEntries := by
    refine BoundedMap.room_of_subset _ hFit (fun a' ha' => ?_) ?_
    · obtain ⟨lookup, hOld⟩ := BoundedMap.mem_iff_lookupElem.mp ha'
      rw [h.names] at hOld
      obtain ⟨old, hAttributed, _⟩ := Option.map_eq_some_iff.mp hOld
      rw [mem_named, hNext]
      split
      · rfl
      · rw [hAttributed]
        rfl
    · rw [mem_named, hNext, if_pos rfl]
      rfl
  constructor
  · intro a'
    rw [hNames, BoundedMap.lookupElem_updateElem, hNext, h.names]
    by_cases hSame : a' = a <;> simp [hSame, hRoom]
  · rw [hEvents, h.events, moments_concat, List.flatMap_append, List.flatMap_singleton, expected,
      hConnect, List.append_nil]

theorem Attributes.connect (h : Attributes targetPid s acts) {s' : Maps} {act : Act} {a : Address}
    (hLookup : completedLookup targetPid (acts, act) = none)
    (hConnect : completedConnect targetPid (acts, act) = some a)
    (hNames : s'.hostnames = s.hostnames.deleteElem a)
    (hEvents : s'.events = s.events ++ [connectEvent a (s.hostnames.lookupElem a)]) :
    Attributes targetPid s' (acts ++ [act]) := by
  constructor
  · intro a'
    rw [hNames, BoundedMap.lookupElem_deleteElem, attributed_concat, hConnect, answeredWith,
      hLookup, h.names]
    by_cases hSame : a' = a
    · rw [if_pos hSame, if_pos (congrArg some hSame.symm)]
      rfl
    · rw [if_neg hSame, if_neg (fun hEq => hSame (Option.some.inj hEq).symm)]
      rfl
  · rw [hEvents, h.events, moments_concat, List.flatMap_append, List.flatMap_singleton, h.names]
    congr 1
    simp only [expected, hConnect]
    cases attributed targetPid acts a with
    | none => rfl
    | some request =>
      simp only [Option.map_some, connectEvent, Request.lookup, readUserStr_empty]

theorem completedLookup_of_inside {pidTgid : UInt64} (hTarget : Target targetPid pidTgid)
    {call : Pending Request} (hCall : (calls acts).resolving pidTgid.toUInt32 = some call)
    {user : UserMemory} {a : Address} (hFirst : firstResult user call.request.res = some a) :
    completedLookup targetPid (acts, .getaddrinfoExit pidTgid 0 user) = some (a, call.request) := by
  rw [completedLookup, if_pos ⟨rfl, hTarget⟩, hCall, Option.bind_some, hFirst, Option.map_some]

theorem completedConnect_of_inside {pidTgid : UInt64} (hTarget : Target targetPid pidTgid)
    {call : Pending Pointer} (hCall : (calls acts).connecting pidTgid.toUInt32 = some call)
    {daddr : Pointer → Option Address} {a : Address} (hAddress : daddr call.request = some a) :
    completedConnect targetPid (acts, .tcpV4ConnectExit pidTgid 0 daddr) = some a := by
  rw [completedConnect, if_pos ⟨rfl, hTarget⟩, hCall, Option.bind_some, hAddress]

theorem completed_of_not_target (acts : List Act) {act : Act} (h : ¬Target targetPid act.pidTgid) :
    completedLookup targetPid (acts, act) = none ∧
    completedConnect targetPid (acts, act) = none := by
  cases act with
  | getaddrinfoEnter pidTgid hostname res => exact ⟨rfl, rfl⟩
  | getaddrinfoExit pidTgid ret user => exact ⟨if_neg (fun hBoth => h hBoth.2), rfl⟩
  | tcpV4ConnectEnter pidTgid sk => exact ⟨rfl, rfl⟩
  | tcpV4ConnectExit pidTgid ret daddr => exact ⟨rfl, if_neg (fun hBoth => h hBoth.2)⟩

theorem Attributes.resolved (h : Attributes targetPid s acts)
    (hAttends : Attends targetPid s (calls acts)) {pidTgid : UInt64}
    (hTarget : Target targetPid pidTgid) {ret : Int32} {user : UserMemory}
    (hInside : Inside (calls acts).resolving pidTgid)
    (hReads : ReadsSucceed targetPid (calls acts) (.getaddrinfoExit pidTgid ret user))
    (hFit : (named targetPid (acts ++ [.getaddrinfoExit pidTgid ret user])).card ≤ maxEntries) :
    Attributes targetPid (getaddrinfoExit targetPid s pidTgid ret user)
      (acts ++ [.getaddrinfoExit pidTgid ret user]) := by
  obtain ⟨call, hCall, hOwn⟩ := hInside
  have hLookup := hAttends.lookups.lookup_of_inside hTarget hCall hOwn
  rw [getaddrinfoExit_of_target hTarget hLookup]
  by_cases hRet : ret = 0
  · subst hRet
    obtain ⟨a, hFirst⟩ := Option.isSome_iff_exists.mp (hReads hTarget rfl call hCall)
    have hAddress : readAddress user call.request.lookup.results = a :=
      readAddress_of_firstResult hFirst
    refine h.answer (completedLookup_of_inside hTarget hCall hFirst) rfl hFit ?_ rfl
    rw [if_pos rfl, hAddress]
  · have hNone : completedLookup targetPid (acts, .getaddrinfoExit pidTgid ret user) = none :=
      if_neg (fun hBoth => hRet hBoth.1)
    exact h.frame hNone rfl (if_neg hRet) rfl

theorem Attributes.connected (h : Attributes targetPid s acts)
    (hAttends : Attends targetPid s (calls acts)) {pidTgid : UInt64}
    (hTarget : Target targetPid pidTgid) {ret : Int32} {daddr : Pointer → Option Address}
    (hInside : Inside (calls acts).connecting pidTgid)
    (hReads : ReadsSucceed targetPid (calls acts) (.tcpV4ConnectExit pidTgid ret daddr)) :
    Attributes targetPid (tcpV4ConnectExit targetPid s pidTgid ret daddr)
      (acts ++ [.tcpV4ConnectExit pidTgid ret daddr]) := by
  obtain ⟨call, hCall, hOwn⟩ := hInside
  have hSocket := hAttends.sockets.lookup_of_inside hTarget hCall hOwn
  rw [tcpV4ConnectExit_of_target hTarget hSocket]
  by_cases hRet : ret = 0
  · subst hRet
    obtain ⟨a, hAddress⟩ := Option.isSome_iff_exists.mp (hReads hTarget rfl call hCall)
    have hRead : (daddr (id call.request)).getD 0 = a := by
      rw [id, hAddress, Option.getD_some]
    refine h.connect rfl (completedConnect_of_inside hTarget hCall hAddress) ?_ ?_
    · rw [if_pos rfl, hRead]
    · simp only [if_true, hRead]
  · have hNone : completedConnect targetPid (acts, .tcpV4ConnectExit pidTgid ret daddr) = none :=
      if_neg (fun hBoth => hRet hBoth.1)
    refine h.frame rfl hNone (if_neg hRet) ?_
    simp only [hRet, if_false, List.append_nil]

theorem Attributes.step (h : Attributes targetPid s acts) (hAttends : Attends targetPid s (calls acts))
    {act : Act} (hAdmits : (calls acts).Admits act)
    (hReads : ReadsSucceed targetPid (calls acts) act)
    (hFit : (named targetPid (acts ++ [act])).card ≤ maxEntries) :
    Attributes targetPid (step targetPid s act) (acts ++ [act]) := by
  by_cases hTarget : Target targetPid act.pidTgid
  · cases act with
    | getaddrinfoEnter pidTgid hostname res =>
      change Target targetPid pidTgid at hTarget
      rw [Tracecon.step, getaddrinfoEnter_of_target s hTarget]
      exact h.frame rfl rfl rfl rfl
    | getaddrinfoExit pidTgid ret user => exact h.resolved hAttends hTarget hAdmits hReads hFit
    | tcpV4ConnectEnter pidTgid sk =>
      change Target targetPid pidTgid at hTarget
      rw [Tracecon.step, tcpV4ConnectEnter_of_target s hTarget]
      exact h.frame rfl rfl rfl rfl
    | tcpV4ConnectExit pidTgid ret daddr => exact h.connected hAttends hTarget hAdmits hReads
  · rw [step_of_not_target hTarget]
    obtain ⟨hLookup, hConnect⟩ := completed_of_not_target acts hTarget
    exact h.frame hLookup hConnect rfl rfl

end Step

/-- The assumptions on a run: calls that nest, room in the maps and reads that succeed. -/
structure Regular (targetPid : Pid) (acts : List Act) : Prop where
  nested : WellNested acts
  threads : ThreadsFit targetPid acts
  names : NamesFit targetPid acts
  reads : ∀ x ∈ moments acts, ReadsSucceed targetPid (calls x.1) x.2

theorem Regular.of_prefix {targetPid : Pid} {history acts : List Act}
    (h : Regular targetPid acts) (hPrefix : history <+: acts) : Regular targetPid history where
  nested := fun x hx => h.nested x (moments_subset hPrefix hx)
  threads := fun earlier hEarlier => h.threads earlier (hEarlier.trans hPrefix)
  names := fun earlier hEarlier => h.names earlier (hEarlier.trans hPrefix)
  reads := fun x hx => h.reads x (moments_subset hPrefix hx)

theorem attributes_run (tidBucket : Tid → Nat) (addressBucket : Address → Nat) (targetPid : Pid)
    (acts : List Act) (h : Regular targetPid acts) :
    Attributes targetPid (run tidBucket addressBucket targetPid acts) acts := by
  induction acts using List.reverseRecOn with
  | nil => exact ⟨fun _ => rfl, rfl⟩
  | append_singleton acts act ih =>
    have hBefore := h.of_prefix (List.prefix_append acts [act])
    have hAttends := attends_run tidBucket addressBucket targetPid acts hBefore.nested
      hBefore.threads
    have hLast : ReadsSucceed targetPid (calls acts) act := by
      refine h.reads (acts, act) ?_
      rw [moments_concat]
      exact List.mem_append_right _ (List.mem_singleton_self _)
    rw [run, List.foldl_append]
    exact (ih hBefore).step hAttends h.nested.before.2 hLast (h.names _ List.prefix_rfl)

/-- The exit of a successful connect on a target thread. -/
def Connects (targetPid : Pid) : Act → Prop
  | .tcpV4ConnectExit pidTgid ret _ => ret = 0 ∧ Target targetPid pidTgid
  | _ => False

theorem connects_iff {targetPid : Pid} {history : List Act} {act : Act}
    (hAdmits : (calls history).Admits act)
    (hReads : ReadsSucceed targetPid (calls history) act) :
    Connects targetPid act ↔ ∃ a, completedConnect targetPid (history, act) = some a := by
  cases act with
  | tcpV4ConnectExit pidTgid ret daddr =>
    constructor
    · rintro ⟨rfl, hTarget⟩
      obtain ⟨call, hCall, _⟩ := hAdmits
      obtain ⟨a, hAddress⟩ := Option.isSome_iff_exists.mp (hReads hTarget rfl call hCall)
      exact ⟨a, completedConnect_of_inside hTarget hCall hAddress⟩
    · rintro ⟨a, hConnect⟩
      rw [completedConnect] at hConnect
      split at hConnect
      · assumption
      · cases hConnect
  | _ => exact ⟨nofun, nofun⟩

/-- Each successful connect of a target thread emits one event, with the name of the latest
lookup that answered with its address if no connect has taken it since, else with the address;
nothing else emits an event. -/
theorem connections_attributed (tidBucket : Tid → Nat) (addressBucket : Address → Nat)
    (targetPid : Pid) (acts : List Act) (hRegular : Regular targetPid acts) :
    ∀ x ∈ moments acts,
      (Connects targetPid x.2 ↔ ∃ a, completedConnect targetPid x = some a) ∧
      (run tidBucket addressBucket targetPid (x.1 ++ [x.2])).events =
        (run tidBucket addressBucket targetPid x.1).events ++ expected targetPid x.1 x.2 := by
  rintro ⟨history, act⟩ hx
  have hAfter := hRegular.of_prefix (prefix_of_mem_moments hx)
  have hBefore := hAfter.of_prefix (List.prefix_append history [act])
  refine ⟨connects_iff (hRegular.nested _ hx) (hRegular.reads _ hx), ?_⟩
  rw [(attributes_run tidBucket addressBucket targetPid _ hAfter).events,
    (attributes_run tidBucket addressBucket targetPid _ hBefore).events, moments_concat,
    List.flatMap_append, List.flatMap_singleton]

theorem namesFit_of_length {targetPid : Pid} {acts : List Act} (h : acts.length ≤ maxEntries) :
    NamesFit targetPid acts := by
  intro history hPrefix
  calc
    (named targetPid history).card ≤
        (((moments history).filterMap (completedLookup targetPid)).map Prod.fst).toFinset.card :=
      Finset.card_filter_le _ _
    _ ≤ ((moments history).filterMap (completedLookup targetPid)).length :=
      (List.toFinset_card_le _).trans_eq (List.length_map _)
    _ ≤ history.length := (List.length_filterMap_le _ _).trans_eq (length_moments history)
    _ ≤ acts.length := hPrefix.length_le
    _ ≤ maxEntries := h

/-- One thread resolves an address to which another thread, then the first one, connects. -/
def resolvedBesideConnect : List Act :=
  let localhost : Address := 0x0100007f
  [.getaddrinfoEnter 0x500000007 (some [101]) 0x1000, .tcpV4ConnectEnter 0x500000008 0x3000,
    .getaddrinfoExit 0x500000007 0 ⟨fun _ => some 0x2000, fun _ => some localhost⟩,
    .tcpV4ConnectExit 0x500000008 0 (fun _ => some localhost),
    .tcpV4ConnectEnter 0x500000007 0x4000,
    .tcpV4ConnectExit 0x500000007 0 (fun _ => some localhost)]

theorem connections_of_resolvedBesideConnect :
    (run (fun _ => 0) (fun _ => 0) 5 (resolvedBesideConnect.take 4)).events =
      (run (fun _ => 0) (fun _ => 0) 5 (resolvedBesideConnect.take 3)).events ++
        [hostnameEvent (nameField [101])] ∧
    (run (fun _ => 0) (fun _ => 0) 5 resolvedBesideConnect).events =
      (run (fun _ => 0) (fun _ => 0) 5 (resolvedBesideConnect.take 5)).events ++
        [ipEvent 0x0100007f] := by
  have hRegular : Regular 5 resolvedBesideConnect := by
    refine ⟨by rw [WellNested]; decide, threadsFit_of_length (by decide),
      namesFit_of_length (by decide), ?_⟩
    simp only [resolvedBesideConnect, moments, trace, List.forall_mem_cons]
    exact ⟨trivial, trivial, fun _ _ _ _ => rfl, fun _ _ _ _ => rfl, trivial, fun _ _ _ _ => rfl,
      fun _ hx => absurd hx List.not_mem_nil⟩
  have h := connections_attributed (fun _ => 0) (fun _ => 0) 5 resolvedBesideConnect hRegular
  simp only [resolvedBesideConnect, moments, trace, List.forall_mem_cons] at h
  obtain ⟨_, _, _, hFirst, _, hSecond, _⟩ := h
  exact ⟨hFirst.2, hSecond.2⟩

end Ebacs.Tracecon
