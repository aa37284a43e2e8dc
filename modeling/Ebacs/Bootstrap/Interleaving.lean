import Mathlib.Logic.Function.Basic
import Ebacs.Bootstrap.Output

/-! # The handlers of `bootstrap` on several CPUs

Each helper call and each store of a handler is a step of its own, and the steps
of the CPUs and of the polling user side come in any order. Handler calls are
numbered in the order in which they start.
-/
namespace Ebacs.Bootstrap
open Lib
open PageAccess (Pid)
set_option autoImplicit false

abbrev Cpu := Nat

/-- What a CPU does next, for the handler call of number `n`. -/
inductive Pc where
  | idle
  | delete (n : Nat) (ctx : Context) (durationNs : UInt64)
  | reserve (n : Nat) (call : Call)
  | fill (i : Nat)

inductive Move where
  | start (cpu : Cpu) (act : Act)
  | next (cpu : Cpu)
  /-- The user side handles a record at the time of day `ts`. -/
  | poll (ts : List UInt8)

structure System where
  execStart : ExecStart
  pc : Cpu → Pc
  queue : RingQueue (Nat × Call) ringSize
  printed : List (List UInt8)
  started : List Act
  /-- The calls that the ring buffer had no room for. -/
  refused : List Nat

def System.init (bucket : Pid → Nat) : System :=
  ⟨.empty bucket, fun _ => .idle, .init (.zeroed ringSize), [], [], []⟩

/-- `header` is what the ring buffer writes in front of a record. -/
def layout (header : Nat → Bool → Vector UInt8 RingBuffer.headerLen) :
    RingQueue.Layout (Nat × Call) where
  size := sizeofEvent
  stores x := x.2.stores
  within x := x.2.stores_within
  header := header

theorem recordLen_layout (header : Nat → Bool → Vector UInt8 RingBuffer.headerLen) :
    RingBuffer.recordLen (layout header).size = 176 := by
  have hSize : (layout header).size = sizeofEvent := rfl
  rw [hSize]
  rfl

def System.goto (s : System) (cpu : Cpu) (pc : Pc) : System :=
  { s with pc := Function.update s.pc cpu pc }

theorem System.goto_pc_self (s : System) (cpu : Cpu) (pc : Pc) : (s.goto cpu pc).pc cpu = pc :=
  Function.update_self _ _ _

theorem System.goto_pc_of_ne (s : System) {cpu cpu' : Cpu} (h : cpu' ≠ cpu) (pc : Pc) :
    (s.goto cpu pc).pc cpu' = s.pc cpu' :=
  Function.update_of_ne h _ _

/-- The first helper call on a map. -/
def enter (minDurationNs : UInt64) (s : System) (cpu : Cpu) (n : Nat) : Act → System
  | .exec ctx =>
    let s := { s with execStart := (s.execStart.updateElem ctx.pid ctx.ktime).getD s.execStart }
    if minDurationNs ≠ 0 then s else s.goto cpu (.reserve n (.exec ctx))
  | .exit ctx =>
    if ctx.pid ≠ ctx.tid then s
    else match s.execStart.lookupElem ctx.pid with
      | some startTs => s.goto cpu (.delete n ctx (ctx.ktime - startTs))
      | none => if minDurationNs ≠ 0 then s else s.goto cpu (.delete n ctx 0)

section Moves

variable (header : Nat → Bool → Vector UInt8 RingBuffer.headerLen) (minDurationNs : UInt64)

def advance (s : System) (cpu : Cpu) : Pc → System
  | .idle => s
  | .delete n ctx durationNs =>
    let s := { s with execStart := s.execStart.deleteElem ctx.pid }
    if minDurationNs ≠ 0 ∧ durationNs < minDurationNs then s.goto cpu .idle
    else s.goto cpu (.reserve n (.exit ctx durationNs))
  | .reserve n call =>
    if s.queue.rb.HasRoom sizeofEvent then
      { s with queue := s.queue.step (layout header) (.reserve (n, call)) }.goto cpu
        (.fill s.queue.reservations.length)
    else { s with refused := s.refused ++ [n] }.goto cpu .idle
  | .fill i =>
    match s.queue.reservations[i]? with
    | some ⟨_, _, _ :: _, _⟩ => { s with queue := s.queue.step (layout header) (.store i) }
    | _ => { s with queue := s.queue.step (layout header) (.submit i) }.goto cpu .idle

def poll (s : System) (ts : List UInt8) : System :=
  let queue := s.queue.step (layout header) .consume
  { s with
    queue := queue
    printed := s.printed ++ (queue.handed.drop s.queue.handed.length).map (handleEvent ts) }

def move (s : System) : Move → System
  | .start cpu act =>
    match s.pc cpu with
    | .idle =>
      enter minDurationNs { s with started := s.started ++ [act] } cpu s.started.length act
    | _ => s
  | .next cpu => advance header minDurationNs s cpu (s.pc cpu)
  | .poll ts => poll header s ts

def interleaved (bucket : Pid → Nat) (moves : List Move) : System :=
  moves.foldl (move header minDurationNs) (System.init bucket)

end Moves

/-- The calls that got a record, in the order of their reservations. -/
def System.calls (s : System) : List (Nat × Call) := s.queue.calls

/-- The context that a CPU still has to report. -/
def Pc.context? : Pc → Option Context
  | .delete _ ctx _ => some ctx
  | .reserve _ call => some call.context
  | _ => none

theorem enter_eq (minDurationNs : UInt64) (s : System) (cpu : Cpu) (n : Nat) (act : Act) :
    ∃ execStart pc, enter minDurationNs s cpu n act =
        { s with execStart := execStart, pc := Function.update s.pc cpu pc } ∧
      (pc = s.pc cpu ∨ pc.context? = some act.context) := by
  cases act with
  | exec ctx =>
    rw [enter]
    split
    · exact ⟨_, s.pc cpu, by rw [Function.update_eq_self], .inl rfl⟩
    · exact ⟨_, _, rfl, .inr rfl⟩
  | exit ctx =>
    rw [enter]
    split
    · exact ⟨_, s.pc cpu, by rw [Function.update_eq_self], .inl rfl⟩
    · split
      · exact ⟨_, _, rfl, .inr rfl⟩
      · split
        · exact ⟨_, s.pc cpu, by rw [Function.update_eq_self], .inl rfl⟩
        · exact ⟨_, _, rfl, .inr rfl⟩

section Runs

variable {header : Nat → Bool → Vector UInt8 RingBuffer.headerLen} {minDurationNs : UInt64}
  {s : System}

/-- All that a run knows about the ring buffer. `Named` holds of the contexts of the calls and
`Time` of the times at which the user side polls. -/
structure Prints (header : Nat → Bool → Vector UInt8 RingBuffer.headerLen)
    (Named : Context → Prop) (Time : List UInt8 → Prop) (s : System) : Prop where
  sound : RingQueue.Sound (layout header) s.queue
  lines : s.printed.length = s.queue.handed.length
  printed : ∀ (i : Nat) (line bytes : List UInt8), s.printed[i]? = some line →
    s.queue.handed[i]? = some bytes → ∃ ts, Time ts ∧ line = handleEvent ts bytes
  named : ∀ x ∈ s.calls, Named x.2.context
  pending : ∀ cpu ctx, (s.pc cpu).context? = some ctx → Named ctx
  owned : ∀ (i : Nat) (r : Reservation (Nat × Call)), s.queue.reservations[i]? = some r →
    r.busy = true → ∃ cpu, s.pc cpu = .fill i

section Steps

variable {Named : Context → Prop} {Time : List UInt8 → Prop}

/-- Neither the map nor the numbers of the calls matter here. -/
theorem Prints.other (h : Prints header Named Time s) (execStart : ExecStart) (started : List Act)
    (refused : List Nat) :
    Prints header Named Time
      { s with execStart := execStart, started := started, refused := refused } :=
  ⟨h.sound, h.lines, h.printed, h.named, h.pending, h.owned⟩

/-- A CPU that holds no record turns to something else. -/
theorem Prints.goto (h : Prints header Named Time s) {cpu : Cpu} (hFree : ∀ i, s.pc cpu ≠ .fill i)
    {pc : Pc} (hNamed : ∀ ctx, pc.context? = some ctx → Named ctx) :
    Prints header Named Time (s.goto cpu pc) := by
  refine ⟨h.sound, h.lines, h.printed, h.named, fun cpu' ctx hCtx => ?_, fun i r hi hBusy => ?_⟩
  · obtain rfl | hOther := eq_or_ne cpu' cpu
    · rw [System.goto_pc_self] at hCtx
      exact hNamed ctx hCtx
    · rw [System.goto_pc_of_ne _ hOther] at hCtx
      exact h.pending cpu' ctx hCtx
  · obtain ⟨cpu', hFill⟩ := h.owned i r hi hBusy
    refine ⟨cpu', ?_⟩
    rw [System.goto_pc_of_ne]
    · exact hFill
    · rintro rfl
      exact hFree i hFill

theorem Prints.enter (h : Prints header Named Time s) {cpu : Cpu} (hIdle : s.pc cpu = .idle)
    (n : Nat) {act : Act} (hNamed : Named act.context) :
    Prints header Named Time (enter minDurationNs s cpu n act) := by
  obtain ⟨execStart, pc, hEnter, hPc⟩ := enter_eq minDurationNs s cpu n act
  have hFree : ∀ i, s.pc cpu ≠ .fill i := by
    rw [hIdle]
    nofun
  rw [hEnter]
  refine (h.other execStart s.started s.refused).goto hFree (fun ctx hCtx => ?_)
  obtain rfl | hAct := hPc
  · exact h.pending cpu ctx hCtx
  · rw [← Option.some.inj (hAct.symm.trans hCtx)]
    exact hNamed

theorem Prints.reserve (h : Prints header Named Time s) {cpu : Cpu} {n : Nat} {call : Call}
    (hPc : s.pc cpu = .reserve n call) (hRoom : s.queue.rb.HasRoom sizeofEvent) :
    Prints header Named Time ({ s with
      queue := s.queue.step (layout header) (.reserve (n, call)) }.goto cpu
        (.fill s.queue.reservations.length)) := by
  have hCalls : (s.queue.step (layout header) (.reserve (n, call))).calls =
      s.queue.calls ++ [(n, call)] := RingQueue.calls_reserve hRoom (n, call)
  have hQueue : s.queue.step (layout header) (.reserve (n, call)) =
      s.queue.reserve (layout header) (n, call) := if_pos hRoom
  refine ⟨h.sound.step (.reserve (n, call)), ?_, ?_, fun x hx => ?_, fun cpu' ctx hCtx => ?_,
    fun i r hi hBusy => ?_⟩
  · rw [hQueue]
    exact h.lines
  · rw [hQueue]
    exact h.printed
  · change x ∈ (s.queue.step (layout header) (.reserve (n, call))).calls at hx
    rw [hCalls] at hx
    obtain hOld | hNew := List.mem_append.mp hx
    · exact h.named x hOld
    · rw [List.mem_singleton.mp hNew]
      exact h.pending cpu call.context (by rw [hPc]; rfl)
  · obtain rfl | hOther := eq_or_ne cpu' cpu
    · rw [System.goto_pc_self] at hCtx
      cases hCtx
    · rw [System.goto_pc_of_ne _ hOther] at hCtx
      exact h.pending cpu' ctx hCtx
  · change (s.queue.step (layout header) (.reserve (n, call))).reservations[i]? = some r at hi
    rw [hQueue, RingQueue.reserve] at hi
    dsimp only at hi
    obtain hLt | hGe := Nat.lt_or_ge i s.queue.reservations.length
    · rw [List.getElem?_append_left hLt] at hi
      obtain ⟨cpu', hFill⟩ := h.owned i r hi hBusy
      refine ⟨cpu', ?_⟩
      rw [System.goto_pc_of_ne]
      · exact hFill
      · rintro rfl
        rw [hPc] at hFill
        cases hFill
    · have hBound := (List.getElem?_eq_some_iff.mp hi).1
      rw [List.length_append, List.length_singleton] at hBound
      obtain rfl : i = s.queue.reservations.length := by omega
      exact ⟨cpu, System.goto_pc_self _ _ _⟩

theorem Prints.store (h : Prints header Named Time s) (i : Nat) :
    Prints header Named Time { s with queue := s.queue.step (layout header) (.store i) } := by
  have hHanded : (s.queue.step (layout header) (.store i)).handed = s.queue.handed :=
    RingQueue.handed_store i
  refine ⟨h.sound.step (.store i), ?_, ?_, ?_, h.pending, fun j r hj hBusy => ?_⟩
  · rw [hHanded]
    exact h.lines
  · rw [hHanded]
    exact h.printed
  · rw [System.calls, RingQueue.calls_store]
    exact h.named
  · change (s.queue.step (layout header) (.store i)).reservations[j]? = some r at hj
    obtain ⟨r', hOld, hSame⟩ := RingQueue.busy_store hj
    exact h.owned j r' hOld (hSame.trans hBusy)

theorem Prints.submit (h : Prints header Named Time s) {cpu : Cpu} {i : Nat}
    (hPc : s.pc cpu = .fill i)
    (hDone : ∀ r, s.queue.reservations[i]? = some r → r.todo = []) :
    Prints header Named Time
      ({ s with queue := s.queue.step (layout header) (.submit i) }.goto cpu .idle) := by
  have hHanded : (s.queue.step (layout header) (.submit i)).handed = s.queue.handed :=
    RingQueue.handed_submit i
  refine ⟨h.sound.step (.submit i), ?_, ?_, ?_, fun cpu' ctx hCtx => ?_, fun j r hj hBusy => ?_⟩
  · change _ = (s.queue.step (layout header) (.submit i)).handed.length
    rw [hHanded]
    exact h.lines
  · rw [System.goto, hHanded]
    exact h.printed
  · rw [System.calls, System.goto, RingQueue.calls_submit]
    exact h.named
  · obtain rfl | hOther := eq_or_ne cpu' cpu
    · rw [System.goto_pc_self] at hCtx
      cases hCtx
    · rw [System.goto_pc_of_ne _ hOther] at hCtx
      exact h.pending cpu' ctx hCtx
  · change (s.queue.step (layout header) (.submit i)).reservations[j]? = some r at hj
    obtain ⟨hOld, hTodo⟩ := RingQueue.busy_submit hj hBusy
    obtain ⟨cpu', hFill⟩ := h.owned j r hOld hBusy
    refine ⟨cpu', ?_⟩
    rw [System.goto_pc_of_ne]
    · exact hFill
    · rintro rfl
      obtain rfl : i = j := Pc.fill.inj (hPc.symm.trans hFill)
      exact hTodo rfl (hDone r hOld)

theorem Prints.poll (h : Prints header Named Time s) {ts : List UInt8} (hTime : Time ts) :
    Prints header Named Time (poll header s ts) := by
  have hLines := h.lines
  have hCases := @RingQueue.consume_cases _ _ (layout header) s.queue
  obtain ⟨r, hNext, hFree, hStep⟩ | ⟨-, hStep⟩ := hCases
  · have hSound := h.sound.step .consume
    rw [Bootstrap.poll]
    rw [hStep] at hSound ⊢
    refine ⟨hSound, ?_, fun i line bytes hLine hBytes => ?_, h.named, h.pending, h.owned⟩
    · dsimp only
      rw [List.drop_left, List.length_append, List.length_append, hLines]
      rfl
    · dsimp only at hLine hBytes
      rw [List.drop_left, List.map_singleton] at hLine
      obtain hLt | hGe := Nat.lt_or_ge i s.queue.handed.length
      · rw [List.getElem?_append_left (by omega)] at hLine
        rw [List.getElem?_append_left hLt] at hBytes
        exact h.printed i line bytes hLine hBytes
      · have hBound := (List.getElem?_eq_some_iff.mp hBytes).1
        rw [List.length_append, List.length_singleton] at hBound
        obtain rfl : i = s.queue.handed.length := by omega
        rw [List.getElem?_concat_length] at hBytes
        rw [← hLines, List.getElem?_concat_length] at hLine
        rw [← Option.some.inj hBytes, ← Option.some.inj hLine]
        exact ⟨ts, hTime, rfl⟩
  · rw [Bootstrap.poll, hStep, List.drop_length, List.map_nil, List.append_nil]
    exact h

theorem Prints.advance (h : Prints header Named Time s) (cpu : Cpu) :
    Prints header Named Time (advance header minDurationNs s cpu (s.pc cpu)) := by
  cases hPc : s.pc cpu with
  | idle => exact h
  | delete n ctx durationNs =>
    have hFree : ∀ i, s.pc cpu ≠ .fill i := by
      rw [hPc]
      nofun
    have hMap := h.other (s.execStart.deleteElem ctx.pid) s.started s.refused
    rw [Bootstrap.advance]
    split
    · exact hMap.goto hFree nofun
    · refine hMap.goto hFree (fun ctx' hCtx => h.pending cpu ctx' ?_)
      rw [hPc]
      exact hCtx
  | reserve n call =>
    rw [Bootstrap.advance]
    split
    · rename_i hRoom
      exact h.reserve hPc hRoom
    · refine (h.other s.execStart s.started (s.refused ++ [n])).goto ?_ nofun
      change ∀ i, s.pc cpu ≠ .fill i
      rw [hPc]
      nofun
  | fill i =>
    rw [Bootstrap.advance]
    split
    · exact h.store i
    · rename_i hDone
      refine h.submit hPc (fun r hi => ?_)
      obtain ⟨call, pos, todo, busy⟩ := r
      cases todo with
      | nil => rfl
      | cons s todo => exact absurd hi (hDone call pos s todo busy)

theorem Prints.move (h : Prints header Named Time s) {m : Move}
    (hNamed : ∀ cpu act, m = .start cpu act → Named act.context)
    (hTime : ∀ ts, m = .poll ts → Time ts) :
    Prints header Named Time (move header minDurationNs s m) := by
  cases m with
  | start cpu act =>
    rw [Bootstrap.move]
    split
    · rename_i hIdle
      exact (h.other s.execStart (s.started ++ [act]) s.refused).enter hIdle _ (hNamed cpu act rfl)
    · exact h
  | next cpu => exact h.advance cpu
  | poll ts => exact h.poll (hTime ts rfl)

theorem prints_init (bucket : Pid → Nat) : Prints header Named Time (System.init bucket) where
  sound := RingQueue.sound_init _ _ rfl rfl
  lines := rfl
  printed := nofun
  named := nofun
  pending := nofun
  owned := nofun

theorem prints_interleaved (bucket : Pid → Nat) (moves : List Move)
    (hNamed : ∀ cpu act, .start cpu act ∈ moves → Named act.context)
    (hTime : ∀ ts, .poll ts ∈ moves → Time ts) :
    Prints header Named Time (interleaved header minDurationNs bucket moves) := by
  refine foldl_invariant (Prints header Named Time) (fun _ m => m ∈ moves) ?_ moves
    (prints_init bucket) (fun x hx => snd_mem_of_mem_trace hx)
  intro s m hMem h
  refine h.move ?_ ?_
  · rintro cpu act rfl
    exact hNamed cpu act hMem
  · rintro ts rfl
    exact hTime ts hMem

end Steps

/-- `bpf_get_current_comm` ends the name with a NUL. -/
def Terminated (ctx : Context) : Prop := 0 ∈ ctx.comm.toList

instance (ctx : Context) : Decidable (Terminated ctx) := inferInstanceAs (Decidable (_ ∈ _))

theorem line_of_shows {r : Reservation (Nat × Call)} {bytes : List UInt8} (ts : List UInt8)
    (hShows : RingQueue.Shows (layout header) r bytes) (hDone : r.todo = [])
    (hComm : Terminated r.call.2.context) : handleEvent ts bytes = r.call.2.line ts := by
  obtain ⟨made, stale, hStores, hStale, rfl⟩ := hShows
  rw [hDone, List.append_nil] at hStores
  rw [← hStores]
  exact handleEvent_fill ts r.call.2 hStale hComm

section Output

variable {Time : List UInt8 → Prop}

theorem Prints.line (h : Prints header Terminated Time s) {i : Nat} {line : List UInt8}
    (hLine : s.printed[i]? = some line) :
    ∃ x ts, s.calls[i]? = some x ∧ Time ts ∧ line = x.2.line ts := by
  have hIndex : i < s.queue.handed.length := by
    rw [← h.lines]
    exact (List.getElem?_eq_some_iff.mp hLine).1
  have hReserved : i < s.queue.reservations.length := Nat.lt_of_lt_of_le hIndex h.sound.order
  have hBytes := List.getElem?_eq_getElem hIndex
  have hi := List.getElem?_eq_getElem hReserved
  have hCall : s.calls[i]? = some s.queue.reservations[i].call := by
    rw [System.calls, RingQueue.calls, List.getElem?_map, hi, Option.map_some]
  have hDone := h.sound.finished i _ hi (h.sound.released i _ hIndex hi)
  obtain ⟨ts, hTime, rfl⟩ := h.printed i line _ hLine hBytes
  refine ⟨_, ts, hCall, hTime, ?_⟩
  exact line_of_shows ts (h.sound.shown i _ _ hBytes hi) hDone
    (h.named _ (List.mem_of_getElem? hCall))

theorem Prints.pending_le (h : Prints header Terminated Time s) :
    s.printed.length ≤ s.calls.length ∧ s.calls.length ≤ s.printed.length + 1489 := by
  have hOrder := h.sound.order
  have hRoom : _ ≤ _ + 262144 := h.sound.room
  rw [h.sound.producer, h.sound.consumer, recordLen_layout] at hRoom
  rw [h.lines, System.calls, RingQueue.calls, List.length_map]
  omega

/-- Without a handler under way every poll prints the line of the next call. -/
theorem Prints.poll_of_idle (h : Prints header Terminated Time s) (hIdle : ∀ cpu, s.pc cpu = .idle)
    (ts : List UInt8) :
    (Bootstrap.poll header s ts).printed =
      s.printed ++ (s.calls[s.printed.length]?.map (fun x => x.2.line ts)).toList := by
  have hCases := @RingQueue.consume_cases _ _ (layout header) s.queue
  rw [Bootstrap.poll, System.calls, RingQueue.calls, List.getElem?_map, h.lines]
  obtain ⟨r, hNext, hFree, hStep⟩ | ⟨hBusy, hStep⟩ := hCases
  · have hShows := h.sound.live _ r le_rfl hNext
    rw [h.sound.placed _ r hNext, ← h.sound.consumer] at hShows
    have hComm : Terminated r.call.2.context :=
      h.named _ (List.mem_map.mpr ⟨r, List.mem_of_getElem? hNext, rfl⟩)
    have hLine := line_of_shows ts hShows (h.sound.finished _ r hNext hFree) hComm
    rw [hStep, hNext]
    dsimp only
    rw [List.drop_left, List.map_singleton, hLine]
    rfl
  · rw [hStep, List.drop_length]
    cases hNext : s.queue.reservations[s.queue.handed.length]? with
    | none => rfl
    | some r =>
      obtain ⟨cpu, hFill⟩ := h.owned _ r hNext (hBusy r hNext)
      rw [hIdle cpu] at hFill
      cases hFill

theorem Prints.polls (h : Prints header Terminated (fun _ => True) s)
    (hIdle : ∀ cpu, s.pc cpu = .idle) (times : List (List UInt8)) :
    ((times.map Move.poll).foldl (Bootstrap.move header minDurationNs) s).printed =
      s.printed ++ List.zipWith (fun x ts => x.2.line ts) (s.calls.drop s.printed.length) times := by
  induction times generalizing s with
  | nil => rw [List.zipWith_nil_right, List.append_nil]; rfl
  | cons ts times ih =>
    have hStep := h.poll_of_idle hIdle ts
    have hCalls : (Bootstrap.poll header s ts).calls = s.calls := RingQueue.calls_consume
    have hPolled : Prints header Terminated (fun _ => True) (Bootstrap.poll header s ts) :=
      h.poll trivial
    have hRest := ih hPolled hIdle
    rw [hCalls, hStep] at hRest
    refine hRest.trans ?_
    cases hNext : s.calls[s.printed.length]? with
    | none =>
      have hEnd := List.getElem?_eq_none_iff.mp hNext
      rw [Option.map_none, Option.toList_none, List.append_nil, List.drop_eq_nil_of_le hEnd,
        List.zipWith_nil_left, List.zipWith_nil_left]
    | some x =>
      obtain ⟨hIndex, rfl⟩ := List.getElem?_eq_some_iff.mp hNext
      rw [Option.map_some, Option.toList_some, List.length_append, List.length_singleton,
        List.drop_eq_getElem_cons hIndex, List.zipWith_cons_cons, List.append_assoc]
      rfl

end Output

theorem advance_pc_of_ne {cpu cpu' : Cpu} (h : cpu' ≠ cpu) (pc : Pc) :
    (advance header minDurationNs s cpu pc).pc cpu' = s.pc cpu' := by
  cases pc with
  | idle => rfl
  | delete n ctx durationNs =>
    rw [advance]
    split
    · exact System.goto_pc_of_ne _ h _
    · exact System.goto_pc_of_ne _ h _
  | reserve n call =>
    rw [advance]
    split
    · exact System.goto_pc_of_ne _ h _
    · exact System.goto_pc_of_ne _ h _
  | fill i =>
    rw [advance]
    split
    · rfl
    · exact System.goto_pc_of_ne _ h _

/-- A CPU on which no handler has started. -/
theorem idle_of_no_start {bucket : Pid → Nat} {moves : List Move} {cpu : Cpu}
    (hNone : ∀ act, .start cpu act ∉ moves) :
    (interleaved header minDurationNs bucket moves).pc cpu = .idle := by
  refine foldl_invariant (fun s : System => s.pc cpu = .idle) (fun _ m => m ∈ moves) ?_ moves rfl
    (fun x hx => snd_mem_of_mem_trace hx)
  intro s m hMem hIdle
  cases m with
  | start cpu' act =>
    have hOther : cpu ≠ cpu' := by
      rintro rfl
      exact hNone act hMem
    rw [move]
    split
    · obtain ⟨execStart, pc, hEnter, -⟩ := enter_eq minDurationNs
        { s with started := s.started ++ [act] } cpu' s.started.length act
      rw [hEnter]
      exact (Function.update_of_ne hOther pc s.pc).trans hIdle
    · exact hIdle
  | next cpu' =>
    rw [move]
    obtain rfl | hOther := eq_or_ne cpu cpu'
    · rw [hIdle]
      exact hIdle
    · rw [advance_pc_of_ne hOther]
      exact hIdle
  | poll ts => exact hIdle

end Runs

/-- In every interleaving the printed lines are those of the first calls that got a record, in the
order in which they got it, and at most 1489 calls wait for their line. -/
theorem lines_interleaved (header : Nat → Bool → Vector UInt8 RingBuffer.headerLen)
    (minDurationNs : UInt64) (bucket : Pid → Nat) (moves : List Move)
    (hComm : ∀ cpu act, .start cpu act ∈ moves → Terminated act.context) :
    let s := interleaved header minDurationNs bucket moves
    s.printed.length ≤ s.calls.length ∧ s.calls.length ≤ s.printed.length + 1489 ∧
      ∀ (i : Nat) (line : List UInt8), s.printed[i]? = some line →
        ∃ x ts, s.calls[i]? = some x ∧ .poll ts ∈ moves ∧ line = x.2.line ts := by
  intro s
  have h : Prints header Terminated (fun ts => .poll ts ∈ moves) s :=
    prints_interleaved bucket moves hComm (fun _ hMem => hMem)
  obtain ⟨hOrder, hPending⟩ := h.pending_le
  refine ⟨hOrder, hPending, fun i line hLine => ?_⟩
  exact h.line hLine

/-- Two execs step by step in turn. The second one is the first to reserve its record. -/
def twoExecs : List Move :=
  [.start 0 (.exec ⟨0x500000005, 100, 1, 0, .replicate 16 0, [47, 97], none⟩),
    .start 1 (.exec ⟨0x600000006, 200, 1, 0, .replicate 16 0, [47, 98], none⟩)] ++
  (List.replicate 7 [.next 1, .next 0]).flatten

theorem terminated_twoExecs : ∀ cpu act, .start cpu act ∈ twoExecs → Terminated act.context := by
  intro cpu act hMem
  obtain hStart | hNext := List.mem_append.mp hMem
  · simp only [List.mem_cons, List.not_mem_nil, or_false] at hStart
    obtain hFirst | hSecond := hStart
    · rw [(Move.start.inj hFirst).2]
      decide
    · rw [(Move.start.inj hSecond).2]
      decide
  · simp at hNext

theorem lines_interleaved_twoExecs :
    let s := interleaved (fun _ _ => .replicate 8 0) 0 (fun _ => 0) (twoExecs ++ [.poll [49]])
    s.printed.length = 1 ∧ s.calls.length = 2 ∧
      ∀ (i : Nat) (line : List UInt8), s.printed[i]? = some line →
        ∃ x ts, s.calls[i]? = some x ∧ .poll ts ∈ twoExecs ++ [.poll [49]] ∧
          line = x.2.line ts := by
  have hComm : ∀ cpu act, .start cpu act ∈ twoExecs ++ [.poll [49]] → Terminated act.context := by
    intro cpu act hMem
    obtain hExec | hPoll := List.mem_append.mp hMem
    · exact terminated_twoExecs cpu act hExec
    · cases List.mem_singleton.mp hPoll
  have h := lines_interleaved (fun _ _ => .replicate 8 0) 0 (fun _ => 0) _ hComm
  exact ⟨rfl, rfl, h.2.2⟩

/-- Once no handler is under way the polls print the rest, one call each. -/
theorem lines_drained (header : Nat → Bool → Vector UInt8 RingBuffer.headerLen)
    (minDurationNs : UInt64) (bucket : Pid → Nat) (moves : List Move)
    (hComm : ∀ cpu act, .start cpu act ∈ moves → Terminated act.context)
    (hIdle : ∀ cpu, (interleaved header minDurationNs bucket moves).pc cpu = .idle)
    (times : List (List UInt8)) :
    let s := interleaved header minDurationNs bucket moves
    (interleaved header minDurationNs bucket (moves ++ times.map .poll)).printed =
      s.printed ++ List.zipWith (fun x ts => x.2.line ts) (s.calls.drop s.printed.length) times := by
  intro s
  have h : Prints header Terminated (fun _ => True) s :=
    prints_interleaved bucket moves hComm (fun _ _ => trivial)
  rw [interleaved, List.foldl_append]
  exact h.polls hIdle times

theorem lines_drained_twoExecs :
    (interleaved (fun _ _ => .replicate 8 0) 0 (fun _ => 0)
        (twoExecs ++ [[49], [50], [51]].map .poll)).printed =
      [Call.line [49] (.exec ⟨0x600000006, 200, 1, 0, .replicate 16 0, [47, 98], none⟩),
        Call.line [50] (.exec ⟨0x500000005, 100, 1, 0, .replicate 16 0, [47, 97], none⟩)] := by
  refine lines_drained (fun _ _ => .replicate 8 0) 0 (fun _ => 0) twoExecs terminated_twoExecs ?_
    [[49], [50], [51]]
  intro cpu
  obtain rfl | hFirst := eq_or_ne cpu 0
  · rfl
  · obtain rfl | hSecond := eq_or_ne cpu 1
    · rfl
    · apply idle_of_no_start
      intro act hMem
      obtain hStart | hNext := List.mem_append.mp hMem
      · simp only [List.mem_cons, Move.start.injEq, List.not_mem_nil, or_false] at hStart
        obtain ⟨hCpu, -⟩ | ⟨hCpu, -⟩ := hStart
        · exact hFirst hCpu
        · exact hSecond hCpu
      · simp at hNext

end Ebacs.Bootstrap
