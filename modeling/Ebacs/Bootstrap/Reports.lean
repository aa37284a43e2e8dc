import Mathlib.Data.List.Nodup
import Ebacs.Bootstrap.Interleaving

/-! # The reports of interleaved handlers

What a handler call reports is fixed by the calls that started before it, however
the steps of the handlers are mixed, as long as a process neither execs nor exits once
more while an exit of it has looked up the start time and not yet deleted it. Its
threads may exit at any time.
-/
namespace Ebacs.Bootstrap
open Lib
open PageAccess (Pid)
set_option autoImplicit false

def durationOf (before : List Act) (ctx : Context) : UInt64 :=
  match start before ctx.pid with
  | some startTs => ctx.ktime - startTs
  | none => 0

/-- The record that a call asks for after the calls `before`. -/
def callOf (before : List Act) : Act → Call
  | .exec ctx => .exec ctx
  | .exit ctx => .exit ctx (durationOf before ctx)

/-- The calls that ask for a record. -/
def Asks (minDurationNs : UInt64) (before : List Act) : Act → Prop
  | .exec _ => minDurationNs = 0
  | .exit ctx => ctx.pid = ctx.tid ∧
      (minDurationNs = 0 ∨
        (start before ctx.pid).isSome = true ∧ minDurationNs ≤ durationOf before ctx)

/-- What the start of a handler call meets: if it is an exec or the exit of a leader, no exit of the
same process between its lookup and its deletion, and room for the start time of an exec. -/
def Admitted (s : System) : Move → Prop
  | .start _ act =>
      (∀ cpu n ctx durationNs, s.pc cpu = .delete n ctx durationNs →
        ¬act.Execs ctx.pid ∧ ¬act.Ends ctx.pid) ∧
      (∀ ctx, act = .exec ctx → ctx.pid ∈ s.execStart ∨ s.execStart.size < maxStarts)
  | _ => True

def Pc.number : Pc → Option Nat
  | .delete n _ _ => some n
  | .reserve n _ => some n
  | _ => none

/-- The calls that have got a record or were refused one. -/
def System.served (s : System) : List Nat := s.calls.map Prod.fst ++ s.refused

/-- The call of number `n` asks for the record `call`. -/
def Wants (minDurationNs : UInt64) (started : List Act) (n : Nat) (call : Call) : Prop :=
  ∃ act, started[n]? = some act ∧ Asks minDurationNs (started.take n) act ∧
    call = callOf (started.take n) act

/-- An exit between its lookup and its deletion. -/
structure Deleting (minDurationNs : UInt64) (started : List Act) (n : Nat) (ctx : Context)
    (durationNs : UInt64) : Prop where
  exit : started[n]? = some (.exit ctx)
  leader : ctx.pid = ctx.tid
  duration : durationNs = durationOf (started.take n) ctx
  reported : minDurationNs = 0 ∨ (start (started.take n) ctx.pid).isSome = true
  ended : start started ctx.pid = none

def System.Deletes (s : System) (p : Pid) : Prop :=
  ∃ cpu n ctx durationNs, s.pc cpu = .delete n ctx durationNs ∧ ctx.pid = p

structure Reports (minDurationNs : UInt64) (s : System) : Prop where
  once : s.served.Nodup
  fresh : ∀ cpu n, (s.pc cpu).number = some n → n ∉ s.served ∧ n < s.started.length
  apart : ∀ cpu cpu' n, (s.pc cpu).number = some n → (s.pc cpu').number = some n → cpu = cpu'
  calls : ∀ x ∈ s.calls, Wants minDurationNs s.started x.1 x.2
  refused : ∀ n ∈ s.refused, ∃ call, Wants minDurationNs s.started n call
  reserving : ∀ cpu n call, s.pc cpu = .reserve n call → Wants minDurationNs s.started n call
  deleting : ∀ cpu n ctx durationNs, s.pc cpu = .delete n ctx durationNs →
    Deleting minDurationNs s.started n ctx durationNs
  starts : ∀ p, ¬s.Deletes p → s.execStart.lookupElem p = start s.started p
  complete : ∀ n call, Wants minDurationNs s.started n call →
    n ∈ s.served ∨ ∃ cpu, (s.pc cpu).number = some n

section Histories

variable {minDurationNs : UInt64} {started : List Act} {n : Nat} {call : Call}

theorem Wants.lt (h : Wants minDurationNs started n call) : n < started.length := by
  obtain ⟨act, hAct, -⟩ := h
  exact (List.getElem?_eq_some_iff.mp hAct).1

theorem Wants.append (h : Wants minDurationNs started n call) (act : Act) :
    Wants minDurationNs (started ++ [act]) n call := by
  have hLt := h.lt
  obtain ⟨act', hAct, hRest⟩ := h
  refine ⟨act', ?_, ?_⟩
  · rwa [List.getElem?_append_left hLt]
  · rwa [List.take_append_of_le_length (Nat.le_of_lt hLt)]

theorem wants_last {act : Act} (hAsks : Asks minDurationNs started act) :
    Wants minDurationNs (started ++ [act]) started.length (callOf started act) := by
  refine ⟨act, List.getElem?_concat_length, ?_, ?_⟩
  · rwa [List.take_left]
  · rw [List.take_left]

/-- The calls of a history are those before and the last one. -/
theorem wants_concat {act : Act} (h : Wants minDurationNs (started ++ [act]) n call) :
    Wants minDurationNs started n call ∨
      n = started.length ∧ Asks minDurationNs started act := by
  have hLt := h.lt
  rw [List.length_append, List.length_singleton] at hLt
  obtain ⟨act', hAct, hAsks, hCall⟩ := h
  obtain hBefore | rfl := Nat.lt_succ_iff_lt_or_eq.mp hLt
  · rw [List.getElem?_append_left hBefore] at hAct
    rw [List.take_append_of_le_length (Nat.le_of_lt hBefore)] at hAsks hCall
    exact .inl ⟨act', hAct, hAsks, hCall⟩
  · rw [List.getElem?_concat_length] at hAct
    rw [List.take_left] at hAsks
    rw [Option.some.inj hAct]
    exact .inr ⟨rfl, hAsks⟩

theorem Deleting.append {ctx : Context} {durationNs : UInt64}
    (h : Deleting minDurationNs started n ctx durationNs) {act : Act}
    (hExecs : ¬act.Execs ctx.pid) :
    Deleting minDurationNs (started ++ [act]) n ctx durationNs := by
  have hLt := (List.getElem?_eq_some_iff.mp h.exit).1
  have hTake : (started ++ [act]).take n = started.take n :=
    List.take_append_of_le_length (Nat.le_of_lt hLt)
  refine ⟨?_, h.leader, ?_, ?_, ?_⟩
  · rw [List.getElem?_append_left hLt]
    exact h.exit
  · rw [hTake]
    exact h.duration
  · rw [hTake]
    exact h.reported
  · rw [start_concat, h.ended, if_neg hExecs, ite_self]

end Histories

section Steps

variable {minDurationNs : UInt64} {s : System}

theorem Reports.lt_of_served (h : Reports minDurationNs s) {n : Nat} (hServed : n ∈ s.served) :
    n < s.started.length := by
  obtain hCall | hRefused := List.mem_append.mp hServed
  · obtain ⟨x, hx, rfl⟩ := List.mem_map.mp hCall
    exact (h.calls x hx).lt
  · obtain ⟨call, hWants⟩ := h.refused n hRefused
    exact hWants.lt

theorem pc_goto {cpu cpu' : Cpu} {pc pc' : Pc} (h : (s.goto cpu pc).pc cpu' = pc') :
    cpu' = cpu ∧ pc = pc' ∨ cpu' ≠ cpu ∧ s.pc cpu' = pc' := by
  obtain rfl | hOther := eq_or_ne cpu' cpu
  · rw [System.goto_pc_self] at h
    exact .inl ⟨rfl, h⟩
  · rw [System.goto_pc_of_ne _ hOther] at h
    exact .inr ⟨hOther, h⟩

theorem number_goto {cpu cpu' : Cpu} {pc : Pc} {n : Nat}
    (h : ((s.goto cpu pc).pc cpu').number = some n) :
    cpu' = cpu ∧ pc.number = some n ∨ cpu' ≠ cpu ∧ (s.pc cpu').number = some n := by
  obtain rfl | hOther := eq_or_ne cpu' cpu
  · rw [System.goto_pc_self] at h
    exact .inl ⟨rfl, h⟩
  · rw [System.goto_pc_of_ne _ hOther] at h
    exact .inr ⟨hOther, h⟩

/-- What a handler call must establish when it starts. -/
theorem Reports.entered (h : Reports minDurationNs s) {cpu : Cpu} (hIdle : s.pc cpu = .idle)
    {act : Act} {pc : Pc} {execStart : ExecStart}
    (hOthers : ∀ cpu n ctx durationNs, s.pc cpu = .delete n ctx durationNs →
      ¬act.Execs ctx.pid)
    (hNumber : ∀ n, pc.number = some n → n = s.started.length)
    (hAsks : Asks minDurationNs s.started act → pc.number = some s.started.length)
    (hReserve : ∀ n call, pc = .reserve n call →
      Wants minDurationNs (s.started ++ [act]) n call)
    (hDelete : ∀ n ctx durationNs, pc = .delete n ctx durationNs →
      Deleting minDurationNs (s.started ++ [act]) n ctx durationNs)
    (hStarts : ∀ p, ¬s.Deletes p → (∀ n ctx durationNs, pc = .delete n ctx durationNs →
      ctx.pid ≠ p) → execStart.lookupElem p = start (s.started ++ [act]) p) :
    Reports minDurationNs
      ({ s with started := s.started ++ [act], execStart := execStart }.goto cpu pc) := by
  have hLength : (s.started ++ [act]).length = s.started.length + 1 := by
    rw [List.length_append, List.length_singleton]
  refine ⟨h.once, fun cpu' n hn => ?_, fun cpu₁ cpu₂ n h₁ h₂ => ?_, fun x hx => ?_,
    fun n hn => ?_, fun cpu' n call hPc => ?_, fun cpu' n ctx durationNs hPc => ?_,
    fun p hp => ?_, fun n call hWants => ?_⟩
  · obtain ⟨rfl, hOwn⟩ | ⟨-, hOld⟩ := number_goto hn
    · obtain rfl := hNumber n hOwn
      refine ⟨fun hServed => Nat.lt_irrefl _ (h.lt_of_served hServed), ?_⟩
      rw [System.goto, hLength]
      exact Nat.lt_succ_self _
    · obtain ⟨hNew, hLt⟩ := h.fresh cpu' n hOld
      refine ⟨hNew, ?_⟩
      rw [System.goto, hLength]
      exact Nat.lt_succ_of_lt hLt
  · obtain ⟨rfl, hOwn₁⟩ | ⟨-, hOld₁⟩ := number_goto h₁
    · obtain ⟨rfl, -⟩ | ⟨-, hOld₂⟩ := number_goto h₂
      · rfl
      · obtain rfl := hNumber n hOwn₁
        exact absurd (h.fresh cpu₂ _ hOld₂).2 (Nat.lt_irrefl _)
    · obtain ⟨rfl, hOwn₂⟩ | ⟨-, hOld₂⟩ := number_goto h₂
      · obtain rfl := hNumber n hOwn₂
        exact absurd (h.fresh cpu₁ _ hOld₁).2 (Nat.lt_irrefl _)
      · exact h.apart cpu₁ cpu₂ n hOld₁ hOld₂
  · exact (h.calls x hx).append act
  · obtain ⟨call, hWants⟩ := h.refused n hn
    exact ⟨call, hWants.append act⟩
  · obtain ⟨rfl, hNew⟩ | ⟨-, hOld⟩ := pc_goto hPc
    · exact hReserve n call hNew
    · exact (h.reserving cpu' n call hOld).append act
  · obtain ⟨rfl, hNew⟩ | ⟨-, hOld⟩ := pc_goto hPc
    · exact hDelete n ctx durationNs hNew
    · exact (h.deleting cpu' n ctx durationNs hOld).append (hOthers cpu' n ctx durationNs hOld)
  · refine hStarts p ?_ ?_
    · rintro ⟨cpu', n, ctx, durationNs, hPc, rfl⟩
      refine hp ⟨cpu', n, ctx, durationNs, ?_, rfl⟩
      rw [System.goto_pc_of_ne]
      · exact hPc
      · rintro rfl
        rw [hIdle] at hPc
        cases hPc
    · rintro n ctx durationNs hPc rfl
      exact hp ⟨cpu, n, ctx, durationNs, by rw [System.goto_pc_self, hPc], rfl⟩
  · obtain hOld | ⟨rfl, hNew⟩ := wants_concat hWants
    · obtain hServed | ⟨cpu', hn⟩ := h.complete n call hOld
      · exact .inl hServed
      · refine .inr ⟨cpu', ?_⟩
        rw [System.goto_pc_of_ne]
        · exact hn
        · rintro rfl
          rw [hIdle] at hn
          cases hn
    · refine .inr ⟨cpu, ?_⟩
      rw [System.goto_pc_self]
      exact hAsks hNew

theorem Reports.of_goto {cpu : Cpu} {pc : Pc} (h : Reports minDurationNs (s.goto cpu pc))
    (hPc : s.pc cpu = pc) : Reports minDurationNs s := by
  rwa [System.goto, ← hPc, Function.update_eq_self] at h

theorem Reports.exec (h : Reports minDurationNs s) {cpu : Cpu} (hIdle : s.pc cpu = .idle)
    {ctx : Context}
    (hOthers : ∀ cpu n ctx' durationNs, s.pc cpu = .delete n ctx' durationNs →
      ¬(Act.exec ctx).Execs ctx'.pid)
    (hRoom : ctx.pid ∈ s.execStart ∨ s.execStart.size < maxStarts) :
    Reports minDurationNs (enter minDurationNs { s with started := s.started ++ [.exec ctx] } cpu
      s.started.length (.exec ctx)) := by
  have hStarts : ∀ p, ¬s.Deletes p →
      ((s.execStart.updateElem ctx.pid ctx.ktime).getD s.execStart).lookupElem p =
        start (s.started ++ [.exec ctx]) p := by
    intro p hp
    have hEnds : ¬(Act.exec ctx).Ends p := id
    rw [BoundedMap.lookupElem_updateElem, start_concat, if_neg hEnds, h.starts p hp]
    simp only [hRoom, and_true]
    exact if_congr eq_comm rfl rfl
  obtain hZero | hMin := eq_or_ne minDurationNs 0
  · have hGoto : Reports minDurationNs ({ s with
        started := s.started ++ [Act.exec ctx]
        execStart := (s.execStart.updateElem ctx.pid ctx.ktime).getD s.execStart }.goto cpu
          (.reserve s.started.length (.exec ctx))) := by
      refine h.entered hIdle hOthers ?_ (fun _ => rfl) ?_ ?_ (fun p hp _ => hStarts p hp)
      · intro n hn
        exact (Option.some.inj hn).symm
      · intro n call hPc
        obtain ⟨rfl, rfl⟩ := Pc.reserve.inj hPc
        have hAsks : Asks minDurationNs s.started (.exec ctx) := hZero
        exact wants_last hAsks
      · intro n ctx' durationNs hPc
        cases hPc
    rw [enter, if_neg (not_not.mpr hZero)]
    exact hGoto
  · have hStay : Reports minDurationNs ({ s with
        started := s.started ++ [Act.exec ctx]
        execStart := (s.execStart.updateElem ctx.pid ctx.ktime).getD s.execStart }.goto cpu
          .idle) := by
      refine h.entered hIdle hOthers ?_ ?_ ?_ ?_ (fun p hp _ => hStarts p hp)
      · intro n hn
        cases hn
      · intro hAsks
        exact absurd hAsks hMin
      · intro n call hPc
        cases hPc
      · intro n ctx' durationNs hPc
        cases hPc
    rw [enter, if_pos hMin]
    exact hStay.of_goto hIdle

theorem start_exit {started : List Act} {ctx : Context} (p : Pid) :
    start (started ++ [.exit ctx]) p =
      if ctx.pid = p ∧ ctx.tid = ctx.pid then none else start started p := by
  have hExecs : ¬(Act.exit ctx).Execs p := id
  rw [start_concat, if_neg hExecs]
  rfl

/-- The exit of a thread and, with a minimal duration, of a process without a start time. -/
theorem Reports.exit_ignored (h : Reports minDurationNs s) {cpu : Cpu} (hIdle : s.pc cpu = .idle)
    {ctx : Context}
    (hAsks : ¬Asks minDurationNs s.started (.exit ctx))
    (hStart : ctx.pid = ctx.tid → s.execStart.lookupElem ctx.pid = none) :
    Reports minDurationNs { s with started := s.started ++ [.exit ctx] } := by
  have hStay : Reports minDurationNs
      ({ s with started := s.started ++ [Act.exit ctx] }.goto cpu .idle) := by
    refine h.entered hIdle (fun _ _ _ _ _ => id) nofun (fun h => absurd h hAsks) nofun nofun
      (fun p hp _ => ?_)
    rw [start_exit]
    split
    · rename_i hEnds
      rw [← hEnds.1]
      exact hStart hEnds.2.symm
    · exact h.starts p hp
  exact hStay.of_goto hIdle

/-- An exit that has looked up the start time. -/
theorem Reports.exit_deleting (h : Reports minDurationNs s) {cpu : Cpu}
    (hIdle : s.pc cpu = .idle) {ctx : Context}
    (hLeader : ctx.pid = ctx.tid)
    (hReported : minDurationNs = 0 ∨ (start s.started ctx.pid).isSome = true) :
    Reports minDurationNs ({ s with started := s.started ++ [Act.exit ctx] }.goto cpu
      (.delete s.started.length ctx (durationOf s.started ctx))) := by
  have hExit : start (s.started ++ [.exit ctx]) ctx.pid = none := by
    rw [start_exit, if_pos ⟨rfl, hLeader.symm⟩]
  refine h.entered hIdle (fun _ _ _ _ _ => id) ?_ (fun _ => rfl) nofun ?_ (fun p hp hDelete => ?_)
  · intro n hn
    exact (Option.some.inj hn).symm
  · intro n ctx' durationNs hPc
    obtain ⟨rfl, rfl, rfl⟩ := Pc.delete.inj hPc
    refine ⟨List.getElem?_concat_length, hLeader, ?_, ?_, hExit⟩
    · rw [List.take_left]
    · rwa [List.take_left]
  · have hOther : ctx.pid ≠ p := hDelete _ _ _ rfl
    rw [start_exit, if_neg (fun hEnds => hOther hEnds.1)]
    exact h.starts p hp

theorem Reports.exit (h : Reports minDurationNs s) {cpu : Cpu} (hIdle : s.pc cpu = .idle)
    {ctx : Context}
    (hOthers : ∀ cpu n ctx' durationNs, s.pc cpu = .delete n ctx' durationNs →
      ¬(Act.exit ctx).Ends ctx'.pid) :
    Reports minDurationNs (enter minDurationNs { s with started := s.started ++ [.exit ctx] } cpu
      s.started.length (.exit ctx)) := by
  rw [enter]
  split
  · rename_i hThread
    exact h.exit_ignored hIdle (fun hAsks => hThread hAsks.1)
      (fun hLeader => absurd hLeader hThread)
  · rename_i hThread
    have hLeader : ctx.pid = ctx.tid := not_not.mp hThread
    have hLookup : s.execStart.lookupElem ctx.pid = start s.started ctx.pid := by
      apply h.starts
      rintro ⟨cpu', n, ctx', durationNs, hPc, hPid⟩
      exact hOthers cpu' n ctx' durationNs hPc ⟨hPid.symm, hLeader.symm⟩
    have hDeleting := h.exit_deleting hIdle hLeader
    rw [durationOf, ← hLookup] at hDeleting
    cases hStart : s.execStart.lookupElem ctx.pid with
    | some startTs =>
      rw [hStart] at hDeleting
      exact hDeleting (.inr rfl)
    | none =>
      rw [hStart] at hDeleting
      dsimp only
      split
      · rename_i hMin
        refine h.exit_ignored hIdle ?_ (fun _ => hStart)
        rintro ⟨-, hZero | ⟨hSome, -⟩⟩
        · exact hMin hZero
        · rw [← hLookup, hStart] at hSome
          cases hSome
      · rename_i hMin
        exact hDeleting (.inl (not_not.mp hMin))

/-- A CPU gives up the number `n`, and the call of that number is done with or served. -/
theorem Reports.left (h : Reports minDurationNs s) {cpu : Cpu} {n : Nat} {pc : Pc} {t : System}
    (hNumber : (s.pc cpu).number = some n) (hPc : t.pc = s.pc) (hStarted : t.started = s.started)
    (hFree : pc.number = none)
    (hServed : t.served.Perm (n :: s.served) ∨
      t.served = s.served ∧ ∀ call, ¬Wants minDurationNs s.started n call)
    (hCalls : ∀ x ∈ t.calls, x ∈ s.calls ∨ Wants minDurationNs s.started x.1 x.2)
    (hRefused : ∀ m ∈ t.refused, m ∈ s.refused ∨ ∃ call, Wants minDurationNs s.started m call)
    (hStarts : ∀ p, ¬(t.goto cpu pc).Deletes p →
      t.execStart.lookupElem p = start s.started p) :
    Reports minDurationNs (t.goto cpu pc) := by
  obtain ⟨hNew, -⟩ := h.fresh cpu n hNumber
  have hOther : ∀ cpu' m, (((t.goto cpu pc).pc cpu').number = some m) →
      cpu' ≠ cpu ∧ (s.pc cpu').number = some m := by
    intro cpu' m hm
    obtain ⟨rfl, hOwn⟩ | ⟨hNe, hOld⟩ := number_goto hm
    · rw [hFree] at hOwn
      cases hOwn
    · exact ⟨hNe, hPc ▸ hOld⟩
  have hBefore : ∀ cpu' m, (s.pc cpu').number = some m → m ≠ n →
      ((t.goto cpu pc).pc cpu').number = some m := by
    intro cpu' m hm hNe
    rw [System.goto_pc_of_ne, hPc]
    · exact hm
    · rintro rfl
      exact hNe (Option.some.inj (hm.symm.trans hNumber))
  refine ⟨?_, fun cpu' m hm => ?_, fun cpu₁ cpu₂ m h₁ h₂ => ?_, fun x hx => ?_,
    fun m hm => ?_, fun cpu' m call hm => ?_, fun cpu' m ctx durationNs hm => ?_,
    fun p hp => ?_, fun m call hWants => ?_⟩
  · obtain hPerm | ⟨hSame, -⟩ := hServed
    · exact hPerm.nodup_iff.mpr (List.nodup_cons.mpr ⟨hNew, h.once⟩)
    · exact hSame ▸ h.once
  · obtain ⟨hNe, hOld⟩ := hOther cpu' m hm
    obtain ⟨hFresh, hLt⟩ := h.fresh cpu' m hOld
    refine ⟨?_, hStarted ▸ hLt⟩
    obtain hPerm | ⟨hSame, -⟩ := hServed
    · intro hMem
      obtain rfl | hMem := List.mem_cons.mp (hPerm.mem_iff.mp hMem)
      · exact hNe (h.apart _ _ _ hOld hNumber)
      · exact hFresh hMem
    · exact hSame ▸ hFresh
  · exact h.apart _ _ m (hOther cpu₁ m h₁).2 (hOther cpu₂ m h₂).2
  · obtain hOld | hWants := hCalls x hx
    · exact hStarted ▸ h.calls x hOld
    · exact hStarted ▸ hWants
  · obtain hOld | hWants := hRefused m hm
    · exact hStarted ▸ h.refused m hOld
    · exact hStarted ▸ hWants
  · have hSame := (hOther cpu' m (by rw [hm]; rfl)).1
    rw [System.goto_pc_of_ne _ hSame, hPc] at hm
    exact hStarted ▸ h.reserving cpu' m call hm
  · have hSame := (hOther cpu' m (by rw [hm]; rfl)).1
    rw [System.goto_pc_of_ne _ hSame, hPc] at hm
    exact hStarted ▸ h.deleting cpu' m ctx durationNs hm
  · exact hStarted ▸ hStarts p hp
  · replace hWants : Wants minDurationNs s.started m call := hStarted ▸ hWants
    obtain hOld | ⟨cpu', hm⟩ := h.complete m call hWants
    · left
      obtain hPerm | ⟨hSame, -⟩ := hServed
      · exact hPerm.mem_iff.mpr (List.mem_cons_of_mem _ hOld)
      · exact hSame.symm ▸ hOld
    · obtain rfl | hNe := eq_or_ne m n
      · obtain hPerm | ⟨-, hNone⟩ := hServed
        · exact .inl (hPerm.mem_iff.mpr List.mem_cons_self)
        · exact absurd hWants (hNone call)
      · exact .inr ⟨cpu', hBefore cpu' m hm hNe⟩

/-- A CPU keeps its number, if it has one, and turns to something else. -/
theorem Reports.turned (h : Reports minDurationNs s) {cpu : Cpu} {pc : Pc}
    {execStart : ExecStart} (hNumber : pc.number = (s.pc cpu).number)
    (hReserve : ∀ n call, pc = .reserve n call → Wants minDurationNs s.started n call)
    (hDelete : ∀ n ctx durationNs, pc ≠ .delete n ctx durationNs)
    (hStarts : ∀ p, ¬({ s with execStart := execStart }.goto cpu pc).Deletes p →
      execStart.lookupElem p = start s.started p) :
    Reports minDurationNs ({ s with execStart := execStart }.goto cpu pc) := by
  have hSame : ∀ cpu', (({ s with execStart := execStart }.goto cpu pc).pc cpu').number =
      (s.pc cpu').number := by
    intro cpu'
    obtain rfl | hOther := eq_or_ne cpu' cpu
    · rw [System.goto_pc_self, hNumber]
    · rw [System.goto_pc_of_ne _ hOther]
  refine ⟨h.once, fun cpu' m hm => ?_, fun cpu₁ cpu₂ m h₁ h₂ => ?_, h.calls, h.refused,
    fun cpu' m call hm => ?_, fun cpu' m ctx d hm => ?_, hStarts, fun m call hWants => ?_⟩
  · exact h.fresh cpu' m (hSame cpu' ▸ hm)
  · exact h.apart cpu₁ cpu₂ m (hSame cpu₁ ▸ h₁) (hSame cpu₂ ▸ h₂)
  · obtain ⟨rfl, hNew⟩ | ⟨-, hOld⟩ := pc_goto hm
    · exact hReserve m call hNew
    · exact h.reserving cpu' m call hOld
  · obtain ⟨rfl, hNew⟩ | ⟨-, hOld⟩ := pc_goto hm
    · exact absurd hNew (hDelete m ctx d)
    · exact h.deleting cpu' m ctx d hOld
  · obtain hOld | ⟨cpu', hm⟩ := h.complete m call hWants
    · exact .inl hOld
    · exact .inr ⟨cpu', (hSame cpu').trans hm⟩

section Delete

variable {cpu : Cpu} {n : Nat} {ctx : Context} {durationNs : UInt64}

theorem Reports.starts_deleted (h : Reports minDurationNs s)
    (hPc : s.pc cpu = .delete n ctx durationNs) {pc : Pc} (p : Pid)
    (hp : ¬({ s with execStart := s.execStart.deleteElem ctx.pid }.goto cpu pc).Deletes p) :
    (s.execStart.deleteElem ctx.pid).lookupElem p = start s.started p := by
  rw [BoundedMap.lookupElem_deleteElem]
  split
  · rename_i hSame
    rw [hSame, (h.deleting cpu n ctx durationNs hPc).ended]
  · rename_i hOther
    apply h.starts
    rintro ⟨cpu', n', ctx', durationNs', hPc', rfl⟩
    refine hp ⟨cpu', n', ctx', durationNs', ?_, rfl⟩
    rw [System.goto_pc_of_ne]
    · exact hPc'
    · rintro rfl
      obtain ⟨-, rfl, -⟩ := Pc.delete.inj (hPc.symm.trans hPc')
      exact hOther rfl

theorem Deleting.asks_iff {started : List Act} (h : Deleting minDurationNs started n ctx durationNs)
    (call : Call) :
    Wants minDurationNs started n call ↔
      call = .exit ctx durationNs ∧ ¬(minDurationNs ≠ 0 ∧ durationNs < minDurationNs) := by
  have hReported := h.reported
  rw [h.duration]
  constructor
  · rintro ⟨act, hAct, hAsks, hCall⟩
    obtain rfl := Option.some.inj (h.exit.symm.trans hAct)
    refine ⟨hCall, ?_⟩
    rintro ⟨hMin, hShort⟩
    obtain hZero | ⟨-, hLong⟩ := hAsks.2
    · exact hMin hZero
    · exact UInt64.not_le.mpr hShort hLong
  · rintro ⟨rfl, hLong⟩
    refine ⟨.exit ctx, h.exit, ⟨h.leader, ?_⟩, rfl⟩
    obtain hZero | hMin := eq_or_ne minDurationNs 0
    · exact .inl hZero
    · refine .inr ⟨hReported.resolve_left hMin, ?_⟩
      exact UInt64.not_lt.mp (fun hShort => hLong ⟨hMin, hShort⟩)

theorem Reports.short (h : Reports minDurationNs s) (hPc : s.pc cpu = .delete n ctx durationNs)
    (hShort : minDurationNs ≠ 0 ∧ durationNs < minDurationNs) :
    Reports minDurationNs
      ({ s with execStart := s.execStart.deleteElem ctx.pid }.goto cpu .idle) := by
  have hNumber : (s.pc cpu).number = some n := by
    rw [hPc]
    rfl
  refine h.left hNumber rfl rfl rfl (.inr ⟨rfl, fun call hWants => ?_⟩) (fun _ hx => .inl hx)
    (fun _ hm => .inl hm) (h.starts_deleted hPc)
  exact (((h.deleting cpu n ctx durationNs hPc).asks_iff call).mp hWants).2 hShort

/-- The call keeps its number and turns to the ring buffer. -/
theorem Reports.deleted (h : Reports minDurationNs s) (hPc : s.pc cpu = .delete n ctx durationNs)
    (hLong : ¬(minDurationNs ≠ 0 ∧ durationNs < minDurationNs)) :
    Reports minDurationNs ({ s with execStart := s.execStart.deleteElem ctx.pid }.goto cpu
      (.reserve n (.exit ctx durationNs))) := by
  have hDeleting := h.deleting cpu n ctx durationNs hPc
  refine h.turned ?_ (fun m call hNew => ?_) nofun (h.starts_deleted hPc)
  · rw [hPc]
    rfl
  · obtain ⟨rfl, rfl⟩ := Pc.reserve.inj hNew
    exact (hDeleting.asks_iff _).mpr ⟨rfl, hLong⟩

end Delete

/-- Steps on the ring buffer that add no call. -/
theorem Reports.queue (h : Reports minDurationNs s) {queue : RingQueue (Nat × Call) ringSize}
    (hCalls : queue.calls = s.queue.calls) (printed : List (List UInt8)) :
    Reports minDurationNs { s with queue := queue, printed := printed } := by
  have hSame : System.calls { s with queue := queue, printed := printed } = s.calls := hCalls
  have hServed : System.served { s with queue := queue, printed := printed } = s.served := by
    rw [System.served, hSame, System.served]
  refine ⟨?_, ?_, h.apart, ?_, h.refused, h.reserving, h.deleting, h.starts, ?_⟩
  · rw [hServed]
    exact h.once
  · rw [hServed]
    exact h.fresh
  · rw [hSame]
    exact h.calls
  · rw [hServed]
    exact h.complete

/-- A CPU without a number turns to nothing. -/
theorem Reports.rest (h : Reports minDurationNs s) {cpu : Cpu}
    (hNone : (s.pc cpu).number = none) : Reports minDurationNs (s.goto cpu .idle) := by
  refine h.turned hNone.symm nofun nofun (fun p hp => h.starts p ?_)
  rintro ⟨cpu', n, ctx, d, hPc, rfl⟩
  refine hp ⟨cpu', n, ctx, d, ?_, rfl⟩
  rw [System.goto_pc_of_ne]
  · exact hPc
  · rintro rfl
    rw [hPc] at hNone
    cases hNone

section Reserve

variable {cpu : Cpu} {n : Nat} {call : Call}
  {header : Nat → Bool → Vector UInt8 RingBuffer.headerLen}

/-- A CPU that deletes nothing leaves the others as they are. -/
theorem Reports.starts_goto (h : Reports minDurationNs s) (hPc : s.pc cpu = .reserve n call)
    {t : System} (hPcs : t.pc = s.pc) {pc : Pc} (p : Pid) (hp : ¬(t.goto cpu pc).Deletes p) :
    s.execStart.lookupElem p = start s.started p := by
  apply h.starts
  rintro ⟨cpu', m, ctx, durationNs, hPc', rfl⟩
  refine hp ⟨cpu', m, ctx, durationNs, ?_, rfl⟩
  rw [System.goto_pc_of_ne, hPcs]
  · exact hPc'
  · rintro rfl
    rw [hPc] at hPc'
    cases hPc'

theorem Reports.reserved (h : Reports minDurationNs s) (hPc : s.pc cpu = .reserve n call)
    (hRoom : s.queue.rb.HasRoom sizeofEvent) :
    Reports minDurationNs ({ s with
      queue := s.queue.step (layout header) (.reserve (n, call)) }.goto cpu
        (.fill s.queue.reservations.length)) := by
  have hWants := h.reserving cpu n call hPc
  have hNumber : (s.pc cpu).number = some n := by
    rw [hPc]
    rfl
  have hCalls : System.calls { s with
      queue := s.queue.step (layout header) (.reserve (n, call)) } = s.calls ++ [(n, call)] :=
    RingQueue.calls_reserve hRoom (n, call)
  refine h.left hNumber rfl rfl rfl (.inl ?_) (fun x hx => ?_) (fun _ hm => .inl hm)
    (h.starts_goto hPc rfl)
  · rw [System.served, hCalls, List.map_append, List.append_assoc]
    exact List.perm_middle
  · rw [hCalls] at hx
    obtain hOld | hNew := List.mem_append.mp hx
    · exact .inl hOld
    · rw [List.mem_singleton.mp hNew]
      exact .inr hWants

theorem Reports.refuse (h : Reports minDurationNs s) (hPc : s.pc cpu = .reserve n call) :
    Reports minDurationNs ({ s with refused := s.refused ++ [n] }.goto cpu .idle) := by
  have hWants := h.reserving cpu n call hPc
  have hNumber : (s.pc cpu).number = some n := by
    rw [hPc]
    rfl
  refine h.left hNumber rfl rfl rfl (.inl ?_) (fun _ hx => .inl hx) (fun m hm => ?_)
    (h.starts_goto hPc rfl)
  · change (s.calls.map Prod.fst ++ (s.refused ++ [n])).Perm (n :: s.served)
    rw [← List.append_assoc]
    exact List.perm_append_singleton n s.served
  · obtain hOld | hNew := List.mem_append.mp hm
    · exact .inl hOld
    · rw [List.mem_singleton.mp hNew]
      exact .inr ⟨call, hWants⟩

end Reserve

theorem Reports.move {header : Nat → Bool → Vector UInt8 RingBuffer.headerLen}
    (h : Reports minDurationNs s) {m : Move} (hAdmitted : Admitted s m) :
    Reports minDurationNs (move header minDurationNs s m) := by
  cases m with
  | start cpu act =>
    obtain ⟨hOthers, hRoom⟩ := hAdmitted
    rw [Bootstrap.move]
    split
    · rename_i hIdle
      cases act with
      | exec ctx =>
        exact h.exec hIdle (fun cpu n ctx' durationNs hPc => (hOthers cpu n ctx' durationNs hPc).1)
          (hRoom ctx rfl)
      | exit ctx =>
        exact h.exit hIdle (fun cpu n ctx' durationNs hPc => (hOthers cpu n ctx' durationNs hPc).2)
    · exact h
  | next cpu =>
    rw [Bootstrap.move]
    cases hPc : s.pc cpu with
    | idle => exact h
    | delete n ctx durationNs =>
      rw [advance]
      split
      · rename_i hShort
        exact h.short hPc hShort
      · rename_i hLong
        exact h.deleted hPc hLong
    | reserve n call =>
      rw [advance]
      split
      · rename_i hRoom
        exact h.reserved hPc hRoom
      · exact h.refuse hPc
    | fill i =>
      have hNone : (s.pc cpu).number = none := by
        rw [hPc]
        rfl
      rw [advance]
      split
      · exact h.queue (RingQueue.calls_store i) s.printed
      · exact (h.queue (RingQueue.calls_submit i) s.printed).rest hNone
  | poll ts => exact h.queue RingQueue.calls_consume _

end Steps

theorem reports_init (minDurationNs : UInt64) (bucket : Pid → Nat) :
    Reports minDurationNs (System.init bucket) where
  once := List.nodup_nil
  fresh := nofun
  apart := nofun
  calls := nofun
  refused := nofun
  reserving := nofun
  deleting := nofun
  starts := fun _ _ => rfl
  complete := fun n _ hWants => absurd hWants.lt (Nat.not_lt_zero n)

/-- In every admitted interleaving each call gets at most one record and no call that is refused
one gets it later; a record is that of a call by what started before the call; and with no
handler under way every call that asks for a record has got it or was refused. -/
theorem reports_interleaved (header : Nat → Bool → Vector UInt8 RingBuffer.headerLen)
    (minDurationNs : UInt64) (bucket : Pid → Nat) (moves : List Move)
    (hAdmitted : ∀ x ∈ trace (move header minDurationNs) (System.init bucket) moves,
      Admitted x.1 x.2) :
    let s := interleaved header minDurationNs bucket moves
    (s.calls.map Prod.fst ++ s.refused).Nodup ∧
      (∀ x ∈ s.calls, Wants minDurationNs s.started x.1 x.2) ∧
      ((∀ cpu, s.pc cpu = .idle) → ∀ n call, Wants minDurationNs s.started n call →
        (n, call) ∈ s.calls ∨ n ∈ s.refused) := by
  intro s
  have h : Reports minDurationNs s :=
    foldl_invariant (Reports minDurationNs) Admitted (fun _ _ hOk h => h.move hOk) moves
      (reports_init minDurationNs bucket) hAdmitted
  refine ⟨h.once, h.calls, fun hIdle n call hWants => ?_⟩
  obtain hServed | ⟨cpu, hNumber⟩ := h.complete n call hWants
  · obtain hCall | hRefused := List.mem_append.mp hServed
    · obtain ⟨⟨n', call'⟩, hx, rfl⟩ := List.mem_map.mp hCall
      have hSame : call = call' := by
        obtain ⟨act, hAct, -, rfl⟩ := hWants
        obtain ⟨act', hAct', -, hCall'⟩ := h.calls _ hx
        dsimp only at hAct hAct' hCall'
        rw [hCall', Option.some.inj (hAct.symm.trans hAct')]
      exact .inl (hSame ▸ hx)
    · exact .inr hRefused
  · rw [hIdle cpu] at hNumber
    cases hNumber

/-- Process 6 exits on one CPU while process 5 is between its exec and its record on another. A
thread of process 6 exits on a third one, before the start time is deleted. -/
def threeCpus : List Move := [
  .start 0 (.exec ⟨0x500000005, 100, 1, 0, .replicate 16 0, [47, 97], none⟩),
  .start 1 (.exit ⟨0x600000006, 200, 1, 256, .replicate 16 0, [], none⟩),
  .start 2 (.exit ⟨0x600000007, 300, 1, 0, .replicate 16 0, [], none⟩),
  .next 1, .next 1, .next 0]

theorem reports_interleaved_threeCpus :
    let s := interleaved (fun _ _ => .replicate 8 0) 0 (fun _ => 0) threeCpus
    s.calls.map Prod.fst = [1, 0] ∧ ∀ x ∈ s.calls, Wants 0 s.started x.1 x.2 := by
  refine ⟨rfl, (reports_interleaved (fun _ _ => .replicate 8 0) 0 (fun _ => 0) threeCpus ?_).2.1⟩
  intro x hx
  simp only [threeCpus, trace, List.mem_cons, List.not_mem_nil, or_false] at hx
  obtain rfl | rfl | rfl | rfl | rfl | rfl := hx
  · refine ⟨fun cpu n ctx durationNs hPc => ?_, fun _ _ => .inr (by decide)⟩
    cases hPc
  · constructor
    · intro cpu n ctx durationNs hPc
      obtain ⟨-, hNew⟩ | ⟨-, hOld⟩ := pc_goto hPc
      · cases hNew
      · cases hOld
    · rintro ctx ⟨⟩
  · refine ⟨fun cpu n ctx durationNs _ => ⟨id, fun hEnds => ?_⟩, fun ctx hCtx => ?_⟩
    · exact absurd hEnds.2 (by decide)
    · cases hCtx
  all_goals trivial

end Ebacs.Bootstrap
