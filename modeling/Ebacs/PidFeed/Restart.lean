import Ebacs.PidFeed.Exactness

/-! # Restarts of the workload

Each start of `workload.sh` truncates `pids.txt` to a single newline and then
appends. The receiver keeps its position, so what is written below it after a
truncation is never read. As long as every truncation finds the receiver at
the beginning of the file, no PID of the last start is lost.
-/
namespace Ebacs.PidFeed
open Lib PageAccess
set_option autoImplicit false

def Act.editSince (bodies : List Text) : Act → List Text
  | .append lines => bodies ++ lines
  | .truncate => []
  | _ => bodies

def sinceTruncation (acts : List Act) : List Text := acts.foldl Act.editSince []

/-- The script truncates the file before it appends for the first time. -/
def TruncatedFirst (s : Feed) : Act → Prop
  | .append _ => s.file.isSome = true
  | _ => True

/-- At a truncation the receiver has read at most the leading newline. -/
def AtBeginning (s : Feed) : Act → Prop
  | .truncate => s.taken ≤ 1
  | _ => True

instance (s : Feed) : DecidablePred (TruncatedFirst s)
  | .append _ => inferInstanceAs (Decidable (s.file.isSome = true))
  | .truncate => .isTrue trivial
  | .receiver _ => .isTrue trivial
  | .sigInt => .isTrue trivial

instance (s : Feed) : DecidablePred (AtBeginning s)
  | .truncate => inferInstanceAs (Decidable (s.taken ≤ 1))
  | .append _ => .isTrue trivial
  | .receiver _ => .isTrue trivial
  | .sigInt => .isTrue trivial

theorem sinceTruncation_concat (acts : List Act) (a : Act) :
    sinceTruncation (acts ++ [a]) = a.editSince (sinceTruncation acts) := by
  rw [sinceTruncation, List.foldl_append]
  rfl

theorem sinceTruncation_subset (acts : List Act) : sinceTruncation acts ⊆ contents acts := by
  induction acts using List.reverseRecOn with
  | nil => exact List.Subset.refl _
  | append_singleton acts a ih =>
    rw [sinceTruncation_concat, contents_concat]
    cases a with
    | append lines =>
      exact List.append_subset.mpr
        ⟨List.subset_append_of_subset_left lines ih, List.subset_append_right _ lines⟩
    | truncate => exact List.nil_subset _
    | receiver n => exact ih
    | sigInt => exact ih

theorem sinceTruncation_later (acts : List Act) {later : List Act}
    (hAppend : ∀ lines, Act.append lines ∉ later) :
    sinceTruncation (acts ++ later) = [] ∨
    (Act.truncate ∉ later ∧ sinceTruncation (acts ++ later) = sinceTruncation acts) := by
  induction later using List.reverseRecOn with
  | nil => exact Or.inr ⟨List.not_mem_nil, by rw [List.append_nil]⟩
  | append_singleton later a ih =>
    have hBefore := ih (fun lines hMem => hAppend lines (List.mem_append_left _ hMem))
    rw [← List.append_assoc, sinceTruncation_concat]
    cases a with
    | append lines =>
      exact absurd (List.mem_append_right _ (List.mem_singleton_self _)) (hAppend lines)
    | truncate => exact Or.inl rfl
    | receiver n => simpa [Act.editSince] using hBefore
    | sigInt => simpa [Act.editSince] using hBefore

def Feed.NewlineFirst (s : Feed) : Prop := ∀ content ∈ s.file, ∃ rest, content = '\n' :: rest

theorem Feed.NewlineFirst.step {s : Feed} (a : Act) (hFirst : TruncatedFirst s a)
    (h : s.NewlineFirst) : (step s a).NewlineFirst := by
  cases a with
  | receiver n =>
    have hFile : (pidReceiver s n).file = s.file := by
      rcases pidReceiver_cases s n with ⟨line, stream, hHand⟩ | ⟨_, _, hFile⟩
      · rw [hHand]
        rfl
      · exact hFile
    rw [PidFeed.step, NewlineFirst, hFile]
    exact h
  | append lines =>
    obtain ⟨content, hContent⟩ := Option.isSome_iff_exists.mp hFirst
    obtain ⟨rest, rfl⟩ := h content hContent
    rintro _ ⟨rfl⟩
    rw [hContent]
    exact ⟨rest ++ unlines '\n' lines, rfl⟩
  | truncate =>
    rintro _ ⟨rfl⟩
    exact ⟨[], rfl⟩
  | sigInt => exact h

theorem fresh_of_atBeginning {bucket : Pid → Nat} {acts : List Act}
    (hScript : ∀ x ∈ trace step (Feed.init bucket) acts, TruncatedFirst x.1 x.2)
    (hBeginning : ∀ x ∈ trace step (Feed.init bucket) acts, AtBeginning x.1 x.2) :
    ∀ x ∈ trace step (Feed.init bucket) acts, FreshAtTruncation x.1 x.2 := by
  have hInit : (Feed.init bucket).NewlineFirst := nofun
  have hNewline := trace_invariant Feed.NewlineFirst TruncatedFirst
    (fun s a hFirst h => h.step a hFirst) hInit hScript
  intro x hx
  have hAt := hBeginning x hx
  have hHead := hNewline x hx
  cases hAct : x.2 with
  | truncate =>
    rw [hAct] at hAt
    refine ⟨hAt, ?_⟩
    intro c hc
    cases hFile : x.1.file with
    | none =>
      rw [hFile] at hc
      cases hc
    | some content =>
      obtain ⟨rest, rfl⟩ := hHead content hFile
      rw [hFile] at hc
      exact (Option.some.inj hc).symm
  | receiver n => trivial
  | append lines => trivial
  | sigInt => trivial

/-- If every truncation finds the receiver at the beginning of the file, then after a completed
poll that started after the last append no PID appended since the last truncation is missing. -/
theorem restart_keeps_pids (bucket : Pid → Nat) (acts later : List Act)
    (hScript : ∀ x ∈ trace step (Feed.init bucket) acts, TruncatedFirst x.1 x.2)
    (hLines : ∀ body ∈ appended acts, FeedLine body)
    (hPids : (pidsOf (appended acts)).card ≤ maxPids)
    (hBeginning : ∀ x ∈ trace step (Feed.init bucket) acts, AtBeginning x.1 x.2)
    (hIdle : (run bucket acts).pc = .idle) (hAppend : ∀ lines, Act.append lines ∉ later)
    (hPoll : (run bucket acts).polls < (run bucket (acts ++ later)).polls) :
    ∀ pid ∈ pidsOf (sinceTruncation (acts ++ later)),
      pid ∈ (run bucket (acts ++ later)).pidMap := by
  intro pid hPid
  rcases sinceTruncation_later acts hAppend with hNone | ⟨hTruncate, hSame⟩
  · rw [hNone] at hPid
    cases hPid
  · obtain ⟨consumed, hSynced⟩ := synced_run bucket acts hLines
      (fresh_of_atBeginning hScript hBeginning)
    have hAll := all_handed hSynced hLines hIdle hAppend hTruncate hPoll
    have hFits : ∀ body ∈ contents acts, ∀ pid ∈ linePid body, pid ∈ pidsOf (appended acts) := by
      intro body hBody pid hLine
      rcases mem_contents hBody with rfl | hBody
      · cases hLine
      · exact mem_pidsOf.mpr ⟨body, hBody, hLine⟩
    rw [mem_pidMap_iff (fed_run bucket _) hAll (feedLine_contents hLines) hPids hFits]
    rw [hSame] at hPid
    obtain ⟨body, hBody, hLine⟩ := mem_pidsOf.mp hPid
    exact mem_pidsOf.mpr ⟨body, sinceTruncation_subset acts hBody, hLine⟩

def earlyPoll : List Act :=
  [.truncate] ++ List.replicate 8 (.receiver 9) ++ [.truncate, .append [['7']]]

theorem earlyPoll_keeps_pids :
    (7 : Pid) ∈ pidsOf (sinceTruncation (earlyPoll ++ List.replicate 9 (.receiver 9))) ∧
    ∀ pid ∈ pidsOf (sinceTruncation (earlyPoll ++ List.replicate 9 (.receiver 9))),
      pid ∈ (run (fun _ => 0) (earlyPoll ++ List.replicate 9 (.receiver 9))).pidMap :=
  ⟨by decide, restart_keeps_pids (fun _ => 0) earlyPoll (List.replicate 9 (.receiver 9))
    (by decide +kernel) (by decide) (by decide) (by decide +kernel) (by decide +kernel) (by simp)
    (by decide +kernel)⟩

/-- The receiver reads a PID of the first start before the second start truncates the file. -/
def lateRestart : List Act :=
  [.truncate, .append [['1', '2']]] ++ List.replicate 11 (.receiver 9) ++
    [.truncate, .append [['7']]]

theorem lateRestart_loses_pid :
    (∀ x ∈ trace step (Feed.init (fun _ => 0)) lateRestart, TruncatedFirst x.1 x.2) ∧
    (∀ body ∈ appended lateRestart, FeedLine body) ∧
    (pidsOf (appended lateRestart)).card ≤ maxPids ∧
    (run (fun _ => 0) lateRestart).pc = .idle ∧
    (run (fun _ => 0) lateRestart).polls <
      (run (fun _ => 0) (lateRestart ++ List.replicate 6 (.receiver 9))).polls ∧
    (7 : Pid) ∈ pidsOf (sinceTruncation (lateRestart ++ List.replicate 6 (.receiver 9))) ∧
    (7 : Pid) ∉ (run (fun _ => 0) (lateRestart ++ List.replicate 6 (.receiver 9))).pidMap := by
  decide +kernel

end Ebacs.PidFeed
