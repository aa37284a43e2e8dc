import Ebacs.Lib.Trace
import Ebacs.PidFeed.PollEnds

/-! # The feed is read exactly once

A poll that starts after the last append meets the end of a file that no
longer grows, so everything appended has been handed over, each line once.
-/
namespace Ebacs.PidFeed
open Lib PageAccess
set_option autoImplicit false

def Act.lines : Act → List Text
  | .append lines => lines
  | _ => []

def appended (acts : List Act) : List Text := acts.flatMap Act.lines

def Act.edit (bodies : List Text) : Act → List Text
  | .append lines => bodies ++ lines
  | .truncate => [[]]
  | _ => bodies

def contents (acts : List Act) : List Text := acts.foldl Act.edit []

def FreshAtTruncation (s : Feed) : Act → Prop
  | .truncate => s.taken ≤ 1 ∧ ∀ c ∈ (s.file.getD []).head?, c = '\n'
  | _ => True

theorem appended_concat (acts : List Act) (a : Act) :
    appended (acts ++ [a]) = appended acts ++ a.lines := by
  simp [appended]

theorem contents_concat (acts : List Act) (a : Act) :
    contents (acts ++ [a]) = a.edit (contents acts) := by
  rw [contents, List.foldl_append]
  rfl

theorem mem_contents {acts : List Act} {body : Text} (h : body ∈ contents acts) :
    body = [] ∨ body ∈ appended acts := by
  induction acts using List.reverseRecOn with
  | nil => cases h
  | append_singleton acts a ih =>
    rw [contents_concat] at h
    rw [appended_concat, List.mem_append]
    cases a with
    | append lines =>
      rcases List.mem_append.mp h with h | h
      · exact (ih h).imp_right Or.inl
      · exact Or.inr (Or.inr h)
    | truncate => exact Or.inl (List.mem_singleton.mp h)
    | receiver n => exact (ih h).imp_right Or.inl
    | sigInt => exact (ih h).imp_right Or.inl

theorem feedLine_nil : FeedLine [] := ⟨nofun, Nat.zero_le _, by decide⟩

theorem feedLine_contents {acts : List Act} (hLines : ∀ body ∈ appended acts, FeedLine body) :
    ∀ body ∈ contents acts, FeedLine body := by
  intro body hBody
  rcases mem_contents hBody with rfl | hBody
  · exact feedLine_nil
  · exact hLines body hBody

theorem contents_eq_appended {acts : List Act} (h : Act.truncate ∉ acts) :
    contents acts = appended acts := by
  induction acts using List.reverseRecOn with
  | nil => rfl
  | append_singleton acts a ih =>
    have hBefore := ih (fun hMem => h (List.mem_append_left _ hMem))
    rw [contents_concat, appended_concat, hBefore]
    cases a with
    | append lines => rfl
    | truncate => exact absurd (List.mem_append_right _ (List.mem_singleton_self _)) h
    | receiver n => exact (List.append_nil _).symm
    | sigInt => exact (List.append_nil _).symm

theorem Synced.step {s : Feed} {acts : List Act} {consumed : List Text} {a : Act}
    (h : Synced s (contents acts) consumed) (hLines : ∀ body ∈ appended acts, FeedLine body)
    (hFresh : FreshAtTruncation s a) :
    ∃ consumed', Synced (step s a) (contents (acts ++ [a])) consumed' := by
  rw [contents_concat]
  cases a with
  | receiver n =>
    obtain ⟨new, hSynced, _⟩ := h.pidReceiver (feedLine_contents hLines) n
    exact ⟨_, hSynced⟩
  | append lines => exact ⟨consumed, h.append lines⟩
  | truncate => exact ⟨consumed, h.truncate hFresh.2 hFresh.1⟩
  | sigInt => exact ⟨consumed, h.sigInt⟩

theorem synced_run (bucket : Pid → Nat) (acts : List Act)
    (hLines : ∀ body ∈ appended acts, FeedLine body)
    (hFresh : ∀ x ∈ trace step (Feed.init bucket) acts, FreshAtTruncation x.1 x.2) :
    ∃ consumed, Synced (run bucket acts) (contents acts) consumed := by
  induction acts using List.reverseRecOn with
  | nil => exact ⟨[], synced_init bucket⟩
  | append_singleton acts a ih =>
    rw [trace_concat] at hFresh
    have hBefore : ∀ body ∈ appended acts, FeedLine body := by
      intro body hBody
      apply hLines
      rw [appended_concat]
      exact List.mem_append_left _ hBody
    obtain ⟨consumed, hSynced⟩ := ih hBefore (fun x hx => hFresh x (List.mem_append_left _ hx))
    rw [run, List.foldl_append]
    exact hSynced.step hBefore
      (hFresh _ (List.mem_append_right _ (List.mem_singleton_self _)))

theorem readLine_cases (s : Feed) (stream : Stream) (n : Nat) :
    (∃ line stream', s.readLine stream n = s.hand line stream') ∨
    ∃ pc, s.readLine stream n = { s with pc := pc } := by
  have hStep := s.lineStep_readLine stream n
  generalize s.readLine stream n = s' at hStep ⊢
  cases hStep with
  | complete c buffer hBuffer hEnds => exact Or.inl ⟨_, _, rfl⟩
  | lastLine hBuffer hEof hLine => exact Or.inl ⟨_, _, rfl⟩
  | character c buffer hBuffer hRoom => exact Or.inr ⟨_, rfl⟩
  | leave hBuffer hEof hLine => exact Or.inr ⟨_, rfl⟩
  | meetEnd hBuffer hEof hEnd => exact Or.inr ⟨_, rfl⟩
  | fill bytes hBuffer hEof hBytes hNe => exact Or.inr ⟨_, rfl⟩

theorem pidReceiver_cases (s : Feed) (n : Nat) :
    (∃ line stream, pidReceiver s n = s.hand line stream) ∨
    ((pidReceiver s n).pidMap = s.pidMap ∧ (pidReceiver s n).handed = s.handed ∧
      (pidReceiver s n).file = s.file) := by
  cases hPc : s.pc with
  | reading stream =>
    simp only [pidReceiver, hPc]
    rcases readLine_cases s stream n with hHand | ⟨pc, hKeep⟩
    · exact Or.inl hHand
    · exact Or.inr ⟨by rw [hKeep], by rw [hKeep], by rw [hKeep]⟩
  | idle =>
    right
    simp only [pidReceiver, hPc]
    split
    · exact ⟨rfl, rfl, rfl⟩
    · split <;> exact ⟨rfl, rfl, rfl⟩
  | opened => exact Or.inr (by simp only [pidReceiver, hPc, and_self])
  | read stream => exact Or.inr (by simp only [pidReceiver, hPc, and_self])
  | saved => exact Or.inr (by simp only [pidReceiver, hPc, and_self])
  | exited => exact Or.inr (by simp only [pidReceiver, hPc, and_self])

/-- The map holds what the lines handed to `sscanf` put into it. -/
def Feed.Fed (bucket : Pid → Nat) (s : Feed) : Prop :=
  s.pidMap = (s.handed.map Prod.snd).foldl addLine (.empty bucket)

theorem Feed.Fed.step {bucket : Pid → Nat} {s : Feed} (a : Act) (h : s.Fed bucket) :
    (step s a).Fed bucket := by
  cases a with
  | receiver n =>
    rw [PidFeed.step, Fed]
    rcases pidReceiver_cases s n with ⟨line, stream, hHand⟩ | ⟨hMap, hHanded, _⟩
    · rw [hHand, Feed.hand, List.map_append, List.foldl_append, ← h]
      rfl
    · rw [hMap, hHanded]
      exact h
  | append lines => exact h
  | truncate => exact h
  | sigInt => exact h

theorem fed_run (bucket : Pid → Nat) (acts : List Act) : (run bucket acts).Fed bucket :=
  foldl_invariant (Feed.Fed bucket) (fun _ _ => True) (fun _ a _ h => h.step a) acts rfl
    (fun _ _ => trivial)

theorem Synced.all_of_all {s : Feed} {bodies consumed new : List Text}
    (h : Synced s bodies (consumed ++ new)) (hBodies : Bodies '\n' bodies)
    (hAll : consumed = bodies) : consumed ++ new = bodies := by
  obtain ⟨left, hLeft, _⟩ := h.split hBodies
  rw [hAll, List.append_assoc, List.self_eq_append_right, List.append_eq_nil_iff] at hLeft
  rw [hAll, hLeft.1, List.append_nil]

/-- While nothing is appended, a poll that has ended leaves no line behind. -/
theorem caught_up {s : Feed} {bodies consumed : List Text} (h : Synced s bodies consumed)
    (hLines : ∀ body ∈ bodies, FeedLine body) (hStart : s.pc.atEnd = false) (later : List Act)
    (hAppend : ∀ lines, Act.append lines ∉ later) (hTruncate : Act.truncate ∉ later) :
    ∃ consumed', Synced (later.foldl step s) bodies consumed' ∧
      (((later.foldl step s).polls = s.polls ∧ (later.foldl step s).pc.atEnd = false) ∨
        consumed' = bodies) := by
  have hBodies := bodies_of_feedLines hLines
  induction later using List.reverseRecOn with
  | nil => exact ⟨consumed, h, Or.inl ⟨rfl, hStart⟩⟩
  | append_singleton later a ih =>
    obtain ⟨consumed', hSynced, hCaught⟩ := ih
      (fun lines hMem => hAppend lines (List.mem_append_left _ hMem))
      (fun hMem => hTruncate (List.mem_append_left _ hMem))
    have hMem : a ∈ later ++ [a] := List.mem_append_right _ (List.mem_singleton_self _)
    rw [List.foldl_append, List.foldl_cons, List.foldl_nil]
    generalize later.foldl step s = t at hSynced hCaught ⊢
    cases a with
    | receiver n =>
      obtain ⟨new, hNext, hPolls, hEnd⟩ := hSynced.pidReceiver hLines n
      refine ⟨consumed' ++ new, hNext, ?_⟩
      rcases hCaught with ⟨hSame, hOpen⟩ | hAll
      · rcases hPolls with hPolls | hPast
        · by_cases hNow : (pidReceiver t n).pc.atEnd = true
          · rcases hEnd hNow with hPast | hAll
            · rw [hOpen] at hPast
              cases hPast
            · exact Or.inr (hNext.all_of_all hBodies hAll)
          · exact Or.inl ⟨hPolls.trans hSame, Bool.not_eq_true _ ▸ hNow⟩
        · rw [hOpen] at hPast
          cases hPast
      · exact Or.inr (hNext.all_of_all hBodies hAll)
    | append lines => exact absurd hMem (hAppend lines)
    | truncate => exact absurd hMem hTruncate
    | sigInt => exact ⟨consumed', hSynced.sigInt, hCaught⟩

theorem run_append (bucket : Pid → Nat) (acts later : List Act) :
    run bucket (acts ++ later) = later.foldl step (run bucket acts) := by
  rw [run, List.foldl_append]
  rfl

def pidsOf (bodies : List Text) : Finset Pid := (bodies.filterMap linePid).toFinset

theorem mem_pidsOf {bodies : List Text} {pid : Pid} :
    pid ∈ pidsOf bodies ↔ ∃ body ∈ bodies, linePid body = some pid := by
  rw [pidsOf, List.mem_toFinset, List.mem_filterMap]

theorem mem_pidMap_iff {bucket : Pid → Nat} {s : Feed} {bodies : List Text} (hFed : s.Fed bucket)
    (h : Synced s bodies bodies) (hLines : ∀ body ∈ bodies, FeedLine body) {pids : Finset Pid}
    (hCard : pids.card ≤ maxPids) (hPids : ∀ body ∈ bodies, ∀ pid ∈ linePid body, pid ∈ pids)
    (pid : Pid) : pid ∈ s.pidMap ↔ pid ∈ pidsOf bodies := by
  rw [hFed, h.handed, mem_foldl_addLine hLines hCard hPids, mem_pidsOf]

theorem all_handed {bucket : Pid → Nat} {acts later : List Act} {consumed : List Text}
    (hSynced : Synced (run bucket acts) (contents acts) consumed)
    (hLines : ∀ body ∈ appended acts, FeedLine body) (hIdle : (run bucket acts).pc = .idle)
    (hAppend : ∀ lines, Act.append lines ∉ later) (hTruncate : Act.truncate ∉ later)
    (hPoll : (run bucket acts).polls < (run bucket (acts ++ later)).polls) :
    Synced (run bucket (acts ++ later)) (contents acts) (contents acts) := by
  rw [run_append] at hPoll ⊢
  have hStart : (run bucket acts).pc.atEnd = false := by
    rw [hIdle]
    rfl
  obtain ⟨consumed', hLater, hSame | hAll⟩ := caught_up hSynced (feedLine_contents hLines) hStart
    later hAppend hTruncate
  · omega
  · rw [hAll] at hLater
    exact hLater

theorem foldl_receiver (s : Feed) (ns : List Nat) :
    (ns.map Act.receiver).foldl step s = ns.foldl pidReceiver s := by
  rw [List.foldl_map]
  rfl

/-- A completed poll that starts after the last append has the map hold exactly the PIDs of the
feed, with each line handed to `sscanf` once and in order; and such a poll does complete. -/
theorem pid_feed_exact (bucket : Pid → Nat) (acts : List Act) (hFeed : Act.truncate ∉ acts)
    (hLines : ∀ body ∈ appended acts, FeedLine body)
    (hPids : (pidsOf (appended acts)).card ≤ maxPids) (hIdle : (run bucket acts).pc = .idle) :
    (∀ later, (∀ lines, Act.append lines ∉ later) → Act.truncate ∉ later →
      (run bucket acts).polls < (run bucket (acts ++ later)).polls →
      (∀ pid, pid ∈ (run bucket (acts ++ later)).pidMap ↔ pid ∈ pidsOf (appended acts)) ∧
      (run bucket (acts ++ later)).handed.map Prod.snd = (appended acts).map (· ++ ['\n'])) ∧
    ((run bucket acts).file.isSome = true → (run bucket acts).stop = false →
      ∀ ns : List Nat, 3 * (unlines '\n' (appended acts)).length + 6 ≤ ns.length →
        (run bucket acts).polls < (run bucket (acts ++ ns.map .receiver)).polls) := by
  have hFresh : ∀ x ∈ trace step (Feed.init bucket) acts, FreshAtTruncation x.1 x.2 := by
    intro x hx
    cases hAct : x.2 with
    | truncate => exact absurd (hAct ▸ snd_mem_of_mem_trace hx) hFeed
    | receiver n => trivial
    | append lines => trivial
    | sigInt => trivial
  obtain ⟨consumed, hSynced⟩ := synced_run bucket acts hLines hFresh
  constructor
  · intro later hAppend hTruncate hPoll
    have hAll := all_handed hSynced hLines hIdle hAppend hTruncate hPoll
    rw [contents_eq_appended hFeed] at hAll
    refine ⟨?_, hAll.handed⟩
    apply mem_pidMap_iff (fed_run bucket _) hAll hLines hPids
    intro body hBody pid hPid
    exact mem_pidsOf.mpr ⟨body, hBody, hPid⟩
  · intro hFile hStop ns hEnough
    rw [run_append, foldl_receiver]
    apply poll_ends ⟨hFile, hStop, by rw [hIdle]; rfl⟩
    have hContent := hSynced.file
    rw [contents_eq_appended hFeed] at hContent
    simp only [Feed.work, hIdle, Feed.unread, hContent]
    omega

def appendWhilePolling : List Act :=
  [.append [['1', '2']], .receiver 3, .receiver 3, .receiver 3, .append [[], ['7']]] ++
    List.replicate 11 (.receiver 3)

theorem appendWhilePolling_exact :
    (run (fun _ => 0) appendWhilePolling).pc = .idle ∧
    ∀ pid, pid ∈ (run (fun _ => 0) (appendWhilePolling ++ List.replicate 6 (.receiver 0))).pidMap ↔
      pid ∈ pidsOf (appended appendWhilePolling) :=
  ⟨by decide +kernel, ((pid_feed_exact (fun _ => 0) appendWhilePolling (by decide) (by decide)
    (by decide) (by decide +kernel)).1 (List.replicate 6 (.receiver 0)) (by simp) (by decide)
    (by decide +kernel)).1⟩

end Ebacs.PidFeed
