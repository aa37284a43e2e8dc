import Ebacs.PidFeed.Synced

/-! # Polls of a resting file end

Each step of a poll reads bytes, takes a byte from the stream or moves on, so
a poll of a file that does not change ends after a number of steps that is
bounded by the length of the file.
-/
namespace Ebacs.PidFeed
open Lib PageAccess
set_option autoImplicit false

def Feed.unread (s : Feed) : Nat := (s.file.getD []).length - s.taken

/-- A bound on the steps up to the end of the current poll. -/
def Feed.work (s : Feed) : Nat :=
  match s.pc with
  | .idle => 3 * s.unread + 6
  | .opened => 3 * s.unread + 5
  | .reading stream =>
    3 * s.unread + 2 * stream.buffer.length + stream.line.length +
      (if stream.eof then 3 else 4)
  | .read _ => 2
  | .saved => 1
  | .exited => 0

def ReceiverPc.hasExited : ReceiverPc → Bool
  | .exited => true
  | _ => false

structure Feed.Live (s : Feed) : Prop where
  file : s.file.isSome = true
  stop : s.stop = false
  running : s.pc.hasExited = false

section Work

variable {s : Feed}

theorem work_reading (stream : Stream) (hPc : s.pc = .reading stream) :
    s.work = 3 * ((s.file.getD []).length - stream.offset) + 2 * stream.buffer.length +
      stream.line.length + (if stream.eof then 3 else 4) := by
  simp only [Feed.work, hPc, Feed.unread, Feed.taken, ReceiverPc.stream]

theorem readLine_work {stream : Stream} (hPc : s.pc = .reading stream) (n : Nat)
    (hLive : s.Live) : (s.readLine stream n).Live ∧ (s.readLine stream n).polls = s.polls ∧
      (s.readLine stream n).work < s.work := by
  rw [work_reading stream hPc]
  have hStep := s.lineStep_readLine stream n
  generalize s.readLine stream n = s' at hStep ⊢
  cases hStep with
  | complete c buffer hBuffer hEnds =>
    refine ⟨⟨hLive.file, hLive.stop, rfl⟩, rfl, ?_⟩
    rw [Feed.hand, work_reading _ rfl, hBuffer]
    simp only [List.length_nil, List.length_cons]
    omega
  | character c buffer hBuffer hRoom =>
    refine ⟨⟨hLive.file, hLive.stop, rfl⟩, rfl, ?_⟩
    rw [work_reading _ rfl, hBuffer]
    simp only [List.length_append, List.length_cons, List.length_nil]
    omega
  | leave hBuffer hEof hLine =>
    refine ⟨⟨hLive.file, hLive.stop, rfl⟩, rfl, ?_⟩
    simp only [Feed.work, hEof, if_true]
    omega
  | lastLine hBuffer hEof hLine =>
    refine ⟨⟨hLive.file, hLive.stop, rfl⟩, rfl, ?_⟩
    have hPos := List.length_pos_iff.mpr hLine
    rw [Feed.hand, work_reading _ rfl]
    simp only [hEof, hBuffer, List.length_nil, if_true]
    omega
  | meetEnd hBuffer hEof hEnd =>
    refine ⟨⟨hLive.file, hLive.stop, rfl⟩, rfl, ?_⟩
    rw [work_reading _ rfl]
    simp only [hEof, Bool.false_eq_true, if_true, if_false]
    omega
  | fill bytes hBuffer hEof hBytes hNe =>
    refine ⟨⟨hLive.file, hLive.stop, rfl⟩, rfl, ?_⟩
    have hPos := List.length_pos_iff.mpr hNe
    have hLe : bytes.length ≤ (s.file.getD []).length - stream.offset := by
      rw [← hBytes, List.length_take, List.length_drop]
      exact Nat.min_le_right _ _
    rw [work_reading _ rfl]
    simp only [hEof, hBuffer, List.length_nil, Bool.false_eq_true, if_false]
    omega

theorem pidReceiver_work (hLive : s.Live) (n : Nat) :
    (pidReceiver s n).Live ∧ ((pidReceiver s n).polls = s.polls + 1 ∨
      ((pidReceiver s n).polls = s.polls ∧ (pidReceiver s n).work < s.work)) := by
  cases hPc : s.pc with
  | reading stream =>
    simp only [pidReceiver, hPc]
    obtain ⟨hNext, hPolls, hLess⟩ := readLine_work hPc n hLive
    exact ⟨hNext, Or.inr ⟨hPolls, hLess⟩⟩
  | idle =>
    obtain ⟨content, hFile⟩ := Option.isSome_iff_exists.mp hLive.file
    have hStep : pidReceiver s n = { s with pc := .opened } := by
      simp only [pidReceiver, hPc, hLive.stop, hFile, Bool.false_eq_true, if_false]
    rw [hStep]
    refine ⟨⟨hLive.file, hLive.stop, rfl⟩, Or.inr ⟨rfl, ?_⟩⟩
    simp only [Feed.work, Feed.unread, Feed.taken, hPc, ReceiverPc.stream]
    omega
  | opened =>
    have hStep : pidReceiver s n = { s with pc := .reading ⟨s.filePos, [], [], false⟩ } := by
      simp only [pidReceiver, hPc]
    rw [hStep]
    refine ⟨⟨hLive.file, hLive.stop, rfl⟩, Or.inr ⟨rfl, ?_⟩⟩
    rw [work_reading _ rfl]
    simp only [Feed.work, Feed.unread, Feed.taken, hPc, ReceiverPc.stream, List.length_nil,
      Bool.false_eq_true, if_false]
    omega
  | read stream =>
    have hStep : pidReceiver s n =
        { s with pc := .saved, filePos := stream.offset - stream.buffer.length } := by
      simp only [pidReceiver, hPc]
    rw [hStep]
    refine ⟨⟨hLive.file, hLive.stop, rfl⟩, Or.inr ⟨rfl, ?_⟩⟩
    simp only [Feed.work, hPc]
    omega
  | saved =>
    have hStep : pidReceiver s n = { s with pc := .idle, polls := s.polls + 1 } := by
      simp only [pidReceiver, hPc]
    rw [hStep]
    exact ⟨⟨hLive.file, hLive.stop, rfl⟩, Or.inl rfl⟩
  | exited =>
    have hRunning := hLive.running
    rw [hPc] at hRunning
    cases hRunning

theorem work_pos (hLive : s.Live) : 0 < s.work := by
  rw [Feed.work]
  split
  · omega
  · omega
  · split <;> omega
  · omega
  · omega
  · rename_i hPc
    have hRunning := hLive.running
    rw [hPc] at hRunning
    cases hRunning

theorem polls_le (hLive : s.Live) (ns : List Nat) : s.polls ≤ (ns.foldl pidReceiver s).polls := by
  induction ns generalizing s with
  | nil => exact le_rfl
  | cons n ns ih =>
    obtain ⟨hNext, hPolls⟩ := pidReceiver_work hLive n
    have hRest := ih hNext
    rw [List.foldl_cons]
    omega

/-- Enough steps of the receiver complete a poll. -/
theorem poll_ends (hLive : s.Live) (ns : List Nat) (hEnough : s.work ≤ ns.length) :
    s.polls < (ns.foldl pidReceiver s).polls := by
  induction ns generalizing s with
  | nil => exact absurd (work_pos hLive) (Nat.not_lt.mpr hEnough)
  | cons n ns ih =>
    obtain ⟨hNext, hDone | ⟨hSame, hLess⟩⟩ := pidReceiver_work hLive n
    · have hRest := polls_le hNext ns
      rw [List.foldl_cons]
      omega
    · rw [List.length_cons] at hEnough
      have hRest := ih hNext (by omega)
      rw [List.foldl_cons]
      omega

end Work

end Ebacs.PidFeed
