import Ebacs.PidFeed.Receiver

/-! # The position and the lines handed over

At any moment the bytes up to the position of the receiver are the lines that
were handed to `sscanf`, followed by what the stream still holds. The relation
survives every step of the receiver and every append, and at the end of the
file it says that all lines were handed over.
-/
namespace Ebacs.PidFeed
open Lib PageAccess
set_option autoImplicit false

def ReceiverPc.stream : ReceiverPc → Option Stream
  | .reading stream => some stream
  | .read stream => some stream
  | _ => none

def ReceiverPc.pending (pc : ReceiverPc) : Text :=
  match pc.stream with
  | some stream => stream.line ++ stream.buffer
  | none => []

/-- The number of bytes of the file that count as read. -/
def Feed.taken (s : Feed) : Nat :=
  match s.pc.stream with
  | some stream => stream.offset
  | none => s.filePos

def ReceiverPc.atEnd : ReceiverPc → Bool
  | .reading stream => stream.eof
  | .read _ => true
  | .saved => true
  | _ => false

/-- What a step of `fgets` does, one case for each of its branches. -/
inductive Feed.LineStep (s : Feed) (stream : Stream) (n : Nat) : Feed → Prop where
  | complete (c : Char) (buffer : Text) (hBuffer : stream.buffer = c :: buffer)
    (hEnds : c = '\n' ∨ stream.line.length + 2 = sizeofLine) :
    s.LineStep stream n (s.hand (stream.line ++ [c]) { stream with buffer := buffer })
  | character (c : Char) (buffer : Text) (hBuffer : stream.buffer = c :: buffer)
    (hRoom : ¬(c = '\n' ∨ stream.line.length + 2 = sizeofLine)) :
    s.LineStep stream n
      { s with pc := .reading { stream with buffer := buffer, line := stream.line ++ [c] } }
  | leave (hBuffer : stream.buffer = []) (hEof : stream.eof = true) (hLine : stream.line = []) :
    s.LineStep stream n { s with pc := .read stream }
  | lastLine (hBuffer : stream.buffer = []) (hEof : stream.eof = true) (hLine : stream.line ≠ []) :
    s.LineStep stream n (s.hand stream.line stream)
  | meetEnd (hBuffer : stream.buffer = []) (hEof : stream.eof = false)
    (hEnd : (s.file.getD []).drop stream.offset = []) :
    s.LineStep stream n { s with pc := .reading { stream with eof := true } }
  | fill (bytes : Text) (hBuffer : stream.buffer = []) (hEof : stream.eof = false)
    (hBytes : ((s.file.getD []).drop stream.offset).take (n + 1) = bytes) (hNe : bytes ≠ []) :
    s.LineStep stream n { s with
      pc := .reading { stream with offset := stream.offset + bytes.length, buffer := bytes } }

theorem Feed.lineStep_readLine (s : Feed) (stream : Stream) (n : Nat) :
    s.LineStep stream n (s.readLine stream n) := by
  obtain ⟨offset, buffer, line, eof⟩ := stream
  cases buffer with
  | cons c buffer =>
    simp only [Feed.readLine]
    split_ifs with hEnds
    · exact .complete c buffer rfl hEnds
    · exact .character c buffer rfl hEnds
  | nil =>
    simp only [Feed.readLine]
    split_ifs with hEof hLine hBytes
    · exact .leave rfl hEof hLine
    · exact .lastLine rfl hEof hLine
    · have hEnd := (List.take_eq_nil_iff.mp hBytes).resolve_left (Nat.succ_ne_zero n)
      exact .meetEnd rfl (Bool.eq_false_iff.mpr hEof) hEnd
    · exact .fill _ rfl (Bool.eq_false_iff.mpr hEof) rfl hBytes

structure Stream.Ok (stream : Stream) : Prop where
  line : '\n' ∉ stream.line
  eof : stream.eof = true → stream.line = [] ∧ stream.buffer = []

/-- The file holds the lines `bodies`, of which `consumed` were handed over. -/
structure Synced (s : Feed) (bodies consumed : List Text) : Prop where
  file : s.file.getD [] = unlines '\n' bodies
  taken_le : s.taken ≤ (unlines '\n' bodies).length
  taken_eq : unlines '\n' consumed ++ s.pc.pending = (unlines '\n' bodies).take s.taken
  whole : Bodies '\n' consumed
  stream : ∀ stream, s.pc.stream = some stream → stream.Ok
  read : ∀ stream, s.pc = .read stream → stream.eof = true
  handed : s.handed.map Prod.snd = consumed.map (· ++ ['\n'])

section Step

variable {s : Feed} {bodies consumed : List Text}

theorem bodies_of_feedLines (hLines : ∀ body ∈ bodies, FeedLine body) : Bodies '\n' bodies :=
  fun body hBody => (hLines body hBody).not_newline

theorem Synced.split (h : Synced s bodies consumed) (hBodies : Bodies '\n' bodies) :
    ∃ left, bodies = consumed ++ left ∧
      s.pc.pending ++ (unlines '\n' bodies).drop s.taken = unlines '\n' left := by
  apply unlines_split h.whole hBodies
  rw [← List.append_assoc, h.taken_eq, List.take_append_drop]

theorem Synced.newline (h : Synced s bodies consumed) {stream : Stream}
    (hPc : s.pc = .reading stream) {buffer : Text} (hBuffer : stream.buffer = '\n' :: buffer) :
    Synced (s.hand (stream.line ++ ['\n']) { stream with buffer := buffer }) bodies
      (consumed ++ [stream.line]) := by
  obtain ⟨hFile, hTaken, hEq, hConsumed, hStream, _, hHanded⟩ := h
  simp only [Feed.taken, ReceiverPc.pending, ReceiverPc.stream, hPc, hBuffer] at hTaken hEq hStream
  obtain ⟨hLine, hEof⟩ := hStream stream rfl
  refine ⟨hFile, hTaken, ?_, ?_, ?_, nofun, ?_⟩
  · rw [unlines_append, List.append_assoc]
    simpa [Feed.hand, Feed.taken, ReceiverPc.pending, ReceiverPc.stream] using hEq
  · apply hConsumed.append
    intro body hBody
    rw [List.mem_singleton.mp hBody]
    exact hLine
  · rintro _ ⟨rfl⟩
    refine ⟨List.not_mem_nil, fun h => ?_⟩
    have hNil := (hEof h).2
    rw [hBuffer] at hNil
    cases hNil
  · simp [Feed.hand, hHanded]

theorem Synced.character (h : Synced s bodies consumed) {stream : Stream}
    (hPc : s.pc = .reading stream) {c : Char} {buffer : Text} (hBuffer : stream.buffer = c :: buffer)
    (hc : c ≠ '\n') :
    Synced { s with pc := .reading { stream with buffer := buffer, line := stream.line ++ [c] } }
      bodies consumed := by
  obtain ⟨hFile, hTaken, hEq, hConsumed, hStream, _, hHanded⟩ := h
  simp only [Feed.taken, ReceiverPc.pending, ReceiverPc.stream, hPc, hBuffer] at hTaken hEq hStream
  obtain ⟨hLine, hEof⟩ := hStream stream rfl
  refine ⟨hFile, hTaken, ?_, hConsumed, ?_, nofun, hHanded⟩
  · simpa [Feed.taken, ReceiverPc.pending, ReceiverPc.stream] using hEq
  · rintro _ ⟨rfl⟩
    constructor
    · intro hMem
      rcases List.mem_append.mp hMem with hMem | hMem
      · exact hLine hMem
      · exact hc (List.mem_singleton.mp hMem).symm
    · intro h
      have hNil := (hEof h).2
      rw [hBuffer] at hNil
      cases hNil

theorem Synced.short (h : Synced s bodies consumed) (hLines : ∀ body ∈ bodies, FeedLine body)
    {stream : Stream} (hPc : s.pc = .reading stream) : stream.line.length ≤ 10 := by
  obtain ⟨left, hLeft, hRest⟩ := h.split (bodies_of_feedLines hLines)
  have hStream := h.stream stream (by rw [hPc]; rfl)
  by_cases hNil : stream.line = []
  · rw [hNil]
    exact Nat.zero_le _
  · have hPending : s.pc.pending = stream.line ++ stream.buffer := by
      rw [hPc]
      rfl
    rw [hPending, List.append_assoc] at hRest
    -- a line that is not complete yet begins one of the lines left to read
    obtain ⟨body, hBody, hPrefix⟩ := prefix_of_unlines hStream.line hNil hRest
    have hFeed := hLines body (hLeft ▸ List.mem_append_right _ hBody)
    exact hPrefix.length_le.trans hFeed.length_le

theorem Synced.endOfFile (h : Synced s bodies consumed) (hBodies : Bodies '\n' bodies)
    {stream : Stream} (hPc : s.pc = .reading stream) (hBuffer : stream.buffer = [])
    (hEnd : (unlines '\n' bodies).drop stream.offset = []) :
    consumed = bodies ∧ stream.line = [] := by
  obtain ⟨left, hLeft, hRest⟩ := h.split hBodies
  have hStream := h.stream stream (by rw [hPc]; rfl)
  have hPending : s.pc.pending ++ (unlines '\n' bodies).drop s.taken = stream.line := by
    simp [ReceiverPc.pending, Feed.taken, ReceiverPc.stream, hPc, hBuffer, hEnd]
  rw [hPending] at hRest
  obtain rfl := eq_nil_of_unlines hStream.line hRest
  exact ⟨by rw [hLeft, List.append_nil], hRest⟩

theorem Synced.fill (h : Synced s bodies consumed) {stream : Stream}
    (hPc : s.pc = .reading stream) (hBuffer : stream.buffer = []) (hEof : stream.eof = false)
    {bytes : Text} {n : Nat} (hBytes : ((unlines '\n' bodies).drop stream.offset).take n = bytes) :
    Synced { s with
      pc := .reading { stream with offset := stream.offset + bytes.length, buffer := bytes } }
      bodies consumed := by
  obtain ⟨hFile, hTaken, hEq, hConsumed, hStream, _, hHanded⟩ := h
  simp only [Feed.taken, ReceiverPc.pending, ReceiverPc.stream, hPc, hBuffer] at hTaken hEq hStream
  obtain ⟨hLine, _⟩ := hStream stream rfl
  have hLength : bytes.length ≤ (unlines '\n' bodies).length - stream.offset := by
    rw [← hBytes, List.length_take, List.length_drop]
    exact Nat.min_le_right _ _
  have hTake : ((unlines '\n' bodies).drop stream.offset).take bytes.length = bytes := by
    exact (List.prefix_iff_eq_take.mp (hBytes ▸ List.take_prefix n _)).symm
  refine ⟨hFile, ?_, ?_, hConsumed, ?_, nofun, hHanded⟩
  · simp only [Feed.taken, ReceiverPc.stream]
    omega
  · simp only [Feed.taken, ReceiverPc.pending, ReceiverPc.stream, List.take_add]
    rw [← hEq, hTake]
    simp
  · rintro _ ⟨rfl⟩
    refine ⟨hLine, fun h => ?_⟩
    simp only [hEof] at h
    cases h

theorem Synced.leave (h : Synced s bodies consumed) {stream : Stream}
    (hPc : s.pc = .reading stream) (hEof : stream.eof = true) :
    Synced { s with pc := .read stream } bodies consumed := by
  obtain ⟨hFile, hTaken, hEq, hWhole, hStream, _, hHanded⟩ := h
  rw [Feed.taken, hPc] at hTaken
  rw [ReceiverPc.pending, Feed.taken, hPc] at hEq
  rw [hPc] at hStream
  refine ⟨hFile, hTaken, hEq, hWhole, hStream, ?_, hHanded⟩
  intro stream' hStream'
  rw [← ReceiverPc.read.inj hStream']
  exact hEof

theorem Synced.meetEnd (h : Synced s bodies consumed) {stream : Stream}
    (hPc : s.pc = .reading stream) (hLine : stream.line = []) (hBuffer : stream.buffer = []) :
    Synced { s with pc := .reading { stream with eof := true } } bodies consumed := by
  obtain ⟨hFile, hTaken, hEq, hWhole, hStream, _, hHanded⟩ := h
  rw [Feed.taken, hPc] at hTaken
  rw [ReceiverPc.pending, Feed.taken, hPc] at hEq
  refine ⟨hFile, hTaken, hEq, hWhole, ?_, nofun, hHanded⟩
  rintro _ ⟨rfl⟩
  exact ⟨by simp [hLine], fun _ => ⟨hLine, hBuffer⟩⟩

theorem Synced.readLine (h : Synced s bodies consumed) (hLines : ∀ body ∈ bodies, FeedLine body)
    {stream : Stream} (hPc : s.pc = .reading stream) (n : Nat) :
    ∃ new, Synced (s.readLine stream n) bodies (consumed ++ new) ∧
      (s.readLine stream n).polls = s.polls ∧
      ((s.readLine stream n).pc.atEnd = true → stream.eof = true ∨ consumed = bodies) := by
  have hStream := h.stream stream (by rw [hPc]; rfl)
  have hShort := h.short hLines hPc
  have hStep := s.lineStep_readLine stream n
  generalize s.readLine stream n = s' at hStep ⊢
  cases hStep with
  | complete c buffer hBuffer hEnds =>
    have hc : c = '\n' := hEnds.resolve_right (by rw [sizeofLine]; omega)
    subst hc
    exact ⟨[stream.line], h.newline hPc hBuffer, rfl, Or.inl⟩
  | character c buffer hBuffer hRoom =>
    refine ⟨[], ?_, rfl, Or.inl⟩
    rw [List.append_nil]
    exact h.character hPc hBuffer (fun hc => hRoom (Or.inl hc))
  | leave hBuffer hEof hLine =>
    refine ⟨[], ?_, rfl, fun _ => Or.inl hEof⟩
    rw [List.append_nil]
    exact h.leave hPc hEof
  | lastLine hBuffer hEof hLine => exact absurd (hStream.eof hEof).1 hLine
  | meetEnd hBuffer hEof hEnd =>
    rw [h.file] at hEnd
    obtain ⟨hAll, hLine⟩ := h.endOfFile (bodies_of_feedLines hLines) hPc hBuffer hEnd
    refine ⟨[], ?_, rfl, fun _ => Or.inr hAll⟩
    rw [List.append_nil]
    exact h.meetEnd hPc hLine hBuffer
  | fill bytes hBuffer hEof hBytes hNe =>
    rw [h.file] at hBytes
    refine ⟨[], ?_, rfl, Or.inl⟩
    rw [List.append_nil]
    exact h.fill hPc hBuffer hEof hBytes

theorem Synced.move (h : Synced s bodies consumed) {s' : Feed} (hFile : s'.file = s.file)
    (hHanded : s'.handed = s.handed) (hTaken : s'.taken = s.taken)
    (hPending : s'.pc.pending = s.pc.pending)
    (hStream : ∀ stream, s'.pc.stream = some stream → stream.Ok)
    (hRead : ∀ stream, s'.pc ≠ .read stream) : Synced s' bodies consumed := by
  refine ⟨?_, ?_, ?_, h.whole, hStream, fun stream hPc => absurd hPc (hRead stream), ?_⟩
  · rw [hFile]
    exact h.file
  · rw [hTaken]
    exact h.taken_le
  · rw [hPending, hTaken]
    exact h.taken_eq
  · rw [hHanded]
    exact h.handed

theorem Synced.pidReceiver (h : Synced s bodies consumed)
    (hLines : ∀ body ∈ bodies, FeedLine body) (n : Nat) :
    ∃ new, Synced (pidReceiver s n) bodies (consumed ++ new) ∧
      ((pidReceiver s n).polls = s.polls ∨ s.pc.atEnd = true) ∧
      ((pidReceiver s n).pc.atEnd = true → s.pc.atEnd = true ∨ consumed = bodies) := by
  obtain ⟨file, pc, filePos, stop, pidMap, polls, handed⟩ := s
  cases pc with
  | reading stream =>
    obtain ⟨new, hSynced, hPolls, hEnd⟩ := h.readLine hLines rfl n
    exact ⟨new, hSynced, Or.inl hPolls, hEnd⟩
  | idle =>
    refine ⟨[], ?_⟩
    rw [List.append_nil]
    cases stop with
    | true => exact ⟨h.move rfl rfl rfl rfl nofun nofun, Or.inl rfl, nofun⟩
    | false =>
      cases file with
      | none => exact ⟨h, Or.inl rfl, nofun⟩
      | some content => exact ⟨h.move rfl rfl rfl rfl nofun nofun, Or.inl rfl, nofun⟩
  | opened =>
    refine ⟨[], ?_, Or.inl rfl, nofun⟩
    rw [List.append_nil]
    refine h.move rfl rfl rfl rfl ?_ nofun
    rintro _ ⟨rfl⟩
    exact ⟨List.not_mem_nil, nofun⟩
  | read stream =>
    have hEmpty := (h.stream stream rfl).eof (h.read stream rfl)
    refine ⟨[], ?_, Or.inl rfl, fun _ => Or.inl rfl⟩
    rw [List.append_nil]
    refine h.move rfl rfl ?_ ?_ nofun nofun
    · change stream.offset - stream.buffer.length = stream.offset
      rw [hEmpty.2]
      rfl
    · change [] = stream.line ++ stream.buffer
      rw [hEmpty.1, hEmpty.2]
      rfl
  | saved =>
    refine ⟨[], ?_, Or.inr rfl, nofun⟩
    rw [List.append_nil]
    exact h.move rfl rfl rfl rfl nofun nofun
  | exited =>
    refine ⟨[], ?_, Or.inl rfl, nofun⟩
    rw [List.append_nil]
    exact h

theorem Synced.append (h : Synced s bodies consumed) (lines : List Text) :
    Synced (step s (.append lines)) (bodies ++ lines) consumed := by
  refine ⟨?_, ?_, ?_, h.whole, h.stream, h.read, h.handed⟩
  · rw [step, unlines_append, h.file]
    rfl
  · rw [unlines_append, List.length_append]
    exact h.taken_le.trans (Nat.le_add_right _ _)
  · rw [unlines_append]
    change _ = List.take s.taken _
    rw [List.take_append_of_le_length h.taken_le]
    exact h.taken_eq

/-- A truncation is harmless while at most a leading newline was taken. -/
theorem Synced.truncate (h : Synced s bodies consumed)
    (hHead : ∀ c ∈ (s.file.getD []).head?, c = '\n') (hTaken : s.taken ≤ 1) :
    Synced (step s .truncate) [[]] consumed := by
  have hTake : (unlines '\n' bodies).take s.taken = ['\n'].take s.taken := by
    have hLe := h.taken_le
    rw [h.file] at hHead
    cases hText : unlines '\n' bodies with
    | nil =>
      rw [hText] at hLe
      rw [Nat.le_zero.mp hLe]
      rfl
    | cons c rest =>
      rw [hText] at hHead
      rw [hHead c rfl]
      exact List.take_append_of_le_length (show s.taken ≤ ['\n'].length from hTaken)
  refine ⟨rfl, hTaken, ?_, h.whole, h.stream, h.read, h.handed⟩
  exact h.taken_eq.trans hTake

theorem Synced.sigInt (h : Synced s bodies consumed) : Synced (step s .sigInt) bodies consumed :=
  ⟨h.file, h.taken_le, h.taken_eq, h.whole, h.stream, h.read, h.handed⟩

theorem synced_init (bucket : Pid → Nat) : Synced (Feed.init bucket) [] [] :=
  ⟨rfl, le_rfl, rfl, nofun, nofun, nofun, rfl⟩

end Step

end Ebacs.PidFeed
