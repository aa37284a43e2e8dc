import Ebacs.Lib.Lines
import Ebacs.Lib.Text
import Ebacs.PageAccess.Probes

/-! # The PID receiver

The thread `pid_receiver` as a machine that polls `pids.txt`: it opens the
file, seeks to the saved position, takes lines from the stream until the end
of the file, saves the position and closes. A stream holds bytes that were
read from the file but not yet taken by `fgets`; other programs append to the
file, or truncate it, between any two steps.
-/
namespace Ebacs.PidFeed
open Lib PageAccess
set_option autoImplicit false

def isspace (c : Char) : Bool := c ∈ [' ', '\t', '\n', '\x0b', '\x0c', '\r']

def longMax : Nat := 9223372036854775807

/-- A number out of range becomes the nearest `long`. -/
def strtol (negative : Bool) (digits : Text) : Int :=
  let n := Nat.ofDigitChars 10 digits 0
  if negative then
    if n ≤ longMax then -n else -longMax - 1
  else if n ≤ longMax then n else longMax

/-- `sscanf(line, "%d", &pid)`; `none` when it does not return 1. -/
def sscanf (line : Text) : Option Pid :=
  let t := line.dropWhile isspace
  let negative := t.head? = some '-'
  let t := if t.head? = some '-' ∨ t.head? = some '+' then t.tail else t
  match t.takeWhile Char.isDigit with
  | [] => none
  | digits => some (Int32.ofInt (strtol negative digits))

/-- The body of the inner loop; a failed update is only reported. -/
def addLine (pidMap : PidMap) (line : Text) : PidMap :=
  match sscanf line with
  | some pid => (pidMap.updateElem pid 1).getD pidMap
  | none => pidMap

def sizeofLine : Nat := 256

/-- The stream between two calls that touch it: the position in the file up to which bytes
were read, those not yet taken, the line that `fgets` is filling and the end-of-file flag. -/
structure Stream where
  offset : Nat
  buffer : Text
  line : Text
  eof : Bool
  deriving DecidableEq, Repr

inductive ReceiverPc where
  | idle
  | opened
  | reading (stream : Stream)
  | read (stream : Stream)
  | saved
  | exited
  deriving DecidableEq, Repr

/-- `handed` records every line given to `sscanf`, with the number of the poll. -/
structure Feed where
  file : Option Text
  pc : ReceiverPc
  filePos : Nat
  stop : Bool
  pidMap : PidMap
  polls : Nat
  handed : List (Nat × Text)

def Feed.init (bucket : Pid → Nat) : Feed where
  file := none
  pc := .idle
  filePos := 0
  stop := false
  pidMap := .empty bucket
  polls := 0
  handed := []

def Feed.hand (s : Feed) (line : Text) (stream : Stream) : Feed :=
  { s with
    pc := .reading { stream with line := [] }
    pidMap := addLine s.pidMap line
    handed := s.handed ++ [(s.polls, line)] }

/-- The next step of `fgets`; a read asks for `n + 1` bytes, and none means end of file. -/
def Feed.readLine (s : Feed) (stream : Stream) (n : Nat) : Feed :=
  match stream.buffer with
  | c :: buffer =>
    -- one byte of the array is left for the terminating NUL
    if c = '\n' ∨ stream.line.length + 2 = sizeofLine then
      s.hand (stream.line ++ [c]) { stream with buffer := buffer }
    else { s with pc := .reading { stream with buffer := buffer, line := stream.line ++ [c] } }
  | [] =>
    -- the flag is sticky: what is appended later waits for the next poll
    if stream.eof then
      if stream.line = [] then { s with pc := .read stream } else s.hand stream.line stream
    else
      let bytes := ((s.file.getD []).drop stream.offset).take (n + 1)
      if bytes = [] then { s with pc := .reading { stream with eof := true } }
      else { s with
        pc := .reading { stream with offset := stream.offset + bytes.length, buffer := bytes } }

def pidReceiver (s : Feed) (n : Nat) : Feed :=
  match s.pc with
  | .idle =>
    if s.stop then { s with pc := .exited }
    else match s.file with
      | some _ => { s with pc := .opened }
      | none => s
  | .opened => { s with pc := .reading ⟨s.filePos, [], [], false⟩ }
  | .reading stream => s.readLine stream n
  | .read stream => { s with pc := .saved, filePos := stream.offset - stream.buffer.length }
  | .saved => { s with pc := .idle, polls := s.polls + 1 }
  | .exited => s

inductive Act where
  | receiver (n : Nat)
  | append (lines : List Text)
  | truncate
  | sigInt
  deriving DecidableEq, Repr

/-- Lines are appended whole; `echo "" > pids.txt` leaves a single newline. -/
def step (s : Feed) : Act → Feed
  | .receiver n => pidReceiver s n
  | .append lines => { s with file := some (s.file.getD [] ++ unlines '\n' lines) }
  | .truncate => { s with file := some ['\n'] }
  | .sigInt => { s with stop := true }

def run (bucket : Pid → Nat) (acts : List Act) : Feed := acts.foldl step (Feed.init bucket)

def intMax : Nat := 2147483647

structure FeedLine (body : Text) : Prop where
  digits : ∀ c ∈ body, c.isDigit = true
  length_le : body.length ≤ 10
  fits : Nat.ofDigitChars 10 body 0 ≤ intMax

instance (body : Text) : Decidable (FeedLine body) :=
  decidable_of_iff (body.all Char.isDigit = true ∧ body.length ≤ 10 ∧
    Nat.ofDigitChars 10 body 0 ≤ intMax) ⟨fun h => ⟨List.all_eq_true.mp h.1, h.2.1, h.2.2⟩,
    fun h => ⟨List.all_eq_true.mpr h.digits, h.length_le, h.fits⟩⟩

def linePid (body : Text) : Option Pid :=
  if body = [] then none else some (Int32.ofNat (Nat.ofDigitChars 10 body 0))

theorem FeedLine.not_newline {body : Text} (h : FeedLine body) : '\n' ∉ body := by
  intro hMem
  exact absurd (h.digits _ hMem) (by decide)

theorem isspace_of_isDigit {c : Char} (h : c.isDigit = true) :
    isspace c = false ∧ c ≠ '-' ∧ c ≠ '+' := by
  have hNe : ∀ d : Char, d.isDigit = false → c ≠ d := by
    intro d hd hEq
    rw [hEq, hd] at h
    cases h
  refine ⟨?_, hNe _ (by decide), hNe _ (by decide)⟩
  simp [isspace, hNe ' ' (by decide), hNe '\t' (by decide), hNe '\n' (by decide),
    hNe '\x0b' (by decide), hNe '\x0c' (by decide), hNe '\r' (by decide)]

theorem sscanf_feedLine {body : Text} (h : FeedLine body) :
    sscanf (body ++ ['\n']) = linePid body := by
  cases body with
  | nil => decide
  | cons c body =>
    obtain ⟨hSpace, hMinus, hPlus⟩ := isspace_of_isDigit (h.digits c List.mem_cons_self)
    have hDrop : (c :: body ++ ['\n']).dropWhile isspace = c :: body ++ ['\n'] := by
      rw [List.cons_append, List.dropWhile_cons_of_neg (by simp [hSpace])]
    have hTake : (c :: body ++ ['\n']).takeWhile Char.isDigit = c :: body := by
      rw [List.takeWhile_append_of_pos h.digits]
      simp
    have hFits := h.fits
    have hStrtol : strtol false (c :: body) = Nat.ofDigitChars 10 (c :: body) 0 := by
      have hLong : Nat.ofDigitChars 10 (c :: body) 0 ≤ longMax := hFits.trans (by decide)
      simp only [strtol, Bool.false_eq_true, if_false, if_pos hLong]
    have hHead : (c :: body ++ ['\n']).head? = some c := rfl
    simp only [sscanf, hDrop, hHead, Option.some.injEq, hMinus, hPlus, or_self, if_false, hTake,
      decide_false, hStrtol, linePid]
    rfl

theorem mem_foldl_addLine {bodies : List Text} (hLines : ∀ body ∈ bodies, FeedLine body)
    {pids : Finset Pid} (hCard : pids.card ≤ maxPids)
    (hPids : ∀ body ∈ bodies, ∀ pid ∈ linePid body, pid ∈ pids) (bucket : Pid → Nat) (pid : Pid) :
    pid ∈ (bodies.map (· ++ ['\n'])).foldl addLine (BoundedMap.empty bucket : PidMap) ↔
      ∃ body ∈ bodies, linePid body = some pid := by
  induction bodies using List.reverseRecOn generalizing pid with
  | nil => simp
  | append_singleton bodies last ih =>
    have hIh := ih (fun b hb => hLines b (List.mem_append_left _ hb))
      (fun b hb => hPids b (List.mem_append_left _ hb))
    have hMem : last ∈ bodies ++ [last] := List.mem_append_right _ (List.mem_singleton_self _)
    rw [List.map_append, List.foldl_append]
    simp only [List.map_cons, List.map_nil, List.foldl_cons, List.foldl_nil, List.mem_append,
      List.mem_singleton, or_and_right, exists_or, exists_eq_left]
    generalize (bodies.map (· ++ ['\n'])).foldl addLine (BoundedMap.empty bucket : PidMap) = m
      at hIh ⊢
    rw [addLine, sscanf_feedLine (hLines last hMem)]
    cases hPid : linePid last with
    | none => simp [hIh]
    | some p =>
      have hRoom : p ∈ m ∨ m.size < maxPids := by
        refine BoundedMap.room_of_subset pids hCard ?_ (hPids last hMem p hPid)
        intro q hq
        obtain ⟨body, hBody, hLine⟩ := (hIh q).mp hq
        exact hPids body (List.mem_append_left _ hBody) q hLine
      rw [BoundedMap.mem_updateElem hRoom, hIh, or_comm, Option.some.injEq, eq_comm]

end Ebacs.PidFeed
