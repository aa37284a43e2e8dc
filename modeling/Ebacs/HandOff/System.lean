import Ebacs.Avgscale.PageTable
import Ebacs.HandOff.Files

/-! # Snapshot writer and snapshot readers

The loop of `main` that writes one file per snapshot, and the loops of
`tel_wsf.py` and `get_avgscale.py` that read the second newest one, as
programs that take their steps in any order. What a stream has buffered
reaches its file in portions at any time, at the latest when it is closed.
-/
namespace Ebacs.HandOff
open Lib PageAccess Snapshot Avgscale
set_option autoImplicit false

inductive Exit where
  | bufferTooSmall
  | openFailed
  | stopped
  deriving DecidableEq, Repr

/-- Where the writer stands; a file is named from its opening to its closing. -/
inductive WriterPc where
  | loop
  | named (result : Text)
  | dumping (file : Text)
  | sleeping (file : Text)
  | closing (file : Text)
  | exited (cause : Exit)
  deriving DecidableEq, Repr

def WriterPc.file : WriterPc → Option Text
  | .dumping file => some file
  | .sleeping file => some file
  | .closing file => some file
  | _ => none

structure Writer where
  pc : WriterPc
  i : Int32
  stop : Bool
  buffer : Text

inductive ReaderPc where
  | polling
  | picked (currentFile : Text)
  | returned
  | raised
  deriving DecidableEq, Repr

structure TelWsf where
  pc : ReaderPc
  reads : List (Text × List Int)

structure GetAvgscale where
  pc : ReaderPc
  trackedPids : Finset Int
  previousPageAccessCounts : PageTable
  lastProcessedFile : Option Text
  processed : List Text

/-- `printed` and `finished` record what was printed to the open file and to the closed ones. -/
structure System where
  files : Directory
  writer : Writer
  printed : List (PageKey × Metric)
  finished : List (List (PageKey × Metric))
  tel : TelWsf
  avgscale : GetAvgscale

inductive WriterAct where
  | sigInt
  | name
  | fopen (succeeds : Bool)
  | fprintf (nextKey : PageKey) (value : Metric)
  | flush (n : Nat)
  | usleep
  | increment
  | fclose

inductive Act where
  | writer (a : WriterAct)
  | telList (totalPages : Nat) (listdir : List Text)
  | telRead
  | avgscaleList (trackedPids : Finset Int) (listdir : List Text)
  | avgscaleRead

def System.init (files : Directory) : System where
  files := files
  writer := ⟨.loop, 0, false, []⟩
  printed := []
  finished := []
  tel := ⟨.polling, []⟩
  avgscale := ⟨.polling, ∅, fun _ => ∅, none, []⟩

def System.flush (s : System) (file : Text) (n : Nat) : System :=
  { s with
    files := s.files.insert file ((s.files.lookup file).getD [] ++ s.writer.buffer.take n)
    writer := { s.writer with buffer := s.writer.buffer.drop n } }

def System.setPc (s : System) (pc : WriterPc) : System :=
  { s with writer := { s.writer with pc := pc } }

def writerStep (s : System) : WriterAct → System
  | .sigInt => { s with writer := { s.writer with stop := true } }
  | .name =>
    match s.writer.pc with
    | .loop =>
      if s.writer.stop then s.setPc (.exited .stopped)
      else match concatenateStringAndInteger path s.writer.i 30 with
        | some result => s.setPc (.named result)
        | none => s.setPc (.exited .bufferTooSmall)
    | _ => s
  | .fopen succeeds =>
    match s.writer.pc with
    | .named result =>
      match resolve lruMetrics result, succeeds with
      | some file, true =>
        { s with
          files := s.files.insert file []
          writer := { s.writer with pc := .dumping file, buffer := [] }
          printed := [] }
      | _, _ => s.setPc (.exited .openFailed)
    | _ => s
  | .fprintf nextKey value =>
    match s.writer.pc with
    | .dumping _ =>
      { s with
        writer := { s.writer with buffer := s.writer.buffer ++ dumpLine nextKey value }
        printed := s.printed ++ [(nextKey, value)] }
    | _ => s
  | .flush n =>
    match s.writer.pc.file with
    | some file => s.flush file n
    | none => s
  | .usleep =>
    match s.writer.pc with
    | .dumping file => s.setPc (.sleeping file)
    | _ => s
  | .increment =>
    -- the counter moves on while the file is still open
    match s.writer.pc with
    | .sleeping file => { s with writer := { s.writer with pc := .closing file, i := s.writer.i + 1 } }
    | _ => s
  | .fclose =>
    match s.writer.pc with
    | .closing file =>
      let s := s.flush file s.writer.buffer.length
      { s.setPc .loop with finished := s.finished ++ [s.printed] }
    | _ => s

def pickFile (directory : Text) (listdir : List Text) : ReaderPc :=
  match getLogFiles listdir with
  | none => .raised
  | some logFiles =>
    match secondToLast logFiles with
    | none => .polling
    | some file => .picked (osPathJoin directory file)

def openFile (directory : Text) (files : Directory) (currentFile : Text) : Option Text :=
  (resolve directory currentFile).bind (fun file => files.lookup file)

/-- The access counts below 1000 that a line adds; `none` is a ValueError. -/
def readCount (accessCounts : List Int) (line : Text) : Option (List Int) :=
  match words (strip line) with
  | [_, _, accessCount] => do
    let accessCount ← int? accessCount
    if accessCount < 1000 then some (accessCounts ++ [accessCount]) else some accessCounts
  | _ => some accessCounts

def readAccessCounts (file : Text) : Option (List Int) := (fileLines file).foldlM readCount []

def time60 : Text := "time_60".toList

def telRead (directory : Text) (files : Directory) (r : TelWsf) : TelWsf :=
  match r.pc with
  | .picked currentFile =>
    if time60 <:+: currentFile then { r with pc := .returned }
    else match (openFile directory files currentFile).bind readAccessCounts with
      | some accessCounts => ⟨.polling, r.reads ++ [(currentFile, accessCounts)]⟩
      | none => { r with pc := .raised }
  | _ => r

def avgscaleRead (directory : Text) (files : Directory) (r : GetAvgscale) : GetAvgscale :=
  match r.pc with
  | .picked currentFile =>
    if r.lastProcessedFile = some currentFile then { r with pc := .polling }
    else match (openFile directory files currentFile).bind (readSnapshot r.trackedPids) with
      | some currentPageAccessCounts =>
        { r with
          pc := .polling
          previousPageAccessCounts := currentPageAccessCounts
          lastProcessedFile := some currentFile
          processed := r.processed ++ [currentFile] }
      | none => { r with pc := .raised }
  | _ => r

/-- The readers are given `directory`, a path of the directory that the writer fills. -/
def step (directory : Text) (s : System) : Act → System
  | .writer a => writerStep s a
  | .telList totalPages listdir =>
    if s.tel.pc ≠ .polling then s
    else if totalPages = 0 then { s with tel := { s.tel with pc := .returned } }
    else if listdir.Perm s.files.keys then
      { s with tel := { s.tel with pc := pickFile directory listdir } }
    else s
  | .telRead => { s with tel := telRead directory s.files s.tel }
  | .avgscaleList trackedPids listdir =>
    if s.avgscale.pc ≠ .polling then s
    else if trackedPids = ∅ then s
    else if listdir.Perm s.files.keys then
      { s with
        avgscale := { s.avgscale with
          pc := pickFile directory listdir
          trackedPids := trackedPids } }
    else s
  | .avgscaleRead => { s with avgscale := avgscaleRead directory s.files s.avgscale }

def run (directory : Text) (files : Directory) (acts : List Act) : System :=
  acts.foldl (step directory) (System.init files)

end Ebacs.HandOff
