import Ebacs.Lib.Bytes

/-! # The two printers of `profile`

The event handlers of `profile.c` and of the Rust `main.rs`, each as the records
it prints. The format of numbers and the source locations are left out of a
record.
-/
namespace Ebacs.Profile
open Lib
set_option autoImplicit false

abbrev Address := UInt64

abbrev taskCommLen : Nat := 16

abbrev maxStackDepth : Nat := 128

/-- The size `bpf_get_stack` returns: an error, nothing, or whole addresses that fit. -/
def StackSize (sz : Int32) : Prop := sz ≤ 0 ∨ 8 ∣ sz.toInt ∧ sz ≤ 1024

instance (sz : Int32) : Decidable (StackSize sz) := inferInstanceAs (Decidable (_ ∨ _ ∧ _))

structure StacktraceEvent where
  pid : UInt32
  cpuId : UInt32
  comm : Vector UInt8 taskCommLen
  kstackSz : Int32
  ustackSz : Int32
  kstack : Vector Address maxStackDepth
  ustack : Vector Address maxStackDepth
  kstackSize : StackSize kstackSz
  ustackSize : StackSize ustackSz

def sizeofStacktraceEvent : Nat := 4 + 4 + taskCommLen + 4 + 4 + 8 * maxStackDepth + 8 * maxStackDepth

/-- The addresses that a size in bytes counts. -/
def addresses (stack : Vector Address maxStackDepth) (sz : Int32) : List Address :=
  stack.toList.take (sz.toInt.toNat / 8)

structure Sym where
  name : String
  addr : Address
  offset : UInt64
  /-- The names of the inlined functions. -/
  inlined : List String
  deriving DecidableEq

inductive Source where
  | kernel
  | process (pid : UInt32)
  deriving DecidableEq

/-- `blazesym`; `none` is a failed call, and an unknown address has no symbol. -/
abbrev Symbolizer := Source → List Address → Option (List (Option Sym))

inductive Record where
  | header (comm : List UInt8) (pid cpuId : UInt32)
  | kernel
  | noKernelStack
  | userspace
  | noUserspaceStack
  | failed
  | noSymbol (inputAddr : Address)
  | frame (inputAddr : Address) (name : String) (addr : Address) (offset : UInt64)
  | inlined (name : String)
  | blank
  deriving DecidableEq

namespace C

/-- An input address of zero marks an inlined call. -/
def printFrame (name : String) (inputAddr addr : Address) (offset : UInt64) : Record :=
  if inputAddr ≠ 0 then .frame inputAddr name addr offset else .inlined name

/-- The body of the loop over a stack. -/
def showAddress (inputAddr : Address) : Option Sym → List Record
  | none => [.noSymbol inputAddr]
  | some sym =>
    printFrame sym.name inputAddr sym.addr sym.offset ::
      sym.inlined.map (fun _ => printFrame sym.name 0 0 0)

def showStackTrace (symbolizer : Symbolizer) (stack : List Address) (pid : UInt32) :
    List Record :=
  match symbolizer (if pid ≠ 0 then .process pid else .kernel) stack with
  | none => [.failed]
  | some syms => stack.zipIdx.flatMap (fun x => showAddress x.1 (syms.getD x.2 none))

/-- `%s` prints up to the first NUL, and `comm` is followed by the two sizes. A size above zero
has a NUL among its bytes. -/
def commText (event : StacktraceEvent) : List UInt8 :=
  (event.comm.toList ++ (wordBytes event.kstackSz.toUInt32).toList ++
    (wordBytes event.ustackSz.toUInt32).toList).takeWhile (· ≠ 0)

/-- `none` is a rejected event. -/
def eventHandler (symbolizer : Symbolizer) (event : StacktraceEvent) (_size : Nat) :
    Option (List Record) :=
  if event.kstackSz ≤ 0 ∧ event.ustackSz ≤ 0 then none
  else some (
    .header (commText event) event.pid event.cpuId ::
    ((if 0 < event.kstackSz then
        .kernel :: showStackTrace symbolizer (addresses event.kstack event.kstackSz) 0
      else [.noKernelStack]) ++
    (if 0 < event.ustackSz then
        .userspace :: showStackTrace symbolizer (addresses event.ustack event.ustackSz) event.pid
      else [.noUserspaceStack]) ++
    [.blank]))

end C

namespace Rust

def printFrame (name : String) : Option (Address × Address × UInt64) → Record
  | some (inputAddr, addr, offset) => .frame inputAddr name addr offset
  | none => .inlined name

/-- The body of the loop over a stack. -/
def showAddress (inputAddr : Address) : Option Sym → List Record
  | some sym =>
    printFrame sym.name (some (inputAddr, sym.addr, sym.offset)) ::
      sym.inlined.map (fun name => printFrame name none)
  | none => [.noSymbol inputAddr]

/-- A failed call is reported on the error output. -/
def showStackTrace (symbolizer : Symbolizer) (stack : List Address) (pid : UInt32) :
    List Record :=
  match symbolizer (if pid = 0 then .kernel else .process pid) stack with
  | none => []
  | some syms => (stack.zip syms).flatMap (fun x => showAddress x.1 x.2)

/-- The text `<unknown>` -/
def unknown : List UInt8 := [60, 117, 110, 107, 110, 111, 119, 110, 62]

def commText (event : StacktraceEvent) : List UInt8 :=
  if (ByteArray.mk event.comm.toArray).validateUTF8 then event.comm.toList else unknown

def eventHandler (symbolizer : Symbolizer) (event : StacktraceEvent) (size : Nat) :
    Option (List Record) :=
  if size ≠ sizeofStacktraceEvent then none
  else if event.kstackSz ≤ 0 ∧ event.ustackSz ≤ 0 then none
  else some (
    .header (commText event) event.pid event.cpuId ::
    ((if 0 < event.kstackSz then
        .kernel :: showStackTrace symbolizer (addresses event.kstack event.kstackSz) 0
      else [.noKernelStack]) ++
    (if 0 < event.ustackSz then
        .userspace :: showStackTrace symbolizer (addresses event.ustack event.ustackSz) event.pid
      else [.noUserspaceStack]) ++
    [.blank]))

end Rust

end Ebacs.Profile
