import Ebacs.Profile.Printers

/-! # Where the two printers of `profile` agree

Both print as many records for an address, so their outputs agree exactly when
the header and the records of each single address do.
-/
namespace Ebacs.Profile
open Lib
set_option autoImplicit false

/-- One answer per address. -/
def Answers (symbolizer : Symbolizer) : Prop :=
  ∀ src stack, ∃ syms, symbolizer src stack = some syms ∧ syms.length = stack.length

def Rejected (event : StacktraceEvent) : Prop := event.kstackSz ≤ 0 ∧ event.ustackSz ≤ 0

instance (event : StacktraceEvent) : Decidable (Rejected event) :=
  inferInstanceAs (Decidable (_ ∧ _))

/-- The first is a full array whose text ends at once in the size behind it; the second is cut
at `<unknown>` by C and refused by Rust. -/
def CommAlike (event : StacktraceEvent) : Prop :=
  ((ByteArray.mk event.comm.toArray).validateUTF8 = true ∧ 0 ∉ event.comm.toList ∧
    event.kstackSz.toUInt32.toUInt8 = 0) ∨
  ((ByteArray.mk event.comm.toArray).validateUTF8 = false ∧
    Rust.unknown ++ [0] <+: event.comm.toList)

/-- An address with a symbol is not zero, and what is inlined there has the symbol's own name. -/
def SymAlike (inputAddr : Address) (sym : Sym) : Prop :=
  inputAddr ≠ 0 ∧ ∀ name ∈ sym.inlined, name = sym.name

def StackAlike (symbolizer : Symbolizer) (src : Source) (stack : List Address) : Prop :=
  ∀ syms ∈ symbolizer src stack, ∀ x ∈ stack.zip syms, ∀ sym ∈ x.2, SymAlike x.1 sym

def userSource (pid : UInt32) : Source := if pid = 0 then .kernel else .process pid

def StacksAlike (symbolizer : Symbolizer) (event : StacktraceEvent) : Prop :=
  (0 < event.kstackSz →
    StackAlike symbolizer .kernel (addresses event.kstack event.kstackSz)) ∧
  (0 < event.ustackSz →
    StackAlike symbolizer (userSource event.pid) (addresses event.ustack event.ustackSz))

section Blocks

variable {α β : Type} {f g : α → List β}

theorem length_flatMap_congr {l : List α} (h : ∀ x, (f x).length = (g x).length) :
    (l.flatMap f).length = (l.flatMap g).length := by
  simp only [List.length_flatMap, h]

theorem append_eq_append_iff_of_length {s t s' t' : List β} (h : s.length = s'.length) :
    s ++ t = s' ++ t' ↔ s = s' ∧ t = t' := by
  constructor
  · intro hEq
    exact List.append_inj hEq h
  · rintro ⟨rfl, rfl⟩
    rfl

/-- Blocks of the same lengths can be compared one by one. -/
theorem flatMap_eq_iff_of_length {l : List α} (h : ∀ x, (f x).length = (g x).length) :
    l.flatMap f = l.flatMap g ↔ ∀ x ∈ l, f x = g x := by
  induction l with
  | nil => exact iff_of_true rfl nofun
  | cons x l ih =>
    rw [List.flatMap_cons, List.flatMap_cons, append_eq_append_iff_of_length (h x), ih,
      List.forall_mem_cons]

end Blocks

theorem zipIdx_getD {α ν : Type} (stack : List α) (syms : List ν) (d : ν)
    (h : syms.length = stack.length) :
    stack.zipIdx.map (fun x => (x.1, syms.getD x.2 d)) = stack.zip syms := by
  apply List.ext_getElem
  · simp [h]
  · intro i hi hi'
    have hSyms : i < syms.length := by simp at hi'; omega
    simp [hSyms]

theorem length_showAddress (inputAddr : Address) (sym : Option Sym) :
    (C.showAddress inputAddr sym).length = (Rust.showAddress inputAddr sym).length := by
  cases sym with
  | none => rfl
  | some sym => simp [C.showAddress, Rust.showAddress]

theorem showAddress_eq_iff (inputAddr : Address) (sym : Option Sym) :
    C.showAddress inputAddr sym = Rust.showAddress inputAddr sym ↔
      ∀ s ∈ sym, SymAlike inputAddr s := by
  cases sym with
  | none => exact iff_of_true rfl nofun
  | some sym =>
    have hFrame : C.printFrame sym.name inputAddr sym.addr sym.offset =
        Rust.printFrame sym.name (some (inputAddr, sym.addr, sym.offset)) ↔ inputAddr ≠ 0 := by
      rw [C.printFrame, Rust.printFrame]
      split <;> simp_all
    have hInlined : sym.inlined.map (fun _ => C.printFrame sym.name 0 0 0) =
        sym.inlined.map (fun name => Rust.printFrame name none) ↔
        ∀ name ∈ sym.inlined, name = sym.name := by
      rw [List.map_inj_left]
      refine forall₂_congr (fun name _ => ?_)
      rw [C.printFrame, if_neg (by simp), Rust.printFrame, Record.inlined.injEq, eq_comm]
    rw [C.showAddress, Rust.showAddress, List.cons_eq_cons, hFrame, hInlined]
    simp [SymAlike]

theorem showStackTrace_eq_iff {symbolizer : Symbolizer} (hAnswers : Answers symbolizer)
    (stack : List Address) (pid : UInt32) :
    (C.showStackTrace symbolizer stack pid).length =
      (Rust.showStackTrace symbolizer stack pid).length ∧
    (C.showStackTrace symbolizer stack pid = Rust.showStackTrace symbolizer stack pid ↔
      StackAlike symbolizer (userSource pid) stack) := by
  obtain ⟨syms, hSyms, hLength⟩ := hAnswers (userSource pid) stack
  have hC : C.showStackTrace symbolizer stack pid =
      (stack.zip syms).flatMap (fun x => C.showAddress x.1 x.2) := by
    have hSource : (if pid ≠ 0 then Source.process pid else .kernel) = userSource pid := by
      rw [userSource, ite_not]
    rw [C.showStackTrace, hSource, hSyms, ← zipIdx_getD stack syms none hLength, List.flatMap_map]
  have hRust : Rust.showStackTrace symbolizer stack pid =
      (stack.zip syms).flatMap (fun x => Rust.showAddress x.1 x.2) := by
    rw [userSource] at hSyms
    rw [Rust.showStackTrace, hSyms]
  have hBlocks : ∀ x : Address × Option Sym,
      (C.showAddress x.1 x.2).length = (Rust.showAddress x.1 x.2).length :=
    fun x => length_showAddress x.1 x.2
  constructor
  · rw [hC, hRust, length_flatMap_congr hBlocks]
  · rw [hC, hRust, flatMap_eq_iff_of_length hBlocks, StackAlike, hSyms]
    simp only [showAddress_eq_iff, Option.mem_some_iff, forall_eq']

theorem commText_eq_iff (event : StacktraceEvent) :
    C.commText event = Rust.commText event ↔ CommAlike event := by
  obtain ⟨rest, hRest⟩ := wordBytes_toList event.kstackSz.toUInt32
  rw [C.commText, Rust.commText, CommAlike, hRest, List.append_assoc, List.cons_append]
  cases hValid : (ByteArray.mk event.comm.toArray).validateUTF8 with
  | false =>
    have hShorter : Rust.unknown.length < event.comm.toList.length := by
      rw [Vector.length_toList]
      decide
    rw [if_neg Bool.false_ne_true, takeWhile_append_eq_iff (by decide) hShorter]
    simp only [Bool.false_eq_true, false_and, true_and, false_or]
  | true =>
    rw [if_pos rfl, takeWhile_append_eq_left_iff]
    simp only [true_and, Bool.true_eq_false, false_and, or_false]

/-- One section of the output, under its title or replaced by its marker. -/
theorem section_eq_iff {symbolizer : Symbolizer} (hAnswers : Answers symbolizer) (sz : Int32)
    (title missing : Record) (stack : List Address) (pid : UInt32) :
    let cSection := if 0 < sz then title :: C.showStackTrace symbolizer stack pid else [missing]
    let rustSection :=
      if 0 < sz then title :: Rust.showStackTrace symbolizer stack pid else [missing]
    cSection.length = rustSection.length ∧
    (cSection = rustSection ↔ (0 < sz → StackAlike symbolizer (userSource pid) stack)) := by
  obtain ⟨hLength, hIff⟩ := showStackTrace_eq_iff hAnswers stack pid
  intro cSection rustSection
  by_cases hPositive : 0 < sz
  · simp only [cSection, rustSection, if_pos hPositive, List.length_cons, hLength, List.cons.injEq,
      true_and, hIff, hPositive, true_imp_iff]
  · simp only [cSection, rustSection, if_neg hPositive, hPositive, false_imp_iff, true_and]

def cOutput (symbolizer : Symbolizer) (event : StacktraceEvent) : Option (List Record) :=
  C.eventHandler symbolizer event sizeofStacktraceEvent

def rustOutput (symbolizer : Symbolizer) (event : StacktraceEvent) : Option (List Record) :=
  Rust.eventHandler symbolizer event sizeofStacktraceEvent

/-- The check of the size passes. -/
theorem rustOutput_eq (symbolizer : Symbolizer) (event : StacktraceEvent) :
    rustOutput symbolizer event = if Rejected event then none else some (
      .header (Rust.commText event) event.pid event.cpuId ::
      ((if 0 < event.kstackSz then
          .kernel :: Rust.showStackTrace symbolizer (addresses event.kstack event.kstackSz) 0
        else [.noKernelStack]) ++
      (if 0 < event.ustackSz then
          .userspace ::
            Rust.showStackTrace symbolizer (addresses event.ustack event.ustackSz) event.pid
        else [.noUserspaceStack]) ++
      [.blank])) := by
  rw [rustOutput, Rust.eventHandler, if_neg (not_not.mpr rfl)]
  rfl

/-- An event that is not rejected has a header and sections behind it, which agree or not on
their own. -/
theorem outputs_of_not_rejected {symbolizer : Symbolizer} (hAnswers : Answers symbolizer)
    {event : StacktraceEvent} (h : ¬Rejected event) :
    ∃ cSections rustSections,
      cOutput symbolizer event =
        some (.header (C.commText event) event.pid event.cpuId :: cSections) ∧
      rustOutput symbolizer event =
        some (.header (Rust.commText event) event.pid event.cpuId :: rustSections) ∧
      (cSections = rustSections ↔ StacksAlike symbolizer event) := by
  obtain ⟨hKernelLength, hKernel⟩ := section_eq_iff hAnswers event.kstackSz .kernel .noKernelStack
    (addresses event.kstack event.kstackSz) 0
  obtain ⟨hUserLength, hUser⟩ := section_eq_iff hAnswers event.ustackSz .userspace
    .noUserspaceStack (addresses event.ustack event.ustackSz) event.pid
  refine ⟨_, _, if_neg h, (rustOutput_eq symbolizer event).trans (if_neg h), ?_⟩
  rw [List.append_left_inj, append_eq_append_iff_of_length hKernelLength, hKernel, hUser]
  rfl

/-- The printers agree exactly when both reject the event, or it has a name that both print
alike and no zero address with a symbol and no inlined frame of another name. The second part
is the same without the header. -/
theorem printers_agree_iff (symbolizer : Symbolizer) (hAnswers : Answers symbolizer)
    (event : StacktraceEvent) :
    (cOutput symbolizer event = rustOutput symbolizer event ↔
      Rejected event ∨ CommAlike event ∧ StacksAlike symbolizer event) ∧
    ((cOutput symbolizer event).map List.tail = (rustOutput symbolizer event).map List.tail ↔
      Rejected event ∨ StacksAlike symbolizer event) := by
  by_cases hRejected : Rejected event
  · have hC : cOutput symbolizer event = none := if_pos hRejected
    have hRust : rustOutput symbolizer event = none :=
      (rustOutput_eq symbolizer event).trans (if_pos hRejected)
    rw [hC, hRust]
    exact ⟨iff_of_true rfl (Or.inl hRejected), iff_of_true rfl (Or.inl hRejected)⟩
  · obtain ⟨cSections, rustSections, hC, hRust, hSections⟩ :=
      outputs_of_not_rejected hAnswers hRejected
    rw [hC, hRust]
    simp only [Option.some.injEq, List.cons.injEq, Record.header.injEq, and_true, Option.map_some,
      List.tail_cons, commText_eq_iff, hSections, hRejected, false_or, and_self]

/-- A sample of a process `app` with a user stack of one address. -/
def sample : StacktraceEvent where
  pid := 7
  cpuId := 2
  comm := .ofFn (fun i => [97, 112, 112].getD i 0)
  kstackSz := 0
  ustackSz := 8
  kstack := .replicate maxStackDepth 0
  ustack := .replicate maxStackDepth 0x401136
  kstackSize := by decide
  ustackSize := by decide

/-- A symbolizer that finds `main` everywhere, with these functions inlined. -/
def mainWith (inlined : List String) : Symbolizer :=
  fun _ stack => some (stack.map (fun a => some ⟨"main", 0x401126, a - 0x401126, inlined⟩))

theorem answers_mainWith (inlined : List String) : Answers (mainWith inlined) :=
  fun _ _ => ⟨_, rfl, List.length_map _⟩

/-- Without inlined functions the sample is printed alike but for the padding of its name. -/
theorem sample_agrees_behind_header :
    (cOutput (mainWith []) sample).map List.tail = (rustOutput (mainWith []) sample).map List.tail ∧
    cOutput (mainWith []) sample ≠ rustOutput (mainWith []) sample := by
  have h := printers_agree_iff (mainWith []) (answers_mainWith []) sample
  constructor
  · refine h.2.mpr (Or.inr ⟨fun hKernel => absurd hKernel (by decide), fun _ => ?_⟩)
    rintro syms hSyms x hx sym hSym
    obtain rfl : [some ⟨"main", 0x401126, 0x10, []⟩] = syms := Option.some.inj hSyms
    obtain rfl : x = (0x401136, some ⟨"main", 0x401126, 0x10, []⟩) := List.mem_singleton.mp hx
    obtain rfl : ⟨"main", 0x401126, 0x10, []⟩ = sym := Option.some.inj hSym
    exact ⟨by decide, nofun⟩
  · intro hAgree
    rcases h.1.mp hAgree with hRejected | ⟨⟨_, hNul, _⟩ | ⟨hInvalid, _⟩, _⟩
    · exact absurd hRejected (by decide)
    · exact hNul (by decide)
    · exact absurd hInvalid (by decide)

/-- The name of an inlined function is lost in C. -/
theorem inlined_printed_differently :
    cOutput (mainWith ["helper"]) sample ≠ rustOutput (mainWith ["helper"]) sample ∧
    (cOutput (mainWith ["helper"]) sample).map List.tail ≠
      (rustOutput (mainWith ["helper"]) sample).map List.tail := by
  have hTail : (cOutput (mainWith ["helper"]) sample).map List.tail ≠
      (rustOutput (mainWith ["helper"]) sample).map List.tail := by decide
  exact ⟨fun hAgree => hTail (congrArg (Option.map List.tail) hAgree), hTail⟩

end Ebacs.Profile
