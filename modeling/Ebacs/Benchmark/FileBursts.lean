import Mathlib.Algebra.Ring.Nat
import Ebacs.Lib.Ownership
import Ebacs.Lib.Text
import Ebacs.Lib.Trace

/-! # Bursts of files

`generate_files` opens, sizes and maps twenty files, and then unmaps, closes and
deletes them again. Any of these calls may fail. A descriptor is given back on
every path, but a file whose set-up fails is closed without being deleted.
-/
namespace Ebacs.Benchmark
open Lib
set_option autoImplicit false

def filesPerIteration : Nat := 20

/-- `misuses` counts the calls with a descriptor or an address that is not in use. -/
structure Machine where
  descriptors : Finset Nat
  mappings : Finset Nat
  files : Finset Text
  misuses : Nat

def Machine.close (m : Machine) (fd : Nat) : Machine :=
  if fd ∈ m.descriptors then { m with descriptors := m.descriptors.erase fd }
  else { m with misuses := m.misuses + 1 }

def Machine.munmap (m : Machine) (buffer : Nat) (succeeds : Bool) : Machine :=
  if buffer ∈ m.mappings then
    if succeeds then { m with mappings := m.mappings.erase buffer } else m
  else { m with misuses := m.misuses + 1 }

/-- Which calls succeed for a file. -/
structure Outcome where
  opens : Bool
  truncates : Bool
  maps : Bool
  unmaps : Bool
  unlinks : Bool

/-- `fds[file_index]` and `buffers[file_index]`; `none` are -1 and NULL. -/
structure Slot where
  fd : Option Nat
  buffer : Option Nat

def filename (fileIndex : Nat) : Text := "file_".toList ++ (decimal fileIndex ++ ".dat".toList)

def createFile (m : Machine) (fileIndex : Nat) (o : Outcome) : Machine × Slot :=
  if o.opens then
    let fd := lowestUnused m.descriptors
    let m := { m with
      descriptors := insert fd m.descriptors
      files := insert (filename fileIndex) m.files }
    if o.truncates then
      if o.maps then
        -- `mmap` may take any unused address; the proofs only use that it is unused.
        let buffer := lowestUnused m.mappings
        ({ m with mappings := insert buffer m.mappings }, ⟨some fd, some buffer⟩)
      else (m.close fd, ⟨none, none⟩)
    else (m.close fd, ⟨none, none⟩)
  else (m, ⟨none, none⟩)

def removeFile (m : Machine) (fileIndex : Nat) (slot : Slot) (o : Outcome) : Machine :=
  let m := match slot.buffer with
    | some buffer => m.munmap buffer o.unmaps
    | none => m
  match slot.fd with
  | some fd =>
    let m := m.close fd
    if o.unlinks then { m with files := m.files.erase (filename fileIndex) } else m
  | none => m

abbrev Burst := Nat → Outcome

/-- The first loop, up to a number of files. -/
def createFiles (m : Machine) (burst : Burst) : Nat → Machine × List Slot
  | 0 => (m, [])
  | n + 1 =>
    let (m, slots) := createFiles m burst n
    let (m, slot) := createFile m n (burst n)
    (m, slots ++ [slot])

/-- The second loop, from a file on. -/
def removeFiles (burst : Burst) : Nat → List Slot → Machine → Machine
  | _, [], m => m
  | fileIndex, slot :: slots, m =>
    removeFiles burst (fileIndex + 1) slots (removeFile m fileIndex slot (burst fileIndex))

def generateFiles (m : Machine) (burst : Burst) : Machine :=
  let (m, slots) := createFiles m burst filesPerIteration
  removeFiles burst 0 slots m

/-- All three calls of the set-up succeed. -/
def Outcome.completes (o : Outcome) : Bool := o.opens && o.truncates && o.maps

/-- The file is there after a burst that opened it. -/
def Outcome.leaves (o : Outcome) : Bool := !(o.completes && o.unlinks)

/-- The mapping stays, although nothing refers to it any more. -/
def Outcome.leaks (o : Outcome) : Bool := o.completes && !o.unmaps

theorem filename_injective : Function.Injective filename := by
  intro i j h
  have hNumber := List.append_cancel_right (List.append_cancel_left h)
  have hInt := congrArg int? hNumber
  rw [int?_decimal, int?_decimal] at hInt
  exact Int.ofNat.inj (Option.some.inj hInt)

/-- A slot of a file that was set up. -/
def Slot.Fits (slot : Slot) (o : Outcome) : Prop :=
  slot.fd.isSome = o.completes ∧ slot.buffer.isSome = o.completes

/-- What has been acquired since the start of a burst. -/
structure Acquired (start m : Machine) (burst : Burst) (slots : List Slot) : Prop where
  descriptors : Owns start.descriptors m.descriptors (slots.filterMap Slot.fd)
  mappings : Owns start.mappings m.mappings (slots.filterMap Slot.buffer)
  files : ∀ name, name ∈ m.files ↔
    name ∈ start.files ∨ ∃ i < slots.length, (burst i).opens = true ∧ name = filename i
  misuses : m.misuses = start.misuses
  fits : ∀ (i : Nat) (slot : Slot), slots[i]? = some slot → slot.Fits (burst i)

section Steps

variable {start m : Machine} {burst : Burst} {slots : List Slot}

theorem close_insert (m : Machine) {fd : Nat} (hFresh : fd ∉ m.descriptors) (files : Finset Text) :
    Machine.close { m with descriptors := insert fd m.descriptors, files := files } fd =
      { m with files := files } := by
  rw [Machine.close, if_pos (Finset.mem_insert_self _ _)]
  dsimp only
  rw [Finset.erase_insert hFresh]

theorem createFile_cases (m : Machine) (i : Nat) (o : Outcome) :
    (o.completes = true ∧ ∃ fd ∉ m.descriptors, ∃ buffer ∉ m.mappings,
      createFile m i o =
        ({ m with
            descriptors := insert fd m.descriptors
            mappings := insert buffer m.mappings
            files := insert (filename i) m.files }, ⟨some fd, some buffer⟩)) ∨
    (o.completes = false ∧ createFile m i o =
      ({ m with files := if o.opens then insert (filename i) m.files else m.files },
        ⟨none, none⟩)) := by
  have hFd := lowestUnused_not_mem m.descriptors
  have hBuffer := lowestUnused_not_mem m.mappings
  obtain ⟨opens, truncates, maps, _, _⟩ := o
  cases opens with
  | false => exact Or.inr ⟨rfl, rfl⟩
  | true =>
    cases truncates with
    | false =>
      refine Or.inr ⟨rfl, ?_⟩
      simp only [createFile, if_true, Bool.false_eq_true, if_false, close_insert m hFd]
    | true =>
      cases maps with
      | false =>
        refine Or.inr ⟨rfl, ?_⟩
        simp only [createFile, if_true, Bool.false_eq_true, if_false, close_insert m hFd]
      | true => exact Or.inl ⟨rfl, _, hFd, _, hBuffer, rfl⟩

theorem fits_concat {slot : Slot}
    (h : ∀ (i : Nat) (slot : Slot), slots[i]? = some slot → slot.Fits (burst i))
    (hLast : slot.Fits (burst slots.length)) :
    ∀ (i : Nat) (other : Slot), (slots ++ [slot])[i]? = some other → other.Fits (burst i) := by
  intro i other hOther
  obtain hLt | rfl | hGt := Nat.lt_trichotomy i slots.length
  · rw [List.getElem?_append_left hLt] at hOther
    exact h i other hOther
  · rw [List.getElem?_concat_length] at hOther
    obtain rfl := Option.some.inj hOther
    exact hLast
  · rw [List.getElem?_eq_none (by rw [List.length_append, List.length_singleton]; omega)] at hOther
    cases hOther

theorem files_concat {files files' : Finset Text} {slot : Slot}
    (h : ∀ name, name ∈ files ↔
      name ∈ start.files ∨ ∃ i < slots.length, (burst i).opens = true ∧ name = filename i)
    (hFiles : ∀ name, name ∈ files' ↔
      name ∈ files ∨ ((burst slots.length).opens = true ∧ name = filename slots.length)) :
    ∀ name, name ∈ files' ↔
      name ∈ start.files ∨
        ∃ i < (slots ++ [slot]).length, (burst i).opens = true ∧ name = filename i := by
  intro name
  rw [hFiles, h, or_assoc, List.length_append, List.length_singleton]
  refine or_congr_right ⟨?_, ?_⟩
  · rintro (⟨i, hi, hOpens⟩ | hOpens)
    · exact ⟨i, by omega, hOpens⟩
    · exact ⟨slots.length, by omega, hOpens⟩
  · rintro ⟨i, hi, hOpens⟩
    obtain hLt | rfl := Nat.lt_succ_iff_lt_or_eq.mp hi
    · exact Or.inl ⟨i, hLt, hOpens⟩
    · exact Or.inr hOpens

theorem Acquired.createFile (h : Acquired start m burst slots) :
    Acquired start (createFile m slots.length (burst slots.length)).1 burst
      (slots ++ [(createFile m slots.length (burst slots.length)).2]) := by
  obtain ⟨hCompletes, fd, hFd, buffer, hBuffer, hCreate⟩ | ⟨hFails, hCreate⟩ :=
    createFile_cases m slots.length (burst slots.length)
  · have hOpens : (burst slots.length).opens = true := by
      simp only [Outcome.completes, Bool.and_eq_true] at hCompletes
      exact hCompletes.1.1
    rw [hCreate]
    refine ⟨?_, ?_, files_concat h.files ?_, h.misuses, fits_concat h.fits ?_⟩
    · rw [List.filterMap_append]
      exact h.descriptors.acquire hFd
    · rw [List.filterMap_append]
      exact h.mappings.acquire hBuffer
    · intro name
      simp [hOpens, or_comm]
    · rw [Slot.Fits, hCompletes]
      exact ⟨rfl, rfl⟩
  · rw [hCreate]
    refine ⟨?_, ?_, files_concat h.files ?_, h.misuses, fits_concat h.fits ?_⟩
    · rw [List.filterMap_append]
      exact (List.append_nil _).symm ▸ h.descriptors
    · rw [List.filterMap_append]
      exact (List.append_nil _).symm ▸ h.mappings
    · intro name
      cases (burst slots.length).opens <;> simp [or_comm]
    · rw [Slot.Fits, hFails]
      exact ⟨rfl, rfl⟩

theorem acquired_createFiles (m : Machine) (burst : Burst) (n : Nat) :
    (createFiles m burst n).2.length = n ∧
    Acquired m (createFiles m burst n).1 burst (createFiles m burst n).2 := by
  induction n with
  | zero =>
    refine ⟨rfl, owns_nil _, owns_nil _, ?_, rfl, ?_⟩
    · simp [createFiles]
    · simp [createFiles]
  | succ n ih =>
    obtain ⟨hLength, hAcquired⟩ := ih
    have hStep := hAcquired.createFile
    rw [hLength] at hStep
    refine ⟨?_, hStep⟩
    rw [createFiles, List.length_append, hLength]
    rfl

theorem removeFile_completes (i : Nat) {fd buffer : Nat} {o : Outcome}
    (hFd : fd ∈ m.descriptors) (hBuffer : buffer ∈ m.mappings) :
    removeFile m i ⟨some fd, some buffer⟩ o =
      { m with
        descriptors := m.descriptors.erase fd
        mappings := if o.unmaps then m.mappings.erase buffer else m.mappings
        files := if o.unlinks then m.files.erase (filename i) else m.files } := by
  obtain ⟨_, _, _, unmaps, unlinks⟩ := o
  cases unmaps <;> cases unlinks <;>
    simp [removeFile, Machine.munmap, Machine.close, hFd, hBuffer]

/-- One of these slots, the first of which is that of file `i`, has the buffer, and it could not be
unmapped. -/
def KeepsMapped (burst : Burst) (i : Nat) (slots : List Slot) (buffer : Nat) : Prop :=
  ∃ j slot, slots[j]? = some slot ∧ slot.buffer = some buffer ∧ (burst (i + j)).unmaps = false

/-- What the files from number `i` on leave behind, when the second loop has gone through their
slots. -/
structure Released (base maps : Finset Nat) (m t : Machine) (burst : Burst) (i : Nat)
    (slots : List Slot) : Prop where
  descriptors : t.descriptors = base
  mappings : ∀ buffer, buffer ∈ t.mappings ↔ buffer ∈ maps ∨ KeepsMapped burst i slots buffer
  leaked : t.mappings.card =
    maps.card + (List.range' i slots.length).countP (fun j => (burst j).leaks)
  misuses : t.misuses = m.misuses
  files : ∀ name, name ∈ t.files ↔ name ∈ m.files ∧
    ¬∃ j, i ≤ j ∧ j < i + slots.length ∧ (burst j).leaves = false ∧ name = filename j

theorem countP_range' (p : Nat → Bool) (i count : Nat) :
    (List.range' i (count + 1)).countP p =
      (if p i then 1 else 0) + (List.range' (i + 1) count).countP p := by
  rw [List.range'_succ, List.countP_cons]
  omega

theorem exists_from_iff {P : Nat → Prop} (i count : Nat) :
    (∃ j, i ≤ j ∧ j < i + (count + 1) ∧ P j) ↔
      P i ∨ ∃ j, i + 1 ≤ j ∧ j < i + 1 + count ∧ P j := by
  constructor
  · rintro ⟨j, hLow, hHigh, hP⟩
    obtain rfl | hNext := Nat.eq_or_lt_of_le hLow
    · exact Or.inl hP
    · exact Or.inr ⟨j, hNext, by omega, hP⟩
  · rintro (hP | ⟨j, hLow, hHigh, hP⟩)
    · exact ⟨i, le_rfl, by omega, hP⟩
    · exact ⟨j, by omega, by omega, hP⟩

theorem keepsMapped_cons (burst : Burst) (i : Nat) (slot : Slot) (slots : List Slot)
    (buffer : Nat) :
    KeepsMapped burst i (slot :: slots) buffer ↔
      (slot.buffer = some buffer ∧ (burst i).unmaps = false) ∨
        KeepsMapped burst (i + 1) slots buffer := by
  have hShift : ∀ j, i + 1 + j = i + (j + 1) := by
    intro j
    omega
  constructor
  · rintro ⟨j, other, hOther, hBuffer, hUnmaps⟩
    cases j with
    | zero =>
      obtain rfl := Option.some.inj hOther
      exact Or.inl ⟨hBuffer, hUnmaps⟩
    | succ j => exact Or.inr ⟨j, other, hOther, hBuffer, (hShift j).symm ▸ hUnmaps⟩
  · rintro (⟨hBuffer, hUnmaps⟩ | ⟨j, other, hOther, hBuffer, hUnmaps⟩)
    · exact ⟨0, slot, rfl, hBuffer, hUnmaps⟩
    · exact ⟨j + 1, other, hOther, hBuffer, hShift j ▸ hUnmaps⟩

theorem Released.cons {base maps maps' : Finset Nat} {m' t : Machine} {i : Nat} {slot : Slot}
    (h : Released base maps' m' t burst (i + 1) slots)
    (hMaps : ∀ buffer, buffer ∈ maps' ↔
      buffer ∈ maps ∨ (slot.buffer = some buffer ∧ (burst i).unmaps = false))
    (hCard : maps'.card = maps.card + if (burst i).leaks then 1 else 0)
    (hMisuses : m'.misuses = m.misuses)
    (hFiles : ∀ name, name ∈ m'.files ↔
      name ∈ m.files ∧ ¬((burst i).leaves = false ∧ name = filename i)) :
    Released base maps m t burst i (slot :: slots) where
  descriptors := h.descriptors
  mappings buffer := by
    rw [h.mappings, hMaps, or_assoc, keepsMapped_cons]
  leaked := by
    rw [h.leaked, hCard, List.length_cons, countP_range', Nat.add_assoc]
  misuses := h.misuses.trans hMisuses
  files name := by
    rw [h.files, hFiles, and_assoc, List.length_cons, exists_from_iff i slots.length, not_or]

/-- A pass of the second loop gives back what the slot holds. A mapping that cannot be removed
counts as one of the others from then on. -/
theorem removeFile_step {base maps : Finset Nat} {i : Nat} {slot : Slot}
    (hFit : slot.Fits (burst i))
    (hDescriptors : Owns base m.descriptors ((slot :: slots).filterMap Slot.fd))
    (hMappings : Owns maps m.mappings ((slot :: slots).filterMap Slot.buffer)) :
    let m' := removeFile m i slot (burst i)
    Owns base m'.descriptors (slots.filterMap Slot.fd) ∧ m'.misuses = m.misuses ∧
    (∀ name, name ∈ m'.files ↔
      name ∈ m.files ∧ ¬((burst i).leaves = false ∧ name = filename i)) ∧
    ∃ maps', Owns maps' m'.mappings (slots.filterMap Slot.buffer) ∧
      (∀ buffer, buffer ∈ maps' ↔
        buffer ∈ maps ∨ (slot.buffer = some buffer ∧ (burst i).unmaps = false)) ∧
      maps'.card = maps.card + if (burst i).leaks then 1 else 0 := by
  obtain ⟨fd, buffer⟩ := slot
  obtain ⟨hFd, hBuffer⟩ := hFit
  cases hCompletes : (burst i).completes with
  | false =>
    rw [hCompletes, Option.isSome_eq_false_iff, Option.isNone_iff_eq_none] at hFd hBuffer
    obtain rfl := hFd
    obtain rfl := hBuffer
    refine ⟨hDescriptors, rfl, ?_, maps, hMappings, ?_, ?_⟩
    · intro name
      simp [removeFile, Outcome.leaves, hCompletes]
    · intro buffer
      exact (or_iff_left (fun hNone => nomatch hNone.1)).symm
    · simp [Outcome.leaks, hCompletes]
  | true =>
    rw [hCompletes, Option.isSome_iff_exists] at hFd hBuffer
    obtain ⟨fd, rfl⟩ := hFd
    obtain ⟨buffer, rfl⟩ := hBuffer
    rw [removeFile_completes i hDescriptors.mem hMappings.mem]
    refine ⟨hDescriptors.release, rfl, ?_, ?_⟩
    · intro name
      cases hUnlinks : (burst i).unlinks <;>
        simp [Outcome.leaves, hCompletes, hUnlinks, and_comm]
    · cases hUnmaps : (burst i).unmaps with
      | true =>
        refine ⟨maps, hMappings.release, ?_, ?_⟩
        · intro other
          exact (or_iff_left (fun hKept => nomatch hKept.2)).symm
        · simp [Outcome.leaks, hUnmaps]
      | false =>
        obtain ⟨hFresh, hLeaked⟩ := hMappings.leak
        refine ⟨insert buffer maps, hLeaked, ?_, ?_⟩
        · intro other
          rw [Finset.mem_insert, or_comm, and_iff_left rfl, Option.some.injEq, eq_comm]
        · simp [Outcome.leaks, hCompletes, hUnmaps, hFresh]

theorem released_removeFiles {base maps : Finset Nat} {i : Nat}
    (hDescriptors : Owns base m.descriptors (slots.filterMap Slot.fd))
    (hMappings : Owns maps m.mappings (slots.filterMap Slot.buffer))
    (hFits : ∀ (j : Nat) (slot : Slot), slots[j]? = some slot → slot.Fits (burst (i + j))) :
    Released base maps m (removeFiles burst i slots m) burst i slots := by
  induction slots generalizing m maps i with
  | nil =>
    refine ⟨hDescriptors.eq, ?_, ?_, rfl, ?_⟩
    · intro buffer
      rw [removeFiles, hMappings.eq, or_iff_left]
      rintro ⟨j, slot, hNone, _⟩
      cases hNone
    · rw [removeFiles, hMappings.eq]
      rfl
    · intro name
      rw [removeFiles, and_iff_left]
      rintro ⟨j, hLow, hHigh, _⟩
      rw [List.length_nil] at hHigh
      omega
  | cons slot slots ih =>
    have hRest : ∀ (j : Nat) (slot : Slot), slots[j]? = some slot →
        slot.Fits (burst (i + 1 + j)) := by
      intro j other hOther
      have hNext := hFits (j + 1) other hOther
      rwa [← Nat.add_assoc, Nat.add_right_comm] at hNext
    obtain ⟨hDescriptors', hMisuses, hFiles, maps', hMappings', hKept, hCard⟩ :=
      removeFile_step (hFits 0 slot rfl) hDescriptors hMappings
    rw [removeFiles]
    exact (ih hDescriptors' hMappings' hRest).cons hKept hCard hMisuses hFiles

end Steps

/-- After a burst: every descriptor is back, the mappings that could not be removed are left, and
of the files of the burst those are there that it opened without deleting them. -/
theorem released_generateFiles (m : Machine) (burst : Burst) :
    Released m.descriptors m.mappings (createFiles m burst filesPerIteration).1
      (generateFiles m burst) burst 0 (createFiles m burst filesPerIteration).2 := by
  obtain ⟨_, hAcquired⟩ := acquired_createFiles m burst filesPerIteration
  exact released_removeFiles hAcquired.descriptors hAcquired.mappings
    (fun j slot hSlot => by rw [Nat.zero_add]; exact hAcquired.fits j slot hSlot)

/-- What a burst does to a file of its own: leaves it or not, where it opens it at all. -/
def fileLeft (i : Nat) (burst : Burst) : Option Bool :=
  if (burst i).opens then some (burst i).leaves else none

theorem leaves_of_not_opens {o : Outcome} (h : o.opens = false) : o.leaves = true := by
  simp [Outcome.leaves, Outcome.completes, h]

theorem mem_files_generateFiles (m : Machine) (burst : Burst) {i : Nat}
    (hi : i < filesPerIteration) :
    filename i ∈ (generateFiles m burst).files ↔
      (fileLeft i burst).getD (decide (filename i ∈ m.files)) = true := by
  obtain ⟨hLength, hAcquired⟩ := acquired_createFiles m burst filesPerIteration
  have hOwn : ∀ {P : Nat → Prop}, (∃ j, P j ∧ filename i = filename j) ↔ P i := by
    intro P
    constructor
    · rintro ⟨j, hP, hName⟩
      rwa [filename_injective hName]
    · exact fun hP => ⟨i, hP, rfl⟩
  have hOpened : (∃ j < filesPerIteration, (burst j).opens = true ∧ filename i = filename j) ↔
      (burst i).opens = true := by
    simp only [← and_assoc, hOwn, hi, true_and]
  have hDeleted : (∃ j, 0 ≤ j ∧ j < 0 + filesPerIteration ∧ (burst j).leaves = false ∧
      filename i = filename j) ↔ (burst i).leaves = false := by
    simp only [← and_assoc, hOwn, hi, Nat.zero_le, Nat.zero_add, true_and]
  rw [(released_generateFiles m burst).files, hAcquired.files, hLength, hOpened, hDeleted, fileLeft]
  cases hOpens : (burst i).opens with
  | true => simp
  | false => simp [leaves_of_not_opens hOpens]

theorem mem_files_other (m : Machine) (burst : Burst) {name : Text}
    (hOther : ∀ i < filesPerIteration, name ≠ filename i) :
    name ∈ (generateFiles m burst).files ↔ name ∈ m.files := by
  obtain ⟨hLength, hAcquired⟩ := acquired_createFiles m burst filesPerIteration
  rw [(released_generateFiles m burst).files, hAcquired.files, hLength]
  constructor
  · rintro ⟨hMem | ⟨i, hi, _, hName⟩, _⟩
    · exact hMem
    · exact absurd hName (hOther i hi)
  · refine fun hMem => ⟨Or.inl hMem, ?_⟩
    rintro ⟨j, _, hj, _, hName⟩
    exact hOther j (by omega) hName

def leaks (burst : Burst) : Nat :=
  (List.range' 0 filesPerIteration).countP (fun i => (burst i).leaks)

/-- In a burst that starts with `m` a file was mapped at `buffer` and could not be unmapped. -/
def StaysMapped (m : Machine) (burst : Burst) (buffer : Nat) : Prop :=
  KeepsMapped burst 0 (createFiles m burst filesPerIteration).2 buffer

/-- After any number of bursts, whatever fails in them: the descriptors are those from before, no
descriptor or mapping was given back twice, the mappings are those from before and those whose
removal failed, and a file is there as the last burst that opened it has left it. -/
theorem bursts_released (m : Machine) (bursts : List Burst) :
    let t := bursts.foldl generateFiles m
    t.descriptors = m.descriptors ∧ t.misuses = m.misuses ∧
    (∀ buffer, buffer ∈ t.mappings ↔
      buffer ∈ m.mappings ∨ ∃ x ∈ trace generateFiles m bursts, StaysMapped x.1 x.2 buffer) ∧
    t.mappings.card = m.mappings.card + (bursts.map leaks).sum ∧
    (∀ i < filesPerIteration, filename i ∈ t.files ↔
      (bursts.filterMap (fileLeft i)).getLast?.getD (decide (filename i ∈ m.files)) = true) ∧
    ∀ name, (∀ i < filesPerIteration, name ≠ filename i) → (name ∈ t.files ↔ name ∈ m.files) := by
  induction bursts using List.reverseRecOn with
  | nil => simp [trace]
  | append_singleton bursts burst ih =>
    obtain ⟨hDescriptors, hMisuses, hMappings, hLeaked, hFiles, hOthers⟩ := ih
    intro t
    have hStep : t = generateFiles (bursts.foldl generateFiles m) burst := List.foldl_concat ..
    rw [trace_concat]
    generalize bursts.foldl generateFiles m = s at *
    have hReleased := released_generateFiles s burst
    obtain ⟨hLength, hAcquired⟩ := acquired_createFiles s burst filesPerIteration
    rw [hStep]
    refine ⟨hReleased.descriptors.trans hDescriptors,
      (hReleased.misuses.trans hAcquired.misuses).trans hMisuses, ?_, ?_, ?_, ?_⟩
    · intro buffer
      rw [hReleased.mappings, hMappings, or_assoc]
      simp only [List.mem_append, List.mem_singleton, or_and_right, exists_or, exists_eq_left]
      rfl
    · rw [hReleased.leaked, hLeaked, hLength, List.map_append, List.sum_append, Nat.add_assoc]
      rfl
    · intro i hi
      rw [mem_files_generateFiles s burst hi, List.filterMap_append]
      cases hLeft : fileLeft i burst with
      | some left => simp [hLeft]
      | none => simp [hLeft, hFiles i hi]
    · intro name hOther
      rw [mem_files_other s burst hOther, hOthers name hOther]

end Ebacs.Benchmark
