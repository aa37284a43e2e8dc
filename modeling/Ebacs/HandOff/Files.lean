import Mathlib.Algebra.Ring.Nat
import Mathlib.Data.List.AList
import Mathlib.Data.List.Sort
import Ebacs.Lib.Text

/-! # Names of the snapshot files

The writer makes a name from its counter in a buffer of 30 bytes; a reader
lists the directory in any order, keeps the names that start with `time_` and
sorts them by the number behind the last underscore.
-/
namespace Ebacs.HandOff
open Lib
set_option autoImplicit false

abbrev Directory := AList (fun _ : Text => Text)

/-- `none` is the exit of a result buffer that is too small. -/
def concatenateStringAndInteger (str : Text) (num : Int32) (resultSize : Nat) : Option Text :=
  -- `snprintf` cuts at the end of its buffer, of 20 bytes here and of `resultSize` below
  let numStr := (decimal num.toInt).take 19
  if str.length + numStr.length + 1 > resultSize then none
  else some ((str ++ numStr).take (resultSize - 1))

def path : Text := "./lru_metrics/time_".toList

def lruMetrics : Text := "./lru_metrics".toList

def osPathJoin (directory name : Text) : Text :=
  if name.head? = some '/' then name
  else if directory = [] ∨ directory.getLast? = some '/' then directory ++ name
  else directory ++ '/' :: name

/-- The name within the directory that a path made of it leads to. -/
def resolve (directory file : Text) : Option Text := file.dropPrefix? (osPathJoin directory [])

def time : Text := "time_".toList

def isLog (f : Text) : Bool := time.isPrefixOf f

def numericSuffix (x : Text) : Option Int := (x.splitOn '_').getLast?.bind int?

def KeyLe (a b : Int × Text) : Prop := a.1 ≤ b.1

instance : DecidableRel KeyLe := fun a b => inferInstanceAs (Decidable (a.1 ≤ b.1))

instance : Std.Total KeyLe := ⟨fun a b => Int.le_total a.1 b.1⟩

instance : IsTrans (Int × Text) KeyLe := ⟨fun _ _ _ => Int.le_trans⟩

/-- `get_log_files`, and the same two lines of `tel_wsf.py`; `none` is a ValueError. -/
def getLogFiles (listdir : List Text) : Option (List Text) := do
  let files := listdir.filter isLog
  let keyed ← files.mapM (fun x => (numericSuffix x).map (fun key => (key, x)))
  return (keyed.insertionSort KeyLe).map Prod.snd

def secondToLast (logFiles : List Text) : Option Text :=
  if logFiles.length < 2 then none else logFiles[logFiles.length - 2]?

def fileName (n : Nat) : Text := time ++ Nat.toDigits 10 n

def filePath (directory : Text) (n : Nat) : Text := osPathJoin directory (fileName n)

theorem concatenate_path {n : Nat} (h : n < 2 ^ 31) :
    concatenateStringAndInteger path (Int32.ofNat n) 30 = some (path ++ Nat.toDigits 10 n) := by
  have hLength : (Nat.toDigits 10 n).length ≤ 10 :=
    (Nat.length_toDigits_le_iff (by decide) (by decide)).mpr (by omega)
  have hPath : path.length = 19 := by decide
  have hTake : (decimal (Int32.ofNat n).toInt).take 19 = Nat.toDigits 10 n := by
    rw [Int32.toInt_ofNat_of_lt h]
    exact List.take_of_length_le (by change (Nat.toDigits 10 n).length ≤ 19; omega)
  rw [concatenateStringAndInteger, hTake, if_neg (by omega), List.take_of_length_le]
  rw [List.length_append]
  omega

theorem osPathJoin_fileName (directory : Text) (n : Nat) :
    osPathJoin directory (fileName n) = osPathJoin directory [] ++ fileName n := by
  have hHead : (fileName n).head? ≠ some '/' := by
    change some 't' ≠ some '/'
    decide
  have hNil : ([] : Text).head? ≠ some '/' := by decide
  rw [osPathJoin, osPathJoin, if_neg hHead, if_neg hNil]
  split
  · rw [List.append_nil]
  · rw [List.append_assoc]
    rfl

theorem resolve_filePath (directory : Text) (n : Nat) :
    resolve directory (filePath directory n) = some (fileName n) := by
  rw [resolve, filePath, osPathJoin_fileName]
  exact List.dropPrefix?_append_of_beq _ (beq_self_eq_true _)

theorem filePath_lruMetrics (n : Nat) : filePath lruMetrics n = path ++ Nat.toDigits 10 n := by
  rw [filePath, osPathJoin_fileName, fileName, ← List.append_assoc]
  rfl

theorem isLog_fileName (n : Nat) : isLog (fileName n) = true :=
  List.isPrefixOf_iff_prefix.mpr (List.prefix_append _ _)

theorem numericSuffix_fileName (n : Nat) : numericSuffix (fileName n) = some (n : Int) := by
  have hTime : fileName n = "time".toList ++ '_' :: Nat.toDigits 10 n := rfl
  have hSplit : (fileName n).splitOn '_' = ["time".toList, Nat.toDigits 10 n] := by
    have hSingle : ∀ t : Text, '_' ∉ t → t.splitOnP (· == '_') = [t] := by
      intro t ht
      apply List.splitOnP_eq_singleton
      intro c hc
      rw [beq_eq_false_iff_ne]
      exact fun hEq => ht (hEq ▸ hc)
    rw [hTime, List.splitOn, List.splitOnP_append_cons _ _ (by decide), hSingle _ (by decide),
      hSingle _ Nat.underscore_not_in_toDigits]
    rfl
  rw [numericSuffix, hSplit]
  exact int?_decimal n

theorem fileName_injective : Function.Injective fileName := by
  intro a b h
  have hSuffix := congrArg numericSuffix h
  rw [numericSuffix_fileName, numericSuffix_fileName] at hSuffix
  exact Int.ofNat.inj (Option.some.inj hSuffix)

theorem mapM_eq_some {α β : Type} {f : α → Option β} {g : α → β} (l : List α)
    (h : ∀ a ∈ l, f a = some (g a)) : l.mapM f = some (l.map g) := by
  induction l with
  | nil => rfl
  | cons a l ih =>
    rw [List.mapM_cons, h a List.mem_cons_self, ih (fun b hb => h b (List.mem_cons_of_mem _ hb))]
    rfl

def keyed (n : Nat) : Int × Text := (n, fileName n)

theorem insertionSort_keyed {n : Nat} {l : List (Int × Text)}
    (hPerm : l.Perm ((List.range n).map keyed)) :
    l.insertionSort KeyLe = (List.range n).map keyed := by
  have hSorted : ((List.range n).map keyed).Pairwise KeyLe := by
    rw [List.pairwise_map]
    apply List.pairwise_lt_range.imp
    intro a b hLt
    exact Int.ofNat_le.mpr hLt.le
  have hSort := List.perm_insertionSort KeyLe l
  refine List.Perm.eq_of_pairwise ?_ (List.pairwise_insertionSort KeyLe l) hSorted
    (hSort.trans hPerm)
  intro a b ha hb hab hba
  obtain ⟨i, _, rfl⟩ := List.mem_map.mp ((hSort.trans hPerm).subset ha)
  obtain ⟨j, _, rfl⟩ := List.mem_map.mp hb
  have hEq : i = j := Int.ofNat.inj (Int.le_antisymm hab hba)
  rw [hEq]

/-- The numeric sort puts any listing of the first `n` files in the order of writing. -/
theorem getLogFiles_eq {n : Nat} {listdir : List Text} (hNodup : listdir.Nodup)
    (hLogs : ∀ f, isLog f = true → (f ∈ listdir ↔ ∃ k < n, f = fileName k)) :
    getLogFiles listdir = some ((List.range n).map fileName) := by
  have hPerm : (listdir.filter isLog).Perm ((List.range n).map fileName) := by
    rw [List.perm_ext_iff_of_nodup (hNodup.filter _) (List.nodup_range.map fileName_injective)]
    intro f
    rw [List.mem_filter, List.mem_map]
    constructor
    · rintro ⟨hf, hLog⟩
      obtain ⟨k, hk, rfl⟩ := (hLogs f hLog).mp hf
      exact ⟨k, List.mem_range.mpr hk, rfl⟩
    · rintro ⟨k, hk, rfl⟩
      have hLog := isLog_fileName k
      exact ⟨(hLogs _ hLog).mpr ⟨k, List.mem_range.mp hk, rfl⟩, hLog⟩
  let key : Text → Int := fun f => (numericSuffix f).getD 0
  have hKeyed : (listdir.filter isLog).mapM (fun x => (numericSuffix x).map (fun k => (k, x))) =
      some ((listdir.filter isLog).map (fun x => (key x, x))) := by
    apply mapM_eq_some
    intro f hf
    obtain ⟨k, _, rfl⟩ := List.mem_map.mp (hPerm.subset hf)
    simp only [key, numericSuffix_fileName, Option.map_some, Option.getD_some]
  have hPairs : ((listdir.filter isLog).map (fun x => (key x, x))).Perm
      ((List.range n).map keyed) := by
    have hMap : ((List.range n).map fileName).map (fun x => (key x, x)) =
        (List.range n).map keyed := by
      rw [List.map_map]
      apply List.map_congr_left
      intro k _
      simp only [Function.comp_apply, key, numericSuffix_fileName, Option.getD_some, keyed]
    rw [← hMap]
    exact hPerm.map _
  rw [getLogFiles, hKeyed]
  change some ((List.insertionSort KeyLe _).map Prod.snd) = _
  rw [insertionSort_keyed hPairs, List.map_map]
  rfl

theorem secondToLast_range (n : Nat) :
    secondToLast ((List.range n).map fileName) = if n < 2 then none else some (fileName (n - 2)) := by
  rw [secondToLast, List.length_map, List.length_range]
  split
  · rfl
  · rw [List.getElem?_map, List.getElem?_range (by omega)]
    rfl

end Ebacs.HandOff
