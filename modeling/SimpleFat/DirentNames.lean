import SimpleFat.DirentBytes

/-!
# Names of directory entries

A name field holds a name of at most 11 bytes, padded by NUL.  The names of the VFS have no NUL, so
what is stored of one is its first 11 bytes, and two name fields match as far as these agree.

* `cString_padName` — the field that `sfat_create_file` and `sfat_lookup` build;
* `cString_formDirEntry` — the field that is stored;
* `strLen_eq` — the length that `sfat_readdir` reports.
-/

namespace SimpleFat

open SimpleFat.Lib

def NoNul (n : List UInt8) : Prop := ∀ b ∈ n, b ≠ 0

instance (n : List UInt8) : Decidable (NoNul n) := inferInstanceAs (Decidable (∀ b ∈ n, b ≠ 0))

section Names

variable {n : List UInt8} {name : Vector UInt8 11}

/-- A short list, padded by NUL. -/
theorem ofFn_getD {k : ℕ} (hlen : n.length ≤ k) :
    (List.ofFn fun i : Fin k => n.getD i 0) = n ++ List.replicate (k - n.length) 0 := by
  apply List.ext_getElem
  · rw [List.length_ofFn, List.length_append, List.length_replicate]
    omega
  · intro i hi hi'
    rw [List.getElem_ofFn, List.getElem_append]
    show n.getD i 0 = _
    split
    · rename_i hin
      rw [List.getD_eq_getElem _ _ hin]
    · rename_i hin
      rw [List.getD_eq_default _ _ (by omega), List.getElem_replicate]

/-- The name in a field that was padded by NUL. -/
theorem cString_pad (hlen : n.length ≤ 11) (hnul : NoNul n) :
    cString (Vector.ofFn fun i : Fin 11 => n.getD i 0) = n := by
  rw [cString, Vector.toList_ofFn, ofFn_getD hlen]
  have hall : n.takeWhile (· != 0) = n :=
    List.takeWhile_eq_self_iff.mpr fun b hb => by simpa using hnul b hb
  rw [List.takeWhile_append, hall, if_pos rfl]
  cases 11 - n.length with
  | zero => simp
  | succ k => simp [List.replicate_succ]

theorem cString_length_le (name : Vector UInt8 11) : (cString name).length ≤ 11 := by
  have hlen : (cString name).length ≤ name.toList.length :=
    (List.takeWhile_prefix _).length_le
  rwa [Vector.length_toList] at hlen

theorem cString_noNul (name : Vector UInt8 11) : NoNul (cString name) := by
  intro b hb
  simpa using List.mem_takeWhile_imp hb

/-- **What is stored of a name are its first 11 bytes.** -/
theorem cString_padName (hnul : NoNul n) : cString (padName n) = n.take 11 := by
  have hsame : padName n = Vector.ofFn fun i : Fin 11 => (n.take 11).getD i 0 := by
    rw [padName]
    congr 1
    funext i
    rw [List.getD_eq_getElem?_getD, List.getD_eq_getElem?_getD,
      List.getElem?_take_of_lt i.isLt]
  rw [hsame, cString_pad (List.length_take_le _ _) fun b hb => hnul b (List.mem_of_mem_take hb)]

/-- A new entry has the name it is formed with. -/
theorem cString_formDirEntry (isdir : Bool) (startCls size tvSec : ℕ) :
    cString (sfatFormDirEntry isdir name startCls size tvSec).name = cString name :=
  cString_pad (cString_length_le name) (cString_noNul name)

/-- `str_len` counts up to the first NUL. -/
theorem strLen_count (str : ℕ → UInt8) (max count : ℕ) : strLen str max count =
    count + ((List.ofFn fun i : Fin max => str (count + i)).takeWhile (· != 0)).length := by
  induction max generalizing count with
  | zero => rfl
  | succ max ih =>
    have hrest : (fun i : Fin max => str (count + (i.succ : ℕ))) =
        fun i : Fin max => str (count + 1 + i) := by
      funext i
      rw [Fin.val_succ, Nat.add_assoc, Nat.add_comm 1]
    rw [strLen, List.ofFn_succ, hrest]
    by_cases h : str count = 0
    · rw [if_pos h]
      simp [h]
    · rw [if_neg h, ih]
      simp [h]
      omega

/-- **The length that is reported with a name is that of the name.** -/
theorem strLen_eq (data : Page) (offset : ℕ) :
    strLen (fun i => data (offset + i)) 11 0 = (cString (direntAt data offset).name).length := by
  rw [strLen_count, Nat.zero_add, cString, direntAt, Vector.toList_ofFn]
  simp only [Nat.zero_add]

end Names

end SimpleFat
