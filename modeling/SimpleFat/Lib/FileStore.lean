import Mathlib.Data.List.Nodup
import SimpleFat.Lib.BytePatch

/-!
# Stores of files

Files under distinct names, each with its content, in the order in which they were made.  Nothing is
removed.

* `splice` — a content with new bytes from a position on, `firstBytes` — a content of a length;
* `FileStore`, with `FileStore.create` and `FileStore.write`;
* `FileStore.mem_write`, `FileStore.mem_create` — what files there are then.
-/

namespace SimpleFat.Lib

variable {κ β : Type*}

/-! ### Contents -/

/-- A content with new bytes from a position on. -/
def splice (old : List β) (pos : ℕ) (new : List β) : List β :=
  old.take pos ++ new ++ old.drop (pos + new.length)

@[simp] theorem splice_nil (old : List β) (pos : ℕ) : splice old pos [] = old := by
  simp [splice]

theorem splice_length {old : List β} {pos : ℕ} (h : pos ≤ old.length) (new : List β) :
    (splice old pos new).length = max old.length (pos + new.length) := by
  rw [splice, List.length_append, List.length_append, List.length_take, List.length_drop]
  omega

/-- The first bytes of a function of their index. -/
def firstBytes (n : ℕ) (f : ℕ → β) : List β := (List.range n).map f

@[simp] theorem firstBytes_length (n : ℕ) (f : ℕ → β) : (firstBytes n f).length = n := by
  simp [firstBytes]

theorem firstBytes_getElem? {n i : ℕ} (f : ℕ → β) (hi : i < n) : (firstBytes n f)[i]? = some (f i) := by
  rw [firstBytes, List.getElem?_map, List.getElem?_range hi, Option.map_some]

theorem firstBytes_congr {n : ℕ} {f g : ℕ → β} (h : ∀ i < n, f i = g i) :
    firstBytes n f = firstBytes n g := by
  apply List.map_congr_left
  intro i hi
  exact h i (List.mem_range.mp hi)

/-- A part of them. -/
theorem firstBytes_slice (n pos k : ℕ) (f : ℕ → β) :
    ((firstBytes n f).drop pos).take k = firstBytes (min k (n - pos)) fun i => f (pos + i) := by
  apply List.ext_getElem?
  intro i
  by_cases hi : i < min k (n - pos)
  · rw [List.getElem?_take_of_lt (by omega), List.getElem?_drop, firstBytes_getElem? f (by omega),
      firstBytes_getElem? _ hi]
  · rw [List.getElem?_eq_none, List.getElem?_eq_none]
    · rw [firstBytes_length]
      omega
    · rw [List.length_take, List.length_drop, firstBytes_length]
      omega

/-- The first of them. -/
theorem firstBytes_take (n k : ℕ) (f : ℕ → β) :
    (firstBytes n f).take k = firstBytes (min k n) f := by
  have hslice := firstBytes_slice n 0 k f
  simp only [List.drop_zero, Nat.sub_zero, Nat.zero_add] at hslice
  exact hslice

/-- **A patch is a splice**, from a position on that is not behind the end. -/
theorem firstBytes_patch {n pos k : ℕ} (f g : ℕ → β) (h : pos ≤ n) :
    firstBytes (max n (pos + k)) (patch f pos k g) =
      splice (firstBytes n f) pos (firstBytes k g) := by
  apply List.ext_getElem?
  intro i
  have hlen : (splice (firstBytes n f) pos (firstBytes k g)).length = max n (pos + k) := by
    rw [splice_length (by rwa [firstBytes_length]), firstBytes_length, firstBytes_length]
  by_cases hi : i < max n (pos + k)
  · rw [firstBytes_getElem? _ hi, splice, firstBytes_length]
    have htake : ((firstBytes n f).take pos).length = pos := by
      rw [List.length_take, firstBytes_length]
      omega
    by_cases hlo : i < pos
    · rw [List.append_assoc, List.getElem?_append_left (by omega), List.getElem?_take_of_lt hlo,
        firstBytes_getElem? f (by omega), patch_of_lt _ _ hlo]
    · by_cases hhi : i < pos + k
      · rw [List.getElem?_append_left (by rw [List.length_append, htake, firstBytes_length]; exact hhi),
          List.getElem?_append_right (by omega), htake, firstBytes_getElem? g (by omega),
          patch_of_mem _ _ (by omega) hhi]
      · rw [List.getElem?_append_right (by rw [List.length_append, htake, firstBytes_length]; omega),
          List.length_append, htake, firstBytes_length, List.getElem?_drop,
          show pos + k + (i - (pos + k)) = i by omega, firstBytes_getElem? f (by omega),
          patch_of_ge _ _ (by omega)]
  · rw [List.getElem?_eq_none (by rw [firstBytes_length]; omega),
      List.getElem?_eq_none (by rw [hlen]; omega)]

/-! ### Files -/

/-- **Files under distinct names.** -/
structure FileStore (κ β : Type*) where
  files : List (κ × List β)
  nodup : (files.map Prod.fst).Nodup

namespace FileStore

def keys (σ : FileStore κ β) : List κ := σ.files.map Prod.fst

def empty : FileStore κ β where
  files := []
  nodup := List.nodup_nil

def create (σ : FileStore κ β) (k : κ) (h : k ∉ σ.keys) : FileStore κ β where
  files := σ.files ++ [(k, [])]
  nodup := by
    rw [List.map_append, List.map_singleton]
    apply List.Nodup.append σ.nodup (List.nodup_singleton k)
    intro x hx hk
    rw [List.mem_singleton.mp hk] at hx
    exact h hx

section Write

variable [DecidableEq κ]

/-- The files with new bytes in one of them. -/
def writeFiles (files : List (κ × List β)) (k : κ) (pos : ℕ) (new : List β) : List (κ × List β) :=
  files.map fun p => if p.1 = k then (p.1, splice p.2 pos new) else p

@[simp] theorem writeFiles_keys (files : List (κ × List β)) (k : κ) (pos : ℕ) (new : List β) :
    (writeFiles files k pos new).map Prod.fst = files.map Prod.fst := by
  rw [writeFiles, List.map_map]
  apply List.map_congr_left
  intro p _
  show (if p.1 = k then (p.1, splice p.2 pos new) else p).1 = p.1
  split
  · rfl
  · rfl

@[simp] theorem writeFiles_nil (files : List (κ × List β)) (k : κ) (pos : ℕ) :
    writeFiles files k pos [] = files := by
  simp [writeFiles]

/-- One file among others under distinct names, before and after new bytes. -/
theorem writeFiles_split {files : List (κ × List β)} (hnodup : (files.map Prod.fst).Nodup) {k : κ}
    {old : List β} (h : (k, old) ∈ files) (pos : ℕ) (new : List β) :
    ∃ pre post, files = pre ++ (k, old) :: post ∧
      writeFiles files k pos new = pre ++ (k, splice old pos new) :: post := by
  obtain ⟨pre, post, rfl⟩ := List.append_of_mem h
  have hother : ∀ p ∈ pre ++ post, p.1 ≠ k := by
    intro p hp heq
    rw [List.map_append, List.map_cons, List.nodup_middle, ← List.map_append, List.nodup_cons] at hnodup
    have hkey : p.1 ∈ (pre ++ post).map Prod.fst := List.mem_map_of_mem hp
    rw [heq] at hkey
    exact hnodup.1 hkey
  have hkeep : ∀ ps : List (κ × List β), (∀ p ∈ ps, p ∈ pre ++ post) → writeFiles ps k pos new = ps := by
    intro ps hps
    rw [writeFiles]
    refine (List.map_congr_left fun p hp => ?_).trans (List.map_id ps)
    rw [if_neg (hother p (hps p hp)), id]
  refine ⟨pre, post, rfl, ?_⟩
  rw [writeFiles, List.map_append, List.map_cons, if_pos rfl]
  congr 1
  · exact hkeep pre fun p hp => List.mem_append_left post hp
  · congr 1
    exact hkeep post fun p hp => List.mem_append_right pre hp

/-- The files with new bytes in one of them, as far as its length goes. -/
def overwriteFiles (files : List (κ × List β)) (k : κ) (pos : ℕ) (new : List β) :
    List (κ × List β) :=
  files.map fun p => if p.1 = k then (p.1, (splice p.2 pos new).take p.2.length) else p

def write (σ : FileStore κ β) (k : κ) (pos : ℕ) (new : List β) : FileStore κ β where
  files := writeFiles σ.files k pos new
  nodup := by
    rw [writeFiles_keys]
    exact σ.nodup

theorem mem_write {σ : FileStore κ β} {k m : κ} {pos : ℕ} {new bs : List β} :
    (m, bs) ∈ (σ.write k pos new).files ↔
      ∃ old, (m, old) ∈ σ.files ∧ bs = if m = k then splice old pos new else old := by
  constructor
  · intro h
    obtain ⟨p, hp, heq⟩ := List.mem_map.mp h
    refine ⟨p.2, ?_, ?_⟩
    · split at heq
      · exact (Prod.mk.inj heq).1 ▸ hp
      · exact heq ▸ hp
    · split at heq
      · rename_i hpk
        rw [← (Prod.mk.inj heq).1, if_pos hpk, (Prod.mk.inj heq).2]
      · rename_i hpk
        rw [heq] at hpk
        rw [if_neg hpk, heq]
  · rintro ⟨old, hold, rfl⟩
    refine List.mem_map.mpr ⟨(m, old), hold, ?_⟩
    show (if m = k then (m, splice old pos new) else (m, old)) = _
    split
    · rfl
    · rfl

end Write

theorem mem_create {σ : FileStore κ β} {k m : κ} {h : k ∉ σ.keys} {bs : List β} :
    (m, bs) ∈ (σ.create k h).files ↔ (m, bs) ∈ σ.files ∨ m = k ∧ bs = [] := by
  rw [create, List.mem_append, List.mem_singleton, Prod.mk.injEq]

end FileStore

end SimpleFat.Lib
