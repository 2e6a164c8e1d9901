import SimpleFat.Lib.BytePatch

/-!
# Contents spread over extents

The bytes of a file lie in extents of `size` bytes each: position `i` is byte `i % size` of the
extent number `i / size`, and `ext` gives the address at which an extent starts.  `content` is the
file that a store holds in its extents.

* `content_patch` — a write into one extent is a write into the content;
* `content_agree` — a store that changes elsewhere only has the same content;
* `content_congr` — the content depends on the extents that it reaches only.
-/

namespace SimpleFat.Lib

section Extents

variable {β : Type*}

def extentAddr (ext : ℕ → ℕ) (size i : ℕ) : ℕ := ext (i / size) + i % size

/-- The content of a store, read through the extents. -/
def content (f : ℕ → β) (ext : ℕ → ℕ) (size : ℕ) : ℕ → β := fun i => f (extentAddr ext size i)

/-- The first `k` extents do not overlap. -/
def Apart (ext : ℕ → ℕ) (size k : ℕ) : Prop :=
  ∀ i < k, ∀ j < k, i ≠ j → ext i + size ≤ ext j ∨ ext j + size ≤ ext i

variable {ext ext' : ℕ → ℕ} {size k : ℕ} {f g : ℕ → β}

/-- A position lies in its extent. -/
theorem extentAddr_mem (hsize : 0 < size) (i : ℕ) :
    ext (i / size) ≤ extentAddr ext size i ∧ extentAddr ext size i < ext (i / size) + size := by
  have hmod := Nat.mod_lt i hsize
  rw [extentAddr]
  omega

theorem content_congr (h : ∀ j < k, ext j = ext' j) {i : ℕ} (hi : i / size < k) :
    content f ext size i = content f ext' size i := by
  rw [content, content, extentAddr, extentAddr, h _ hi]

/-- **A write into one extent** is a write into the content. -/
theorem content_patch (hapart : Apart ext size k) (hsize : 0 < size) {j off n : ℕ} (hj : j < k)
    (hn : off + n ≤ size) {i : ℕ} (hi : i / size < k) :
    content (patch f (ext j + off) n g) ext size i =
      patch (content f ext size) (j * size + off) n g i := by
  have hsplit := Nat.div_add_mod i size
  have hmod := Nat.mod_lt i hsize
  have hmem := @extentAddr_mem ext size hsize i
  rw [Nat.mul_comm] at hsplit
  rw [content]
  by_cases hij : i / size = j
  · -- the same extent: the offsets agree
    have haddr : extentAddr ext size i = ext j + i % size := by rw [extentAddr, hij]
    rw [hij] at hsplit
    rw [haddr]
    by_cases hin : off ≤ i % size ∧ i % size < off + n
    · rw [patch_of_mem _ _ (by omega) (by omega), patch_of_mem _ _ (by omega) (by omega)]
      congr 1
      omega
    · have hl : patch f (ext j + off) n g (ext j + i % size) = f (ext j + i % size) :=
        if_neg (by omega)
      have hr : patch (content f ext size) (j * size + off) n g i = content f ext size i :=
        if_neg (by omega)
      rw [hl, hr, content, haddr]
  · -- another extent: neither the address nor the position is patched
    have hl : patch f (ext j + off) n g (extentAddr ext size i) = f (extentAddr ext size i) := by
      rcases hapart _ hi _ hj hij with h | h
      · exact patch_of_lt f g (by omega)
      · exact patch_of_ge f g (by omega)
    have hr : patch (content f ext size) (j * size + off) n g i = content f ext size i := by
      rcases Nat.lt_or_gt_of_ne hij with h | h
      · have hmul := Nat.mul_le_mul_right size (show i / size + 1 ≤ j from h)
        rw [Nat.add_mul, Nat.one_mul] at hmul
        exact patch_of_lt _ g (by omega)
      · have hmul := Nat.mul_le_mul_right size (show j + 1 ≤ i / size from h)
        rw [Nat.add_mul, Nat.one_mul] at hmul
        exact patch_of_ge _ g (by omega)
    rw [hl, hr, content]

/-- Stores that agree on the extents have the same content. -/
theorem content_agree {f' : ℕ → β} (hsize : 0 < size)
    (h : ∀ j < k, ∀ a, ext j ≤ a → a < ext j + size → f' a = f a) {i : ℕ} (hi : i / size < k) :
    content f' ext size i = content f ext size i := by
  have hmem := @extentAddr_mem ext size hsize i
  exact h _ hi _ hmem.1 hmem.2

end Extents

end SimpleFat.Lib
