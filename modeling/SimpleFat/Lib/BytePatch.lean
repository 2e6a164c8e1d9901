import Mathlib

/-!
# Byte regions and little-endian words

A memory, a device or a buffer is a function from positions to bytes.  `patch` overwrites a range
of positions, `window` reads one, and the two are related by a few equations.  `le32` reads the
32-bit little-endian word at a position and `putLe32` stores one.
-/

namespace SimpleFat.Lib

section Patch

variable {β : Type*}

/-- The view of `f` from position `pos` on. -/
def window (f : ℕ → β) (pos : ℕ) : ℕ → β := fun i => f (pos + i)

/-- `f` with the `n` positions from `pos` on taken from `g`. -/
def patch (f : ℕ → β) (pos n : ℕ) (g : ℕ → β) : ℕ → β :=
  fun i => if pos ≤ i ∧ i < pos + n then g (i - pos) else f i

@[simp] theorem window_apply (f : ℕ → β) (pos i : ℕ) : window f pos i = f (pos + i) := rfl

theorem patch_of_mem (f g : ℕ → β) {pos n i : ℕ} (h : pos ≤ i) (h' : i < pos + n) :
    patch f pos n g i = g (i - pos) := if_pos ⟨h, h'⟩

theorem patch_of_lt (f g : ℕ → β) {pos n i : ℕ} (h : i < pos) : patch f pos n g i = f i :=
  if_neg (by omega)

theorem patch_of_ge (f g : ℕ → β) {pos n i : ℕ} (h : pos + n ≤ i) : patch f pos n g i = f i :=
  if_neg (by omega)

theorem patch_add (f g : ℕ → β) {pos n i : ℕ} (h : i < n) : patch f pos n g (pos + i) = g i := by
  rw [patch_of_mem f g (by omega) (by omega), Nat.add_sub_cancel_left]

/-- Writing back what is there changes nothing. -/
theorem patch_window (f : ℕ → β) (pos n : ℕ) : patch f pos n (window f pos) = f := by
  funext i
  unfold patch
  split
  · rename_i h
    rw [window_apply, Nat.add_sub_cancel' h.1]
  · rfl

/-- Only the patched positions of the source matter. -/
theorem patch_congr {f g g' : ℕ → β} {pos n : ℕ} (h : ∀ i < n, g i = g' i) :
    patch f pos n g = patch f pos n g' := by
  funext i
  unfold patch
  split
  · exact h _ (by omega)
  · rfl

/-- A patch inside a patched range is one patch of the patched source. -/
theorem patch_patch_inside (f g g' : ℕ → β) {pos n q m : ℕ} (h : q + m ≤ n) :
    patch f pos n (patch g q m g') = patch (patch f pos n g) (pos + q) m g' := by
  funext i
  by_cases hi : pos ≤ i ∧ i < pos + n
  · rw [patch_of_mem _ _ hi.1 hi.2]
    by_cases hj : q ≤ i - pos ∧ i - pos < q + m
    · rw [patch_of_mem _ _ hj.1 hj.2, patch_of_mem _ _ (by omega) (by omega)]
      congr 1
      omega
    · have hl : patch g q m g' (i - pos) = g (i - pos) := if_neg hj
      have hr : patch (patch f pos n g) (pos + q) m g' i = patch f pos n g i := if_neg (by omega)
      rw [hl, hr, patch_of_mem _ _ hi.1 hi.2]
  · have hl : patch f pos n (patch g q m g') i = f i := if_neg hi
    have hr : patch (patch f pos n g) (pos + q) m g' i = patch f pos n g i := if_neg (by omega)
    rw [hl, hr]
    exact (if_neg hi).symm

/-- A patch that goes on where another one ended. -/
theorem patch_append (f g : ℕ → β) (pos n m : ℕ) :
    patch (patch f pos n g) (pos + n) m (window g n) = patch f pos (n + m) g := by
  funext i
  unfold patch
  split
  · rename_i h
    rw [window_apply, if_pos (by omega)]
    congr 1
    omega
  · split
    · rw [if_pos (by omega)]
    · rw [if_neg (by omega)]

/-- Nothing is patched. -/
@[simp] theorem patch_zero (f g : ℕ → β) (pos : ℕ) : patch f pos 0 g = f :=
  funext fun _ => if_neg (by omega)

/-- Reading, changing and writing back a range changes only what was changed. -/
theorem patch_window_patch (f g : ℕ → β) {pos n q m : ℕ} (h : q + m ≤ n) :
    patch f pos n (patch (window f pos) q m g) = patch f (pos + q) m g := by
  rw [patch_patch_inside _ _ _ h, patch_window]

/-- The second function differs from the first one at most at the positions in `P`. -/
def ChangesIn (P : ℕ → Prop) (f f' : ℕ → β) : Prop := ∀ i, f' i ≠ f i → P i

theorem ChangesIn.refl (P : ℕ → Prop) (f : ℕ → β) : ChangesIn P f f := fun _ h => absurd rfl h

theorem ChangesIn.trans {P : ℕ → Prop} {f f' f'' : ℕ → β} (h : ChangesIn P f f')
    (h' : ChangesIn P f' f'') : ChangesIn P f f'' := by
  intro i hi
  by_cases hi' : f' i = f i
  · exact h' i (by rwa [hi'])
  · exact h i hi'

/-- A write changes what it overwrites. -/
theorem ChangesIn.patch {P : ℕ → Prop} {pos n : ℕ} (hP : ∀ i, pos ≤ i → i < pos + n → P i)
    (f g : ℕ → β) : ChangesIn P f (patch f pos n g) := by
  intro i hi
  by_cases hin : pos ≤ i ∧ i < pos + n
  · exact hP i hin.1 hin.2
  · exact absurd (if_neg hin) hi

end Patch

section Words

/-- The 32-bit little-endian word at position `pos`. -/
def le32 (b : ℕ → UInt8) (pos : ℕ) : ℕ :=
  (b pos).toNat + 2 ^ 8 * (b (pos + 1)).toNat + 2 ^ 16 * (b (pos + 2)).toNat
    + 2 ^ 24 * (b (pos + 3)).toNat

def le16 (b : ℕ → UInt8) (pos : ℕ) : ℕ := (b pos).toNat + 2 ^ 8 * (b (pos + 1)).toNat

def le32Bytes (x : ℕ) : ℕ → UInt8 := fun i => UInt8.ofNat (x / 2 ^ (8 * i))

def putLe32 (b : ℕ → UInt8) (pos x : ℕ) : ℕ → UInt8 := patch b pos 4 (le32Bytes x)

theorem le32_lt (b : ℕ → UInt8) (pos : ℕ) : le32 b pos < 2 ^ 32 := by
  have h0 := (b pos).toNat_lt
  have h1 := (b (pos + 1)).toNat_lt
  have h2 := (b (pos + 2)).toNat_lt
  have h3 := (b (pos + 3)).toNat_lt
  unfold le32
  omega

theorem le16_lt (b : ℕ → UInt8) (pos : ℕ) : le16 b pos < 2 ^ 16 := by
  have h0 := (b pos).toNat_lt
  have h1 := (b (pos + 1)).toNat_lt
  unfold le16
  omega

theorem le32_congr {b b' : ℕ → UInt8} {pos pos' : ℕ} (h : ∀ i < 4, b (pos + i) = b' (pos' + i)) :
    le32 b pos = le32 b' pos' := by
  have h0 := h 0 (by omega)
  rw [Nat.add_zero, Nat.add_zero] at h0
  rw [le32, le32, h0, h 1 (by omega), h 2 (by omega), h 3 (by omega)]

theorem le32_window (b : ℕ → UInt8) (base pos : ℕ) :
    le32 (window b base) pos = le32 b (base + pos) :=
  le32_congr fun i _ => by rw [window_apply, Nat.add_assoc]

theorem le32_le32Bytes (x : ℕ) : le32 (le32Bytes x) 0 = x % 2 ^ 32 := by
  simp only [le32, le32Bytes, UInt8.toNat_ofNat']
  omega

/-- A stored word is read back, modulo the width of the field. -/
theorem le32_putLe32 (b : ℕ → UInt8) (pos x : ℕ) : le32 (putLe32 b pos x) pos = x % 2 ^ 32 := by
  rw [← le32_le32Bytes x]
  refine le32_congr fun i hi => ?_
  rw [putLe32, patch_add _ _ hi, Nat.zero_add]

/-- Words outside the patched range are unchanged. -/
theorem le32_patch_disjoint (b g : ℕ → UInt8) {pos n q : ℕ} (h : pos + n ≤ q ∨ q + 4 ≤ pos) :
    le32 (patch b pos n g) q = le32 b q := by
  refine le32_congr fun i hi => ?_
  rcases h with h | h
  · exact patch_of_ge b g (by omega)
  · exact patch_of_lt b g (by omega)

theorem le32_putLe32_disjoint (b : ℕ → UInt8) (x : ℕ) {pos q : ℕ}
    (h : pos + 4 ≤ q ∨ q + 4 ≤ pos) : le32 (putLe32 b pos x) q = le32 b q :=
  le32_patch_disjoint b _ h

theorem le32_patch_inside (b g : ℕ → UInt8) {pos n q : ℕ} (h : q + 4 ≤ n) :
    le32 (patch b pos n g) (pos + q) = le32 g q := by
  refine le32_congr fun i hi => ?_
  rw [Nat.add_assoc]
  exact patch_add b g (by omega)

/-- The bytes of a stored word determine it. -/
theorem le32Bytes_le32 (b : ℕ → UInt8) (pos : ℕ) {i : ℕ} (hi : i < 4) :
    le32Bytes (le32 b pos) i = b (pos + i) := by
  have h0 := (b pos).toNat_lt
  have h1 := (b (pos + 1)).toNat_lt
  have h2 := (b (pos + 2)).toNat_lt
  have h3 := (b (pos + 3)).toNat_lt
  apply UInt8.toNat_inj.mp
  simp only [le32Bytes, le32, UInt8.toNat_ofNat']
  obtain rfl | rfl | rfl | rfl : i = 0 ∨ i = 1 ∨ i = 2 ∨ i = 3 := by omega
  · simp only [Nat.add_zero, Nat.mul_zero, Nat.pow_zero, Nat.div_one]
    omega
  · omega
  · omega
  · omega

theorem putLe32_le32 (b : ℕ → UInt8) (pos : ℕ) : putLe32 b pos (le32 b pos) = b := by
  have h : putLe32 b pos (le32 b pos) = patch b pos 4 (window b pos) :=
    patch_congr fun i hi => le32Bytes_le32 b pos hi
  rw [h, patch_window]

/-- A word is stored modulo the width of its field. -/
theorem le32Bytes_mod (x : ℕ) {i : ℕ} (hi : i < 4) : le32Bytes (x % 2 ^ 32) i = le32Bytes x i := by
  have hlow := le32Bytes_le32 (le32Bytes x) 0 hi
  rwa [le32_le32Bytes, Nat.zero_add] at hlow

/-- Storing a word that is there already changes nothing. -/
theorem putLe32_same {b : ℕ → UInt8} {pos x : ℕ} (h : le32 b pos = x % 2 ^ 32) :
    putLe32 b pos x = b := by
  have hbytes : putLe32 b pos x = putLe32 b pos (le32 b pos) :=
    patch_congr fun i hi => by rw [h, le32Bytes_mod x hi]
  rw [hbytes, putLe32_le32]

end Words

end SimpleFat.Lib
