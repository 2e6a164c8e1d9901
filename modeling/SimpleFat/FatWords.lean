import SimpleFat.FatTable
import SimpleFat.Geometry
import SimpleFat.HostRules

/-!
# The FAT as an array of words

`fatWord` is the word of a cluster in the first FAT of a volume and `setFatWord` stores one.  The
functions of the driver that read and change FAT words are specified in these terms:

* `wp_sfatGetEntryContent` — a lookup, in any environment;
* `acquire_spec` — the allocator takes the first free word of the whole FAT and marks it as the
  end of a chain;
* `modify_spec` — one word is replaced.
-/

namespace SimpleFat

open SimpleFat.Lib

/-! ### Words and their addresses -/

def fatWordAddr (fs : FsInfo) (cls : ℕ) : ℕ := fs.fatStartBlk * fs.blockSize + 4 * cls

/-- The word of a cluster in the first FAT. -/
def fatWord (fs : FsInfo) (v : Vol) (cls : ℕ) : ℕ := le32 v (fatWordAddr fs cls)

def setFatWord (fs : FsInfo) (v : Vol) (cls x : ℕ) : Vol := putLe32 v (fatWordAddr fs cls) x

/-- The number of words that the blocks of one FAT hold. -/
def fatWords (fs : FsInfo) : ℕ := fs.fatLengthBlk * (fs.blockSize / 4)

section Words

variable {fs : FsInfo} {v : Vol} {c d x : ℕ}

theorem fatWord_lt (fs : FsInfo) (v : Vol) (c : ℕ) : fatWord fs v c < 2 ^ 32 := le32_lt _ _

@[simp] theorem fatWord_setFatWord : fatWord fs (setFatWord fs v c x) c = x % 2 ^ 32 :=
  le32_putLe32 _ _ _

theorem fatWord_setFatWord_of_lt (hx : x < 2 ^ 32) : fatWord fs (setFatWord fs v c x) c = x := by
  rw [fatWord_setFatWord, Nat.mod_eq_of_lt hx]

theorem fatWord_setFatWord_ne (h : d ≠ c) :
    fatWord fs (setFatWord fs v c x) d = fatWord fs v d := by
  apply le32_putLe32_disjoint
  simp only [fatWordAddr]
  omega

/-- A patch outside the word of a cluster. -/
theorem fatWord_patch {pos n : ℕ} {g : ℕ → UInt8}
    (h : pos + n ≤ fatWordAddr fs c ∨ fatWordAddr fs c + 4 ≤ pos) :
    fatWord fs (patch v pos n g) c = fatWord fs v c := le32_patch_disjoint v g h

/-- A block is four times a power of two. -/
theorem WordBlocks.blockSize_words (h : WordBlocks fs) :
    ∃ w, fs.blockBits - 2 = w ∧ fs.blockSize = 4 * 2 ^ w := by
  obtain ⟨w, hw⟩ := Nat.exists_eq_add_of_le h.blockBits_ge
  exact ⟨w, by omega, by rw [h.blockSize_eq, hw, Nat.pow_add]⟩

theorem WellFormed.blockSize_words (h : WellFormed fs) :
    ∃ w, fs.blockBits - 2 = w ∧ fs.blockSize = 4 * 2 ^ w := h.wordBlocks.blockSize_words

theorem WordBlocks.fatPos_eq (h : WordBlocks fs) (cls : ℕ) :
    fatPos fs cls = 4 * (cls % (fs.blockSize / 4)) := by
  obtain ⟨w, hw, hbs⟩ := h.blockSize_words
  have hdiv : fs.blockSize / 4 = 2 ^ w := by omega
  have hmod := Nat.mod_add_div cls (2 ^ w)
  rw [fatPos, hw, hdiv, Nat.shiftRight_eq_div_pow, Nat.shiftLeft_eq, Nat.shiftLeft_eq,
    Nat.mul_comm (cls / 2 ^ w)]
  omega

theorem fatPos_eq (h : WellFormed fs) (cls : ℕ) : fatPos fs cls = 4 * (cls % (fs.blockSize / 4)) :=
  h.wordBlocks.fatPos_eq cls

theorem WordBlocks.fatBlk_eq (h : WordBlocks fs) (cls : ℕ) :
    fatBlk fs cls = cls / (fs.blockSize / 4) + fs.fatStartBlk := by
  obtain ⟨w, hw, hbs⟩ := h.blockSize_words
  have hdiv : fs.blockSize / 4 = 2 ^ w := by omega
  rw [fatBlk, hw, hdiv, Nat.shiftRight_eq_div_pow]

theorem fatBlk_eq (h : WellFormed fs) (cls : ℕ) :
    fatBlk fs cls = cls / (fs.blockSize / 4) + fs.fatStartBlk := h.wordBlocks.fatBlk_eq cls

/-- A word lies inside one block. -/
theorem WordBlocks.fatPos_le (h : WordBlocks fs) (cls : ℕ) : fatPos fs cls + 4 ≤ fs.blockSize := by
  obtain ⟨w, -, hbs⟩ := h.blockSize_words
  have hdiv : fs.blockSize / 4 = 2 ^ w := by omega
  have hlt := Nat.mod_lt cls (Nat.two_pow_pos w)
  rw [h.fatPos_eq, hdiv]
  omega

/-- Block number and position of a word make its address. -/
theorem WordBlocks.fatBlk_mul_add (h : WordBlocks fs) (cls : ℕ) :
    fatBlk fs cls * fs.blockSize + fatPos fs cls = fatWordAddr fs cls := by
  obtain ⟨w, -, hbs⟩ := h.blockSize_words
  have hdiv : fs.blockSize / 4 = 2 ^ w := by omega
  have hmod := Nat.mod_add_div cls (2 ^ w)
  rw [h.fatBlk_eq, h.fatPos_eq, fatWordAddr, hdiv, Nat.add_mul, hbs]
  have hassoc : cls / 2 ^ w * (4 * 2 ^ w) = 4 * (2 ^ w * (cls / 2 ^ w)) := by
    rw [Nat.mul_comm, Nat.mul_assoc]
  omega

/-- The word read from its block is the word of the FAT. -/
theorem WordBlocks.le32_fatBlk (h : WordBlocks fs) (v : Vol) (cls : ℕ) :
    le32 (blockAt v fs.blockSize (fatBlk fs cls)) (fatPos fs cls) = fatWord fs v cls := by
  rw [blockAt, le32_window, h.fatBlk_mul_add, fatWord]

/-- Writing back the block of a word with the word changed changes only the word. -/
theorem putBlock_putLe32 (v : Vol) {sz b pos : ℕ} (h : pos + 4 ≤ sz) (x : ℕ) :
    putBlock v sz b (putLe32 (blockAt v sz b) pos x) = putLe32 v (b * sz + pos) x :=
  patch_window_patch v _ h

theorem WordBlocks.putBlock_fatBlk (h : WordBlocks fs) (v : Vol) (cls x : ℕ) :
    putBlock v fs.blockSize (fatBlk fs cls)
        (putLe32 (blockAt v fs.blockSize (fatBlk fs cls)) (fatPos fs cls) x)
      = setFatWord fs v cls x := by
  rw [putBlock_putLe32 v (h.fatPos_le cls), h.fatBlk_mul_add, setFatWord]

theorem putBlock_fatBlk (h : WellFormed fs) (v : Vol) (cls x : ℕ) :
    putBlock v fs.blockSize (fatBlk fs cls)
        (putLe32 (blockAt v fs.blockSize (fatBlk fs cls)) (fatPos fs cls) x)
      = setFatWord fs v cls x := h.wordBlocks.putBlock_fatBlk v cls x

end Words

/-! ### Lookups -/

def nextWord (look : (blk pos : ℕ) → Page → ℕ) (fs : FsInfo) (v : Vol) (cls : ℕ) : ℕ :=
  look (fatBlk fs cls) (fatPos fs cls) (blockAt v fs.blockSize (fatBlk fs cls))

theorem WordBlocks.nextWord_storedWord {fs : FsInfo} (h : WordBlocks fs) (v : Vol) (cls : ℕ) :
    nextWord storedWord fs v cls = fatWord fs v cls := h.le32_fatBlk v cls

theorem nextWord_storedWord {fs : FsInfo} (h : WellFormed fs) (v : Vol) (cls : ℕ) :
    nextWord storedWord fs v cls = fatWord fs v cls := h.wordBlocks.nextWord_storedWord v cls

/-- **A lookup delivers the stored word, or a number that the volume has no part in**, such as the
address of the word. -/
def StoredOrAddress (look : (blk pos : ℕ) → Page → ℕ) : Prop :=
  ∀ blk pos, (∀ d, look blk pos d = le32 d pos) ∨ ∃ a, ∀ d, look blk pos d = a

theorem storedOrAddress_storedWord : StoredOrAddress storedWord := fun _ _ => .inl fun _ => rfl

/-- What the code delivers when a block is always read into the same page. -/
def addressLookup (page : ℕ → ℕ) (blk pos : ℕ) (_data : Page) : ℕ := (page blk + pos) % 2 ^ 32

theorem StoredOrAddress.nextWord {fs : FsInfo} {look : (blk pos : ℕ) → Page → ℕ}
    (h : StoredOrAddress look) (hwf : WellFormed fs) (cls : ℕ) :
    (∀ v, nextWord look fs v cls = fatWord fs v cls) ∨ ∃ a, ∀ v, nextWord look fs v cls = a := by
  rcases h (fatBlk fs cls) (fatPos fs cls) with hword | ⟨a, ha⟩
  · exact .inl fun v => (hword _).trans (hwf.wordBlocks.le32_fatBlk v cls)
  · exact .inr ⟨a, fun v => ha _⟩

/-- A lookup depends on the word at most. -/
theorem StoredOrAddress.congr {fs : FsInfo} {look : (blk pos : ℕ) → Page → ℕ}
    (h : StoredOrAddress look) (hwf : WellFormed fs) {v w : Vol} {cls : ℕ}
    (hword : fatWord fs w cls = fatWord fs v cls) :
    SimpleFat.nextWord look fs w cls = SimpleFat.nextWord look fs v cls := by
  rcases h.nextWord hwf cls with hstored | ⟨a, ha⟩
  · rw [hstored, hstored, hword]
  · rw [ha, ha]

/-- A lookup in any environment: the range check comes first, then allocation and read may fail,
then the environment decides. -/
theorem wp_sfatGetEntryContent (H : Host) (fs : FsInfo) (cls : ℕ)
    (Q : Except Errno ℕ → Vol → Prop) (v : Vol) :
    wp H.world (sfatGetEntryContent fs cls) Q v ↔
      if fs.clustersPred ≤ cls then Q (.error .einval) v
      else (H.mayFail .blkholderAlloc → Q (.error .enomem) v) ∧
        (H.mayFail (.readBlock fs.blockSize (fatBlk fs cls)) → Q (.error .eio) v) ∧
        ∀ addr r, H.lookup addr (fatBlk fs cls) (fatPos fs cls)
          (blockAt v fs.blockSize (fatBlk fs cls)) r → Q (.ok r) v := by
  rw [sfatGetEntryContent]
  split
  · exact wp_done _ _ _
  · rw [wp_blkholderAlloc]
    constructor
    · intro h
      refine ⟨fun hm => (wp_done _ _ _).mp (h none fun _ => hm), fun hm => ?_, fun addr r hr => ?_⟩
      · exact (wp_done _ _ _).mp (((wp_readBlock _ _ _).mp (h (some 0) (by simp))).2 hm)
      · have hread := ((wp_readBlock _ _ _).mp (h (some addr) (by simp))).1
        exact (wp_done _ _ _).mp ((wp_le32OfPointer _ _ _ _ _).mp hread r hr)
    · rintro ⟨hmem, hio, hok⟩ page hp
      cases page with
      | none => exact (wp_done _ _ _).mpr (hmem (hp rfl))
      | some addr =>
        refine (wp_readBlock _ _ _).mpr ⟨?_, fun hm => (wp_done _ _ _).mpr (hio hm)⟩
        exact (wp_le32OfPointer _ _ _ _ _).mpr fun r hr => (wp_done _ _ _).mpr (hok addr r hr)

/-- A lookup when the device does not fail and lookups are a function. -/
theorem wp_sfatGetEntryContent_lookups {refuse : FilldirCall → Prop}
    (look : (blk pos : ℕ) → Page → ℕ) (fs : FsInfo) (cls : ℕ) (Q : Except Errno ℕ → Vol → Prop)
    (v : Vol) :
    wp (refusingWorld refuse look) (sfatGetEntryContent fs cls) Q v ↔
      Q (if fs.clustersPred ≤ cls then .error .einval else .ok (nextWord look fs v cls)) v := by
  rw [wp_sfatGetEntryContent]
  split
  · exact Iff.rfl
  · constructor
    · intro h
      exact h.2.2 0 _ rfl
    · intro h
      refine ⟨False.elim, False.elim, fun addr r hr => ?_⟩
      obtain rfl : r = nextWord look fs v cls := hr
      exact h

/-- A lookup asks for a page, its block and the word, at most. -/
theorem within_sfatGetEntryContent (fs : FsInfo) (cls : ℕ) :
    within (sfatGetEntryContent fs cls) 3 := by
  rw [sfatGetEntryContent]
  split
  · exact within_done _ _
  · intro page
    cases page with
    | none => exact within_done _ _
    | some addr =>
      intro data
      cases data with
      | none => exact within_done _ _
      | some data => exact fun next => within_done _ _

/-! ### Allocation -/

def FirstFree (fs : FsInfo) (v : Vol) (c : ℕ) : Prop :=
  c < fatWords fs ∧ fatWord fs v c = sfatEntryFree ∧ ∀ k < c, fatWord fs v k ≠ sfatEntryFree

theorem FirstFree.unique {fs : FsInfo} {v : Vol} {c d : ℕ} (hc : FirstFree fs v c)
    (hd : FirstFree fs v d) : c = d := by
  rcases Nat.lt_trichotomy c d with h | h | h
  · exact absurd hc.2.1 (hd.2.2 c h)
  · exact h
  · exact absurd hd.2.1 (hc.2.2 d h)

/-- A free word gives a first one. -/
theorem exists_firstFree {fs : FsInfo} {v : Vol} {k : ℕ} (hk : k < fatWords fs)
    (hfree : fatWord fs v k = sfatEntryFree) : ∃ c ≤ k, FirstFree fs v c := by
  induction k using Nat.strong_induction_on with
  | h k ih =>
    by_cases hall : ∀ j < k, fatWord fs v j ≠ sfatEntryFree
    · exact ⟨k, Nat.le_refl k, hk, hfree, hall⟩
    · simp only [not_forall, not_not] at hall
      obtain ⟨j, hj, hjf⟩ := hall
      obtain ⟨c, hc, hfirst⟩ := ih j hj (Nat.lt_trans hj hk) hjf
      exact ⟨c, by omega, hfirst⟩

/-- What `findFree` finds in a block. -/
theorem findFree_spec (data : Page) (n k : ℕ) :
    match findFree data n k with
    | some i => k ≤ i ∧ i < k + n ∧ le32 data (4 * i) = sfatEntryFree ∧
        ∀ j, k ≤ j → j < i → le32 data (4 * j) ≠ sfatEntryFree
    | none => ∀ j, k ≤ j → j < k + n → le32 data (4 * j) ≠ sfatEntryFree := by
  induction n generalizing k with
  | zero =>
    intro j hj hj'
    omega
  | succ n ih =>
    rw [findFree]
    by_cases hk : le32 data (4 * k) = sfatEntryFree
    · rw [if_pos hk]
      exact ⟨Nat.le_refl k, by omega, hk, fun j hj hj' => by omega⟩
    · rw [if_neg hk]
      have hrest := ih (k + 1)
      split at hrest
      · rename_i i _
        obtain ⟨h1, h2, h3, h4⟩ := hrest
        refine ⟨by omega, by omega, h3, fun j hj hji => ?_⟩
        by_cases hjk : j = k
        · rwa [hjk]
        · exact h4 j (by omega) hji
      · intro j hj hjn
        by_cases hjk : j = k
        · rwa [hjk]
        · exact hrest j (by omega) (by omega)

def AcquireOutcome (H : Host) (fs : FsInfo) (v : Vol) (r : Except Errno ℕ) (v' : Vol) : Prop :=
  match r with
  | .ok c => FirstFree fs v c ∧ v' = setFatWord fs v c sfatEntryEoc
  | .error e => v' = v ∧
      ((e = .enoent ∧ ∀ k < fatWords fs, fatWord fs v k ≠ sfatEntryFree) ∨
        e ≠ .enoent ∧ ∃ c, H.mayFail c)

/-- The number of the first word of a block, as the driver computes it. -/
theorem WordBlocks.shiftLeft_words {fs : FsInfo} (h : WordBlocks fs) (i : ℕ) :
    i <<< (fs.blockBits - 2) = i * (fs.blockSize / 4) := by
  obtain ⟨w, hw, hbs⟩ := h.blockSize_words
  have hdiv : fs.blockSize / 4 = 2 ^ w := by omega
  rw [hw, hdiv, Nat.shiftLeft_eq]

/-- Word `k` of block `i` of the FAT, as an address. -/
theorem WordBlocks.fatStart_addr {fs : FsInfo} (h : WordBlocks fs) (i k : ℕ) :
    (fs.fatStartBlk + i) * fs.blockSize + 4 * k =
      fatWordAddr fs (i * (fs.blockSize / 4) + k) := by
  obtain ⟨w, -, hbs⟩ := h.blockSize_words
  have hdiv : fs.blockSize / 4 = 2 ^ w := by omega
  rw [fatWordAddr, hdiv, hbs]
  ring

/-- The word `j` of block `i` of the FAT is the word of this cluster. -/
theorem WordBlocks.le32_fatStart {fs : FsInfo} (h : WordBlocks fs) (v : Vol) (i j : ℕ) :
    le32 (blockAt v fs.blockSize (fs.fatStartBlk + i)) (4 * j) =
      fatWord fs v (i * (fs.blockSize / 4) + j) := by
  rw [blockAt, le32_window, h.fatStart_addr, fatWord]

/-- The scan from a block on which all words before are in use. -/
theorem acquireBlocks_spec {H : Host} {fs : FsInfo} (h : WordBlocks fs) (v : Vol) (n i : ℕ)
    (hn : i + n = fs.fatLengthBlk)
    (hbefore : ∀ k < i * (fs.blockSize / 4), fatWord fs v k ≠ sfatEntryFree) :
    wp H.world (acquireBlocks fs n (fs.fatStartBlk + i)) (AcquireOutcome H fs v) v := by
  have hword := h.le32_fatStart v
  obtain ⟨w, hw, hbs⟩ := h.blockSize_words
  have hdiv : fs.blockSize / 4 = 2 ^ w := by omega
  rw [hdiv] at hword
  induction n generalizing i with
  | zero =>
    refine (wp_done _ _ _).mpr ⟨rfl, .inl ⟨rfl, fun k hk => hbefore k ?_⟩⟩
    rwa [fatWords, ← hn, Nat.add_zero] at hk
  | succ n ih =>
    rw [acquireBlocks, wp_readBlock]
    refine ⟨?_, fun hm => (wp_done _ _ _).mpr ⟨rfl, .inr ⟨by simp, _, hm⟩⟩⟩
    have hfind := findFree_spec (blockAt v fs.blockSize (fs.fatStartBlk + i)) (2 ^ w) 0
    rw [hdiv] at hbefore ⊢
    simp only []
    split at hfind
    · rename_i k hk
      obtain ⟨-, hlt, hfree, hfirst⟩ := hfind
      simp only [hk, wp_writeBlock, if_true, Bool.false_eq_true, if_false]
      have hfail : ∀ {c}, H.mayFail c → AcquireOutcome H fs v (.error .eio) v :=
        fun hm => ⟨rfl, .inr ⟨by simp, _, hm⟩⟩
      refine ⟨(wp_done _ _ _).mpr ?_, fun hm => (wp_done _ _ _).mpr (hfail hm)⟩
      have hcls : (fs.fatStartBlk + i - fs.fatStartBlk) <<< (fs.blockBits - 2) + k
          = i * 2 ^ w + k := by
        rw [Nat.add_sub_cancel_left, h.shiftLeft_words, hdiv]
      rw [hcls]
      have hblocks : (i + 1) * 2 ^ w ≤ fs.fatLengthBlk * 2 ^ w :=
        Nat.mul_le_mul_right _ (by omega)
      rw [Nat.add_mul, Nat.one_mul] at hblocks
      refine ⟨⟨?_, ?_, fun j hj => ?_⟩, ?_⟩
      · rw [fatWords, hdiv]
        omega
      · rw [← hword i k]
        exact hfree
      · by_cases hji : j < i * 2 ^ w
        · exact hbefore j hji
        · have hjk := hfirst (j - i * 2 ^ w) (by omega) (by omega)
          rw [hword i _] at hjk
          rwa [Nat.add_sub_cancel' (by omega)] at hjk
      · rw [putBlock_putLe32 v (by omega), setFatWord, h.fatStart_addr, hdiv]
    · rename_i hnone
      simp only [hnone]
      refine ih (i + 1) (by omega) fun j hj => ?_
      rw [hdiv, Nat.add_mul, Nat.one_mul] at hj
      by_cases hji : j < i * 2 ^ w
      · exact hbefore j hji
      · have hjk := hfind (j - i * 2 ^ w) (by omega) (by omega)
        rw [hword i _] at hjk
        rwa [Nat.add_sub_cancel' (by omega)] at hjk

/-- **The allocator takes the first free word of the whole FAT**, or changes nothing. -/
theorem WordBlocks.acquire_spec {H : Host} {fs : FsInfo} (h : WordBlocks fs) (v : Vol) :
    wp H.world (sfatFatEntryAcquire fs) (AcquireOutcome H fs v) v := by
  rw [sfatFatEntryAcquire, wp_blkholderAlloc]
  intro page hp
  cases page with
  | none => exact (wp_done _ _ _).mpr ⟨rfl, .inr ⟨by simp, _, hp rfl⟩⟩
  | some addr =>
    exact acquireBlocks_spec h v fs.fatLengthBlk 0 (Nat.zero_add _) fun k hk => by omega

theorem acquire_spec {H : Host} {fs : FsInfo} (hwf : WellFormed fs) (v : Vol) :
    wp H.world (sfatFatEntryAcquire fs) (AcquireOutcome H fs v) v := hwf.wordBlocks.acquire_spec v

/-! ### Modification -/

/-- A change of one word: the range check comes first, then the word is replaced, or a request
failed and nothing has changed. -/
theorem WordBlocks.modify_spec {H : Host} {fs : FsInfo} (h : WordBlocks fs) (cls x : ℕ) (v : Vol) :
    wp H.world (sfatFatEntryModify fs cls x) (fun r v' => match r with
      | none => cls < fs.clustersPred ∧ v' = setFatWord fs v cls x
      | some e => v' = v ∧ (e = .einval ∧ fs.clustersPred ≤ cls ∨
          e ≠ .einval ∧ cls < fs.clustersPred ∧ ∃ c, H.mayFail c)) v := by
  rw [sfatFatEntryModify]
  split
  · rename_i hcls
    exact (wp_done _ _ _).mpr ⟨rfl, .inl ⟨rfl, hcls⟩⟩
  · rename_i hcls
    have hcls : cls < fs.clustersPred := by omega
    rw [wp_blkholderAlloc]
    intro page hp
    cases page with
    | none => exact (wp_done _ _ _).mpr ⟨rfl, .inr ⟨by simp, hcls, _, hp rfl⟩⟩
    | some addr =>
      refine (wp_readBlock _ _ _).mpr
        ⟨?_, fun hm => (wp_done _ _ _).mpr ⟨rfl, .inr ⟨by simp, hcls, _, hm⟩⟩⟩
      simp only [wp_writeBlock, if_true, Bool.false_eq_true, if_false]
      refine ⟨(wp_done _ _ _).mpr ⟨hcls, h.putBlock_fatBlk v cls x⟩,
        fun hm => (wp_done _ _ _).mpr ⟨rfl, .inr ⟨by simp, hcls, _, hm⟩⟩⟩

theorem modify_spec {H : Host} {fs : FsInfo} (hwf : WellFormed fs) (cls x : ℕ) (v : Vol) :
    wp H.world (sfatFatEntryModify fs cls x) (fun r v' => match r with
      | none => cls < fs.clustersPred ∧ v' = setFatWord fs v cls x
      | some e => v' = v ∧ (e = .einval ∧ fs.clustersPred ≤ cls ∨
          e ≠ .einval ∧ cls < fs.clustersPred ∧ ∃ c, H.mayFail c)) v :=
  hwf.wordBlocks.modify_spec cls x v

end SimpleFat
