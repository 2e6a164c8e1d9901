import SimpleFat.FileData
import SimpleFat.FatWords

/-!
# Writing to one cluster

`sfat_write_cluster` works in three phases: the rest of a block, whole blocks, the start of a block.
Together they are one patch of the volume from the byte address of the position on, as long as the
length that is reported: a phase that fails leaves its block unchanged and reports the bytes of the
phases before it.

* `sfatWriteCluster_spec` — what is on the volume after a call, in any environment;
* `asks_sfatWriteCluster` — the blocks a call may ask for;
* `sfatSyncWrite_eq` — `sfat_sync_write` up to its label `end`, and the flush after it.
-/

namespace SimpleFat

open SimpleFat.Lib

/-! ### `sfat_write_cluster` -/

section WriteCluster

variable {H : Host} {fs : FsInfo} {buf : ℕ → UInt8} {len addr : ℕ} {v : Vol}

/-- The first `st.retLen` of `len` bytes are at `addr`, the rest is still to be written. -/
structure WriteProgress (buf : ℕ → UInt8) (len addr : ℕ) (v : Vol) (st : WriteClusterState)
    (v' : Vol) : Prop where
  retLen_le : st.retLen ≤ len
  len_eq : st.len = len - st.retLen
  buf_eq : st.buf = window buf st.retLen
  vol_eq : v' = patch v addr st.retLen buf

/-- A call is over: it reports what it wrote, and less than everything only after a failure. -/
structure WriteDone (H : Host) (buf : ℕ → UInt8) (len addr : ℕ) (v : Vol) (retLen : ℕ)
    (v' : Vol) : Prop where
  retLen_le : retLen ≤ len
  vol_eq : v' = patch v addr retLen buf
  failed : retLen < len → ∃ c, H.mayFail c

/-- Without failures everything is written. -/
theorem WriteDone.complete {n : ℕ} {v' : Vol} (h : WriteDone H buf len addr v n v')
    (hquiet : ∀ c, ¬ H.mayFail c) : n = len := by
  by_contra hne
  have hle := h.retLen_le
  obtain ⟨c, hc⟩ := h.failed (by omega)
  exact hquiet c hc

/-- The next byte to write is the first one of the current block, if there is one. -/
def AtBlock (fs : FsInfo) (addr : ℕ) (st : WriteClusterState) : Prop :=
  st.len ≠ 0 → st.blk * fs.blockSize = addr + st.retLen

def PhaseOutcome (H : Host) (fs : FsInfo) (buf : ℕ → UInt8) (len addr : ℕ) (v : Vol) :
    Loop WriteClusterState (ℕ × Option Errno) → Vol → Prop
  | .next st, v' => WriteProgress buf len addr v st v' ∧ AtBlock fs addr st
  | .out r, v' => WriteDone H buf len addr v r.1 v'

theorem WriteProgress.done {st : WriteClusterState} {v' : Vol}
    (h : WriteProgress buf len addr v st v') (hfail : st.retLen < len → ∃ c, H.mayFail c) :
    WriteDone H buf len addr v st.retLen v' :=
  ⟨h.retLen_le, h.vol_eq, hfail⟩

/-- One block: `n` bytes at `off`, in a page that agrees with the block outside them. -/
theorem copyAndWrite_spec {st : WriteClusterState} {v' : Vol} {data : Page} {off n : ℕ}
    (h : WriteProgress buf len addr v st v') (hn : n ≤ st.len)
    (haddr : st.blk * fs.blockSize + off = addr + st.retLen)
    (hdata : putBlock v' fs.blockSize st.blk (patch data off n st.buf) =
      patch v' (st.blk * fs.blockSize + off) n st.buf) (hat : AtBlock fs addr (st.advance n)) :
    wp H.world (copyAndWrite fs st data off n) (fun r v' => PhaseOutcome H fs buf len addr v r v' ∧
      ∀ st', r = .next st' → st'.len = st.len - n) v' := by
  have hlen := h.len_eq
  rw [copyAndWrite, wp_copyFromUser]
  intro copied _ hfail
  by_cases hc : copied ≠ 0
  · rw [if_pos hc]
    exact (wp_done _ _ _).mpr ⟨h.done fun _ => ⟨_, hfail hc⟩, fun st' hst => by cases hst⟩
  · rw [if_neg hc, wp_writeBlock, hdata]
    refine ⟨(wp_done _ _ _).mpr ⟨⟨⟨?_, ?_, ?_, ?_⟩, hat⟩, fun st' hst => ?_⟩,
      fun hm => (wp_done _ _ _).mpr ⟨h.done fun _ => ⟨_, hm⟩, fun st' hst => by cases hst⟩⟩
    · show st.retLen + n ≤ len
      have := h.retLen_le
      omega
    · show st.len - n = len - (st.retLen + n)
      omega
    · show window st.buf n = window buf (st.retLen + n)
      rw [h.buf_eq]
      funext i
      rw [window_apply, window_apply, window_apply, Nat.add_assoc]
    · show patch v' (st.blk * fs.blockSize + off) n st.buf = patch v addr (st.retLen + n) buf
      rw [haddr, h.vol_eq, h.buf_eq, patch_append]
    · obtain rfl := Loop.next.inj hst
      rfl

/-- The first phase goes up to the end of the block, or of the bytes. -/
theorem writeFirstBlock_spec {st : WriteClusterState} {v' : Vol} {off : ℕ}
    (h : WriteProgress buf len addr v st v') (hoff : off < fs.blockSize)
    (haddr : st.blk * fs.blockSize + off = addr + st.retLen) :
    wp H.world (writeFirstBlock fs st off) (PhaseOutcome H fs buf len addr v) v' := by
  rw [writeFirstBlock]
  by_cases h0 : off = 0
  · rw [if_pos h0]
    exact (wp_done _ _ _).mpr ⟨h, fun _ => by omega⟩
  · rw [if_neg h0, wp_readBlock]
    refine ⟨?_, fun hm => (wp_done _ _ _).mpr (h.done fun _ => ⟨_, hm⟩)⟩
    refine wp_mono (copyAndWrite_spec h (Nat.min_le_left _ _) haddr
      (patch_window_patch v' st.buf (by omega)) ?_) fun r v₁ hr => hr.1
    show st.len - min st.len (fs.blockSize - off) ≠ 0 →
      (st.blk + 1) * fs.blockSize = addr + (st.retLen + min st.len (fs.blockSize - off))
    intro hne
    rw [Nat.add_mul, Nat.one_mul]
    omega

/-- A whole block is written from the buffer alone. -/
theorem putBlock_whole (v : Vol) (sz b : ℕ) (g : ℕ → UInt8) :
    putBlock v sz b (patch g 0 sz g) = patch v (b * sz + 0) sz g := by
  rw [putBlock, Nat.add_zero]
  refine patch_congr fun i hi => ?_
  rw [patch_of_mem _ _ (Nat.zero_le i) (by omega), Nat.sub_zero]

theorem AtBlock.advance {st : WriteClusterState} (h : AtBlock fs addr st)
    (hle : fs.blockSize ≤ st.len) : AtBlock fs addr (st.advance fs.blockSize) := by
  intro hne
  have hlen : st.len - fs.blockSize ≠ 0 := hne
  have hblk := h (by omega)
  show (st.blk + 1) * fs.blockSize = addr + (st.retLen + fs.blockSize)
  rw [Nat.add_mul, Nat.one_mul]
  omega

/-- The second phase stops before the last, partial block. -/
theorem writeWholeBlocks_spec (hbs : 0 < fs.blockSize) (fuel : ℕ) {st : WriteClusterState} {v' : Vol}
    (h : WriteProgress buf len addr v st v') (hat : AtBlock fs addr st) (hfuel : st.len ≤ fuel) :
    wp H.world (writeWholeBlocks fs fuel st) (fun r v' => PhaseOutcome H fs buf len addr v r v' ∧
      ∀ st', r = .next st' → st'.len < fs.blockSize) v' := by
  induction fuel generalizing st v' with
  | zero =>
    refine (wp_done _ _ _).mpr ⟨⟨h, hat⟩, fun st' hst => ?_⟩
    obtain rfl := Loop.next.inj hst
    omega
  | succ fuel ih =>
    rw [writeWholeBlocks]
    by_cases hle : fs.blockSize ≤ st.len
    · have haddr : st.blk * fs.blockSize + 0 = addr + st.retLen := hat (by omega)
      have hwhole : putBlock v' fs.blockSize st.blk (patch st.buf 0 fs.blockSize st.buf) =
          patch v' (st.blk * fs.blockSize + 0) fs.blockSize st.buf := putBlock_whole _ _ _ _
      rw [if_pos hle]
      refine wp_seq (copyAndWrite_spec h hle haddr hwhole (hat.advance hle)) fun r v₁ hr => ?_
      cases r with
      | out r => exact (wp_done _ _ _).mpr ⟨hr.1, fun st' hst => by cases hst⟩
      | next st₁ =>
        have hlen := hr.2 st₁ rfl
        exact ih hr.1.1 hr.1.2 (by omega)
    · rw [if_neg hle]
      refine (wp_done _ _ _).mpr ⟨⟨h, hat⟩, fun st' hst => ?_⟩
      obtain rfl := Loop.next.inj hst
      omega

/-- The third phase writes what is left. -/
theorem writeLastBlock_spec {st : WriteClusterState} {v' : Vol}
    (h : WriteProgress buf len addr v st v') (hat : AtBlock fs addr st)
    (hlt : st.len < fs.blockSize) :
    wp H.world (writeLastBlock fs st) (fun r v' => WriteDone H buf len addr v r.1 v') v' := by
  have hlen := h.len_eq
  have hle := h.retLen_le
  rw [writeLastBlock]
  by_cases h0 : st.len = 0
  · rw [if_pos h0]
    exact (wp_done _ _ _).mpr (h.done fun hlt => by omega)
  · have haddr : st.blk * fs.blockSize + 0 = addr + st.retLen := hat h0
    have hnext : AtBlock fs addr (st.advance st.len) := fun hne => absurd (Nat.sub_self _) hne
    rw [if_neg h0, wp_readBlock]
    refine ⟨?_, fun hm => (wp_done _ _ _).mpr (h.done fun _ => ⟨_, hm⟩)⟩
    refine wp_seq (copyAndWrite_spec h (Nat.le_refl _) haddr
      (patch_window_patch v' st.buf (by omega)) hnext) fun r v₁ hr => ?_
    cases r with
    | out r => exact (wp_done _ _ _).mpr hr.1
    | next st₁ =>
      have h₁ := hr.2 st₁ rfl
      have h₂ := hr.1.1.len_eq
      exact (wp_done _ _ _).mpr (hr.1.1.done fun hlt => by omega)

def writeClusterStart (fs : FsInfo) (buf : ℕ → UInt8) (len cls offset : ℕ) : WriteClusterState where
  buf := buf
  blk := clsToBlk fs cls + offset >>> fs.blockBits
  retLen := 0
  len := len

theorem WriteProgress.start (cls offset : ℕ) :
    WriteProgress buf len addr v (writeClusterStart fs buf len cls offset) v :=
  ⟨Nat.zero_le _, rfl, funext fun i => by rw [window_apply, writeClusterStart, Nat.zero_add],
    (patch_zero v buf addr).symm⟩

/-- Block and byte of an offset in a cluster. -/
theorem offset_block (hblk : fs.blockSize = 2 ^ fs.blockBits) (cls offset : ℕ) :
    (clsToBlk fs cls + offset >>> fs.blockBits) * fs.blockSize + (offset &&& (fs.blockSize - 1)) =
      clsToBlk fs cls * fs.blockSize + offset ∧
    offset &&& (fs.blockSize - 1) < fs.blockSize := by
  have hmask : offset &&& (fs.blockSize - 1) = offset % fs.blockSize := by
    rw [hblk, Nat.and_two_pow_sub_one_eq_mod]
  have hshift : offset >>> fs.blockBits = offset / fs.blockSize := by
    rw [Nat.shiftRight_eq_div_pow, ← hblk]
  have hpos : 0 < fs.blockSize := by
    rw [hblk]
    exact Nat.two_pow_pos _
  have hsplit := Nat.div_add_mod offset fs.blockSize
  rw [hmask, hshift, Nat.add_mul, Nat.mul_comm (offset / fs.blockSize)]
  exact ⟨by omega, Nat.mod_lt _ hpos⟩

/-- **`sfat_write_cluster` writes what it reports**: the first bytes of the buffer, from the byte of
the position on; with fewer than asked for, some request has failed. -/
theorem sfatWriteCluster_spec (hblk : fs.blockSize = 2 ^ fs.blockBits) (cls offset : ℕ) :
    wp H.world (sfatWriteCluster fs buf len cls offset) (fun r v' =>
      WriteDone H buf len (clsToBlk fs cls * fs.blockSize + offset) v r.1 v') v := by
  obtain ⟨haddr, hoff⟩ := offset_block hblk cls offset
  rw [sfatWriteCluster, wp_blkholderAlloc]
  intro page hp
  cases page with
  | none => exact (wp_done _ _ _).mpr ⟨Nat.zero_le _, (patch_zero v buf _).symm, fun _ => ⟨_, hp rfl⟩⟩
  | some page =>
    refine wp_seq (writeFirstBlock_spec (WriteProgress.start cls offset) hoff haddr) fun r v₁ hr => ?_
    cases r with
    | out r => exact (wp_done _ _ _).mpr hr
    | next st =>
      refine wp_seq (writeWholeBlocks_spec (by omega) st.len hr.1 hr.2 (Nat.le_refl _))
        fun r v₂ hr₂ => ?_
      cases r with
      | out r => exact (wp_done _ _ _).mpr hr₂.1
      | next st₂ => exact writeLastBlock_spec hr₂.1.1 hr₂.1.2 (hr₂.2 st₂ rfl)

/-! ### The blocks of a call -/

variable {P : Request → Prop}

/-- A property of the requests allows a write of `len` bytes at `addr`. -/
structure AllowsWrite (P : Request → Prop) (fs : FsInfo) (len addr : ℕ) : Prop where
  page : P .blkholderAlloc
  copy : ∀ n, P (.copyFromUser n)
  read : ∀ b, b * fs.blockSize < addr + len → P (.readBlock fs.blockSize b)
  write : ∀ b d, b * fs.blockSize < addr + len → P (.writeBlock fs.blockSize b d)

theorem asks_copyAndWrite (hP : AllowsWrite P fs len addr) {st : WriteClusterState}
    (hblk : st.blk * fs.blockSize < addr + len) (data : Page) (off n : ℕ) (v' : Vol) :
    asks H.world P (copyAndWrite fs st data off n) v' := by
  rw [copyAndWrite, asks_copyFromUser]
  refine ⟨hP.copy n, fun copied _ _ => ?_⟩
  split
  · exact asks_done _ _ _
  · rw [asks_writeBlock]
    exact ⟨hP.write _ _ hblk, asks_done _ _ _, fun _ => asks_done _ _ _⟩

theorem asks_writeFirstBlock (hP : AllowsWrite P fs len addr) {st : WriteClusterState} {v' : Vol}
    {off : ℕ} (h : WriteProgress buf len addr v st v')
    (haddr : st.blk * fs.blockSize + off = addr + st.retLen) :
    asks H.world P (writeFirstBlock fs st off) v' := by
  have hle := h.retLen_le
  rw [writeFirstBlock]
  by_cases h0 : off = 0
  · rw [if_pos h0]
    exact asks_done _ _ _
  · rw [if_neg h0, asks_readBlock]
    have hblk : st.blk * fs.blockSize < addr + len := by omega
    exact ⟨hP.read _ hblk, asks_copyAndWrite hP hblk _ _ _ _, fun _ => asks_done _ _ _⟩

theorem asks_writeWholeBlocks (hP : AllowsWrite P fs len addr) (hbs : 0 < fs.blockSize) (fuel : ℕ)
    {st : WriteClusterState} {v' : Vol} (h : WriteProgress buf len addr v st v')
    (hat : AtBlock fs addr st) (hfuel : st.len ≤ fuel) :
    asks H.world P (writeWholeBlocks fs fuel st) v' := by
  induction fuel generalizing st v' with
  | zero => exact asks_done _ _ _
  | succ fuel ih =>
    rw [writeWholeBlocks]
    by_cases hle : fs.blockSize ≤ st.len
    · have hblk := hat (by omega)
      have haddr : st.blk * fs.blockSize + 0 = addr + st.retLen := hblk
      have hlen := h.len_eq
      have hwhole : putBlock v' fs.blockSize st.blk (patch st.buf 0 fs.blockSize st.buf) =
          patch v' (st.blk * fs.blockSize + 0) fs.blockSize st.buf := putBlock_whole _ _ _ _
      rw [if_pos hle, asks_bind]
      refine ⟨asks_copyAndWrite hP (by omega) _ _ _ _, ?_⟩
      refine wp_mono (copyAndWrite_spec h hle haddr hwhole (hat.advance hle)) fun r v₁ hr => ?_
      cases r with
      | out r => exact asks_done _ _ _
      | next st₁ =>
        have hlen := hr.2 st₁ rfl
        exact ih hr.1.1 hr.1.2 (by omega)
    · rw [if_neg hle]
      exact asks_done _ _ _

theorem asks_writeLastBlock (hP : AllowsWrite P fs len addr) {st : WriteClusterState} {v' : Vol}
    (h : WriteProgress buf len addr v st v') (hat : AtBlock fs addr st) :
    asks H.world P (writeLastBlock fs st) v' := by
  have hlen := h.len_eq
  rw [writeLastBlock]
  by_cases h0 : st.len = 0
  · rw [if_pos h0]
    exact asks_done _ _ _
  · have hblk := hat h0
    rw [if_neg h0, asks_readBlock]
    refine ⟨hP.read _ (by omega), ?_, fun _ => asks_done _ _ _⟩
    rw [asks_bind]
    refine ⟨asks_copyAndWrite hP (by omega) _ _ _ _, wp_of_forall fun r v₁ => ?_⟩
    cases r with
    | out r => exact asks_done _ _ _
    | next st₁ => exact asks_done _ _ _

/-- **The blocks of `sfat_write_cluster`**: none starts behind the bytes to be written. -/
theorem asks_sfatWriteCluster (hwf : WellFormed fs) (cls offset : ℕ)
    (hP : AllowsWrite P fs len (clsToBlk fs cls * fs.blockSize + offset)) :
    asks H.world P (sfatWriteCluster fs buf len cls offset) v := by
  obtain ⟨haddr, hoff⟩ := offset_block hwf.blockSize_eq cls offset
  have hstart : WriteProgress buf len (clsToBlk fs cls * fs.blockSize + offset) v
      (writeClusterStart fs buf len cls offset) v := WriteProgress.start cls offset
  rw [sfatWriteCluster, asks_blkholderAlloc]
  refine ⟨hP.page, fun page _ => ?_⟩
  cases page with
  | none => exact asks_done _ _ _
  | some page =>
    show asks H.world P (writeFirstBlock fs (writeClusterStart fs buf len cls offset) _ >>= _) v
    rw [asks_bind]
    refine ⟨asks_writeFirstBlock hP hstart haddr, ?_⟩
    refine wp_mono (writeFirstBlock_spec hstart hoff haddr) fun r v₁ hr => ?_
    cases r with
    | out r => exact asks_done _ _ _
    | next st =>
      show asks H.world P (writeWholeBlocks fs st.len st >>= _) v₁
      rw [asks_bind]
      refine ⟨asks_writeWholeBlocks hP (by omega) _ hr.1 hr.2 (Nat.le_refl _), ?_⟩
      refine wp_mono (writeWholeBlocks_spec (by omega) st.len hr.1 hr.2 (Nat.le_refl _))
        fun r v₂ hr₂ => ?_
      cases r with
      | out r => exact asks_done _ _ _
      | next st₂ => exact asks_writeLastBlock hP hr₂.1.1 hr₂.1.2

/-- A call that writes at all asks for the block of its position. -/
theorem firstBlock_of_asks (cls offset : ℕ) (hlen : 0 < len)
    (h : asks H.world P (sfatWriteCluster fs buf len cls offset) v) :
    P (.readBlock fs.blockSize (clsToBlk fs cls + offset >>> fs.blockBits)) ∨
      ∃ d, P (.writeBlock fs.blockSize (clsToBlk fs cls + offset >>> fs.blockBits) d) := by
  rw [sfatWriteCluster, asks_blkholderAlloc] at h
  have h : asks H.world P
      (writeFirstBlock fs (writeClusterStart fs buf len cls offset) (offset &&& (fs.blockSize - 1))
        >>= _) v := h.2 (some 0) (by simp)
  rw [writeFirstBlock] at h
  by_cases h0 : offset &&& (fs.blockSize - 1) = 0
  · rw [if_pos h0] at h
    have h : asks H.world P
      (writeWholeBlocks fs len (writeClusterStart fs buf len cls offset) >>= _) v := h
    obtain ⟨fuel, hfuel⟩ : ∃ fuel, len = fuel + 1 := ⟨len - 1, by omega⟩
    rw [hfuel, writeWholeBlocks] at h
    by_cases hle : fs.blockSize ≤ (writeClusterStart fs buf len cls offset).len
    · rw [if_pos (by rwa [← hfuel]), asks_bind, asks_bind, copyAndWrite, asks_copyFromUser] at h
      have hcopy := h.1.1.2 0 (Nat.zero_le _) (absurd rfl)
      rw [if_neg (by simp), asks_writeBlock] at hcopy
      exact .inr ⟨_, hcopy.1⟩
    · rw [if_neg (by rwa [← hfuel])] at h
      have h : asks H.world P (writeLastBlock fs (writeClusterStart fs buf (fuel + 1) cls offset)) v := h
      have hne : (writeClusterStart fs buf (fuel + 1) cls offset).len ≠ 0 := Nat.succ_ne_zero fuel
      rw [writeLastBlock, if_neg hne, asks_readBlock] at h
      exact .inl h.1
  · rw [if_neg h0, asks_bind, asks_readBlock] at h
    exact .inl h.1.1

end WriteCluster

/-! ### The FAT under data writes -/

section SameFat

variable {fs : FsInfo} {v v' v'' : Vol}

/-- Two volumes have the same words in their first FAT. -/
def SameFat (fs : FsInfo) (v v' : Vol) : Prop := ∀ c < fatWords fs, fatWord fs v' c = fatWord fs v c

theorem SameFat.refl (fs : FsInfo) (v : Vol) : SameFat fs v v := fun _ _ => rfl

theorem SameFat.trans (h : SameFat fs v v') (h' : SameFat fs v' v'') : SameFat fs v v'' :=
  fun c hc => (h' c hc).trans (h c hc)

theorem SameFat.symm (h : SameFat fs v v') : SameFat fs v' v := fun c hc => (h c hc).symm

theorem SameFat.firstFree (h : SameFat fs v v') {c : ℕ} (hc : FirstFree fs v c) :
    FirstFree fs v' c :=
  ⟨hc.1, (h c hc.1).trans hc.2.1, fun k hk => by
    rw [h k (Nat.lt_trans hk hc.1)]
    exact hc.2.2 k hk⟩

theorem SameFat.setFatWord (h : SameFat fs v v') (c x : ℕ) :
    SameFat fs (setFatWord fs v c x) (setFatWord fs v' c x) := by
  intro d hd
  by_cases hdc : d = c
  · rw [hdc, fatWord_setFatWord, fatWord_setFatWord]
  · rw [fatWord_setFatWord_ne hdc, fatWord_setFatWord_ne hdc, h d hd]

/-- The first FAT ends before the data area. -/
theorem fatWordAddr_lt_data (hp : Placed fs) {c : ℕ} (hc : c < fatWords fs) :
    fatWordAddr fs c + 4 ≤ fs.dataStartBlk * fs.blockSize := by
  obtain ⟨w, -, hbs⟩ := hp.blockSize_words
  have hdiv : fs.blockSize / 4 = 2 ^ w := by omega
  have harea := Nat.mul_le_mul_right fs.blockSize hp.fat_before_data
  have hmul : fs.fatLengthBlk * fs.blockSize = 4 * (fs.fatLengthBlk * 2 ^ w) := by
    rw [hbs, Nat.mul_left_comm]
  rw [fatWords, hdiv] at hc
  rw [Nat.add_mul, hmul] at harea
  rw [fatWordAddr]
  omega

/-- A change of a word leaves the data alone. -/
theorem setFatWord_data (hp : Placed fs) {c a : ℕ} (hc : c < fatWords fs) (x : ℕ)
    (ha : fs.dataStartBlk * fs.blockSize ≤ a) : setFatWord fs v c x a = v a := by
  have hword := fatWordAddr_lt_data hp hc
  exact patch_of_ge _ _ (by omega)

/-- A change of a word leaves what is before the FAT alone. -/
theorem setFatWord_before {c a : ℕ} (ha : a < fs.fatStartBlk * fs.blockSize) (x : ℕ) :
    setFatWord fs v c x a = v a := by
  rw [setFatWord, putLe32, patch_of_lt _ _ (by rw [fatWordAddr]; omega)]

/-- What is the same before the data area has the same FAT. -/
theorem SameFat.of_below (hp : Placed fs) (h : ∀ a < fs.dataStartBlk * fs.blockSize, v' a = v a) :
    SameFat fs v v' := by
  intro c hc
  have hword := fatWordAddr_lt_data hp hc
  exact le32_congr fun i hi => h _ (by omega)

/-- A patch of the data area leaves the FAT alone. -/
theorem SameFat.of_patch (hp : Placed fs) {addr n : ℕ} (g : ℕ → UInt8)
    (haddr : fs.dataStartBlk * fs.blockSize ≤ addr) : SameFat fs v (patch v addr n g) :=
  SameFat.of_below hp fun _ ha => patch_of_lt _ _ (by omega)

end SameFat

/-! ### `sfat_sync_write` up to its label `end` -/

/-- The first branch of `sfat_sync_write` and the new clusters: `none` in the state is a loop that
makes no progress. -/
def writeRestData (fs : FsInfo) :
    Option (Loop SyncWriteState SyncWriteState) → Driver (Except Errno SyncWriteState)
  | none => pure (.error .noReturn)
  | some (.out st) => pure (.ok st)
  | some (.next st) => do
    match ← writeNew fs st.len st with
    | none => pure (.error .noReturn)
    | some st => pure (.ok st)

/-- `sfat_sync_write` up to its label `end`: all its requests for the clusters of the file.  The
second result is the inode with its new `i_start`. -/
def syncWriteData (fs : FsInfo) (inode : Inode) (buf : ℕ → UInt8) (len ppos : ℕ) :
    Driver (Except Errno SyncWriteState × Inode) :=
  let st : SyncWriteState :=
    { curCls := inode.iStart, ppos := ppos, len := len, buf := buf, accuLen := 0 }
  if inode.iSize < ppos ∨ len = 0 then pure (.error .einval, inode)
  else if inode.iSize &&& (fs.blockSize - 1) ≠ 0 ∨ ppos < inode.iSize then do
    match ← writeInside fs st with
    | .error e => pure (.error e, inode)
    | .ok r => do
      let r ← writeRestData fs r
      pure (r, inode)
  else do
    let (r, newStart) ← writeAtEnd fs st inode.iSize
    let r ← writeRestData fs (some r)
    pure (r, { inode with iStart := newStart.getD inode.iStart })

/-- What `sfat_sync_write` does with the outcome: the label `end`, unless it returned before. -/
def syncWriteFinish (fs : FsInfo) (ppos : ℕ) :
    Except Errno SyncWriteState × Inode → Driver (Except Errno ℕ × Inode × ℕ)
  | (.error e, inode) => pure (.error e, inode, ppos)
  | (.ok st, inode) => writeEnd fs inode st

section Split

variable {fs : FsInfo}

theorem writeRest_eq (inode : Inode) (ppos : ℕ) (r : Option (Loop SyncWriteState SyncWriteState)) :
    writeRest fs inode ppos r =
      (writeRestData fs r >>= fun r => syncWriteFinish fs ppos (r, inode)) := by
  cases r with
  | none => rfl
  | some r =>
    cases r with
    | out st => rfl
    | next st =>
      rw [writeRest, writeRestData, Program.bind_assoc]
      congr 1
      funext r
      cases r with
      | none => rfl
      | some st => rfl

/-- **`sfat_sync_write` is its work on the clusters and then the flush of the inode.** -/
theorem sfatSyncWrite_eq (inode : Inode) (buf : ℕ → UInt8) (len ppos : ℕ) :
    sfatSyncWrite fs inode buf len ppos =
      (syncWriteData fs inode buf len ppos >>= syncWriteFinish fs ppos) := by
  rw [sfatSyncWrite, syncWriteData]
  simp only []
  split
  · rfl
  · split
    · rw [Program.bind_assoc]
      congr 1
      funext r
      cases r with
      | error e => rfl
      | ok r =>
        show writeRest fs inode ppos r = _
        rw [writeRest_eq]
        show _ = (writeRestData fs r >>= _ >>= _)
        rw [Program.bind_assoc]
        rfl
    · rw [Program.bind_assoc]
      congr 1
      funext r
      show writeRest fs _ ppos (some r.1) = _
      rw [writeRest_eq]
      show _ = (writeRestData fs (some r.1) >>= _ >>= _)
      rw [Program.bind_assoc]
      rfl

end Split

/-! ### One cluster of `sfat_sync_write` -/

section Chunk

variable {H : Host} {fs : FsInfo} {v : Vol}

/-- The bytes that go to the current cluster. -/
def chunkLen (fs : FsInfo) (st : SyncWriteState) (offset : ℕ) : ℕ :=
  min st.len (fs.clusterSize - offset)

def ChunkOutcome (H : Host) (fs : FsInfo) (st : SyncWriteState) (offset : ℕ) (v : Vol) :
    Loop SyncWriteState (SyncWriteState × ℕ) → Vol → Prop
  | .next st', v' => st' = st.advance (chunkLen fs st offset) ∧
      WriteDone H st.buf (chunkLen fs st offset) (clsToBlk fs st.curCls * fs.blockSize + offset) v
        (chunkLen fs st offset) v'
  | .out (st', n), v' => st' = st.advance n ∧ n < chunkLen fs st offset ∧
      WriteDone H st.buf (chunkLen fs st offset) (clsToBlk fs st.curCls * fs.blockSize + offset) v n v'

theorem writeChunk_spec (hblk : fs.blockSize = 2 ^ fs.blockBits) (st : SyncWriteState) (offset : ℕ) :
    wp H.world (writeChunk fs st offset) (ChunkOutcome H fs st offset v) v := by
  rw [writeChunk]
  refine wp_seq (sfatWriteCluster_spec hblk st.curCls offset) fun r v' hr => ?_
  obtain ⟨n, e⟩ := r
  show wp H.world (if n < chunkLen fs st offset then _ else _) _ v'
  by_cases hlt : n < chunkLen fs st offset
  · rw [if_pos hlt]
    exact (wp_done _ _ _).mpr ⟨rfl, hlt, hr⟩
  · rw [if_neg hlt]
    obtain rfl : n = chunkLen fs st offset := Nat.le_antisymm hr.retLen_le (by omega)
    exact (wp_done _ _ _).mpr ⟨rfl, hr⟩

theorem asks_writeChunk {P : Request → Prop} (hwf : WellFormed fs) (st : SyncWriteState) (offset : ℕ)
    (hP : AllowsWrite P fs (chunkLen fs st offset) (clsToBlk fs st.curCls * fs.blockSize + offset)) :
    asks H.world P (writeChunk fs st offset) v := by
  rw [writeChunk, asks_bind]
  refine ⟨asks_sfatWriteCluster hwf st.curCls offset hP, wp_of_forall fun r v' => ?_⟩
  obtain ⟨n, e⟩ := r
  show asks H.world P (if n < chunkLen fs st offset then _ else _) v'
  split
  · exact asks_done _ _ _
  · exact asks_done _ _ _

end Chunk

end SimpleFat
