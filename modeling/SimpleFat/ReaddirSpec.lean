import SimpleFat.DirectorySlots

/-!
# What `sfat_readdir` emits

`Emits` relates a list of slots to the calls of `filldir` that report its used slots at their
positions.  A walk over slots either passes over all of them (`Passed`), or stops inside them at
the terminator or at an entry that `filldir` refuses (`Stopped`).

* `readdirSlots_spec`, `readdirBlocks_spec`, `readdirClusters_spec` — the three loops;
* `wp_sfatSeek` — the cluster and the offset in it of a position;
* `sfatReaddir_spec` — one call from a position in the directory.
-/

namespace SimpleFat

open SimpleFat.Lib

theorem ReaddirState.error_zero {st : ReaddirState} (h : st.error = 0) :
    ({ st with error := 0 } : ReaddirState) = st := by rw [← h]

/-- A call of `filldir` that reports a slot at a position. -/
structure Reports (pos : ℕ) (s : Slot) (call : FilldirCall) : Prop where
  name : call.name = s.de.name
  pos : call.pos = pos
  isDir : call.isDir = s.de.isDir

/-- The calls report the slots that are not empty, from position `pos` on. -/
inductive Emits : ℕ → List Slot → List FilldirCall → Prop
  | nil {pos : ℕ} : Emits pos [] []
  | skip {pos : ℕ} {s : Slot} {slots : List Slot} {calls : List FilldirCall} :
      s.isEmpty = true → Emits (pos + 32) slots calls → Emits pos (s :: slots) calls
  | emit {pos : ℕ} {s : Slot} {slots : List Slot} {call : FilldirCall}
      {calls : List FilldirCall} : s.isEmpty = false → Reports pos s call →
      Emits (pos + 32) slots calls → Emits pos (s :: slots) (call :: calls)

theorem Emits.append {pos : ℕ} {as bs : List Slot} {calls calls' : List FilldirCall}
    (ha : Emits pos as calls) (hb : Emits (pos + 32 * as.length) bs calls') :
    Emits pos (as ++ bs) (calls ++ calls') := by
  induction ha with
  | nil => exact hb
  | skip hs _ ih =>
    refine .skip hs (ih ?_)
    rwa [List.length_cons, Nat.mul_add, Nat.add_comm (32 * _), ← Nat.add_assoc] at hb
  | emit hs hr _ ih =>
    refine .emit hs hr (ih ?_)
    rwa [List.length_cons, Nat.mul_add, Nat.add_comm (32 * _), ← Nat.add_assoc] at hb

/-- A walk passed over slots without meeting the terminator or a refusal. -/
structure Passed (slots : List Slot) (st st' : ReaddirState) : Prop where
  noEnd : slots.any Slot.isEnd = false
  error : st'.error = 0
  cpos : st'.cpos = st.cpos + 32 * slots.length
  emitted : ∃ calls, st'.dirent = st.dirent ++ calls ∧ Emits st.cpos slots calls

theorem Passed.refl {st : ReaddirState} (h : st.error = 0) : Passed [] st st :=
  ⟨rfl, h, rfl, [], (List.append_nil _).symm, .nil⟩

theorem Passed.trans {as bs : List Slot} {st st₁ st₂ : ReaddirState} (ha : Passed as st st₁)
    (hb : Passed bs st₁ st₂) : Passed (as ++ bs) st st₂ := by
  obtain ⟨calls, hd, he⟩ := ha.emitted
  obtain ⟨calls', hd', he'⟩ := hb.emitted
  refine ⟨?_, hb.error, ?_, calls ++ calls', ?_, he.append ?_⟩
  · rw [List.any_append, ha.noEnd, hb.noEnd]
    rfl
  · rw [hb.cpos, ha.cpos, List.length_append]
    ring
  · rw [hd', hd, List.append_assoc]
  · rw [← ha.cpos]
    exact he'

/-- A walk stopped inside some slots: at the terminator, or at an entry that was refused. -/
inductive Stopped (refuse : FilldirCall → Prop) (slots : List Slot) (st st' : ReaddirState) : Prop
  | atEnd {pre : List Slot} {s : Slot} {post : List Slot} {st₁ : ReaddirState} :
      slots = pre ++ s :: post → Passed pre st st₁ → s.isEnd = true →
      st' = { st₁ with cpos := st₁.cpos + 32 } → Stopped refuse slots st st'
  | refused {pre : List Slot} {s : Slot} {post : List Slot} {st₁ : ReaddirState}
      {call : FilldirCall} :
      slots = pre ++ s :: post → Passed pre st st₁ → s.isEnd = false → s.isEmpty = false →
      Reports st₁.cpos s call → refuse call → st'.error < 0 → st'.cpos = st₁.cpos →
      st'.dirent = st₁.dirent → Stopped refuse slots st st'

theorem Stopped.prepend {refuse : FilldirCall → Prop} {as bs : List Slot}
    {st st₁ st' : ReaddirState} (ha : Passed as st st₁) (hb : Stopped refuse bs st₁ st') :
    Stopped refuse (as ++ bs) st st' := by
  cases hb with
  | atEnd hsplit hpass hend hst =>
    exact .atEnd (by rw [hsplit, ← List.append_assoc]) (ha.trans hpass) hend hst
  | refused hsplit hpass hend hemp hrep href herr hpos hdir =>
    exact .refused (by rw [hsplit, ← List.append_assoc]) (ha.trans hpass) hend hemp hrep href herr
      hpos hdir

theorem Stopped.append {refuse : FilldirCall → Prop} {as : List Slot} {st st' : ReaddirState}
    (ha : Stopped refuse as st st') (bs : List Slot) : Stopped refuse (as ++ bs) st st' := by
  cases ha with
  | atEnd hsplit hpass hend hst =>
    exact .atEnd (by rw [hsplit, List.append_assoc, List.cons_append]) hpass hend hst
  | refused hsplit hpass hend hemp hrep href herr hpos hdir =>
    exact .refused (by rw [hsplit, List.append_assoc, List.cons_append]) hpass hend hemp hrep href
      herr hpos hdir

def SlotsOutcome (refuse : FilldirCall → Prop) (slots : List Slot) (st : ReaddirState) :
    Loop ReaddirState ReaddirState → Prop
  | .next st' => Passed slots st st'
  | .out st' => Stopped refuse slots st st'

theorem SlotsOutcome.prepend {refuse : FilldirCall → Prop} {as bs : List Slot}
    {st st₁ : ReaddirState} {r : Loop ReaddirState ReaddirState} (ha : Passed as st st₁)
    (hb : SlotsOutcome refuse bs st₁ r) : SlotsOutcome refuse (as ++ bs) st r := by
  cases r with
  | next st' => exact ha.trans hb
  | out st' => exact Stopped.prepend ha hb

section Loops

variable {refuse : FilldirCall → Prop} {look : (blk pos : ℕ) → Page → ℕ} {fs : FsInfo} {v : Vol}

/-- The slots of a page. -/
theorem readdirSlots_spec (cls blk : ℕ) (data : Page) (n k : ℕ) {st : ReaddirState}
    (h0 : st.error = 0) :
    wp (refusingWorld refuse look) (readdirSlots data n (32 * k) st)
      (fun r v' => v' = v ∧ SlotsOutcome refuse (pageSlots cls blk data n k) st r) v := by
  induction n generalizing k st with
  | zero => exact (wp_done _ _ _).mpr ⟨rfl, Passed.refl h0⟩
  | succ n ih =>
    have hstep : 32 * k + 32 = 32 * (k + 1) := by ring
    rw [readdirSlots, pageSlots_succ, hstep]
    generalize hs : (⟨cls, blk, k, direntAt data (32 * k)⟩ : Slot) = s
    have hde : direntAt data (32 * k) = s.de := by rw [← hs]
    rw [hde]
    -- the rest of the page after this slot was passed over
    have hrest : ∀ st₁ : ReaddirState, Passed [s] st st₁ →
        wp (refusingWorld refuse look) (readdirSlots data n (32 * (k + 1)) st₁)
          (fun r v' => v' = v ∧
            SlotsOutcome refuse (s :: pageSlots cls blk data n (k + 1)) st r) v := fun st₁ hp =>
      wp_mono (ih (k + 1) hp.error) fun r v' hr => ⟨hr.1, SlotsOutcome.prepend hp hr.2⟩
    by_cases hend : s.de.isEnd = true
    · rw [if_pos hend]
      have hsplit : s :: pageSlots cls blk data n (k + 1) =
          [] ++ s :: pageSlots cls blk data n (k + 1) := rfl
      exact (wp_done _ _ _).mpr ⟨rfl, Stopped.atEnd hsplit (Passed.refl h0) hend rfl⟩
    · have hend : s.isEnd = false := by simpa [Slot.isEnd] using hend
      have hany : [s].any Slot.isEnd = false := by simp [hend]
      rw [if_neg (by rw [← Slot.isEnd, hend]; exact Bool.false_ne_true)]
      by_cases hemp : s.de.isEmpty = true
      · rw [if_pos hemp]
        exact hrest _ ⟨hany, h0, rfl, [], (List.append_nil _).symm, .skip hemp .nil⟩
      · have hemp : s.isEmpty = false := by simpa [Slot.isEmpty] using hemp
        rw [if_neg (by rw [← Slot.isEmpty, hemp]; exact Bool.false_ne_true), wp_iunique]
        intro ino _
        simp only [wp_filldir]
        intro error herror
        have hrep : ∀ len, Reports st.cpos s ⟨s.de.name, len, st.cpos, ino, s.de.isDir⟩ :=
          fun len => ⟨rfl, rfl, rfl⟩
        rcases herror with rfl | ⟨hneg, href⟩
        · rw [if_neg (lt_irrefl 0)]
          exact hrest _ ⟨hany, rfl, rfl, [_], rfl, .emit hemp (hrep _) .nil⟩
        · have hsplit : s :: pageSlots cls blk data n (k + 1) =
              [] ++ s :: pageSlots cls blk data n (k + 1) := rfl
          rw [if_pos hneg]
          exact (wp_done _ _ _).mpr ⟨rfl, Stopped.refused hsplit (Passed.refl h0) hend hemp
            (hrep _) href hneg rfl rfl⟩

/-- The slots of `n` blocks of a cluster from block `blk` on, the first entered at slot `k`. -/
def blockSlotsFrom (fs : FsInfo) (v : Vol) (cls : ℕ) : (n blk k : ℕ) → List Slot
  | 0, _, _ => []
  | n + 1, blk, k =>
    pageSlots cls blk (blockAt v fs.blockSize (clsToBlk fs cls + blk)) (fs.direntPerBlk - k) k ++
      blockSlots fs v cls n (blk + 1)

theorem pageSlots_drop (cls blk : ℕ) (data : Page) (n k : ℕ) :
    (pageSlots cls blk data n 0).drop k = pageSlots cls blk data (n - k) k := by
  rw [pageSlots, pageSlots, ← List.map_drop, List.drop_range', Nat.mul_one, Nat.zero_add]

theorem blockSlotsFrom_zero (cls n blk : ℕ) :
    blockSlotsFrom fs v cls n blk 0 = blockSlots fs v cls n blk := by
  cases n with
  | zero => rfl
  | succ n => rw [blockSlotsFrom, blockSlots_succ, Nat.sub_zero]

/-- Entering a cluster in its middle drops the slots before. -/
theorem blockSlotsFrom_eq_drop (cls : ℕ) {n b blk k : ℕ} (hb : b < n)
    (hk : k ≤ fs.direntPerBlk) :
    blockSlotsFrom fs v cls (n - b) (blk + b) k =
      (blockSlots fs v cls n blk).drop (b * fs.direntPerBlk + k) := by
  induction b generalizing n blk with
  | zero =>
    obtain ⟨m, rfl⟩ : ∃ m, n = m + 1 := ⟨n - 1, by omega⟩
    rw [Nat.zero_mul, Nat.zero_add, Nat.sub_zero, Nat.add_zero blk, blockSlotsFrom,
      blockSlots_succ, List.drop_append_of_le_length (by rw [pageSlots_length]; exact hk),
      pageSlots_drop]
  | succ b ih =>
    obtain ⟨m, rfl⟩ : ∃ m, n = m + 1 := ⟨n - 1, by omega⟩
    have hsum : (b + 1) * fs.direntPerBlk + k = fs.direntPerBlk + (b * fs.direntPerBlk + k) := by
      ring
    have hrest : blockSlotsFrom fs v cls (m - b) (blk + 1 + b) k =
        (blockSlots fs v cls m (blk + 1)).drop (b * fs.direntPerBlk + k) := ih (by omega)
    rw [blockSlots_succ, hsum, ← List.drop_drop,
      List.drop_left' (by rw [pageSlots_length]), ← hrest, Nat.add_sub_add_right]
    congr 1
    omega

/-- The blocks of a cluster. -/
theorem readdirBlocks_spec (hwf : WellFormed fs) (cls n blk k : ℕ) (hk : k ≤ fs.direntPerBlk)
    {st : ReaddirState} (h0 : st.error = 0) :
    wp (refusingWorld refuse look)
      (readdirBlocks fs n (clsToBlk fs cls + blk) (32 * k) st)
      (fun r v' => v' = v ∧ SlotsOutcome refuse (blockSlotsFrom fs v cls n blk k) st r) v := by
  induction n generalizing blk k st with
  | zero => exact (wp_done _ _ _).mpr ⟨rfl, Passed.refl h0⟩
  | succ n ih =>
    have hslots : (fs.blockSize - 32 * k + 31) / 32 = fs.direntPerBlk - k := by
      obtain ⟨d, -, hd, hbs⟩ := hwf.blockSize_slots
      omega
    have hst := ReaddirState.error_zero h0
    rw [readdirBlocks, wp_readBlock_lookups, blockSlotsFrom, hslots]
    simp only []
    rw [hst]
    refine wp_seq (readdirSlots_spec cls blk _ _ k h0) fun r v' hr => ?_
    obtain ⟨rfl, hr⟩ := hr
    cases r with
    | out st' => exact (wp_done _ _ _).mpr ⟨rfl, Stopped.append hr _⟩
    | next st' =>
      rw [Nat.add_assoc]
      refine wp_mono (ih (blk + 1) 0 (Nat.zero_le _) hr.error) fun r v' hr' => ⟨hr'.1, ?_⟩
      rw [blockSlotsFrom_zero] at hr'
      exact SlotsOutcome.prepend hr hr'.2

/-- How the loop over clusters ends, on the slots of all rounds but the last. -/
inductive WalkOutcome (refuse : FilldirCall → Prop) (slots : List Slot) (ended : Bool)
    (st st' : ReaddirState) : Prop
  | stopped : Stopped refuse slots st st' → WalkOutcome refuse slots ended st st'
  | passed : ended = true → Passed slots st st' → WalkOutcome refuse slots ended st st'
  | exhausted : ended = false → slots.any Slot.isEnd = false → st'.error = Errno.einval.code →
      WalkOutcome refuse slots ended st st'

theorem WalkOutcome.prepend {as bs : List Slot} {ended : Bool} {st st₁ st' : ReaddirState}
    (ha : Passed as st st₁) (hb : WalkOutcome refuse bs ended st₁ st') :
    WalkOutcome refuse (as ++ bs) ended st st' := by
  cases hb with
  | stopped hs => exact .stopped (hs.prepend ha)
  | passed he hp => exact .passed he (ha.trans hp)
  | exhausted he hn herr =>
    exact .exhausted he (by rw [List.any_append, ha.noEnd, hn]; rfl) herr

/-- The last round ends with an error, whatever it meets. -/
theorem readdirClusters_one (hwf : WellFormed fs) (cls blkOff k : ℕ) (hk : k ≤ fs.direntPerBlk)
    {st : ReaddirState} (h0 : st.error = 0) :
    wp (refusingWorld refuse look) (readdirClusters fs 1 cls blkOff (32 * k) st)
      (fun st' v' => v' = v ∧ st'.error = Errno.einval.code) v := by
  rw [readdirClusters]
  refine wp_seq (readdirBlocks_spec hwf cls _ blkOff k hk h0) fun r v' hr => ?_
  obtain ⟨rfl, -⟩ := hr
  cases r with
  | out st' => exact (wp_done _ _ _).mpr ⟨rfl, rfl⟩
  | next st' =>
    simp only []
    rw [wp_bind, wp_sfatGetEntryContent_lookups]
    split
    · exact (wp_done _ _ _).mpr ⟨rfl, rfl⟩
    · show wp (refusingWorld refuse look) (if _ then _ else _) _ _
      split
      · exact (wp_done _ _ _).mpr ⟨rfl, rfl⟩
      · rw [readdirClusters]
        exact (wp_done _ _ _).mpr ⟨rfl, rfl⟩

/-- **The clusters of the walk**, the first one entered at slot `k` of block `blkOff`. -/
theorem readdirClusters_spec (hwf : WellFormed fs) (n cls : ℕ) {blkOff k : ℕ}
    (hb : blkOff < fs.blkPerClus) (hk : k ≤ fs.direntPerBlk) {st : ReaddirState}
    (h0 : st.error = 0) :
    wp (refusingWorld refuse look) (readdirClusters fs (n + 1) cls blkOff (32 * k) st)
      (fun st' v' => v' = v ∧ WalkOutcome refuse
        ((dirSlots fs v (walkClusters look fs v n cls)).drop (blkOff * fs.direntPerBlk + k))
        (walkEnded look fs v n cls) st st') v := by
  induction n generalizing cls blkOff k st with
  | zero =>
    refine wp_mono (readdirClusters_one hwf cls blkOff k hk h0) fun st' v' hr => ⟨hr.1, ?_⟩
    refine .exhausted rfl ?_ hr.2
    rw [walkClusters, trail, dirSlots_nil, List.drop_nil]
    rfl
  | succ n ih =>
    have hfirst : blockSlotsFrom fs v cls (fs.blkPerClus - blkOff) blkOff k =
        (clusterSlots fs v cls).drop (blkOff * fs.direntPerBlk + k) := by
      have h : blockSlotsFrom fs v cls (fs.blkPerClus - blkOff) (0 + blkOff) k =
          (blockSlots fs v cls fs.blkPerClus 0).drop (blkOff * fs.direntPerBlk + k) :=
        blockSlotsFrom_eq_drop cls hb hk
      rwa [Nat.zero_add] at h
    have hlen : blkOff * fs.direntPerBlk + k ≤ (clusterSlots fs v cls).length := by
      rw [clusterSlots_length]
      have := Nat.mul_le_mul_right fs.direntPerBlk (show blkOff + 1 ≤ fs.blkPerClus from hb)
      rw [Nat.add_mul, Nat.one_mul] at this
      omega
    rw [readdirClusters, walkClusters_succ, dirSlots_cons, List.drop_append_of_le_length hlen,
      ← hfirst, walkEnded]
    refine wp_seq (readdirBlocks_spec hwf cls _ blkOff k hk h0) fun r v' hr => ?_
    obtain ⟨rfl, hr⟩ := hr
    cases r with
    | out st' =>
      exact (wp_done _ _ _).mpr ⟨rfl, .stopped (Stopped.append hr _)⟩
    | next st' =>
      simp only []
      rw [wp_bind, wp_sfatGetEntryContent_lookups]
      have hst := ReaddirState.error_zero hr.error
      by_cases hpred : fs.clustersPred ≤ cls
      · rw [if_pos hpred, if_pos hpred, if_pos hpred, dirSlots_nil, List.append_nil]
        exact (wp_done _ _ _).mpr ⟨rfl, .exhausted rfl hr.noEnd rfl⟩
      · rw [if_neg hpred, if_neg hpred, if_neg hpred]
        show wp (refusingWorld refuse look) (if _ then _ else _) _ _
        by_cases hnext : fs.clusters < nextWord look fs v' cls
        · rw [if_pos hnext, if_pos hnext, if_pos hnext, dirSlots_nil, List.append_nil,
            if_neg (Nat.succ_ne_zero n), hst]
          exact (wp_done _ _ _).mpr ⟨rfl, .passed rfl hr⟩
        · rw [if_neg hnext, if_neg hnext, if_neg hnext, hst]
          refine wp_mono (ih _ hwf.blkPerClus_pos (Nat.zero_le _) hr.error) fun st₂ v₂ hr₂ =>
            ⟨hr₂.1, ?_⟩
          have hwalk := hr₂.2
          rw [Nat.zero_mul, Nat.zero_add, List.drop_zero] at hwalk
          exact WalkOutcome.prepend hr hwalk

end Loops

/-! ### One call -/

/-- The bound on the rounds, without the reduction of `size_t`. -/
theorem dirRounds_eq {fs : FsInfo} (hwf : WellFormed fs) {size : ℕ} (hpos : 0 < size)
    (hlt : size + fs.clusterSize ≤ sizeT) :
    dirRounds fs size = (size + fs.clusterSize - 1) / fs.clusterSize + 1 := by
  have hmod : (size + (fs.clusterSize + (sizeT - 1))) % sizeT = size + fs.clusterSize - 1 := by
    rw [sizeT] at *
    omega
  rw [dirRounds, hmod, Nat.shiftRight_eq_div_pow, ← hwf.clusterSize_eq, Nat.add_comm]

/-- Block, slot and byte of an offset in a cluster. -/
theorem offset_parts {fs : FsInfo} (hwf : WellFormed fs) {offset : ℕ}
    (hoff : offset < fs.clusterSize) (h32 : offset % 32 = 0) :
    offset >>> fs.blockBits < fs.blkPerClus ∧
    ∃ k ≤ fs.direntPerBlk, offset &&& (fs.blockSize - 1) = 32 * k ∧
      offset >>> fs.blockBits * fs.direntPerBlk + k = offset / 32 := by
  obtain ⟨d, hd16, hd, hbs⟩ := hwf.blockSize_slots
  have hmask : offset &&& (fs.blockSize - 1) = offset % fs.blockSize := by
    rw [hwf.blockSize_eq, Nat.and_two_pow_sub_one_eq_mod]
  have hshift : offset >>> fs.blockBits = offset / fs.blockSize := by
    rw [Nat.shiftRight_eq_div_pow, ← hwf.blockSize_eq]
  have hmod := Nat.mod_lt offset (show 0 < fs.blockSize by omega)
  have hsplit := Nat.div_add_mod offset fs.blockSize
  have hlt : offset / fs.blockSize < fs.blkPerClus := by
    rw [Nat.div_lt_iff_lt_mul (by omega), ← hwf.clusterSize_blocks]
    exact hoff
  rw [hmask, hshift, hd, hbs] at *
  have hmul : 32 * d * (offset / (32 * d)) = 32 * (offset / (32 * d) * d) := by ring
  refine ⟨hlt, offset % (32 * d) / 32, by omega, by omega, by omega⟩

/-- **One call of `sfat_readdir`** from a position in the directory whose cluster the seek finds. -/
theorem sfatReaddir_spec {refuse : FilldirCall → Prop} {look : (blk pos : ℕ) → Page → ℕ}
    {fs : FsInfo} {v : Vol} (hwf : WellFormed fs) {iStart iSize fPos cls : ℕ} (h32 : 32 ≤ iSize)
    (hlt : iSize + fs.clusterSize ≤ sizeT) (hpos : fPos < iSize) (halign : fPos % 32 = 0)
    (hstart : ¬ fs.clustersPred ≤ iStart)
    (hcls : linked (nextCls look fs v) (fPos / fs.clusterSize) iStart = some cls) :
    wp (refusingWorld refuse look) (sfatReaddir fs iStart iSize fPos) (fun st v' => v' = v ∧
      WalkOutcome refuse
        ((dirSlots fs v (walkClusters look fs v ((iSize + fs.clusterSize - 1) / fs.clusterSize) cls)).drop
          (fPos % fs.clusterSize / 32))
        (walkEnded look fs v ((iSize + fs.clusterSize - 1) / fs.clusterSize) cls)
        ⟨0, fPos, []⟩ st) v := by
  have hcs := hwf.clusterSize_pos
  have h32cs : 32 ∣ fs.clusterSize := by
    obtain ⟨d, -, -, hbs⟩ := hwf.blockSize_slots
    rw [hwf.clusterSize_blocks, hbs]
    exact Dvd.intro_left (fs.blkPerClus * d) (by ring)
  have hoff32 : fPos % fs.clusterSize % 32 = 0 := by
    rw [Nat.mod_mod_of_dvd _ h32cs, halign]
  obtain ⟨hblk, k, hk, hbyte, hslot⟩ := offset_parts hwf (Nat.mod_lt fPos hcs) hoff32
  rw [sfatReaddir]
  simp only []
  rw [if_neg (by omega), if_neg (by omega), if_neg (by omega), wp_bind, wp_sfatSeek hwf,
    if_neg hstart, hcls]
  simp only [seekOutcome]
  rw [wp_blkholderAlloc_lookups]
  intro addr
  rw [dirRounds_eq hwf (by omega) hlt, hbyte]
  refine wp_mono (readdirClusters_spec hwf _ cls hblk hk rfl) fun st v' hr => ?_
  rw [hslot] at hr
  exact hr

/-- A call that the seek refuses. -/
theorem sfatReaddir_refused {refuse : FilldirCall → Prop} {look : (blk pos : ℕ) → Page → ℕ}
    {fs : FsInfo} {v : Vol} (hwf : WellFormed fs) {iStart iSize fPos : ℕ} (h32 : 32 ≤ iSize)
    (hstart : fs.clustersPred ≤ iStart) :
    wp (refusingWorld refuse look) (sfatReaddir fs iStart iSize fPos)
      (fun st _ => st.error ≠ 0) v := by
  rw [sfatReaddir]
  simp only []
  rw [if_neg (by omega)]
  split
  · exact (wp_done _ _ _).mpr (show Errno.einval.code ≠ 0 by decide)
  · split
    · exact (wp_done _ _ _).mpr (show Errno.enoent.code ≠ 0 by decide)
    · rw [wp_bind, wp_sfatSeek hwf, if_pos hstart]
      exact (wp_done _ _ _).mpr (show Errno.einval.code ≠ 0 by decide)

end SimpleFat
