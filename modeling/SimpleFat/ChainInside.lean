import SimpleFat.ClusterLeak
import SimpleFat.ReaddirSpec

/-!
# Walks that stay in the data area

The exact conditions under which `sfat_readdir` and `sfat_sync_write` stay inside, and the result
for all five walkers.  `sfat_sync_write` follows every link below `SFAT_ENTRY_MAX`, and its seek
every link up to `clusters`.

* `asks_readdirClusters`, `asks_sfatSeek` — the scanner that starts in the middle;
* `LinksInside`, `TakesInside` — what a write may follow and take;
* `asks_syncWriteData` — a write on its clusters;
* `chain_inside_iff` — the five equivalences.
-/

namespace SimpleFat

open SimpleFat.Lib

variable {mayFail : Request → Prop} {fs : FsInfo} {v : Vol} {α : Type}

/-! ### `sfat_readdir` -/

section Readdir

variable {rest : Prop} {cls : ℕ}

theorem asks_readdirBlocks (hp : Placed fs) (hcls : cls < fs.clusters)
    {f : Loop ReaddirState ReaddirState → Driver α}
    (hf : ∀ st, asks (storedWorld mayFail) (RequestInside fs) (f (.out st)) v)
    (hnext : ∀ st, asks (storedWorld mayFail) (RequestInside fs) (f (.next st)) v ↔ rest)
    (n blk k : ℕ) (hn : blk + n ≤ fs.blkPerClus) (hk : k ≤ fs.direntPerBlk) (st : ReaddirState) :
    asks (storedWorld mayFail) (RequestInside fs)
        (readdirBlocks fs n (clsToBlk fs cls + blk) (32 * k) st >>= f) v ↔
      (stopsAtEnd (blockSlotsFrom fs v cls n blk k) = false → rest) := by
  have hmax := hp.clusters_lt
  rw [sfatEntryMax] at hmax
  induction n generalizing blk k st with
  | zero => exact ⟨fun h _ => (hnext st).mp h, fun h => (hnext st).mpr (h rfl)⟩
  | succ n ih =>
    have hblk : BlockInside fs (clsToBlk fs cls + blk) :=
      (blockInside_cluster hp (by omega) (by omega)).mpr hcls
    have hslots : (fs.blockSize - 32 * k + 31) / 32 = fs.direntPerBlk - k := by
      obtain ⟨d, -, hd, hbs⟩ := hp.blockSize_slots
      omega
    rw [readdirBlocks, Program.bind_assoc, asks_read hblk (hf _), blockSlotsFrom, stopsAtEnd_append,
      hslots]
    show asks _ _ ((readdirSlots _ _ _ _ >>= _) >>= f) v ↔ _
    rw [Program.bind_assoc]
    have hrest : ∀ st, asks (storedWorld mayFail) (RequestInside fs)
        (readdirBlocks fs n (clsToBlk fs cls + blk + 1) (32 * 0) st >>= f) v ↔
        (stopsAtEnd (blockSlots fs v cls n (blk + 1)) = false → rest) := by
      intro st
      rw [← blockSlotsFrom_zero, Nat.add_assoc]
      exact ih (blk + 1) 0 (by omega) (Nat.zero_le _) st
    refine (asks_readdirSlots ?_ hrest cls blk _ _ k _).trans ?_
    · exact hf
    · rw [Bool.or_eq_false_iff]
      exact and_imp.symm

/-- A scan that starts in the middle of its first cluster. -/
def stopsBehind (i : ℕ) (slots : List Slot) : Bool := stopsAtEnd (slots.drop i)

/-- **`sfat_readdir` stays inside** exactly if a terminator behind its position stops it in time. -/
theorem asks_readdirClusters (hp : Placed fs) (n : ℕ) (hcls : cls ≤ fs.clusters) {blkOff k : ℕ}
    (hb : blkOff < fs.blkPerClus) (hk : k ≤ fs.direntPerBlk) (st : ReaddirState) :
    asks (storedWorld mayFail) (RequestInside fs) (readdirClusters fs n cls blkOff (32 * k) st) v ↔
      StopsBefore fs v (stopsBehind (blkOff * fs.direntPerBlk + k)) n cls := by
  have hmax := hp.clusters_lt
  rw [sfatEntryMax] at hmax
  induction n generalizing cls blkOff k st with
  | zero => exact ⟨fun _ => .zero cls, fun _ => asks_done _ _ _⟩
  | succ n ih =>
    rw [readdirClusters]
    rcases Nat.lt_or_eq_of_le hcls with hlt | rfl
    · have hlen : blkOff * fs.direntPerBlk + k ≤ (clusterSlots fs v cls).length := by
        have hmul := Nat.mul_le_mul_right fs.direntPerBlk (show blkOff + 1 ≤ fs.blkPerClus from hb)
        rw [Nat.add_mul, Nat.one_mul] at hmul
        rw [clusterSlots_length]
        omega
      have hfirst : blockSlotsFrom fs v cls (fs.blkPerClus - blkOff) blkOff k =
          (clusterSlots fs v cls).drop (blkOff * fs.direntPerBlk + k) := by
        have h := @blockSlotsFrom_eq_drop fs v cls fs.blkPerClus blkOff 0 k hb hk
        rwa [Nat.zero_add] at h
      have hsplit : ∀ rest, stopsBehind (blkOff * fs.direntPerBlk + k) (clusterSlots fs v cls ++ rest) =
          (stopsBehind (blkOff * fs.direntPerBlk + k) (clusterSlots fs v cls) ||
            stopsBehind (0 * fs.direntPerBlk + 0) rest) := by
        intro rest
        rw [stopsBehind, List.drop_append_of_le_length hlen, stopsAtEnd_append, stopsBehind,
          stopsBehind, Nat.zero_mul, Nat.zero_add, List.drop_zero]
      rw [stopsBefore_succ hp hlt hsplit, ← false_imp_iff_or, stopsBehind, ← hfirst]
      refine asks_readdirBlocks hp hlt ?_ ?_ (fs.blkPerClus - blkOff) blkOff k (by omega) hk st
      · exact fun st => asks_done _ _ _
      · intro st
        refine asks_link hp ?_ ?_ ?_
        · exact fun e => asks_done _ _ _
        · intro next hnext
          show asks _ _ (if _ then _ else _) v
          rw [if_pos hnext]
          exact asks_done _ _ _
        · intro next hnext
          show asks _ _ (if _ then _ else _) v ↔ _
          rw [if_neg (Nat.not_lt.mpr hnext)]
          exact ih hnext hp.blkPerClus_pos (Nat.zero_le _) _
    · refine ⟨fun h => absurd ?_ (not_blockInside_last hp), fun h => absurd h ?_⟩
      · obtain ⟨m, hm⟩ : ∃ m, fs.blkPerClus - blkOff = m + 1 := ⟨fs.blkPerClus - blkOff - 1, by omega⟩
        rw [hm, readdirBlocks, asks_bind, asks_readBlock] at h
        have hin : BlockInside fs (clsToBlk fs fs.clusters + blkOff) := h.1.1
        rw [blockInside_cluster hp (by omega) hb] at hin
        exact absurd hin (Nat.lt_irrefl _)
      · exact not_stopsBefore_last hp (by rw [stopsBehind, List.drop_nil]; rfl) n

end Readdir

/-! ### Seeks -/

theorem asks_seekLoop (hp : Placed fs) (fuel : ℕ) {cls pos : ℕ} (hfuel : pos ≤ fuel)
    {f : Except Errno (ℕ × ℕ) → Driver α}
    (hf : ∀ e, asks (storedWorld mayFail) (RequestInside fs) (f (.error e)) v) :
    asks (storedWorld mayFail) (RequestInside fs) (sfatSeekLoop fs fuel cls pos >>= f) v ↔
      ∀ c, linked (nextCls storedWord fs v) (pos / fs.clusterSize) cls = some c →
        asks (storedWorld mayFail) (RequestInside fs) (f (.ok (c, pos % fs.clusterSize))) v := by
  have hcs := hp.clusterSize_pos
  have hend : ∀ {c : ℕ}, pos < fs.clusterSize →
      (linked (nextCls storedWord fs v) (pos / fs.clusterSize) cls = some c ↔ cls = c) := by
    intro c hlt
    rw [Nat.div_eq_of_lt hlt, linked, Option.some.injEq]
  induction fuel generalizing cls pos with
  | zero =>
    obtain rfl : pos = 0 := by omega
    rw [sfatSeekLoop, if_neg (by omega), Nat.zero_mod]
    simp only [hend hcs, forall_eq']
    rfl
  | succ fuel ih =>
    rw [sfatSeekLoop]
    by_cases hle : fs.clusterSize ≤ pos
    · have hlinked := @linked_nextCls storedWord fs v ((pos - fs.clusterSize) / fs.clusterSize) cls
      rw [nextWord_storedWord hp.toWellFormed, ← Nat.div_eq_sub_div hcs hle] at hlinked
      rw [if_pos hle, Program.bind_assoc, asks_entry hp fun e => hf e, hlinked,
        Nat.mod_eq_sub_mod hle]
      by_cases hcls : fs.clustersPred ≤ cls
      · rw [if_pos hcls]
        exact iff_of_true (fun hn => absurd hcls hn) (by simp)
      · rw [if_neg hcls, forall_prop_of_true hcls]
        show asks _ _ ((if _ then _ else _) >>= f) v ↔ _
        by_cases hnext : fs.clusters < fatWord fs v cls
        · rw [if_pos hnext, if_pos hnext]
          exact iff_of_true (hf _) (by simp)
        · rw [if_neg hnext, if_neg hnext]
          refine ih (by omega) fun hlt => ?_
          rw [Nat.div_eq_of_lt hlt, linked, Option.some.injEq]
    · rw [if_neg hle, Nat.mod_eq_of_lt (by omega)]
      simp only [hend (by omega), forall_eq']
      rfl

/-- **A seek reads the FAT**, and the cluster it finds is the one the links lead to. -/
theorem asks_sfatSeek (hp : Placed fs) (start pos : ℕ) {f : Except Errno (ℕ × ℕ) → Driver α}
    (hf : ∀ e, asks (storedWorld mayFail) (RequestInside fs) (f (.error e)) v) :
    asks (storedWorld mayFail) (RequestInside fs) (sfatSeek fs start pos >>= f) v ↔
      ∀ c, SeekFinds storedWord fs v start pos c →
        asks (storedWorld mayFail) (RequestInside fs) (f (.ok (c, pos % fs.clusterSize))) v := by
  rw [sfatSeek]
  by_cases hstart : fs.clustersPred ≤ start
  · rw [if_pos hstart]
    exact ⟨fun _ c hc => absurd hstart hc.1, fun _ => hf _⟩
  · rw [if_neg hstart, asks_seekLoop hp pos (Nat.le_refl pos) hf]
    exact forall_congr' fun c => ⟨fun h hc => h hc.2, fun h hc => h ⟨hstart, hc⟩⟩

/-- A seek finds no number above `clusters`. -/
theorem SeekFinds.le (hp : Placed fs) {start pos c : ℕ} (h : SeekFinds storedWord fs v start pos c) :
    c ≤ fs.clusters := by
  have hpred := hp.clustersPred_eq hp.clusters_pos
  obtain ⟨hstart, hlinked⟩ := h
  cases hn : pos / fs.clusterSize with
  | zero =>
    rw [hn] at hlinked
    have := Option.some.inj hlinked
    omega
  | succ n =>
    rw [hn, linked_succ] at hlinked
    obtain ⟨d, -, hd⟩ := Option.bind_eq_some_iff.mp hlinked
    exact (nextCls_some hd).2.2

/-! ### The scanners from outside -/

section Whole

theorem asks_sfatDentryLocate (hp : Placed fs) (name : Vector UInt8 11) {start : ℕ}
    (hstart : start < fs.clusters) :
    asks (storedWorld mayFail) (RequestInside fs) (sfatDentryLocate fs start name) v ↔
      StopsBefore fs v (stopsLocate name) fs.clusters start := by
  rw [sfatDentryLocate, asks_blkholderAlloc, ← asks_locateClusters hp name fs.clusters (Nat.le_of_lt hstart)]
  constructor
  · intro h
    have hscan := h.2 (some 0) (by simp)
    rw [asks_bind] at hscan
    exact hscan.1
  · intro h
    refine ⟨trivial, fun page _ => ?_⟩
    cases page with
    | none => exact asks_done _ _ _
    | some addr =>
      rw [asks_bind]
      refine ⟨h, wp_of_forall fun r w => ?_⟩
      obtain e | found := r
      · exact asks_done _ _ _
      · cases found with
        | none => exact asks_done _ _ _
        | some found => exact asks_done _ _ _

theorem asks_sfatCountSubdirs (hp : Placed fs) {start : ℕ} (hstart : start < fs.clusters) (size : ℕ) :
    asks (storedWorld mayFail) (RequestInside fs) (sfatCountSubdirs fs start size) v ↔
      (32 ≤ size → StopsBefore fs v stopsAtEnd (dirRounds fs size) start) := by
  rw [sfatCountSubdirs]
  by_cases hsize : size < 32
  · rw [if_pos hsize]
    exact iff_of_true (asks_done _ _ _) fun h => absurd h (by omega)
  · rw [if_neg hsize, forall_prop_of_true (by omega), asks_blkholderAlloc,
      ← asks_countClusters hp (dirRounds fs size) (Nat.le_of_lt hstart) 0]
    constructor
    · intro h
      have hcount := h.2 (some 0) (by simp)
      rw [asks_bind] at hcount
      exact hcount.1
    · intro h
      refine ⟨trivial, fun page _ => ?_⟩
      cases page with
      | none => exact asks_done _ _ _
      | some addr =>
        rw [asks_bind]
        refine ⟨h, wp_of_forall fun r w => ?_⟩
        cases r with
        | error e => exact asks_done _ _ _
        | ok count => exact asks_done _ _ _

/-- **When a call of `sfat_readdir` stays inside**: if it reads at all, a terminator behind its
position stops it. -/
def ReaddirStops (fs : FsInfo) (v : Vol) (start size pos : ℕ) : Prop :=
  32 ≤ size → pos < size → pos % 32 = 0 → ∀ c, SeekFinds storedWord fs v start pos c →
    StopsBefore fs v (stopsBehind (pos % fs.clusterSize / 32)) (dirRounds fs size) c

theorem asks_sfatReaddir (hp : Placed fs) (start size pos : ℕ) :
    asks (storedWorld mayFail) (RequestInside fs) (sfatReaddir fs start size pos) v ↔
      ReaddirStops fs v start size pos := by
  have hcs := hp.clusterSize_pos
  have h32cs : 32 ∣ fs.clusterSize := by
    obtain ⟨d, -, -, hbs⟩ := hp.blockSize_slots
    rw [hp.clusterSize_blocks, hbs]
    exact Dvd.intro_left (fs.blkPerClus * d) (by ring)
  rw [sfatReaddir, ReaddirStops]
  simp only []
  by_cases hsize : size < 32
  · rw [if_pos hsize]
    exact iff_of_true (asks_done _ _ _) fun h => absurd h (by omega)
  · rw [if_neg hsize, forall_prop_of_true (by omega)]
    by_cases hpos : size ≤ pos
    · rw [if_pos hpos]
      exact iff_of_true (asks_done _ _ _) fun h => absurd h (by omega)
    · rw [if_neg hpos, forall_prop_of_true (by omega)]
      by_cases halign : pos % 32 ≠ 0
      · rw [if_pos halign]
        exact iff_of_true (asks_done _ _ _) fun h => absurd h halign
      · have halign := not_not.mp halign
        rw [if_neg (not_not.mpr halign), forall_prop_of_true halign]
        refine (asks_sfatSeek hp start pos fun e => ?_).trans ?_
        · exact asks_done _ _ _
        refine forall_congr' fun c => forall_congr' fun hc => ?_
        have hoff32 : pos % fs.clusterSize % 32 = 0 := by
          rw [Nat.mod_mod_of_dvd _ h32cs, halign]
        obtain ⟨hblk, k, hk, hbyte, hslot⟩ := offset_parts hp.toWellFormed (Nat.mod_lt pos hcs) hoff32
        show asks _ _ (blkholderAlloc >>= _) v ↔ _
        rw [asks_blkholderAlloc, ← hslot,
          ← asks_readdirClusters hp (dirRounds fs size) (hc.le hp) hblk hk ⟨0, pos, []⟩, ← hbyte]
        constructor
        · intro h
          exact h.2 (some 0) (by simp)
        · intro h
          refine ⟨trivial, fun page _ => ?_⟩
          cases page with
          | none => exact asks_done _ _ _
          | some addr => exact h

end Whole

/-! ### What a write follows and takes -/

/-- **The links behind `cur` stay inside** for `m` clusters: a cluster that the accessor takes has a
mark, or the number of a cluster. -/
def LinksInside (fs : FsInfo) (v : Vol) : (m cur : ℕ) → Prop
  | 0, _ => True
  | m + 1, cur => cur < fs.clustersPred → fatWord fs v cur < sfatEntryMax →
    fatWord fs v cur < fs.clusters ∧ LinksInside fs v m (fatWord fs v cur)

/-- **The free clusters, taken in order for `m` rounds behind `cur`, are inside.** -/
def TakesInside (fs : FsInfo) : (m : ℕ) → Vol → (cur : ℕ) → Prop
  | 0, _, _ => True
  | m + 1, v, cur => ∀ c, FirstFree fs v c → cur < fs.clustersPred →
    c < fs.clusters ∧ TakesInside fs m (clusterLinked fs v cur c) c

section Write

variable {cur m : ℕ} {v' : Vol} {st : SyncWriteState} {offset : ℕ}

theorem LinksInside.sameFat (hp : Placed fs) (h : SameFat fs v v') :
    LinksInside fs v' m cur ↔ LinksInside fs v m cur := by
  have hpred := hp.clustersPred_eq hp.clusters_pos
  induction m generalizing cur with
  | zero => exact Iff.rfl
  | succ m ih =>
    rw [LinksInside, LinksInside]
    refine forall_congr' fun hcur => ?_
    rw [h cur (lt_fatWords hp (by omega))]
    exact imp_congr_right fun _ => and_congr_right fun _ => ih

theorem TakesInside.of_sameFat (h : TakesInside fs m v cur) (hfat : SameFat fs v v') :
    TakesInside fs m v' cur := by
  induction m generalizing v v' cur with
  | zero => exact trivial
  | succ m ih =>
    intro c hc hcur
    obtain ⟨hlt, hrest⟩ := h c (hfat.symm.firstFree hc) hcur
    exact ⟨hlt, ih hrest (clusterLinked_sameFat hfat cur c)⟩

theorem TakesInside.sameFat (hfat : SameFat fs v v') :
    TakesInside fs m v' cur ↔ TakesInside fs m v cur :=
  ⟨fun h => h.of_sameFat hfat.symm, fun h => h.of_sameFat hfat⟩

/-- Behind a cluster that the accessor refuses nothing is taken. -/
theorem takesInside_of_refused (hcur : fs.clustersPred ≤ cur) : TakesInside fs m v cur := by
  cases m with
  | zero => exact trivial
  | succ m => exact fun c _ hlt => absurd hlt (Nat.not_lt.mpr hcur)

/-! ### One cluster -/

/-- The requests inside allow a write to a cluster inside. -/
theorem allowsWrite_inside (hp : Placed fs) (hcur : cur < fs.clusters) {len : ℕ}
    (hlen : offset + len ≤ fs.clusterSize) :
    AllowsWrite (RequestInside fs) fs len (clsToBlk fs cur * fs.blockSize + offset) := by
  have hmax := hp.clusters_lt
  rw [sfatEntryMax] at hmax
  have hin : ∀ b, b * fs.blockSize < clsToBlk fs cur * fs.blockSize + offset + len →
      BlockInside fs b := by
    intro b hb
    have hlt : b * fs.blockSize < (clsToBlk fs cur + fs.blkPerClus) * fs.blockSize := by
      rw [Nat.add_mul, ← hp.clusterSize_blocks]
      omega
    have hblk := Nat.lt_of_mul_lt_mul_right hlt
    have hmul := Nat.mul_le_mul_right fs.blkPerClus (show cur + 1 ≤ fs.clusters from hcur)
    rw [hp.clsToBlk_eq (by omega)] at hblk
    rw [blockInside_iff hp]
    rw [Nat.add_mul, Nat.one_mul] at hmul
    omega
  exact ⟨trivial, fun _ => trivial, hin, fun b _ hb => hin b hb⟩

/-- **A write to the current cluster**, and what follows when it is complete. -/
theorem asks_chunk (hp : Placed fs) (hlen : st.len ≠ 0) (hoff : offset < fs.clusterSize)
    (hcur : st.curCls < 2 ^ 32) {f : Loop SyncWriteState (SyncWriteState × ℕ) → Driver α} {rest : Prop}
    (hout : ∀ r w, asks (storedWorld mayFail) (RequestInside fs) (f (.out r)) w)
    (hnext : asks (storedWorld mayFail) (RequestInside fs)
        (f (.next (st.advance (chunkLen fs st offset))))
        (chunkWritten fs st offset (chunkLen fs st offset) v) ↔ rest) :
    asks (storedWorld mayFail) (RequestInside fs) (writeChunk fs st offset >>= f) v ↔
      st.curCls < fs.clusters ∧ rest := by
  have hpos := @chunkLen_pos fs st offset hlen hoff
  rw [asks_bind]
  refine and_congr ⟨fun h => ?_, fun h => ?_⟩ ⟨fun h => ?_, fun h => ?_⟩
  · -- the block of the position is asked for
    have hblk : offset >>> fs.blockBits < fs.blkPerClus := by
      have hbs : 0 < fs.blockSize := by
        rw [hp.blockSize_eq]
        exact Nat.two_pow_pos _
      rw [Nat.shiftRight_eq_div_pow, ← hp.blockSize_eq, Nat.div_lt_iff_lt_mul hbs,
        ← hp.clusterSize_blocks]
      exact hoff
    rw [writeChunk, asks_bind] at h
    rcases firstBlock_of_asks st.curCls offset hpos h.1 with hreq | ⟨d, hreq⟩
    · exact (blockInside_cluster hp hcur hblk).mp hreq
    · exact (blockInside_cluster hp hcur hblk).mp hreq
  · refine asks_writeChunk hp.toWellFormed st offset (allowsWrite_inside hp h ?_)
    rw [chunkLen]
    omega
  · obtain ⟨r, w, hf, hr⟩ := exists_quiet h (writeChunk_spec hp.blockSize_eq st offset)
    cases r with
    | out r =>
      obtain ⟨st', n⟩ := r
      exact absurd (hr.2.2.failed hr.2.1) not_canFail
    | next st' =>
      obtain ⟨rfl, hdone⟩ := hr
      have hv := hdone.vol_eq
      subst hv
      exact hnext.mp hf
  · refine wp_mono (writeChunk_spec hp.blockSize_eq st offset) fun r w hr => ?_
    cases r with
    | out r => exact hout r w
    | next st' =>
      obtain ⟨rfl, hdone⟩ := hr
      have hv := hdone.vol_eq
      subst hv
      exact hnext.mpr h

/-! ### The loops -/

/-- A request of the functions on the FAT is inside. -/
theorem requestInside_fat (hp : Placed fs) (c : Request) (h : FatRequest fs c) : RequestInside fs c := by
  cases c with
  | readBlock sz b => exact blockInside_fat hp h.2.2
  | writeBlock sz b d => exact blockInside_fat hp h.2.2
  | blkholderAlloc => exact trivial
  | le32OfPointer a b p d => exact trivial
  | copyFromUser n => exact absurd h id
  | copyToUser n => exact absurd h id
  | currentTimeSec => exact absurd h id
  | newInode => exact absurd h id
  | iunique m => exact absurd h id
  | dAllocRoot => exact absurd h id
  | filldir call => exact absurd h id

/-- **A cluster is taken.** -/
theorem asks_acquire_bind (hp : Placed fs) {f : Except Errno ℕ → Driver α}
    (hf : ∀ e, asks (storedWorld mayFail) (RequestInside fs) (f (.error e)) v) :
    asks (storedWorld mayFail) (RequestInside fs) (sfatFatEntryAcquire fs >>= f) v ↔
      ∀ c, FirstFree fs v c →
        asks (storedWorld mayFail) (RequestInside fs) (f (.ok c)) (setFatWord fs v c sfatEntryEoc) := by
  rw [asks_bind, and_iff_right (asks_mono (requestInside_fat hp) asks_acquire)]
  constructor
  · intro h c hc
    obtain ⟨r, w, hr, hout⟩ := exists_quiet h (acquire_spec hp.toWellFormed v)
    cases r with
    | error e =>
      obtain ⟨-, ⟨-, hnone⟩ | ⟨-, hfail⟩⟩ := hout
      · exact absurd hc.2.1 (hnone c hc.1)
      · exact absurd hfail not_canFail
    | ok d =>
      obtain ⟨hd, rfl⟩ := hout
      obtain rfl := hc.unique hd
      exact hr
  · intro h
    refine wp_mono (acquire_spec hp.toWellFormed v) fun r w hout => ?_
    cases r with
    | error e =>
      obtain ⟨rfl, -⟩ := hout
      exact hf e
    | ok d =>
      obtain ⟨hd, rfl⟩ := hout
      exact h d hd

/-- **A cluster is linked.** -/
theorem asks_modify_bind (hp : Placed fs) {x : ℕ} {f : Option Errno → Driver α}
    (hf : ∀ e, asks (storedWorld mayFail) (RequestInside fs) (f (some e)) v) :
    asks (storedWorld mayFail) (RequestInside fs) (sfatFatEntryModify fs cur x >>= f) v ↔
      (cur < fs.clustersPred →
        asks (storedWorld mayFail) (RequestInside fs) (f none) (setFatWord fs v cur x)) := by
  rw [asks_bind, and_iff_right (asks_mono (requestInside_fat hp) (asks_modify hp cur x))]
  constructor
  · intro h hcur
    obtain ⟨r, w, hr, hout⟩ := exists_quiet h (modify_spec hp.toWellFormed cur x v)
    cases r with
    | some e =>
      obtain ⟨-, ⟨-, hle⟩ | ⟨-, -, hfail⟩⟩ := hout
      · omega
      · exact absurd hfail not_canFail
    | none =>
      obtain ⟨-, rfl⟩ := hout
      exact hr
  · intro h
    refine wp_mono (modify_spec hp.toWellFormed cur x v) fun r w hout => ?_
    cases r with
    | some e =>
      obtain ⟨rfl, -⟩ := hout
      exact hf e
    | none =>
      obtain ⟨hcur, rfl⟩ := hout
      exact h hcur

/-- **The loop that adds clusters** stays inside exactly if those it takes do. -/
theorem asks_writeNew (hp : Placed fs) (fuel : ℕ) (hfuel : st.len ≤ fuel) :
    asks (storedWorld mayFail) (RequestInside fs) (writeNew fs fuel st) v ↔
      TakesInside fs (clustersFor fs st.len) v st.curCls := by
  have hcs := hp.clusterSize_pos
  induction fuel generalizing st v with
  | zero =>
    have h0 : st.len = 0 := by omega
    rw [writeNew, if_pos h0, h0, clustersFor_zero hcs]
    exact iff_of_true (asks_done _ _ _) trivial
  | succ fuel ih =>
    rw [writeNew]
    by_cases h0 : st.len = 0
    · rw [if_pos h0, h0, clustersFor_zero hcs]
      exact iff_of_true (asks_done _ _ _) trivial
    · rw [if_neg h0, clustersFor_step hcs h0]
      refine (asks_acquire_bind hp fun e => ?_).trans ?_
      · exact asks_done _ _ _
      refine forall_congr' fun c => forall_congr' fun hc => ?_
      refine (asks_modify_bind hp fun e => ?_).trans ?_
      · exact asks_done _ _ _
      refine forall_congr' fun hcur => ?_
      have hc32 : (st.at c).curCls < 2 ^ 32 := lt_of_fatWords hp hc.1
      have hlen : (st.at c).len ≠ 0 := h0
      have hpos := chunkLen_pos hlen hcs
      have hfat := @sameFat_chunk fs (clusterLinked fs v st.curCls c) hp (st.at c) hc32 0
        (chunkLen fs (st.at c) 0)
      refine asks_chunk hp hlen hcs hc32 (fun r w => ?_) ?_
      · obtain ⟨st', n⟩ := r
        exact asks_done _ _ _
      · rw [← TakesInside.sameFat hfat]
        refine ih ?_
        show st.len - chunkLen fs (st.at c) 0 ≤ fuel
        omega

/-- **The walk over the existing clusters** stays inside exactly if its links do. -/
theorem asks_writeExisting (hp : Placed fs) (fuel : ℕ) (hfuel : st.len ≤ fuel)
    {f : Option (Loop SyncWriteState SyncWriteState) → Driver α}
    (hout : ∀ st' w, asks (storedWorld mayFail) (RequestInside fs) (f (some (.out st'))) w)
    (hnext : ∀ st' w, st'.len = 0 ∨ fs.clustersPred ≤ st'.curCls →
      asks (storedWorld mayFail) (RequestInside fs) (f (some (.next st'))) w) :
    asks (storedWorld mayFail) (RequestInside fs) (writeExisting fs fuel st >>= f) v ↔
      LinksInside fs v (clustersFor fs st.len) st.curCls := by
  have hcs := hp.clusterSize_pos
  have hpred := hp.clustersPred_eq hp.clusters_pos
  have hmax := hp.clusters_lt
  induction fuel generalizing st v with
  | zero =>
    have h0 : st.len = 0 := by omega
    rw [writeExisting, if_pos h0, h0, clustersFor_zero hcs]
    exact iff_of_true (hnext st v (.inl h0)) trivial
  | succ fuel ih =>
    rw [writeExisting]
    by_cases h0 : st.len = 0
    · rw [if_pos h0, h0, clustersFor_zero hcs]
      exact iff_of_true (hnext st v (.inl h0)) trivial
    · rw [if_neg h0, Program.bind_assoc, asks_entry hp fun e => hout st v, clustersFor_step hcs h0,
        LinksInside, Nat.not_le]
      refine forall_congr' fun hcur => ?_
      show asks _ _ ((if _ then _ else _) >>= f) v ↔ _
      by_cases hlink : fatWord fs v st.curCls < sfatEntryMax
      · rw [if_pos hlink, forall_prop_of_true hlink, Program.bind_assoc]
        have hc32 : (st.at (fatWord fs v st.curCls)).curCls < 2 ^ 32 := fatWord_lt _ _ _
        have hlen : (st.at (fatWord fs v st.curCls)).len ≠ 0 := h0
        have hpos := chunkLen_pos hlen hcs
        have hfat := @sameFat_chunk fs v hp (st.at (fatWord fs v st.curCls)) hc32 0
          (chunkLen fs (st.at (fatWord fs v st.curCls)) 0)
        refine asks_chunk hp hlen hcs hc32 (fun r w => ?_) ?_
        · obtain ⟨st', n⟩ := r
          exact hout st' w
        · rw [← LinksInside.sameFat hp hfat]
          refine ih ?_
          show st.len - chunkLen fs (st.at (fatWord fs v st.curCls)) 0 ≤ fuel
          omega
      · rw [if_neg hlink]
        refine iff_of_true (hnext _ v (.inr ?_)) fun hn => absurd hn hlink
        show fs.clustersPred ≤ fatWord fs v st.curCls
        omega

/-! ### Whole writes -/

variable {inode : Inode} {buf : ℕ → UInt8} {len ppos : ℕ}

/-- **When a write stays inside.** -/
structure WriteBounded (fs : FsInfo) (v : Vol) (inode : Inode) (len ppos : ℕ) : Prop where
  /-- Inside the file: the cluster of the position and the links behind it are inside. -/
  inside : WritesInside fs inode ppos → ∀ c, SeekFinds storedWord fs v inode.iStart ppos c →
    c < fs.clusters ∧ LinksInside fs v
      (clustersFor fs (len - min len (fs.clusterSize - ppos % fs.clusterSize))) c
  /-- At the end of the file: the clusters that are taken are inside. -/
  atEnd : ¬ WritesInside fs inode ppos → 0 < inode.iSize →
    ∀ c, SeekFinds storedWord fs v inode.iStart (ppos - 1) c → TakesInside fs (clustersFor fs len) v c
  /-- An empty file: the first cluster is inside, too. -/
  empty : ¬ WritesInside fs inode ppos → inode.iSize = 0 → ∀ c, FirstFree fs v c →
    c < fs.clusters ∧ TakesInside fs (clustersFor fs (len - min len fs.clusterSize))
      (setFatWord fs v c sfatEntryEoc) c

/-- The loop that adds clusters, after the first branch. -/
theorem asks_writeRest (hp : Placed fs) (st : SyncWriteState) {f : Except Errno SyncWriteState → Driver α}
    (hf : ∀ r w, asks (storedWorld mayFail) (RequestInside fs) (f r) w) :
    asks (storedWorld mayFail) (RequestInside fs) (writeRestData fs (some (.next st)) >>= f) v ↔
      TakesInside fs (clustersFor fs st.len) v st.curCls := by
  rw [writeRestData, Program.bind_assoc, asks_bind, asks_writeNew hp st.len (Nat.le_refl _)]
  refine and_iff_left (wp_of_forall fun r w => ?_)
  cases r with
  | none => exact hf _ w
  | some st' => exact hf _ w

/-- The branch for a position inside the file. -/
theorem asks_writeInside (hp : Placed fs) (hlen : len ≠ 0)
    {f : Except Errno (Option (Loop SyncWriteState SyncWriteState)) → Driver α}
    (herr : ∀ e w, asks (storedWorld mayFail) (RequestInside fs) (f (.error e)) w)
    (hout : ∀ st' w, asks (storedWorld mayFail) (RequestInside fs) (f (.ok (some (.out st')))) w)
    (hnext : ∀ st' w, st'.len = 0 ∨ fs.clustersPred ≤ st'.curCls →
      asks (storedWorld mayFail) (RequestInside fs) (f (.ok (some (.next st')))) w) :
    asks (storedWorld mayFail) (RequestInside fs)
        (writeInside fs (syncWriteStart inode buf len ppos) >>= f) v ↔
      ∀ c, SeekFinds storedWord fs v inode.iStart ppos c → c < fs.clusters ∧ LinksInside fs v
        (clustersFor fs (len - min len (fs.clusterSize - ppos % fs.clusterSize))) c := by
  have hcs := hp.clusterSize_pos
  rw [writeInside, Program.bind_assoc]
  refine (asks_sfatSeek hp inode.iStart ppos fun e => herr e v).trans ?_
  refine forall_congr' fun c => forall_congr' fun hc => ?_
  have hne : ((syncWriteStart inode buf len ppos).at c).len ≠ 0 := hlen
  have hfat := @sameFat_chunk fs v hp ((syncWriteStart inode buf len ppos).at c) (hc.lt hp)
    (ppos % fs.clusterSize) (chunkLen fs ((syncWriteStart inode buf len ppos).at c)
      (ppos % fs.clusterSize))
  show asks _ _ ((writeChunk fs ((syncWriteStart inode buf len ppos).at c) _ >>= _) >>= f) v ↔ _
  rw [Program.bind_assoc]
  refine asks_chunk hp hne (Nat.mod_lt _ hcs) (hc.lt hp) (fun r w => ?_) ?_
  · obtain ⟨st', n⟩ := r
    exact hout st' w
  · show asks _ _ ((writeExisting fs _ _ >>= _) >>= f) _ ↔ _
    rw [Program.bind_assoc, ← LinksInside.sameFat hp hfat]
    exact asks_writeExisting hp _ (Nat.le_refl _) hout hnext

/-- The branch for the end of the file, and the loop behind it. -/
theorem asks_writeAtEnd (hp : Placed fs) (hlen : len ≠ 0) (hend : ¬ WritesInside fs inode ppos)
    {f : Loop SyncWriteState SyncWriteState × Option ℕ → Driver α}
    (hout : ∀ st' start w, asks (storedWorld mayFail) (RequestInside fs) (f (.out st', start)) w)
    (hnext : ∀ st' start w, asks (storedWorld mayFail) (RequestInside fs) (f (.next st', start)) w ↔
      TakesInside fs (clustersFor fs st'.len) w st'.curCls) :
    asks (storedWorld mayFail) (RequestInside fs)
        (writeAtEnd fs (syncWriteStart inode buf len ppos) inode.iSize >>= f) v ↔
      WriteBounded fs v inode len ppos := by
  have hcs := hp.clusterSize_pos
  rw [writeAtEnd]
  by_cases hsize : 0 < inode.iSize
  · rw [if_pos hsize, Program.bind_assoc]
    have hbranch : (∀ c, SeekFinds storedWord fs v inode.iStart (ppos - 1) c →
        TakesInside fs (clustersFor fs len) v c) ↔ WriteBounded fs v inode len ppos :=
      ⟨fun h => ⟨fun hin => absurd hin hend, fun _ _ => h, fun _ h0 => absurd h0 (by omega)⟩,
        fun h => h.atEnd hend hsize⟩
    refine ((asks_sfatSeek hp inode.iStart (ppos - 1) fun e => ?_).trans ?_).trans hbranch
    · exact hout _ _ v
    · refine forall_congr' fun c => forall_congr' fun _ => ?_
      exact hnext ((syncWriteStart inode buf len ppos).at c) none v
  · have hzero : inode.iSize = 0 := by omega
    rw [if_neg hsize, Program.bind_assoc]
    have hbranch : (∀ c, FirstFree fs v c → c < fs.clusters ∧
        TakesInside fs (clustersFor fs (len - min len fs.clusterSize))
          (setFatWord fs v c sfatEntryEoc) c) ↔ WriteBounded fs v inode len ppos :=
      ⟨fun h => ⟨fun hin => absurd hin hend, fun _ hpos => absurd hpos hsize, fun _ _ => h⟩,
        fun h => h.empty hend hzero⟩
    refine ((asks_acquire_bind hp fun e => ?_).trans ?_).trans hbranch
    · exact hout _ _ v
    · refine forall_congr' fun c => forall_congr' fun hc => ?_
      have hne : ((syncWriteStart inode buf len ppos).at c).len ≠ 0 := hlen
      have hc32 : ((syncWriteStart inode buf len ppos).at c).curCls < 2 ^ 32 := lt_of_fatWords hp hc.1
      have hfat := @sameFat_chunk fs (setFatWord fs v c sfatEntryEoc) hp
        ((syncWriteStart inode buf len ppos).at c) hc32 0
        (chunkLen fs ((syncWriteStart inode buf len ppos).at c) 0)
      show asks _ _ ((writeChunk fs ((syncWriteStart inode buf len ppos).at c) 0 >>= _) >>= f) _ ↔ _
      rw [Program.bind_assoc]
      refine asks_chunk hp hne hcs hc32 (fun r w => ?_) ?_
      · obtain ⟨st', n⟩ := r
        exact hout st' _ w
      · rw [← TakesInside.sameFat hfat]
        exact hnext _ _ _

/-- **The work on the clusters stays inside** exactly under the condition. -/
theorem asks_syncWriteData (hp : Placed fs) (inode : Inode) (buf : ℕ → UInt8) (len ppos : ℕ) :
    asks (storedWorld mayFail) (RequestInside fs) (syncWriteData fs inode buf len ppos) v ↔
      (WriteAllowed inode len ppos → WriteBounded fs v inode len ppos) := by
  rw [syncWriteData]
  simp only []
  by_cases hreject : inode.iSize < ppos ∨ len = 0
  · rw [if_pos hreject]
    refine iff_of_true (asks_done _ _ _) fun hallow => ?_
    rcases hreject with h | h
    · exact absurd hallow.1 (by omega)
    · exact absurd h hallow.2
  · have hallow : WriteAllowed inode len ppos := ⟨by omega, by omega⟩
    rw [if_neg hreject, forall_prop_of_true hallow]
    by_cases hin : inode.iSize &&& (fs.blockSize - 1) ≠ 0 ∨ ppos < inode.iSize
    · rw [if_pos hin]
      have hbranch : (∀ c, SeekFinds storedWord fs v inode.iStart ppos c → c < fs.clusters ∧ LinksInside fs v
          (clustersFor fs (len - min len (fs.clusterSize - ppos % fs.clusterSize))) c) ↔
          WriteBounded fs v inode len ppos :=
        ⟨fun h => ⟨fun _ => h, fun hend => absurd hin hend, fun hend => absurd hin hend⟩,
          fun h => h.inside hin⟩
      refine (asks_writeInside hp hallow.2 ?_ ?_ ?_).trans hbranch
      · exact fun e w => asks_done _ _ _
      · exact fun st' w => asks_done _ _ _
      · intro st' w hst
        refine (asks_writeRest hp st' fun r w => asks_done _ _ _).mpr ?_
        rcases hst with h0 | hcur
        · rw [h0, clustersFor_zero hp.clusterSize_pos]
          exact trivial
        · exact takesInside_of_refused hcur
    · rw [if_neg hin]
      refine asks_writeAtEnd hp hallow.2 hin ?_ ?_
      · exact fun st' start w => asks_done _ _ _
      · exact fun st' start w => asks_writeRest hp st' fun r w => asks_done _ _ _

/-! ### The flush -/

/-- The block of an inode's own slot is inside, if the inode has a slot. -/
def OwnBlockInside (fs : FsInfo) (inode : Inode) : Prop :=
  inode.iIno = sfatRootIno ∨ BlockInside fs (loffShiftRight inode.iPos fs.blockBits)

theorem asks_flush (h : OwnBlockInside fs inode) :
    asks (storedWorld mayFail) (RequestInside fs) (sfatInodeWriteToHd fs inode) v := by
  rw [sfatInodeWriteToHd]
  by_cases hroot : inode.iIno = sfatRootIno
  · rw [if_pos hroot]
    exact asks_done _ _ _
  · have hblk := h.resolve_left hroot
    rw [if_neg hroot, asks_blkholderAlloc]
    refine ⟨trivial, fun page _ => ?_⟩
    cases page with
    | none => exact asks_done _ _ _
    | some addr =>
      rw [asks_readBlock]
      refine ⟨hblk, ?_, fun _ => asks_done _ _ _⟩
      rw [asks_writeBlock]
      exact ⟨hblk, asks_done _ _ _, fun _ => asks_done _ _ _⟩

/-- **`sfat_sync_write` stays inside** exactly under the condition. -/
theorem asks_sfatSyncWrite (hp : Placed fs) (hown : OwnBlockInside fs inode) (buf : ℕ → UInt8)
    (len ppos : ℕ) :
    asks (storedWorld mayFail) (RequestInside fs) (sfatSyncWrite fs inode buf len ppos) v ↔
      (WriteAllowed inode len ppos → WriteBounded fs v inode len ppos) := by
  rw [sfatSyncWrite_eq, asks_bind, asks_syncWriteData hp]
  refine and_iff_left (wp_mono (syncWriteData_spec hp.toWellFormed inode buf len ppos)
    fun p w hrun => ?_)
  obtain ⟨r, inode'⟩ := p
  cases r with
  | error e => exact asks_done _ _ _
  | ok st =>
    have hown' : ∀ t, OwnBlockInside fs (inode'.written fs st.ppos t) := fun t => by
      rw [hrun.inode_eq]
      exact hown
    show asks _ _ (writeEnd fs inode' st) w
    rw [writeEnd]
    simp only []
    rw [currentTimeSec, ask, asks_request_bind]
    refine ⟨trivial, wp_of_forall fun t w => ?_⟩
    rw [asks_bind]
    exact ⟨asks_flush (hown' t), wp_of_forall fun r w => asks_done _ _ _⟩

end Write

/-! ### The result -/

/-- **When the five walkers stay inside**, for any FAT content and whatever can fail. -/
theorem chain_inside_iff (hp : Placed fs) (mayFail : Request → Prop) (v : Vol) :
    (∀ start name, start < fs.clusters → (StaysInside mayFail fs v (sfatDentryLocate fs start name) ↔
      StopsBefore fs v (stopsLocate name) fs.clusters start)) ∧
    (∀ start, start < fs.clusters → (StaysInside mayFail fs v (sfatFreeDentryLocate fs start) ↔
      StopsBefore fs v stopsFree fs.clusters start)) ∧
    (∀ start size, start < fs.clusters → (StaysInside mayFail fs v (sfatCountSubdirs fs start size) ↔
      (32 ≤ size → StopsBefore fs v stopsAtEnd (dirRounds fs size) start))) ∧
    (∀ start size pos, StaysInside mayFail fs v (sfatReaddir fs start size pos) ↔
      ReaddirStops fs v start size pos) ∧
    (∀ inode (buf : ℕ → UInt8) len ppos, OwnBlockInside fs inode →
      (StaysInside mayFail fs v (sfatSyncWrite fs inode buf len ppos) ↔
        (WriteAllowed inode len ppos → WriteBounded fs v inode len ppos))) := by
  refine ⟨fun start name hstart => ?_, fun start hstart => ?_, fun start size hstart => ?_,
    fun start size pos => ?_, fun inode buf len ppos hown => ?_⟩
  · exact staysInside_iff_asks.trans (asks_sfatDentryLocate hp name hstart)
  · exact staysInside_iff_asks.trans (asks_freeClusters hp fs.clusters (Nat.le_of_lt hstart))
  · exact staysInside_iff_asks.trans (asks_sfatCountSubdirs hp hstart size)
  · exact staysInside_iff_asks.trans (asks_sfatReaddir hp start size pos)
  · exact staysInside_iff_asks.trans (asks_sfatSyncWrite hp hown buf len ppos)

theorem oneBlockFile_inside : OwnBlockInside sbi31.fsInfo oneBlockFile :=
  .inr ((blockInside_iff placed31).mpr (by decide))

theorem chain_inside_iff_fullRoot :
    (StaysInside noFailure sbi31.fsInfo fullRootVolume (sfatFreeDentryLocate sbi31.fsInfo 0) ↔
      StopsBefore sbi31.fsInfo fullRootVolume stopsFree 4 0) ∧
    (StaysInside noFailure sbi31.fsInfo oneClusterVolume
        (sfatSyncWrite sbi31.fsInfo oneBlockFile (fun _ => 0) 2049 0) ↔
      (WriteAllowed oneBlockFile 2049 0 →
        WriteBounded sbi31.fsInfo oneClusterVolume oneBlockFile 2049 0)) :=
  ⟨(chain_inside_iff placed31 noFailure fullRootVolume).2.1 0 (by decide),
    (chain_inside_iff placed31 noFailure oneClusterVolume).2.2.2.2 oneBlockFile (fun _ => 0) 2049 0
      oneBlockFile_inside⟩

/-- **A link to `clusters` leads the scanners out of the data area**, and any link below the marks
leads a write out of it. -/
theorem chain_leaves_data_area :
    ¬ StaysInside noFailure sbi31.fsInfo (setFatWord sbi31.fsInfo fullRootVolume 0 4)
        (sfatFreeDentryLocate sbi31.fsInfo 0) ∧
      ¬ StaysInside noFailure sbi31.fsInfo (setFatWord sbi31.fsInfo oneClusterVolume 1 5)
        (sfatSyncWrite sbi31.fsInfo oneBlockFile (fun _ => 0) 2049 0) := by
  constructor
  · intro h
    have hstops := (asks_freeClusters placed31 sbi31.fsInfo.clusters (Nat.zero_le _)).mp
      (staysInside_iff_asks.mp h)
    have hwalk : walkClusters storedWord sbi31.fsInfo (setFatWord sbi31.fsInfo fullRootVolume 0 4)
        sbi31.fsInfo.clusters 0 = [0] ++ [4] := by decide +kernel
    have hnone : stopsFree (dirSlots sbi31.fsInfo (setFatWord sbi31.fsInfo fullRootVolume 0 4) [0]) =
        false := by decide +kernel
    rw [hstops [0] hwalk] at hnone
    exact Bool.false_ne_true hnone.symm
  · intro h
    have hbounded := (asks_sfatSyncWrite placed31 oneBlockFile_inside _ _ _).mp
      (staysInside_iff_asks.mp h) ⟨by decide, by decide⟩
    have hseek : SeekFinds storedWord sbi31.fsInfo (setFatWord sbi31.fsInfo oneClusterVolume 1 5)
        oneBlockFile.iStart 0 1 := ⟨by decide +kernel, rfl⟩
    have hlinks := (hbounded.inside (.inr (by decide)) 1 hseek).2 (by decide +kernel)
      (by decide +kernel)
    have hword : fatWord sbi31.fsInfo (setFatWord sbi31.fsInfo oneClusterVolume 1 5) 1 = 5 :=
      fatWord_setFatWord_of_lt (by decide)
    rw [hword] at hlinks
    exact absurd hlinks.1 (by decide)

end SimpleFat
