import SimpleFat.DirentBytes
import SimpleFat.EntryPosition
import SimpleFat.WriteSpec

/-!
# Which blocks a walk over the FAT reaches

`StaysInside` says of a driver function that every block it reads or writes, in every execution, is
a block of a cluster below `clusters` or lies before the data area.  The scanners go on unless the
link is *greater* than `clusters`, so they enter the cluster `clusters` behind the last one.

* `StopsBefore` — a scanner stays inside exactly if a slot stops it before the cluster `clusters`;
* `asks_locateClusters`, `asks_freeClusters`, `asks_countClusters` — three of the scanners;
* `asks_readdirSlots` — the slots of `sfat_readdir`.
-/

namespace SimpleFat

open SimpleFat.Lib

/-- A block before the data area, or of a cluster below `clusters`. -/
def BlockInside (fs : FsInfo) (b : ℕ) : Prop :=
  b < fs.dataStartBlk ∨ ∃ c < fs.clusters, clsToBlk fs c ≤ b ∧ b < clsToBlk fs c + fs.blkPerClus

/-- A request for a block inside, or for no block. -/
def RequestInside (fs : FsInfo) : Request → Prop
  | .readBlock _ b => BlockInside fs b
  | .writeBlock _ b _ => BlockInside fs b
  | _ => True

/-- The worlds in which FAT lookups return the stored words. -/
abbrev storedWorld (mayFail : Request → Prop) : World Vol Request Answer :=
  failingWorld mayFail storedWord

/-- **Every block of every execution is inside.** -/
def StaysInside {α : Type} (mayFail : Request → Prop) (fs : FsInfo) (v : Vol) (p : Driver α) :
    Prop :=
  ∀ tr a v', Exec (storedWorld mayFail) p v tr a v' → ∀ c ∈ tr, RequestInside fs c

section Basics

variable {mayFail : Request → Prop} {fs : FsInfo} {v : Vol} {α : Type}

theorem staysInside_iff_asks {p : Driver α} :
    StaysInside mayFail fs v p ↔ asks (storedWorld mayFail) (RequestInside fs) p v := by
  refine (asks_iff_exec (RequestInside fs) p v fun s c => ?_).symm
  have hlook : ∀ addr blk pos d,
      (Host.lookups mayFail storedWord).lookup addr blk pos d (storedWord blk pos d) :=
    fun _ _ _ _ => rfl
  exact ⟨_, _, Host.quiet_world hlook s c⟩

/-- A world that allows failures allows what happens without them. -/
theorem failingWorld_mono {look : (blk pos : ℕ) → Page → ℕ} (v : Vol) (c : Request) (r : Answer c)
    (v' : Vol) (h : failingWorld noFailure look v c r v') : failingWorld mayFail look v c r v' := by
  cases c with
  | blkholderAlloc => exact ⟨h.1, fun hr => (h.2 hr).elim⟩
  | readBlock sz b => exact ⟨h.1, h.2.imp_right fun hr => hr.2.elim⟩
  | writeBlock sz b d => exact h.imp_right fun hr => hr.2.2.elim
  | le32OfPointer a b p d => exact h
  | copyFromUser n => exact ⟨h.1, h.2.1, fun hr => (h.2.2 hr).elim⟩
  | copyToUser n => exact ⟨h.1, h.2.1, fun hr => (h.2.2 hr).elim⟩
  | currentTimeSec => exact h
  | newInode => exact ⟨h.1, fun hr => (h.2 hr).elim⟩
  | iunique m => exact h
  | dAllocRoot => exact ⟨h.1, fun hr => (h.2 hr).elim⟩
  | filldir call => exact ⟨h.1, h.2.imp_right fun hr => hr.2.elim⟩

/-- What holds after every execution holds after one in which nothing fails. -/
theorem exists_quiet {look : (blk pos : ℕ) → Page → ℕ} {p : Driver α} {Q R : α → Vol → Prop}
    (h : wp (failingWorld mayFail look) p Q v) (hR : wp (lookupWorld look) p R v) :
    ∃ a v', Q a v' ∧ R a v' :=
  wp_lookups_nonempty (wp_and (wp_world_mono failingWorld_mono h) hR)

/-- The blocks inside are those before the end of the data area. -/
theorem blockInside_iff (hp : Placed fs) {b : ℕ} :
    BlockInside fs b ↔ b < fs.dataStartBlk + fs.clusters * fs.blkPerClus := by
  have hmax := hp.clusters_lt
  have hpos := hp.blkPerClus_pos
  rw [sfatEntryMax] at hmax
  constructor
  · rintro (h | ⟨c, hc, -, hlt⟩)
    · omega
    · have hmul := Nat.mul_le_mul_right fs.blkPerClus (show c + 1 ≤ fs.clusters from hc)
      rw [hp.clsToBlk_eq (by omega)] at hlt
      rw [Nat.add_mul, Nat.one_mul] at hmul
      omega
  · intro h
    by_cases hb : b < fs.dataStartBlk
    · exact .inl hb
    · have hdiv := Nat.div_add_mod (b - fs.dataStartBlk) fs.blkPerClus
      have hmod := Nat.mod_lt (b - fs.dataStartBlk) hpos
      have hc : (b - fs.dataStartBlk) / fs.blkPerClus < fs.clusters := by
        rw [Nat.div_lt_iff_lt_mul hpos]
        omega
      rw [Nat.mul_comm] at hdiv
      refine .inr ⟨_, hc, ?_, ?_⟩
      · rw [hp.clsToBlk_eq (by omega)]
        omega
      · rw [hp.clsToBlk_eq (by omega)]
        omega

/-- The first block of a cluster is inside exactly if the cluster is below `clusters`. -/
theorem blockInside_cluster (hp : Placed fs) {c : ℕ} (hc : c < 2 ^ 32) {b : ℕ}
    (hb : b < fs.blkPerClus) : BlockInside fs (clsToBlk fs c + b) ↔ c < fs.clusters := by
  rw [blockInside_iff hp, hp.clsToBlk_eq hc]
  constructor
  · intro h
    by_contra hge
    have hmul := Nat.mul_le_mul_right fs.blkPerClus (show fs.clusters ≤ c by omega)
    omega
  · intro h
    have hmul := Nat.mul_le_mul_right fs.blkPerClus (show c + 1 ≤ fs.clusters from h)
    rw [Nat.add_mul, Nat.one_mul] at hmul
    omega

/-- The blocks of the first FAT are inside. -/
theorem blockInside_fat {b : ℕ} (hp : Placed fs) (h : b < fs.fatStartBlk + fs.fatLengthBlk) :
    BlockInside fs b := .inl (by have := hp.fat_before_data; omega)

theorem fatBlk_lt (hp : Placed fs) {c : ℕ} (hc : c < fs.clusters) :
    fatBlk fs c < fs.fatStartBlk + fs.fatLengthBlk := by
  have hcov := hp.fat_covers
  obtain ⟨w, -, hbs⟩ := hp.blockSize_words
  have hdiv : fs.blockSize / 4 = 2 ^ w := by omega
  rw [hdiv] at hcov
  rw [fatBlk_eq hp.toWellFormed, hdiv]
  have : c / 2 ^ w < fs.fatLengthBlk := by
    rw [Nat.div_lt_iff_lt_mul (Nat.two_pow_pos w)]
    omega
  omega

theorem lt_clusters_of_accepted (hp : Placed fs) {c : ℕ} (h : ¬ fs.clustersPred ≤ c) :
    c + 1 < fs.clusters := by
  rw [hp.clustersPred_eq hp.clusters_pos] at h
  omega

/-- A read inside a walk that ends when the read fails. -/
theorem asks_read {sz b : ℕ} (hb : BlockInside fs b) {f : Option Page → Driver α}
    (hf : asks (storedWorld mayFail) (RequestInside fs) (f none) v) :
    asks (storedWorld mayFail) (RequestInside fs) (readBlock sz b >>= f) v ↔
      asks (storedWorld mayFail) (RequestInside fs) (f (some (blockAt v sz b))) v := by
  rw [asks_readBlock]
  exact ⟨fun h => h.2.1, fun h => ⟨hb, h, fun _ => hf⟩⟩

/-- A lookup inside a walk that ends when the lookup fails. -/
theorem asks_entry (hp : Placed fs) {cls : ℕ} {f : Except Errno ℕ → Driver α}
    (hf : ∀ e, asks (storedWorld mayFail) (RequestInside fs) (f (.error e)) v) :
    asks (storedWorld mayFail) (RequestInside fs) (sfatGetEntryContent fs cls >>= f) v ↔
      (¬ fs.clustersPred ≤ cls →
        asks (storedWorld mayFail) (RequestInside fs) (f (.ok (fatWord fs v cls))) v) := by
  have hreq : asks (storedWorld mayFail) (RequestInside fs) (sfatGetEntryContent fs cls) v := by
    rw [sfatGetEntryContent]
    split
    · exact asks_done _ _ _
    · rename_i hcls
      have hblk := fatBlk_lt hp (Nat.lt_of_succ_lt (lt_clusters_of_accepted hp hcls))
      rw [asks_blkholderAlloc]
      refine ⟨trivial, fun page _ => ?_⟩
      cases page with
      | none => exact asks_done _ _ _
      | some addr =>
        rw [asks_readBlock]
        refine ⟨blockInside_fat hp hblk, ?_, fun _ => asks_done _ _ _⟩
        rw [asks_le32OfPointer]
        exact ⟨trivial, fun _ _ => asks_done _ _ _⟩
  rw [asks_bind, and_iff_right hreq, wp_sfatGetEntryContent]
  split
  · rename_i hcls
    exact ⟨fun _ hn => absurd hcls hn, fun _ => hf _⟩
  · rename_i hcls
    constructor
    · rintro ⟨-, -, h⟩ -
      exact h 0 _ (nextWord_storedWord hp.toWellFormed v cls).symm
    · intro h
      refine ⟨fun _ => hf _, fun _ => hf _, fun addr r hr => ?_⟩
      have hr : r = nextWord storedWord fs v cls := hr
      rw [hr, nextWord_storedWord hp.toWellFormed]
      exact h hcls

end Basics

/-! ### The scanners -/

/-- **A scan stops before the cluster `clusters`**: the walk does not reach it, or a slot before it
stops the scan. -/
def StopsBefore (fs : FsInfo) (v : Vol) (stops : List Slot → Bool) (n cls : ℕ) : Prop :=
  ∀ pre, walkClusters storedWord fs v n cls = pre ++ [fs.clusters] →
    stops (dirSlots fs v pre) = true

section Scanners

variable {mayFail : Request → Prop} {fs : FsInfo} {v : Vol} {α : Type} {stops stops' : List Slot → Bool}

theorem StopsBefore.zero (cls : ℕ) : StopsBefore fs v stops 0 cls := by
  intro pre h
  rw [walkClusters, trail] at h
  simp at h

/-- The cluster behind the last one is not passed. -/
theorem not_stopsBefore_last (hp : Placed fs) (hnil : stops [] = false) (n : ℕ) :
    ¬ StopsBefore fs v stops (n + 1) fs.clusters := by
  intro h
  have hpred : fs.clustersPred ≤ fs.clusters := by
    rw [hp.clustersPred_eq hp.clusters_pos]
    omega
  have hstop := h [] (by rw [walkClusters_succ, if_pos hpred]; rfl)
  rw [dirSlots_nil, hnil] at hstop
  exact Bool.false_ne_true hstop

theorem not_blockInside_last (hp : Placed fs) : ¬ BlockInside fs (clsToBlk fs fs.clusters) := by
  have hmax := hp.clusters_lt
  rw [sfatEntryMax] at hmax
  intro h
  have hlt := (blockInside_cluster hp (by omega) (b := 0) hp.blkPerClus_pos).mp h
  exact Nat.lt_irrefl _ hlt

theorem false_imp_iff_or {b : Bool} {p : Prop} : (b = false → p) ↔ b = true ∨ p := by
  cases b with
  | false => simp
  | true => simp

/-- One round of a scan: it stops in the first cluster, or the rest of the walk is a scan. -/
theorem stopsBefore_succ (hp : Placed fs) {n cls : ℕ} (hcls : cls < fs.clusters)
    (hsplit : ∀ rest, stops (clusterSlots fs v cls ++ rest) =
      (stops (clusterSlots fs v cls) || stops' rest)) :
    StopsBefore fs v stops (n + 1) cls ↔ stops (clusterSlots fs v cls) = true ∨
      (¬ fs.clustersPred ≤ cls → ¬ fs.clusters < fatWord fs v cls →
        StopsBefore fs v stops' n (fatWord fs v cls)) := by
  have hword := nextWord_storedWord hp.toWellFormed v cls
  have hwalk := @walkClusters_succ storedWord fs v n cls
  rw [hword] at hwalk
  constructor
  · intro h
    by_cases hstop : stops (clusterSlots fs v cls) = true
    · exact .inl hstop
    · refine .inr fun hpred hlink pre hpre => ?_
      rw [if_neg hpred, if_neg hlink, hpre] at hwalk
      have hall := h (cls :: pre) hwalk
      rw [dirSlots_cons, hsplit, Bool.or_eq_true] at hall
      exact hall.resolve_left hstop
  · rintro h pre hpre
    cases pre with
    | nil =>
      rw [hwalk, List.nil_append] at hpre
      exact absurd (List.cons.inj hpre).1 (Nat.ne_of_lt hcls)
    | cons c pre =>
      rw [hwalk, List.cons_append] at hpre
      obtain ⟨rfl, hrest⟩ := List.cons.inj hpre
      rw [dirSlots_cons, hsplit, Bool.or_eq_true]
      refine h.imp_right fun h => ?_
      by_cases hpred : fs.clustersPred ≤ cls
      · rw [if_pos hpred] at hrest
        exact absurd hrest (by simp)
      · by_cases hlink : fs.clusters < fatWord fs v cls
        · rw [if_neg hpred, if_pos hlink] at hrest
          exact absurd hrest (by simp)
        · rw [if_neg hpred, if_neg hlink] at hrest
          exact h hpred hlink pre hrest

/-- The end of a round: the link is greater than `clusters`, or the walk goes on. -/
theorem asks_link (hp : Placed fs) {n cls : ℕ} {f : Except Errno ℕ → Driver α}
    (herr : ∀ e, asks (storedWorld mayFail) (RequestInside fs) (f (.error e)) v)
    (hend : ∀ next, fs.clusters < next →
      asks (storedWorld mayFail) (RequestInside fs) (f (.ok next)) v)
    (hrest : ∀ next, next ≤ fs.clusters →
      (asks (storedWorld mayFail) (RequestInside fs) (f (.ok next)) v ↔
        StopsBefore fs v stops n next)) :
    asks (storedWorld mayFail) (RequestInside fs) (sfatGetEntryContent fs cls >>= f) v ↔
      (¬ fs.clustersPred ≤ cls → ¬ fs.clusters < fatWord fs v cls →
        StopsBefore fs v stops n (fatWord fs v cls)) := by
  rw [asks_entry hp herr]
  refine forall_congr' fun _ => ?_
  by_cases hlink : fs.clusters < fatWord fs v cls
  · exact ⟨fun _ hn => absurd hlink hn, fun _ => hend _ hlink⟩
  · rw [hrest _ (by omega)]
    exact ⟨fun h _ => h, fun h => h hlink⟩

/-! #### `sfat_dentry_locate` -/

def stopsLocate (name : Vector UInt8 11) (slots : List Slot) : Bool := (scanName name slots).isSome

theorem stopsLocate_append (name : Vector UInt8 11) (as bs : List Slot) :
    stopsLocate name (as ++ bs) = (stopsLocate name as || stopsLocate name bs) := by
  rw [stopsLocate, scanName_append, stopsLocate, stopsLocate, Option.isSome_or]

theorem asks_locateBlocks (hp : Placed fs) (name : Vector UInt8 11) {c : ℕ} (hc : c < fs.clusters)
    {f : Loop Unit (Except Errno (Option LocatedEntry)) → Driver α}
    (hf : ∀ r, asks (storedWorld mayFail) (RequestInside fs) (f (.out r)) v) (n blk : ℕ)
    (hn : blk + n ≤ fs.blkPerClus) :
    asks (storedWorld mayFail) (RequestInside fs)
        (locateBlocks fs name c n (clsToBlk fs c + blk) >>= f) v ↔
      (stopsLocate name (blockSlots fs v c n blk) = false →
        asks (storedWorld mayFail) (RequestInside fs) (f (.next ())) v) := by
  have hmax := hp.clusters_lt
  rw [sfatEntryMax] at hmax
  induction n generalizing blk with
  | zero => exact ⟨fun h _ => h, fun h => h rfl⟩
  | succ n ih =>
    have hblk : BlockInside fs (clsToBlk fs c + blk) :=
      (blockInside_cluster hp (by omega) (by omega)).mpr hc
    rw [locateBlocks, Program.bind_assoc, asks_read hblk (hf _), blockSlots_succ, stopsLocate_append,
      stopsLocate]
    simp only [locateSlots_eq c blk]
    cases hr : scanName name (pageSlots c blk
      (blockAt v fs.blockSize (clsToBlk fs c + blk)) fs.direntPerBlk 0) with
    | none =>
      rw [Option.isSome_none, Bool.false_or, Nat.add_assoc]
      exact ih (blk + 1) (by omega)
    | some r =>
      refine ⟨fun _ h => by simp at h, fun _ => ?_⟩
      cases r with
      | none => exact hf _
      | some s => exact hf _

/-- **`sfat_dentry_locate` stays inside** exactly if the scan for the name stops in time. -/
theorem asks_locateClusters (hp : Placed fs) (name : Vector UInt8 11) (n : ℕ) {cls : ℕ}
    (hcls : cls ≤ fs.clusters) :
    asks (storedWorld mayFail) (RequestInside fs) (locateClusters fs name n cls) v ↔
      StopsBefore fs v (stopsLocate name) n cls := by
  induction n generalizing cls with
  | zero => exact ⟨fun _ => .zero cls, fun _ => asks_done _ _ _⟩
  | succ n ih =>
    rw [locateClusters]
    rcases Nat.lt_or_eq_of_le hcls with hlt | rfl
    · refine (asks_locateBlocks hp name hlt ?_ fs.blkPerClus 0 (by omega)).trans ?_
      · exact fun r => asks_done _ _ _
      · rw [stopsBefore_succ hp hlt fun rest => stopsLocate_append name _ rest]
        refine Iff.trans (imp_congr_right fun _ => asks_link hp ?_ ?_ ?_) false_imp_iff_or
        · exact fun e => asks_done _ _ _
        · intro next hnext
          show asks _ _ (if _ then _ else _) v
          rw [if_pos hnext]
          exact asks_done _ _ _
        · intro next hnext
          show asks _ _ (if _ then _ else _) v ↔ _
          rw [if_neg (Nat.not_lt.mpr hnext)]
          exact ih hnext
    · refine ⟨fun h => absurd ?_ (not_blockInside_last hp), fun h => absurd h ?_⟩
      · obtain ⟨m, hm⟩ := Nat.exists_eq_succ_of_ne_zero (Nat.ne_of_gt hp.blkPerClus_pos)
        rw [hm, locateBlocks, asks_bind, asks_readBlock] at h
        exact h.1.1
      · exact not_stopsBefore_last hp rfl n

/-! #### `sfat_free_dentry_locate` -/

def stopsFree (slots : List Slot) : Bool := (firstUnused slots).isSome

theorem stopsFree_append (as bs : List Slot) :
    stopsFree (as ++ bs) = (stopsFree as || stopsFree bs) := by
  rw [stopsFree, firstUnused_append, stopsFree, stopsFree, Option.isSome_or]

theorem asks_freeBlocks (hp : Placed fs) {c : ℕ} (hc : c < fs.clusters)
    {f : Loop Unit (Except Errno FreeSlot) → Driver α}
    (hf : ∀ r, asks (storedWorld mayFail) (RequestInside fs) (f (.out r)) v) (n blk : ℕ)
    (hn : blk + n ≤ fs.blkPerClus) :
    asks (storedWorld mayFail) (RequestInside fs)
        (freeBlocks fs c n (clsToBlk fs c + blk) >>= f) v ↔
      (stopsFree (blockSlots fs v c n blk) = false →
        asks (storedWorld mayFail) (RequestInside fs) (f (.next ())) v) := by
  have hmax := hp.clusters_lt
  rw [sfatEntryMax] at hmax
  induction n generalizing blk with
  | zero => exact ⟨fun h _ => h, fun h => h rfl⟩
  | succ n ih =>
    have hblk : BlockInside fs (clsToBlk fs c + blk) :=
      (blockInside_cluster hp (by omega) (by omega)).mpr hc
    rw [freeBlocks, Program.bind_assoc, asks_read hblk (hf _), blockSlots_succ, stopsFree_append,
      stopsFree]
    simp only [freeSlots_eq c blk]
    cases hr : firstUnused (pageSlots c blk
      (blockAt v fs.blockSize (clsToBlk fs c + blk)) fs.direntPerBlk 0) with
    | none =>
      rw [Option.isSome_none, Bool.false_or, Nat.add_assoc]
      exact ih (blk + 1) (by omega)
    | some s => exact ⟨fun _ h => by simp at h, fun _ => hf _⟩

/-- **`sfat_free_dentry_locate` stays inside** exactly if a slot that is not in use stops it in
time. -/
theorem asks_freeClusters (hp : Placed fs) (n : ℕ) {cls : ℕ} (hcls : cls ≤ fs.clusters) :
    asks (storedWorld mayFail) (RequestInside fs) (freeClusters fs n cls) v ↔
      StopsBefore fs v stopsFree n cls := by
  induction n generalizing cls with
  | zero => exact ⟨fun _ => .zero cls, fun _ => asks_done _ _ _⟩
  | succ n ih =>
    rw [freeClusters]
    rcases Nat.lt_or_eq_of_le hcls with hlt | rfl
    · refine (asks_freeBlocks hp hlt ?_ fs.blkPerClus 0 (by omega)).trans ?_
      · exact fun r => asks_done _ _ _
      · rw [stopsBefore_succ hp hlt fun rest => stopsFree_append _ rest]
        refine Iff.trans (imp_congr_right fun _ => asks_link hp ?_ ?_ ?_) false_imp_iff_or
        · exact fun e => asks_done _ _ _
        · intro next hnext
          show asks _ _ (if _ then _ else _) v
          rw [if_pos hnext]
          exact asks_done _ _ _
        · intro next hnext
          show asks _ _ (if _ then _ else _) v ↔ _
          rw [if_neg (Nat.not_lt.mpr hnext)]
          exact ih hnext
    · refine ⟨fun h => absurd ?_ (not_blockInside_last hp), fun h => absurd h ?_⟩
      · obtain ⟨m, hm⟩ := Nat.exists_eq_succ_of_ne_zero (Nat.ne_of_gt hp.blkPerClus_pos)
        rw [hm, freeBlocks, asks_bind, asks_readBlock] at h
        exact h.1.1
      · exact not_stopsBefore_last hp rfl n

/-! #### `sfat_count_subdirs` -/

def stopsAtEnd (slots : List Slot) : Bool := slots.any Slot.isEnd

theorem stopsAtEnd_append (as bs : List Slot) :
    stopsAtEnd (as ++ bs) = (stopsAtEnd as || stopsAtEnd bs) := List.any_append

theorem asks_countBlocks (hp : Placed fs) {c : ℕ} (hc : c < fs.clusters)
    {f : Loop ℕ (Except Errno ℕ) → Driver α} {rest : Prop}
    (hf : ∀ r, asks (storedWorld mayFail) (RequestInside fs) (f (.out r)) v)
    (hnext : ∀ count, asks (storedWorld mayFail) (RequestInside fs) (f (.next count)) v ↔ rest)
    (n blk count : ℕ) (hn : blk + n ≤ fs.blkPerClus) :
    asks (storedWorld mayFail) (RequestInside fs)
        (countBlocks fs n (clsToBlk fs c + blk) count >>= f) v ↔
      (stopsAtEnd (blockSlots fs v c n blk) = false → rest) := by
  have hmax := hp.clusters_lt
  have hslots : (fs.blockSize + 31) / 32 = fs.direntPerBlk := by
    obtain ⟨d, -, hd, hbs⟩ := hp.blockSize_slots
    omega
  rw [sfatEntryMax] at hmax
  induction n generalizing blk count with
  | zero => exact ⟨fun h _ => (hnext count).mp h, fun h => (hnext count).mpr (h rfl)⟩
  | succ n ih =>
    have hblk : BlockInside fs (clsToBlk fs c + blk) :=
      (blockInside_cluster hp (by omega) (by omega)).mpr hc
    have hpage := countSlots_eq c blk (blockAt v fs.blockSize (clsToBlk fs c + blk))
      fs.direntPerBlk 0 count
    rw [Nat.mul_zero, countNext] at hpage
    rw [countBlocks, Program.bind_assoc, asks_read hblk (hf _), blockSlots_succ, stopsAtEnd_append,
      hslots]
    simp only [hpage]
    rw [stopsAtEnd]
    by_cases hend : (pageSlots c blk (blockAt v fs.blockSize (clsToBlk fs c + blk))
      fs.direntPerBlk 0).any Slot.isEnd = true
    · rw [if_pos hend, hend]
      exact ⟨fun _ h => by simp at h, fun _ => hf _⟩
    · rw [if_neg hend, Bool.eq_false_iff.mpr hend, Bool.false_or, Nat.add_assoc]
      exact ih (blk + 1) _ (by omega)

/-- **`sfat_count_subdirs` stays inside** exactly if a terminator stops it in time. -/
theorem asks_countClusters (hp : Placed fs) (n : ℕ) {cls : ℕ} (hcls : cls ≤ fs.clusters)
    (count : ℕ) :
    asks (storedWorld mayFail) (RequestInside fs) (countClusters fs n cls count) v ↔
      StopsBefore fs v stopsAtEnd n cls := by
  have hmax := hp.clusters_lt
  induction n generalizing cls count with
  | zero => exact ⟨fun _ => .zero cls, fun _ => asks_done _ _ _⟩
  | succ n ih =>
    rw [countClusters, if_neg (by omega)]
    rcases Nat.lt_or_eq_of_le hcls with hlt | rfl
    · rw [stopsBefore_succ hp hlt fun rest => stopsAtEnd_append _ rest, ← false_imp_iff_or]
      refine asks_countBlocks hp hlt ?_ ?_ fs.blkPerClus 0 count (by omega)
      · exact fun r => asks_done _ _ _
      · intro count
        refine asks_link hp ?_ ?_ ?_
        · exact fun e => asks_done _ _ _
        · intro next hnext
          show asks _ _ (if _ then _ else _) v
          rw [if_pos hnext]
          exact asks_done _ _ _
        · intro next hnext
          show asks _ _ (if _ then _ else _) v ↔ _
          rw [if_neg (Nat.not_lt.mpr hnext)]
          exact ih hnext count
    · refine ⟨fun h => absurd ?_ (not_blockInside_last hp), fun h => absurd h ?_⟩
      · obtain ⟨m, hm⟩ := Nat.exists_eq_succ_of_ne_zero (Nat.ne_of_gt hp.blkPerClus_pos)
        rw [hm, countBlocks, asks_bind, asks_readBlock] at h
        exact h.1.1
      · exact not_stopsBefore_last hp rfl n

/-! #### `sfat_readdir` -/

/-- Only `filldir` may refuse an entry, and it may accept every one: the slots of a page are passed
over unless a terminator stops the walk. -/
theorem asks_readdirSlots {f : Loop ReaddirState ReaddirState → Driver α} {rest : Prop}
    (hf : ∀ st, asks (storedWorld mayFail) (RequestInside fs) (f (.out st)) v)
    (hnext : ∀ st, asks (storedWorld mayFail) (RequestInside fs) (f (.next st)) v ↔ rest)
    (cls blk : ℕ) (data : Page) (n k : ℕ) (st : ReaddirState) :
    asks (storedWorld mayFail) (RequestInside fs) (readdirSlots data n (32 * k) st >>= f) v ↔
      (stopsAtEnd (pageSlots cls blk data n k) = false → rest) := by
  induction n generalizing k st with
  | zero => exact ⟨fun h _ => (hnext st).mp h, fun h => (hnext st).mpr (h rfl)⟩
  | succ n ih =>
    have hstep : 32 * k + 32 = 32 * (k + 1) := by ring
    rw [readdirSlots, pageSlots_succ, hstep, stopsAtEnd, List.any_cons]
    show asks _ _ ((if (direntAt data (32 * k)).isEnd = true then _ else _) >>= f) v ↔
      ((direntAt data (32 * k)).isEnd || _) = false → rest
    by_cases hend : (direntAt data (32 * k)).isEnd = true
    · rw [if_pos hend, hend]
      exact ⟨fun _ h => by simp at h, fun _ => hf _⟩
    · rw [if_neg hend, Bool.eq_false_iff.mpr hend, Bool.false_or]
      by_cases hemp : (direntAt data (32 * k)).isEmpty = true
      · rw [if_pos hemp]
        exact ih (k + 1) _
      · rw [if_neg hemp, Program.bind_assoc, asks_iunique]
        constructor
        · rintro ⟨-, h⟩
          have h := h (sfatRootIno + 1) (Nat.lt_succ_self _)
          rw [Program.bind_assoc, asks_filldir] at h
          exact (ih (k + 1) _).mp (h.2 0 (.inl rfl))
        · intro h
          refine ⟨trivial, fun ino _ => ?_⟩
          rw [Program.bind_assoc, asks_filldir]
          refine ⟨trivial, fun error _ => ?_⟩
          show asks _ _ ((if error < 0 then _ else _) >>= f) v
          by_cases hneg : error < 0
          · rw [if_pos hneg]
            exact hf _
          · rw [if_neg hneg]
            exact (ih (k + 1) _).mpr h

end Scanners

end SimpleFat
