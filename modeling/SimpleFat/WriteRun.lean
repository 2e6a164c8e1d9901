import SimpleFat.ChainBounds
import SimpleFat.FileChain

/-!
# What a write can do

Every execution of `sfat_sync_write` up to its label `end`, with any FAT lookups and any requests
that fail, is one of the runs of this file.  What a write keeps or completes is then an induction
over runs.

* `ExistingRun` — the walk over the clusters that the file has, `writeExisting_spec`;
* `NewRun` — the loop that adds clusters, `writeNew_spec`;
* `DataRun` — the whole work on the clusters, `syncWriteData_spec`.
-/

namespace SimpleFat

open SimpleFat.Lib

variable {mayFail : Request → Prop} {look : (blk pos : ℕ) → Page → ℕ} {fs : FsInfo} {v : Vol}

def CanFail (mayFail : Request → Prop) : Prop := ∃ c, mayFail c

theorem not_canFail : ¬ CanFail noFailure := by
  intro h
  obtain ⟨c, hc⟩ := h
  exact not_noFailure c hc

/-! ### Lookups and seeks -/

theorem getEntry_spec (cls : ℕ) :
    wp (failingWorld mayFail look) (sfatGetEntryContent fs cls) (fun r v' => v' = v ∧ match r with
      | .ok next => ¬ fs.clustersPred ≤ cls ∧ next = nextWord look fs v cls
      | .error _ => fs.clustersPred ≤ cls ∨ CanFail mayFail) v := by
  rw [wp_sfatGetEntryContent]
  split
  · rename_i hcls
    exact ⟨rfl, .inl hcls⟩
  · rename_i hcls
    refine ⟨fun hm => ⟨rfl, .inr ⟨_, hm⟩⟩, fun hm => ⟨rfl, .inr ⟨_, hm⟩⟩, fun addr r hr => ?_⟩
    exact ⟨rfl, hcls, hr⟩

/-- `sfat_seek` finds a cluster: it accepts all links up to it. -/
def SeekFinds (look : (blk pos : ℕ) → Page → ℕ) (fs : FsInfo) (v : Vol) (start pos c : ℕ) : Prop :=
  ¬ fs.clustersPred ≤ start ∧
    linked (nextCls look fs v) (pos / fs.clusterSize) start = some c

theorem seekLoop_spec (hwf : WellFormed fs) (fuel cls pos : ℕ) (hfuel : pos ≤ fuel) :
    wp (failingWorld mayFail look) (sfatSeekLoop fs fuel cls pos) (fun r v' => v' = v ∧ match r with
      | .ok (c, off) => linked (nextCls look fs v) (pos / fs.clusterSize) cls = some c ∧
          off = pos % fs.clusterSize
      | .error _ => linked (nextCls look fs v) (pos / fs.clusterSize) cls = none ∨
          CanFail mayFail) v := by
  have hcs := hwf.clusterSize_pos
  induction fuel generalizing cls pos with
  | zero =>
    obtain rfl : pos = 0 := by omega
    rw [sfatSeekLoop, if_neg (by omega)]
    exact (wp_done _ _ _).mpr ⟨rfl, by rw [Nat.zero_div, linked], (Nat.zero_mod _).symm⟩
  | succ fuel ih =>
    rw [sfatSeekLoop]
    by_cases hle : fs.clusterSize ≤ pos
    · have hdiv := Nat.div_eq_sub_div hcs hle
      have hlinked := @linked_nextCls look fs v ((pos - fs.clusterSize) / fs.clusterSize) cls
      rw [← hdiv] at hlinked
      rw [if_pos hle]
      refine wp_seq (getEntry_spec cls) fun r v' hr => ?_
      obtain ⟨rfl, hr⟩ := hr
      cases r with
      | error e =>
        refine (wp_done _ _ _).mpr ⟨rfl, hr.imp_left fun hcls => ?_⟩
        rw [hlinked, if_pos hcls]
      | ok next =>
        obtain ⟨hcls, rfl⟩ := hr
        rw [if_neg hcls] at hlinked
        show wp _ (if _ then _ else _) _ _
        by_cases hnext : fs.clusters < nextWord look fs v' cls
        · rw [if_pos hnext]
          exact (wp_done _ _ _).mpr ⟨rfl, .inl (by rw [hlinked, if_pos hnext])⟩
        · have hmod : (pos - fs.clusterSize) % fs.clusterSize = pos % fs.clusterSize :=
            (Nat.mod_eq_sub_mod hle).symm
          have hrest := ih (nextWord look fs v' cls) (pos - fs.clusterSize) (by omega)
          rw [if_neg hnext] at hlinked
          rw [hlinked, if_neg hnext, ← hmod]
          exact hrest
    · rw [if_neg hle, Nat.div_eq_of_lt (by omega), Nat.mod_eq_of_lt (by omega)]
      exact (wp_done _ _ _).mpr ⟨rfl, rfl, rfl⟩

/-- **`sfat_seek` finds its cluster**, or says that there is none, or something has failed. -/
theorem seek_spec (hwf : WellFormed fs) (start pos : ℕ) :
    wp (failingWorld mayFail look) (sfatSeek fs start pos) (fun r v' => v' = v ∧ match r with
      | .ok (c, off) => SeekFinds look fs v start pos c ∧ off = pos % fs.clusterSize
      | .error _ => (∀ c, ¬ SeekFinds look fs v start pos c) ∨ CanFail mayFail) v := by
  rw [sfatSeek]
  split
  · rename_i hstart
    exact (wp_done _ _ _).mpr ⟨rfl, .inl fun c hc => hc.1 hstart⟩
  · rename_i hstart
    refine wp_mono (seekLoop_spec hwf pos start pos (Nat.le_refl pos)) fun r v' hr => ?_
    obtain ⟨rfl, hr⟩ := hr
    cases r with
    | ok found => exact ⟨rfl, ⟨hstart, hr.1⟩, hr.2⟩
    | error e =>
      refine ⟨rfl, hr.imp_left fun hnone c hc => ?_⟩
      rw [hc.2] at hnone
      cases hnone

/-! ### The loops -/

def chunkWritten (fs : FsInfo) (st : SyncWriteState) (offset n : ℕ) (v : Vol) : Vol :=
  patch v (clsAddr fs st.curCls + offset) n st.buf

def SyncWriteState.at (st : SyncWriteState) (cls : ℕ) : SyncWriteState := { st with curCls := cls }

/-- A cluster was taken and linked to the current one. -/
def clusterLinked (fs : FsInfo) (v : Vol) (cur c : ℕ) : Vol :=
  setFatWord fs (setFatWord fs v c sfatEntryEoc) cur c

def NoneFree (fs : FsInfo) (v : Vol) : Prop := ∀ k < fatWords fs, fatWord fs v k ≠ sfatEntryFree

/-- **The loop that adds clusters**, from one state and volume to another. -/
inductive NewRun (mayFail : Request → Prop) (fs : FsInfo) :
    SyncWriteState → Vol → SyncWriteState → Vol → Prop
  /-- Everything is written. -/
  | done {st : SyncWriteState} {v : Vol} : st.len = 0 → NewRun mayFail fs st v st v
  /-- No cluster is free. -/
  | noCluster {st : SyncWriteState} {v : Vol} : st.len ≠ 0 → NoneFree fs v ∨ CanFail mayFail →
      NewRun mayFail fs st v st v
  /-- A cluster was taken and not linked. -/
  | unlinked {st : SyncWriteState} {v : Vol} {c : ℕ} : st.len ≠ 0 → FirstFree fs v c →
      fs.clustersPred ≤ st.curCls ∨ CanFail mayFail →
      NewRun mayFail fs st v st (setFatWord fs v c sfatEntryEoc)
  /-- The write to the new cluster was short. -/
  | short {st : SyncWriteState} {v : Vol} {c n : ℕ} : st.len ≠ 0 → FirstFree fs v c →
      st.curCls < fs.clustersPred → n < chunkLen fs (st.at c) 0 → CanFail mayFail →
      NewRun mayFail fs st v ((st.at c).advance n)
        (chunkWritten fs (st.at c) 0 n (clusterLinked fs v st.curCls c))
  /-- The new cluster was written. -/
  | more {st st' : SyncWriteState} {v v' : Vol} {c : ℕ} : st.len ≠ 0 → FirstFree fs v c →
      st.curCls < fs.clustersPred →
      NewRun mayFail fs ((st.at c).advance (chunkLen fs (st.at c) 0))
        (chunkWritten fs (st.at c) 0 (chunkLen fs (st.at c) 0) (clusterLinked fs v st.curCls c))
        st' v' →
      NewRun mayFail fs st v st' v'

/-- **The walk over the clusters that the file has.** -/
inductive ExistingRun (mayFail : Request → Prop) (look : (blk pos : ℕ) → Page → ℕ) (fs : FsInfo) :
    SyncWriteState → Vol → Loop SyncWriteState SyncWriteState → Vol → Prop
  /-- Everything is written. -/
  | done {st : SyncWriteState} {v : Vol} : st.len = 0 → ExistingRun mayFail look fs st v (.next st) v
  /-- The accessor refuses the current cluster. -/
  | refused {st : SyncWriteState} {v : Vol} : st.len ≠ 0 →
      fs.clustersPred ≤ st.curCls ∨ CanFail mayFail → ExistingRun mayFail look fs st v (.out st) v
  /-- The chain ends: its last word is now the current cluster. -/
  | ended {st : SyncWriteState} {v : Vol} : st.len ≠ 0 → ¬ fs.clustersPred ≤ st.curCls →
      sfatEntryMax ≤ nextWord look fs v st.curCls →
      ExistingRun mayFail look fs st v (.next (st.at (nextWord look fs v st.curCls))) v
  /-- The write to the next cluster was short. -/
  | short {st : SyncWriteState} {v : Vol} {c n : ℕ} : st.len ≠ 0 → ¬ fs.clustersPred ≤ st.curCls →
      nextWord look fs v st.curCls = c → c < sfatEntryMax → n < chunkLen fs (st.at c) 0 →
      CanFail mayFail →
      ExistingRun mayFail look fs st v (.out ((st.at c).advance n)) (chunkWritten fs (st.at c) 0 n v)
  /-- The next cluster was written. -/
  | more {st : SyncWriteState} {r : Loop SyncWriteState SyncWriteState} {v v' : Vol} {c : ℕ} :
      st.len ≠ 0 → ¬ fs.clustersPred ≤ st.curCls → nextWord look fs v st.curCls = c → c < sfatEntryMax →
      ExistingRun mayFail look fs ((st.at c).advance (chunkLen fs (st.at c) 0))
        (chunkWritten fs (st.at c) 0 (chunkLen fs (st.at c) 0) v) r v' →
      ExistingRun mayFail look fs st v r v'

/-- A write to a cluster takes at least one byte. -/
theorem chunkLen_pos {st : SyncWriteState} {offset : ℕ} (hlen : st.len ≠ 0)
    (hoff : offset < fs.clusterSize) : 0 < chunkLen fs st offset := by
  rw [chunkLen]
  omega

theorem writeNew_spec (hwf : WellFormed fs) (fuel : ℕ) {st : SyncWriteState} (hfuel : st.len ≤ fuel) :
    wp (failingWorld mayFail look) (writeNew fs fuel st) (fun r v' =>
      ∃ st', r = some st' ∧ NewRun mayFail fs st v st' v') v := by
  induction fuel generalizing st v with
  | zero =>
    have h0 : st.len = 0 := by omega
    rw [writeNew, if_pos h0]
    exact (wp_done _ _ _).mpr ⟨st, rfl, .done h0⟩
  | succ fuel ih =>
    rw [writeNew]
    by_cases h0 : st.len = 0
    · rw [if_pos h0]
      exact (wp_done _ _ _).mpr ⟨st, rfl, .done h0⟩
    · rw [if_neg h0]
      refine wp_seq (acquire_spec hwf v) fun r v₁ hr => ?_
      cases r with
      | error e =>
        obtain ⟨rfl, hr⟩ := hr
        refine (wp_done _ _ _).mpr ⟨st, rfl, .noCluster h0 ?_⟩
        exact hr.imp (fun h => h.2) (fun h => h.2)
      | ok c =>
        obtain ⟨hfirst, rfl⟩ := hr
        refine wp_seq (modify_spec hwf st.curCls c _) fun r v₂ hr => ?_
        cases r with
        | some e =>
          obtain ⟨rfl, hr⟩ := hr
          refine (wp_done _ _ _).mpr ⟨st, rfl, .unlinked h0 hfirst ?_⟩
          exact hr.imp (fun h => h.2) (fun h => h.2.2)
        | none =>
          obtain ⟨hcur, rfl⟩ := hr
          refine wp_seq (writeChunk_spec hwf.blockSize_eq (st.at c) 0) fun r v₃ hr => ?_
          cases r with
          | out r =>
            obtain ⟨st', n⟩ := r
            obtain ⟨rfl, hlt, hdone⟩ := hr
            have hv := hdone.vol_eq
            subst hv
            exact (wp_done _ _ _).mpr
              ⟨_, rfl, .short h0 hfirst hcur hlt (hdone.failed hlt)⟩
          | next st' =>
            obtain ⟨rfl, hdone⟩ := hr
            have hv := hdone.vol_eq
            subst hv
            have hpos := @chunkLen_pos fs (st.at c) 0 h0 hwf.clusterSize_pos
            have hle : ((st.at c).advance (chunkLen fs (st.at c) 0)).len ≤ fuel := by
              show st.len - chunkLen fs (st.at c) 0 ≤ fuel
              omega
            refine wp_mono (ih hle) fun r v₄ hr => ?_
            obtain ⟨st', rfl, hrun⟩ := hr
            exact ⟨st', rfl, .more h0 hfirst hcur hrun⟩

theorem writeExisting_spec (hwf : WellFormed fs) (fuel : ℕ) {st : SyncWriteState}
    (hfuel : st.len ≤ fuel) :
    wp (failingWorld mayFail look) (writeExisting fs fuel st) (fun r v' =>
      ∃ r', r = some r' ∧ ExistingRun mayFail look fs st v r' v') v := by
  induction fuel generalizing st v with
  | zero =>
    have h0 : st.len = 0 := by omega
    rw [writeExisting, if_pos h0]
    exact (wp_done _ _ _).mpr ⟨_, rfl, .done h0⟩
  | succ fuel ih =>
    rw [writeExisting]
    by_cases h0 : st.len = 0
    · rw [if_pos h0]
      exact (wp_done _ _ _).mpr ⟨_, rfl, .done h0⟩
    · rw [if_neg h0]
      refine wp_seq (getEntry_spec st.curCls) fun r v₁ hr => ?_
      obtain ⟨rfl, hr⟩ := hr
      cases r with
      | error e => exact (wp_done _ _ _).mpr ⟨_, rfl, .refused h0 hr⟩
      | ok next =>
        obtain ⟨hcur, hnext⟩ := hr
        show wp _ (if _ then _ else _) _ _
        by_cases hmax : next < sfatEntryMax
        · rw [if_pos hmax]
          refine wp_seq (writeChunk_spec hwf.blockSize_eq (st.at next) 0) fun r v₂ hr => ?_
          cases r with
          | out r =>
            obtain ⟨st', n⟩ := r
            obtain ⟨rfl, hlt, hdone⟩ := hr
            have hv := hdone.vol_eq
            subst hv
            exact (wp_done _ _ _).mpr
              ⟨_, rfl, .short h0 hcur hnext.symm hmax hlt (hdone.failed hlt)⟩
          | next st' =>
            obtain ⟨rfl, hdone⟩ := hr
            have hv := hdone.vol_eq
            subst hv
            have hpos := @chunkLen_pos fs (st.at next) 0 h0 hwf.clusterSize_pos
            have hle : ((st.at next).advance (chunkLen fs (st.at next) 0)).len ≤ fuel := by
              show st.len - chunkLen fs (st.at next) 0 ≤ fuel
              omega
            refine wp_mono (ih hle) fun r v₃ hr => ?_
            obtain ⟨r', rfl, hrun⟩ := hr
            exact ⟨r', rfl, .more h0 hcur hnext.symm hmax hrun⟩
        · rw [if_neg hmax]
          refine (wp_done _ _ _).mpr ⟨_, rfl, ?_⟩
          subst hnext
          exact .ended h0 hcur (by omega)

/-! ### The whole work on the clusters -/

def syncWriteStart (inode : Inode) (buf : ℕ → UInt8) (len ppos : ℕ) : SyncWriteState where
  curCls := inode.iStart
  ppos := ppos
  len := len
  buf := buf
  accuLen := 0

/-- The write is not rejected: there is something to write, and no gap before it. -/
def WriteAllowed (inode : Inode) (len ppos : ℕ) : Prop := ppos ≤ inode.iSize ∧ len ≠ 0

/-- The size is no multiple of the block size, or the position is not at the end. -/
def WritesInside (fs : FsInfo) (inode : Inode) (ppos : ℕ) : Prop :=
  inode.iSize &&& (fs.blockSize - 1) ≠ 0 ∨ ppos < inode.iSize

/-- **The work of `sfat_sync_write` on the clusters**: the outcome with the inode, and the volume. -/
inductive DataRun (mayFail : Request → Prop) (look : (blk pos : ℕ) → Page → ℕ) (fs : FsInfo)
    (v : Vol) (inode : Inode) (buf : ℕ → UInt8) (len ppos : ℕ) :
    Except Errno SyncWriteState × Inode → Vol → Prop
  | rejected : ¬ WriteAllowed inode len ppos →
      DataRun mayFail look fs v inode buf len ppos (.error .einval, inode) v
  /-- The cluster of the position is not found. -/
  | notFound {e : Errno} : WriteAllowed inode len ppos → WritesInside fs inode ppos →
      (∀ c, ¬ SeekFinds look fs v inode.iStart ppos c) ∨ CanFail mayFail →
      DataRun mayFail look fs v inode buf len ppos (.error e, inode) v
  /-- The first cluster is written short. -/
  | insideShort {c n : ℕ} : WriteAllowed inode len ppos → WritesInside fs inode ppos →
      SeekFinds look fs v inode.iStart ppos c →
      n < chunkLen fs ((syncWriteStart inode buf len ppos).at c) (ppos % fs.clusterSize) →
      CanFail mayFail →
      DataRun mayFail look fs v inode buf len ppos
        (.ok (((syncWriteStart inode buf len ppos).at c).advance n), inode)
        (chunkWritten fs ((syncWriteStart inode buf len ppos).at c) (ppos % fs.clusterSize) n v)
  /-- The walk over the existing clusters stops the write. -/
  | insideOut {c n : ℕ} {st' : SyncWriteState} {v' : Vol} : WriteAllowed inode len ppos →
      WritesInside fs inode ppos → SeekFinds look fs v inode.iStart ppos c →
      n = chunkLen fs ((syncWriteStart inode buf len ppos).at c) (ppos % fs.clusterSize) →
      ExistingRun mayFail look fs (((syncWriteStart inode buf len ppos).at c).advance n)
        (chunkWritten fs ((syncWriteStart inode buf len ppos).at c) (ppos % fs.clusterSize) n v)
        (.out st') v' →
      DataRun mayFail look fs v inode buf len ppos (.ok st', inode) v'
  /-- The walk over the existing clusters ends, and the rest goes to new ones. -/
  | inside {c n : ℕ} {st₁ st' : SyncWriteState} {v₁ v' : Vol} : WriteAllowed inode len ppos →
      WritesInside fs inode ppos → SeekFinds look fs v inode.iStart ppos c →
      n = chunkLen fs ((syncWriteStart inode buf len ppos).at c) (ppos % fs.clusterSize) →
      ExistingRun mayFail look fs (((syncWriteStart inode buf len ppos).at c).advance n)
        (chunkWritten fs ((syncWriteStart inode buf len ppos).at c) (ppos % fs.clusterSize) n v)
        (.next st₁) v₁ →
      NewRun mayFail fs st₁ v₁ st' v' →
      DataRun mayFail look fs v inode buf len ppos (.ok st', inode) v'
  /-- The last cluster of the file is not found. -/
  | endNotFound : WriteAllowed inode len ppos → ¬ WritesInside fs inode ppos → 0 < inode.iSize →
      (∀ c, ¬ SeekFinds look fs v inode.iStart (ppos - 1) c) ∨ CanFail mayFail →
      DataRun mayFail look fs v inode buf len ppos (.ok (syncWriteStart inode buf len ppos), inode) v
  /-- All goes to new clusters behind the last one. -/
  | atEnd {c : ℕ} {st' : SyncWriteState} {v' : Vol} : WriteAllowed inode len ppos →
      ¬ WritesInside fs inode ppos → 0 < inode.iSize →
      SeekFinds look fs v inode.iStart (ppos - 1) c →
      NewRun mayFail fs ((syncWriteStart inode buf len ppos).at c) v st' v' →
      DataRun mayFail look fs v inode buf len ppos (.ok st', inode) v'
  /-- There is no first cluster for an empty file. -/
  | noCluster : WriteAllowed inode len ppos → ¬ WritesInside fs inode ppos → inode.iSize = 0 →
      NoneFree fs v ∨ CanFail mayFail →
      DataRun mayFail look fs v inode buf len ppos (.ok (syncWriteStart inode buf len ppos), inode) v
  /-- The first cluster of an empty file is written short. -/
  | firstShort {c n : ℕ} : WriteAllowed inode len ppos → ¬ WritesInside fs inode ppos →
      inode.iSize = 0 → FirstFree fs v c →
      n < chunkLen fs ((syncWriteStart inode buf len ppos).at c) 0 → CanFail mayFail →
      DataRun mayFail look fs v inode buf len ppos
        (.ok (((syncWriteStart inode buf len ppos).at c).advance n),
          { inode with iStart := if 0 < n then c else inode.iStart })
        (chunkWritten fs ((syncWriteStart inode buf len ppos).at c) 0 n
          (setFatWord fs v c sfatEntryEoc))
  /-- The first cluster of an empty file is written, and the rest goes to more new ones. -/
  | first {c n : ℕ} {st' : SyncWriteState} {v' : Vol} : WriteAllowed inode len ppos →
      ¬ WritesInside fs inode ppos → inode.iSize = 0 → FirstFree fs v c →
      n = chunkLen fs ((syncWriteStart inode buf len ppos).at c) 0 →
      NewRun mayFail fs (((syncWriteStart inode buf len ppos).at c).advance n)
        (chunkWritten fs ((syncWriteStart inode buf len ppos).at c) 0 n
          (setFatWord fs v c sfatEntryEoc)) st' v' →
      DataRun mayFail look fs v inode buf len ppos (.ok st', { inode with iStart := c }) v'

section Data

variable {inode : Inode} {buf : ℕ → UInt8} {len ppos : ℕ}

/-- The new clusters after the first branch. -/
theorem writeRestData_spec (hwf : WellFormed fs) (st : SyncWriteState) :
    wp (failingWorld mayFail look) (writeRestData fs (some (.next st))) (fun r v' =>
      ∃ st', r = .ok st' ∧ NewRun mayFail fs st v st' v') v := by
  rw [writeRestData]
  refine wp_seq (writeNew_spec hwf st.len (Nat.le_refl _)) fun r v' hr => ?_
  obtain ⟨st', rfl, hrun⟩ := hr
  exact (wp_done _ _ _).mpr ⟨st', rfl, hrun⟩

/-- The branch for a position inside the file. -/
theorem writeInside_spec (hwf : WellFormed fs) (hallow : WriteAllowed inode len ppos)
    (hin : WritesInside fs inode ppos) :
    wp (failingWorld mayFail look) (writeInside fs (syncWriteStart inode buf len ppos)) (fun r v' =>
      match r with
      | .error e => DataRun mayFail look fs v inode buf len ppos (.error e, inode) v'
      | .ok none => False
      | .ok (some (.out st')) => DataRun mayFail look fs v inode buf len ppos (.ok st', inode) v'
      | .ok (some (.next st₁)) => ∀ st' v'', NewRun mayFail fs st₁ v' st' v'' →
          DataRun mayFail look fs v inode buf len ppos (.ok st', inode) v'') v := by
  rw [writeInside]
  refine wp_seq (seek_spec hwf inode.iStart ppos) fun r v₁ hr => ?_
  obtain ⟨rfl, hr⟩ := hr
  cases r with
  | error e => exact (wp_done _ _ _).mpr (.notFound hallow hin hr)
  | ok found =>
    obtain ⟨c, off⟩ := found
    obtain ⟨hseek, hoff⟩ := hr
    subst hoff
    refine wp_seq (writeChunk_spec hwf.blockSize_eq ((syncWriteStart inode buf len ppos).at c)
      (ppos % fs.clusterSize)) fun r v₂ hr => ?_
    cases r with
    | out r =>
      obtain ⟨st', n⟩ := r
      obtain ⟨rfl, hlt, hdone⟩ := hr
      have hv := hdone.vol_eq
      subst hv
      exact (wp_done _ _ _).mpr (.insideShort hallow hin hseek hlt (hdone.failed hlt))
    | next st' =>
      obtain ⟨rfl, hdone⟩ := hr
      have hv := hdone.vol_eq
      subst hv
      refine wp_seq (writeExisting_spec hwf _ (Nat.le_refl _)) fun r v₃ hr => ?_
      obtain ⟨r', rfl, hrun⟩ := hr
      cases r' with
      | out st' => exact (wp_done _ _ _).mpr (.insideOut hallow hin hseek rfl hrun)
      | next st₁ =>
        exact (wp_done _ _ _).mpr fun st' v'' hnew => .inside hallow hin hseek rfl hrun hnew

/-- The branch for the end of the file. -/
theorem writeAtEnd_spec (hwf : WellFormed fs) (hallow : WriteAllowed inode len ppos)
    (hend : ¬ WritesInside fs inode ppos) :
    wp (failingWorld mayFail look) (writeAtEnd fs (syncWriteStart inode buf len ppos) inode.iSize)
      (fun r v' => match r with
      | (.out st', start) => DataRun mayFail look fs v inode buf len ppos
          (.ok st', { inode with iStart := start.getD inode.iStart }) v'
      | (.next st₁, start) => ∀ st' v'', NewRun mayFail fs st₁ v' st' v'' →
          DataRun mayFail look fs v inode buf len ppos
            (.ok st', { inode with iStart := start.getD inode.iStart }) v'') v := by
  rw [writeAtEnd]
  by_cases hsize : 0 < inode.iSize
  · rw [if_pos hsize]
    refine wp_seq (seek_spec hwf inode.iStart (ppos - 1)) fun r v₁ hr => ?_
    obtain ⟨rfl, hr⟩ := hr
    cases r with
    | error e => exact (wp_done _ _ _).mpr (.endNotFound hallow hend hsize hr)
    | ok found =>
      obtain ⟨c, off⟩ := found
      exact (wp_done _ _ _).mpr fun st' v'' hnew => .atEnd hallow hend hsize hr.1 hnew
  · have hzero : inode.iSize = 0 := by omega
    rw [if_neg hsize]
    refine wp_seq (acquire_spec hwf v) fun r v₁ hr => ?_
    cases r with
    | error e =>
      obtain ⟨rfl, hr⟩ := hr
      refine (wp_done _ _ _).mpr (.noCluster hallow hend hzero ?_)
      exact hr.imp (fun h => h.2) (fun h => h.2)
    | ok c =>
      obtain ⟨hfirst, rfl⟩ := hr
      refine wp_seq (writeChunk_spec hwf.blockSize_eq ((syncWriteStart inode buf len ppos).at c) 0)
        fun r v₂ hr => ?_
      cases r with
      | out r =>
        obtain ⟨st', n⟩ := r
        obtain ⟨rfl, hlt, hdone⟩ := hr
        have hv := hdone.vol_eq
        subst hv
        have hrun : DataRun mayFail look fs v inode buf len ppos _ _ :=
          .firstShort hallow hend hzero hfirst hlt (hdone.failed hlt)
        have hstart : (if 0 < n then some c else none).getD inode.iStart =
            if 0 < n then c else inode.iStart := by
          split
          · rfl
          · rfl
        refine (wp_done _ _ _).mpr ?_
        show DataRun mayFail look fs v inode buf len ppos
          (_, { inode with iStart := (if 0 < n then some c else none).getD inode.iStart }) _
        rw [hstart]
        exact hrun
      | next st' =>
        obtain ⟨rfl, hdone⟩ := hr
        have hv := hdone.vol_eq
        subst hv
        exact (wp_done _ _ _).mpr fun st' v'' hnew => .first hallow hend hzero hfirst rfl hnew

/-- **Every execution is a run.** -/
theorem syncWriteData_spec (hwf : WellFormed fs) (inode : Inode) (buf : ℕ → UInt8) (len ppos : ℕ) :
    wp (failingWorld mayFail look) (syncWriteData fs inode buf len ppos)
      (DataRun mayFail look fs v inode buf len ppos) v := by
  rw [syncWriteData]
  simp only []
  by_cases hreject : inode.iSize < ppos ∨ len = 0
  · rw [if_pos hreject]
    refine (wp_done _ _ _).mpr (.rejected fun hallow => ?_)
    rcases hreject with h | h
    · exact absurd hallow.1 (by omega)
    · exact hallow.2 h
  · have hallow : WriteAllowed inode len ppos := ⟨by omega, by omega⟩
    rw [if_neg hreject]
    by_cases hin : inode.iSize &&& (fs.blockSize - 1) ≠ 0 ∨ ppos < inode.iSize
    · rw [if_pos hin]
      refine wp_seq (writeInside_spec hwf hallow hin) fun r v₁ hr => ?_
      cases r with
      | error e => exact (wp_done _ _ _).mpr hr
      | ok r =>
        cases r with
        | none => exact absurd hr id
        | some r =>
          cases r with
          | out st' => exact (wp_done _ _ _).mpr hr
          | next st₁ =>
            refine wp_seq (writeRestData_spec hwf st₁) fun r v₂ hnew => ?_
            obtain ⟨st', rfl, hnew⟩ := hnew
            exact (wp_done _ _ _).mpr (hr st' v₂ hnew)
    · rw [if_neg hin]
      refine wp_seq (writeAtEnd_spec hwf hallow hin) fun r v₁ hr => ?_
      obtain ⟨r, start⟩ := r
      cases r with
      | out st' => exact (wp_done _ _ _).mpr hr
      | next st₁ =>
        refine wp_seq (writeRestData_spec hwf st₁) fun r v₂ hnew => ?_
        obtain ⟨st', rfl, hnew⟩ := hnew
        exact (wp_done _ _ _).mpr (hr st' v₂ hnew)

/-! ### The label `end` -/

/-- The inode after the label `end`. -/
def Inode.written (fs : FsInfo) (inode : Inode) (ppos tvSec : ℕ) : Inode :=
  { inode with
    iSize := max inode.iSize ppos
    iMtime := tvSec
    iAtime := tvSec
    iBlocks := consumedBlocks (max inode.iSize ppos) fs.clusterSize fs.blockBits }

/-- How a write ends after its work on the clusters. -/
def WriteOutcome (mayFail : Request → Prop) (fs : FsInfo) (ppos : ℕ) :
    Except Errno SyncWriteState × Inode → Vol → Except Errno ℕ × Inode × ℕ → Vol → Prop
  | (.error e, inode), v₁, r, v' => r = (.error e, inode, ppos) ∧ v' = v₁
  | (.ok st, inode), v₁, r, v' => ∃ t, r = (.ok st.accuLen, inode.written fs st.ppos t, st.ppos) ∧
      (v' = flushed fs v₁ (inode.written fs st.ppos t) ∨ v' = v₁ ∧ CanFail mayFail)

/-- **Every execution of `sfat_sync_write`** is a run and the flush after it. -/
theorem sfatSyncWrite_spec (hwf : WellFormed fs) (inode : Inode) (buf : ℕ → UInt8) (len ppos : ℕ) :
    wp (failingWorld mayFail look) (sfatSyncWrite fs inode buf len ppos) (fun r v' =>
      ∃ p v₁, DataRun mayFail look fs v inode buf len ppos p v₁ ∧
        WriteOutcome mayFail fs ppos p v₁ r v') v := by
  rw [sfatSyncWrite_eq]
  refine wp_seq (syncWriteData_spec hwf inode buf len ppos) fun p v₁ hrun => ?_
  obtain ⟨r, inode'⟩ := p
  cases r with
  | error e => exact (wp_done _ _ _).mpr ⟨_, _, hrun, rfl, rfl⟩
  | ok st =>
    show wp (failingWorld mayFail look) (writeEnd fs inode' st) _ v₁
    rw [writeEnd]
    simp only []
    rw [wp_currentTimeSec]
    intro t
    refine wp_seq (flush_spec (inode'.written fs st.ppos t)) fun r v₂ hflush => ?_
    refine (wp_done _ _ _).mpr ⟨_, _, hrun, t, rfl, ?_⟩
    exact hflush.imp And.right And.right

/-- A run sets no field of the inode but the first cluster. -/
theorem DataRun.inode_eq {r : Except Errno SyncWriteState} {inode' : Inode} {v' : Vol}
    (hrun : DataRun mayFail look fs v inode buf len ppos (r, inode') v') :
    inode' = { inode with iStart := inode'.iStart } := by
  cases hrun with
  | _ => rfl

/-- A run with a result was not rejected. -/
theorem DataRun.allowed {st : SyncWriteState} {inode' : Inode} {v' : Vol}
    (hrun : DataRun mayFail look fs v inode buf len ppos (.ok st, inode') v') :
    WriteAllowed inode len ppos := by
  cases hrun with
  | _ => assumption

end Data

end SimpleFat
