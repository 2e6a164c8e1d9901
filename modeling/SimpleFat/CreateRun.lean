import SimpleFat.CreateSpec
import SimpleFat.Enumeration
import SimpleFat.WriteRun

/-!
# `sfat_create_file` when requests fail

Whatever fails in the scans, in the allocator or in the extension of the chain, the function returns
an error and has changed nothing there.  So what has to be shown of a postcondition that these
errors meet is what has to be shown behind them, as if nothing had failed before.

* `wp_locate_bind`, `wp_free_bind`, `wp_acquire_bind`, `wp_append_bind` — the steps;
* `wp_create` — what is left after the scans;
* `wp_createMoveTerminator_failing`, `createFinish_of` — the steps behind the write of the slot;
* `create_ok` — a call that returns 0 has met no failure.
-/

namespace SimpleFat

open SimpleFat.Lib

variable {mayFail : Request → Prop} {look : (blk pos : ℕ) → Page → ℕ} {fs : FsInfo} {v : Vol}
  {β : Type}

/-! ### The scans -/

theorem wp_getEntry_failing (cls : ℕ) (Q : Except Errno ℕ → Vol → Prop) :
    wp (failingWorld mayFail look) (sfatGetEntryContent fs cls) Q v ↔
      if fs.clustersPred ≤ cls then Q (.error .einval) v
      else (mayFail .blkholderAlloc → Q (.error .enomem) v) ∧
        (mayFail (.readBlock fs.blockSize (fatBlk fs cls)) → Q (.error .eio) v) ∧
        Q (.ok (nextWord look fs v cls)) v := by
  rw [wp_sfatGetEntryContent]
  split
  · exact Iff.rfl
  · refine and_congr_right fun _ => and_congr_right fun _ => ⟨fun h => h 0 _ rfl, ?_⟩
    rintro h addr r rfl
    exact h

section Scans

variable {name : Vector UInt8 11}

theorem locateBlocks_spec (cls n blk : ℕ) :
    wp (failingWorld mayFail look) (locateBlocks fs name cls n (clsToBlk fs cls + blk)) (fun r v' => v' = v ∧
      (r = locateNext fs (scanName name (blockSlots fs v cls n blk)) ∨ r = .out (.error .eio))) v := by
  induction n generalizing blk with
  | zero => exact (wp_done _ _ _).mpr ⟨rfl, .inl rfl⟩
  | succ n ih =>
    rw [locateBlocks, wp_readBlock, blockSlots_succ, scanName_append, Nat.add_assoc]
    refine ⟨?_, fun _ => (wp_done _ _ _).mpr ⟨rfl, .inr rfl⟩⟩
    simp only [locateSlots_eq cls blk]
    cases hr : scanName name (pageSlots cls blk
      (blockAt v fs.blockSize (clsToBlk fs cls + blk)) fs.direntPerBlk 0) with
    | none =>
      rw [Option.none_or]
      exact ih (blk + 1)
    | some r =>
      cases r with
      | none => exact (wp_done _ _ _).mpr ⟨rfl, .inl rfl⟩
      | some s =>
        obtain ⟨hcls, hblk, -, -, -⟩ := mem_pageSlots.mp (scanFor_some hr).1
        subst hcls hblk
        exact (wp_done _ _ _).mpr ⟨rfl, .inl rfl⟩

/-- A scan for a name ends as if nothing had failed, or with an error other than `-ENOENT`. -/
theorem locateClusters_spec (n cls : ℕ) :
    wp (failingWorld mayFail look) (locateClusters fs name n cls) (fun r v' => v' = v ∧
      (r = locateOutcome fs (walkRefused look fs v n cls)
          (scanName name (dirSlots fs v (walkClusters look fs v n cls))) ∨
        ∃ e ≠ Errno.enoent, r = .error e)) v := by
  induction n generalizing cls with
  | zero => exact (wp_done _ _ _).mpr ⟨rfl, .inl rfl⟩
  | succ n ih =>
    rw [locateClusters, walkClusters_succ, dirSlots_cons, scanName_append, walkRefused]
    refine wp_seq (locateBlocks_spec cls fs.blkPerClus 0) fun r v' hr => ?_
    obtain ⟨rfl, rfl | rfl⟩ := hr
    · rw [← clusterSlots]
      cases hscan : scanName name (clusterSlots fs v' cls) with
      | some r => exact (wp_done _ _ _).mpr ⟨rfl, .inl rfl⟩
      | none =>
        rw [Option.none_or]
        show wp _ (sfatGetEntryContent fs cls >>= _) _ v'
        rw [wp_bind, wp_getEntry_failing]
        by_cases hcls : fs.clustersPred ≤ cls
        · rw [if_pos hcls, if_pos hcls, if_pos hcls]
          exact (wp_done _ _ _).mpr ⟨rfl, .inl rfl⟩
        · rw [if_neg hcls, if_neg hcls, if_neg hcls]
          refine ⟨fun _ => (wp_done _ _ _).mpr ⟨rfl, .inr ⟨.enomem, by simp, rfl⟩⟩,
            fun _ => (wp_done _ _ _).mpr ⟨rfl, .inr ⟨.eio, by simp, rfl⟩⟩, ?_⟩
          show wp _ (if _ then _ else _) _ v'
          by_cases hnext : fs.clusters < nextWord look fs v' cls
          · rw [if_pos hnext, if_pos hnext, if_pos hnext]
            exact (wp_done _ _ _).mpr ⟨rfl, .inl rfl⟩
          · rw [if_neg hnext, if_neg hnext, if_neg hnext]
            exact ih _
    · exact (wp_done _ _ _).mpr ⟨rfl, .inr ⟨.eio, by simp, rfl⟩⟩

/-- **The scan for a name**, if other errors than `-ENOENT` do no harm. -/
theorem wp_locate_bind (start : ℕ) {f : Except Errno LocatedEntry → Driver β} {Q : β → Vol → Prop}
    (hf : ∀ e ≠ Errno.enoent, wp (failingWorld mayFail look) (f (.error e)) Q v) :
    wp (failingWorld mayFail look) (sfatDentryLocate fs start name >>= f) Q v ↔
      wp (failingWorld mayFail look) (f (locateReturn (locateOutcome fs
        (walkRefused look fs v fs.clusters start)
        (scanName name (chainSlots look fs v start))))) Q v := by
  rw [wp_bind]
  constructor
  · intro h
    exact (wp_sfatDentryLocate start _).mp (wp_world_mono failingWorld_mono h)
  · intro h
    rw [sfatDentryLocate, wp_blkholderAlloc]
    intro page _
    cases page with
    | none => exact (wp_done _ _ _).mpr (hf _ (by simp))
    | some addr =>
      refine wp_seq (locateClusters_spec fs.clusters start) fun r v' hr => ?_
      obtain ⟨rfl, rfl | ⟨e, he, rfl⟩⟩ := hr
      · rw [← chainSlots]
        cases hout : locateOutcome fs (walkRefused look fs v' fs.clusters start)
            (scanName name (chainSlots look fs v' start)) with
        | error e =>
          rw [hout] at h
          exact (wp_done _ _ _).mpr h
        | ok found =>
          rw [hout] at h
          cases found with
          | none => exact (wp_done _ _ _).mpr h
          | some found => exact (wp_done _ _ _).mpr h
      · exact (wp_done _ _ _).mpr (hf e he)

theorem freeBlocks_spec (cls n blk : ℕ) :
    wp (failingWorld mayFail look) (freeBlocks fs cls n (clsToBlk fs cls + blk)) (fun r v' => v' = v ∧
      (r = freeNext fs v (firstUnused (blockSlots fs v cls n blk)) ∨ r = .out (.error .eio))) v := by
  induction n generalizing blk with
  | zero => exact (wp_done _ _ _).mpr ⟨rfl, .inl rfl⟩
  | succ n ih =>
    rw [freeBlocks, wp_readBlock, blockSlots_succ, firstUnused_append, Nat.add_assoc]
    refine ⟨?_, fun _ => (wp_done _ _ _).mpr ⟨rfl, .inr rfl⟩⟩
    simp only [freeSlots_eq cls blk]
    cases hr : firstUnused (pageSlots cls blk
      (blockAt v fs.blockSize (clsToBlk fs cls + blk)) fs.direntPerBlk 0) with
    | none =>
      rw [Option.none_or]
      exact ih (blk + 1)
    | some s =>
      obtain ⟨hcls, hblk, -, -, -⟩ := mem_pageSlots.mp (List.mem_of_find?_eq_some hr)
      subst hcls hblk
      have hsub : clsToBlk fs s.cls + s.blk - clsToBlk fs s.cls = s.blk := Nat.add_sub_cancel_left ..
      rw [Option.some_or, freeNext, freeSlotOf]
      simp only [Option.map_some, hsub]
      exact (wp_done _ _ _).mpr ⟨rfl, .inl rfl⟩

/-- The search for a slot ends as if nothing had failed, or with an error other than `-ENOENT`. -/
theorem freeClusters_spec (n cls : ℕ) :
    wp (failingWorld mayFail look) (freeClusters fs n cls) (fun r v' => v' = v ∧
      (r = freeOutcome fs v (walkRefused look fs v n cls)
          (firstUnused (dirSlots fs v (walkClusters look fs v n cls))) ∨
        ∃ e ≠ Errno.enoent, r = .error e)) v := by
  induction n generalizing cls with
  | zero => exact (wp_done _ _ _).mpr ⟨rfl, .inl rfl⟩
  | succ n ih =>
    rw [freeClusters, walkClusters_succ, dirSlots_cons, firstUnused_append, walkRefused]
    refine wp_seq (freeBlocks_spec cls fs.blkPerClus 0) fun r v' hr => ?_
    obtain ⟨rfl, rfl | rfl⟩ := hr
    · rw [← clusterSlots]
      cases hfree : firstUnused (clusterSlots fs v' cls) with
      | some s => exact (wp_done _ _ _).mpr ⟨rfl, .inl rfl⟩
      | none =>
        rw [Option.none_or]
        show wp _ (sfatGetEntryContent fs cls >>= _) _ v'
        rw [wp_bind, wp_getEntry_failing]
        by_cases hcls : fs.clustersPred ≤ cls
        · rw [if_pos hcls, if_pos hcls, if_pos hcls]
          exact (wp_done _ _ _).mpr ⟨rfl, .inl rfl⟩
        · rw [if_neg hcls, if_neg hcls, if_neg hcls]
          refine ⟨fun _ => (wp_done _ _ _).mpr ⟨rfl, .inr ⟨.enomem, by simp, rfl⟩⟩,
            fun _ => (wp_done _ _ _).mpr ⟨rfl, .inr ⟨.eio, by simp, rfl⟩⟩, ?_⟩
          show wp _ (if _ then _ else _) _ v'
          by_cases hnext : fs.clusters < nextWord look fs v' cls
          · rw [if_pos hnext, if_pos hnext, if_pos hnext]
            exact (wp_done _ _ _).mpr ⟨rfl, .inl rfl⟩
          · rw [if_neg hnext, if_neg hnext, if_neg hnext]
            exact ih _
    · exact (wp_done _ _ _).mpr ⟨rfl, .inr ⟨.eio, by simp, rfl⟩⟩

/-- **The search for a slot**, if other errors than `-ENOENT` do no harm. -/
theorem wp_free_bind (start : ℕ) {f : Except Errno FreeSlot → Driver β} {Q : β → Vol → Prop}
    (hf : ∀ e ≠ Errno.enoent, wp (failingWorld mayFail look) (f (.error e)) Q v) :
    wp (failingWorld mayFail look) (sfatFreeDentryLocate fs start >>= f) Q v ↔
      wp (failingWorld mayFail look) (f (freeOutcome fs v (walkRefused look fs v fs.clusters start)
        (firstUnused (chainSlots look fs v start)))) Q v := by
  rw [wp_bind, sfatFreeDentryLocate, chainSlots]
  constructor
  · intro h
    exact (wp_freeClusters fs.clusters start _).mp (wp_world_mono failingWorld_mono h)
  · intro h
    refine wp_mono (freeClusters_spec fs.clusters start) fun r v' hr => ?_
    obtain ⟨rfl, rfl | ⟨e, he, rfl⟩⟩ := hr
    · exact h
    · exact hf e he

end Scans

/-! ### The FAT -/

section Fat

/-- **The allocator**, if its errors do no harm. -/
theorem wp_acquire_bind (hwf : WellFormed fs) {f : Except Errno ℕ → Driver β} {Q : β → Vol → Prop}
    (hf : ∀ e, wp (failingWorld mayFail look) (f (.error e)) Q v) :
    wp (failingWorld mayFail look) (sfatFatEntryAcquire fs >>= f) Q v ↔
      ∀ c, FirstFree fs v c →
        wp (failingWorld mayFail look) (f (.ok c)) Q (setFatWord fs v c sfatEntryEoc) := by
  rw [wp_bind]
  constructor
  · intro h c hc
    obtain ⟨r, v', hr, ⟨d, rfl, hd, rfl⟩ | ⟨-, hnone, -⟩⟩ := exists_quiet h (acquire_lookups hwf)
    · rwa [hc.unique hd]
    · exact absurd hc.2.1 (hnone c hc.1)
  · intro h
    refine wp_mono (acquire_spec hwf v) fun r v' hr => ?_
    cases r with
    | ok c =>
      obtain ⟨hc, rfl⟩ := hr
      exact h c hc
    | error e =>
      obtain ⟨rfl, -⟩ := hr
      exact hf e

/-- The extension of a chain ends as if nothing had failed, or with an error. -/
theorem appendLoop_spec (h : WordBlocks fs) (endCls n cls : ℕ) :
    wp (failingWorld mayFail look) (appendLoop fs endCls n cls) (fun r v' =>
      (∃ d, appendTarget look fs v n cls = some d ∧ r = none ∧ v' = setFatWord fs v d endCls) ∨
      ∃ e, r = some e ∧ v' = v) v := by
  induction n generalizing cls with
  | zero => exact (wp_done _ _ _).mpr (.inr ⟨_, rfl, rfl⟩)
  | succ n ih =>
    rw [appendLoop, wp_bind, wp_getEntry_failing, appendTarget]
    by_cases hcls : fs.clustersPred ≤ cls
    · rw [if_pos hcls]
      exact (wp_done _ _ _).mpr (.inr ⟨_, rfl, rfl⟩)
    · rw [if_neg hcls, if_neg hcls]
      refine ⟨fun _ => (wp_done _ _ _).mpr (.inr ⟨_, rfl, rfl⟩),
        fun _ => (wp_done _ _ _).mpr (.inr ⟨_, rfl, rfl⟩), ?_⟩
      show wp _ (if _ then _ else _) _ v
      by_cases heoc : nextWord look fs v cls = sfatEntryEoc
      · rw [if_pos heoc, if_pos heoc]
        refine wp_mono (h.modify_spec cls endCls v) fun r v' hr => ?_
        cases r with
        | none => exact .inl ⟨cls, rfl, rfl, hr.2⟩
        | some e => exact .inr ⟨e, rfl, hr.1⟩
      · rw [if_neg heoc, if_neg heoc]
        by_cases hnext : fs.clusters < nextWord look fs v cls
        · rw [if_pos hnext]
          exact (wp_done _ _ _).mpr (.inr ⟨_, rfl, rfl⟩)
        · rw [if_neg hnext, if_neg hnext]
          exact ih _

/-- **The extension of a chain**, if its errors do no harm. -/
theorem wp_append_bind (hwf : WellFormed fs) (start endCls : ℕ) {f : Option Errno → Driver β}
    {Q : β → Vol → Prop} (hf : ∀ e, wp (failingWorld mayFail look) (f (some e)) Q v) :
    wp (failingWorld mayFail look) (sfatFileAppendCls fs start endCls >>= f) Q v ↔
      ∀ d, appendTarget look fs v fs.clusters start = some d →
        wp (failingWorld mayFail look) (f none) Q (setFatWord fs v d endCls) := by
  rw [wp_bind]
  constructor
  · intro h d hd
    have hquiet := (wp_sfatFileAppendCls hwf start endCls _).mp (wp_world_mono failingWorld_mono h)
    rwa [hd] at hquiet
  · intro h
    refine wp_mono (appendLoop_spec hwf.wordBlocks endCls fs.clusters start) fun r v' hr => ?_
    obtain ⟨d, hd, rfl, rfl⟩ | ⟨e, rfl, rfl⟩ := hr
    · exact h d hd
    · exact hf e

/-- A free cluster ends a walk, and so does the end mark. -/
theorem walkClusters_acquired (hlook : StoredOrAddress look) (hwf : WellFormed fs) {c : ℕ}
    (hc : FirstFree fs v c) (n start : ℕ) :
    walkClusters look fs (setFatWord fs v c sfatEntryEoc) n start =
      walkClusters look fs v n start := by
  have hmax := hwf.clusters_lt
  rw [sfatEntryMax] at hmax
  refine trail_congr (fun e => ?_) n start
  rw [nextCls, nextCls]
  rcases hlook.nextWord hwf e with hstored | ⟨a, ha⟩
  · rw [hstored, hstored]
    by_cases he : e = c
    · rw [he, fatWord_setFatWord_of_lt (by decide), hc.2.1, if_pos (show _ < sfatEntryEoc by
        rw [sfatEntryEoc]; omega), if_pos (show _ < sfatEntryFree by rw [sfatEntryFree]; omega)]
    · rw [fatWord_setFatWord_ne he]
  · rw [ha, ha]

/-- **The cluster whose word is replaced is the last one of the chain**, and the chain is well
formed. -/
theorem appendTarget_chain (hp : Placed fs) {n start d : ℕ}
    (h : appendTarget look fs v n start = some d) : ∃ cs, DirChain look fs v start cs ∧
      (∀ e ∈ cs, e + 1 < fs.clusters) ∧ walkClusters look fs v n start = cs ∧
      cs.getLast? = some d := by
  have hmax := hp.clusters_lt
  have hpred := hp.clustersPred_eq hp.clusters_pos
  rw [sfatEntryMax] at hmax
  induction n generalizing start with
  | zero => cases h
  | succ n ih =>
    rw [appendTarget] at h
    by_cases hcls : fs.clustersPred ≤ start
    · rw [if_pos hcls] at h
      cases h
    · rw [if_neg hcls] at h
      have hlt : start + 1 < fs.clusters := by omega
      rw [walkClusters_succ, if_neg hcls]
      by_cases heoc : nextWord look fs v start = sfatEntryEoc
      · rw [if_pos heoc] at h
        obtain rfl := Option.some.inj h
        rw [heoc, if_pos (show _ < sfatEntryEoc by rw [sfatEntryEoc]; omega)]
        refine ⟨[start], ⟨.stop heoc, ?_⟩, ?_, rfl, rfl⟩
        · intro e he
          rw [List.mem_singleton.mp he]
          omega
        · intro e he
          rw [List.mem_singleton.mp he]
          exact hlt
      · rw [if_neg heoc] at h
        by_cases hnext : fs.clusters < nextWord look fs v start
        · rw [if_pos hnext] at h
          cases h
        · rw [if_neg hnext] at h ⊢
          obtain ⟨cs, ⟨hpath, hbelow⟩, hacc, hwalk, hlast⟩ := ih h
          refine ⟨start :: cs, ⟨.next heoc rfl hpath, ?_⟩, ?_, by rw [hwalk], ?_⟩
          · exact List.forall_mem_cons.mpr ⟨by omega, hbelow⟩
          · exact List.forall_mem_cons.mpr ⟨hlt, hacc⟩
          · rw [List.getLast?_cons, hlast]
            rfl

end Fat

/-! ### The terminator -/

def TerminatorSafe (mayFail : Request → Prop) (fs : FsInfo) (v : Vol) (cls blk : ℕ) : Prop :=
  ¬ mayFail (.readBlock fs.blockSize ((clsToBlk fs cls + blk) % sizeT)) ∧
  ¬ mayFail (.writeBlock fs.blockSize ((clsToBlk fs cls + blk) % sizeT)
    (putAttr (blockAt v fs.blockSize ((clsToBlk fs cls + blk) % sizeT)) 0 sfatAttrEmptyEnd))

theorem wp_createWriteTerminator_failing (hwf : WellFormed fs) (cls blk : ℕ)
    (Q : Option CreateReturn → Vol → Prop) :
    wp (failingWorld mayFail look) (createWriteTerminator fs cls blk) Q v ↔
      Q none (terminatorWritten fs v cls blk) ∧
      (¬ TerminatorSafe mayFail fs v cls blk → Q (some (.error .eio)) v) := by
  obtain ⟨d, hd16, -, hbs⟩ := hwf.blockSize_slots
  rw [createWriteTerminator, TerminatorSafe, wp_readBlock]
  simp only [wp_writeBlock, if_true, Bool.false_eq_true, if_false]
  rw [putBlock_putAttr v _ (by omega), putBlock_blockAt, Nat.add_zero, ← terminatorWritten]
  constructor
  · rintro ⟨⟨hok, hwrite⟩, hread⟩
    refine ⟨(wp_done _ _ _).mp hok, fun hsafe => ?_⟩
    rcases not_and_or.mp hsafe with hm | hm
    · exact (wp_done _ _ _).mp (hread (not_not.mp hm))
    · exact (wp_done _ _ _).mp (hwrite (not_not.mp hm))
  · rintro ⟨hok, hfail⟩
    exact ⟨⟨(wp_done _ _ _).mpr hok, fun hm => (wp_done _ _ _).mpr (hfail fun h => h.2 hm)⟩,
      fun hm => (wp_done _ _ _).mpr (hfail fun h => h.1 hm)⟩

/-- **How the terminator moves to the next block**, and what a failure leaves. -/
theorem wp_createMoveTerminator_failing (hwf : WellFormed fs) (s : Slot) (junk : CreateJunk)
    (Q : Option CreateReturn → Vol → Prop) :
    wp (failingWorld mayFail look) (createMoveTerminator fs s.cls s.blk junk) Q v ↔
      if s.blk + 1 < fs.blkPerClus then
        Q none (terminatorWritten fs v junk.nextCls (s.blk + 1)) ∧
        (¬ TerminatorSafe mayFail fs v junk.nextCls (s.blk + 1) → Q (some (.error .eio)) v)
      else if fs.clustersPred ≤ s.cls then Q (some (.error .einval)) v
      else (mayFail .blkholderAlloc → Q (some (.error .enomem)) v) ∧
        (mayFail (.readBlock fs.blockSize (fatBlk fs s.cls)) → Q (some (.error .eio)) v) ∧
        if nextWord look fs v s.cls = sfatEntryEoc then Q none v
        else if fs.clusters < nextWord look fs v s.cls then Q (some (.ok none)) v
        else Q none (terminatorWritten fs v (nextWord look fs v s.cls) 0) ∧
          (¬ TerminatorSafe mayFail fs v (nextWord look fs v s.cls) 0 →
            Q (some (.error .eio)) v) := by
  have hpos := hwf.blkPerClus_pos
  rw [createMoveTerminator]
  by_cases hblk : s.blk + 1 < fs.blkPerClus
  · rw [if_pos (show s.blk < fs.blkPerClus - 1 by omega), if_pos hblk]
    exact wp_createWriteTerminator_failing hwf _ _ Q
  · rw [if_neg (show ¬ s.blk < fs.blkPerClus - 1 by omega), if_neg hblk, wp_bind, wp_getEntry_failing]
    by_cases hcls : fs.clustersPred ≤ s.cls
    · rw [if_pos hcls, if_pos hcls]
      exact wp_done _ _ _
    · rw [if_neg hcls, if_neg hcls]
      refine and_congr (imp_congr_right fun _ => wp_done _ _ _)
        (and_congr (imp_congr_right fun _ => wp_done _ _ _) ?_)
      show wp _ (if _ then _ else _) Q v ↔ _
      by_cases heoc : nextWord look fs v s.cls = sfatEntryEoc
      · rw [if_pos heoc, if_pos heoc]
        exact wp_done _ _ _
      · rw [if_neg heoc, if_neg heoc]
        by_cases hnext : fs.clusters < nextWord look fs v s.cls
        · rw [if_pos hnext, if_pos hnext]
          exact wp_done _ _ _
        · rw [if_neg hnext, if_neg hnext]
          exact wp_createWriteTerminator_failing hwf _ _ Q

/-! ### The common end -/

def FlushSafe (mayFail : Request → Prop) (fs : FsInfo) (v : Vol) (dir : Inode) : Prop :=
  dir.iIno = sfatRootIno ∨ ¬ mayFail .blkholderAlloc ∧
    ¬ mayFail (.readBlock fs.blockSize (flushBlk fs dir)) ∧
    ¬ mayFail (.writeBlock fs.blockSize (flushBlk fs dir)
      (flushEntry (blockAt v fs.blockSize (flushBlk fs dir)) (flushPos fs dir) dir))

section Finish

variable {sbi : SbInfo} {dir : Inode} {de : SfatDirEntry} {iPos : ℕ}

/-- A flush that can fail returns some error. -/
theorem wp_flush_failing (Q : Option Errno → Vol → Prop) :
    wp (failingWorld mayFail look) (sfatInodeWriteToHd fs dir) Q v ↔
      Q none (flushed fs v dir) ∧ (dir.iIno ≠ sfatRootIno →
        (mayFail .blkholderAlloc → Q (some .enomem) v) ∧
        (mayFail (.readBlock fs.blockSize (flushBlk fs dir)) → Q (some .eio) v) ∧
        (mayFail (.writeBlock fs.blockSize (flushBlk fs dir)
          (flushEntry (blockAt v fs.blockSize (flushBlk fs dir)) (flushPos fs dir) dir)) →
          Q (some .eio) v)) := by
  rw [sfatInodeWriteToHd, flushed]
  by_cases hroot : dir.iIno = sfatRootIno
  · rw [if_pos hroot, if_pos hroot]
    exact (wp_done _ _ _).trans (and_iff_left (absurd hroot)).symm
  · rw [if_neg hroot, if_neg hroot]
    simp only []
    rw [wp_blkholderAlloc]
    constructor
    · intro h
      have hread := (wp_readBlock _ _ _).mp (h (some 0) (by simp))
      simp only [wp_writeBlock, if_true, Bool.false_eq_true, if_false] at hread
      obtain ⟨⟨hok, hwrite⟩, hread⟩ := hread
      exact ⟨(wp_done _ _ _).mp hok, fun _ => ⟨fun hm => (wp_done _ _ _).mp (h none fun _ => hm),
        fun hm => (wp_done _ _ _).mp (hread hm), fun hm => (wp_done _ _ _).mp (hwrite hm)⟩⟩
    · rintro ⟨hok, hfail⟩ page hpage
      obtain ⟨hmem, hread, hwrite⟩ := hfail hroot
      cases page with
      | none => exact (wp_done _ _ _).mpr (hmem (hpage rfl))
      | some addr =>
        refine (wp_readBlock _ _ _).mpr ⟨?_, fun hm => (wp_done _ _ _).mpr (hread hm)⟩
        simp only [wp_writeBlock, if_true, Bool.false_eq_true, if_false]
        exact ⟨(wp_done _ _ _).mpr hok, fun hm => (wp_done _ _ _).mpr (hwrite hm)⟩

/-- The inode of a regular file is built, or there is no memory for it. -/
theorem buildInode_failing (hfile : de.isDir = false) {Q : Except Errno Inode → Vol → Prop}
    (hmem : mayFail .newInode → Q (.error .enomem) v)
    (hok : ∀ inode, Built sbi de iPos inode → Q (.ok inode) v) :
    wp (failingWorld mayFail look) (sfatBuildInode sbi de iPos) Q v := by
  rw [sfatBuildInode, wp_newInode]
  intro stale hstale
  cases stale with
  | none => exact (wp_done _ _ _).mpr (hmem (hstale rfl))
  | some stale =>
    simp only [wp_iunique]
    intro ino hino
    rw [sfatFillInode]
    simp only []
    rw [wp_bind, wp_currentTimeSec]
    intro now
    simp only [hfile]
    refine (wp_done _ _ _).mpr ((wp_done _ _ _).mpr (hok _ ?_))
    exact ⟨hino, rfl, rfl, rfl, rfl, hfile.symm, rfl, rfl, rfl, rfl⟩

/-- A new file is no directory. -/
theorem formDirEntry_file (name : Vector UInt8 11) (startCls size tvSec : ℕ) :
    (sfatFormDirEntry false name startCls size tvSec).isDir = false := by
  show (sfatAttrNone &&& sfatAttrDir != 0) = false
  decide

/-- What is to be shown of the common end. -/
theorem createFinish_of (hfile : de.isDir = false) {Q : CreateReturn → Vol → Prop}
    (hflush : ¬ FlushSafe mayFail sbi.fsInfo v dir → ∀ e, Q (.error e) v)
    (hmem : mayFail .newInode → Q (.error .enomem) (flushed sbi.fsInfo v dir))
    (hok : ∀ inode, Built sbi de iPos inode → Q (.ok (some inode)) (flushed sbi.fsInfo v dir)) :
    wp (failingWorld mayFail look) (createFinish sbi dir de iPos) Q v := by
  rw [createFinish, wp_bind, wp_flush_failing]
  refine ⟨?_, fun hroot => ⟨fun hm => ?_, fun hm => ?_, fun hm => ?_⟩⟩
  · show wp _ (sfatBuildInode sbi de iPos >>= _) Q _
    rw [wp_bind]
    exact buildInode_failing hfile (fun hm => (wp_done _ _ _).mpr (hmem hm)) fun inode hbuilt =>
      (wp_done _ _ _).mpr (hok inode hbuilt)
  · refine (wp_done _ _ _).mpr (hflush (fun h => ?_) _)
    rcases h with h | h
    · exact hroot h
    · exact h.1 hm
  · refine (wp_done _ _ _).mpr (hflush (fun h => ?_) _)
    rcases h with h | h
    · exact hroot h
    · exact h.2.1 hm
  · refine (wp_done _ _ _).mpr (hflush (fun h => ?_) _)
    rcases h with h | h
    · exact hroot h
    · exact h.2.2 hm

end Finish

/-! ### The function -/

section Create

variable {sbi : SbInfo} {dir : Inode} {name : Vector UInt8 11} {junk : CreateJunk}
  {Q : CreateReturn × Inode → Vol → Prop}

/-- **The search for a slot and the branches behind it**, for a postcondition that early errors meet. -/
theorem wp_createFindSlot (dName : List UInt8) (hQ : ∀ e, Q (.error e, dir) v)
    (hname : NameFree look sbi.fsInfo v dir.iStart (padName dName)) :
    wp (failingWorld mayFail look) (sfatFreeDentryLocate sbi.fsInfo dir.iStart >>= fun r =>
    match r with
    | .ok slot => do
      let tvSec ← currentTimeSec
      createInFreeSlot sbi dir (padName dName) tvSec junk slot
    | .error e =>
      if e ≠ .enoent then pure (.error e, dir)
      else do
        let tvSec ← currentTimeSec
        createInNewCluster sbi dir (padName dName) tvSec junk) Q v ↔
    (∀ s, firstUnused (chainSlots look sbi.fsInfo v dir.iStart) = some s → ∀ t,
      wp (failingWorld mayFail look) (createInFreeSlot sbi dir (padName dName) t junk
        (freeSlotOf sbi.fsInfo v s)) Q v) ∧
    (firstUnused (chainSlots look sbi.fsInfo v dir.iStart) = none → ∀ t,
      wp (failingWorld mayFail look) (createInNewCluster sbi dir (padName dName) t junk) Q v) := by
  rw [wp_free_bind dir.iStart fun e he => by
    simp only [if_pos he]
    exact (wp_done _ _ _).mpr (hQ e)]
  cases hfree : firstUnused (chainSlots look sbi.fsInfo v dir.iStart) with
  | some s =>
    simp only [freeOutcome]
    rw [wp_currentTimeSec]
    constructor
    · intro h
      refine ⟨fun s' hs' => ?_, by simp⟩
      obtain rfl := Option.some.inj hs'
      exact h
    · intro h
      exact h.1 s rfl
  | none =>
    simp only [freeOutcome, walkRefused_of_full hname hfree]
    constructor
    · intro h
      exact ⟨by simp, fun _ => (wp_currentTimeSec _).mp h⟩
    · intro h
      exact (wp_currentTimeSec _).mpr (h.2 trivial)

/-- **What is left of `sfat_create_file` after the scans**, for a postcondition that early errors
meet. -/
theorem wp_create (dName : List UInt8) (hQ : ∀ e, Q (.error e, dir) v) :
    wp (failingWorld mayFail look) (sfatCreateFile sbi dir dName junk) Q v ↔
      (NameFree look sbi.fsInfo v dir.iStart (padName dName) →
        (∀ s, firstUnused (chainSlots look sbi.fsInfo v dir.iStart) = some s → ∀ t,
          wp (failingWorld mayFail look) (createInFreeSlot sbi dir (padName dName) t junk
            (freeSlotOf sbi.fsInfo v s)) Q v) ∧
        (firstUnused (chainSlots look sbi.fsInfo v dir.iStart) = none → ∀ t,
          wp (failingWorld mayFail look) (createInNewCluster sbi dir (padName dName) t junk) Q v)) := by
  rw [sfatCreateFile, wp_locate_bind dir.iStart fun e he => by
    simp only [if_pos he]
    exact (wp_done _ _ _).mpr (hQ e)]
  by_cases hname : NameFree look sbi.fsInfo v dir.iStart (padName dName)
  · have hnone := hname
    rw [NameFree] at hnone
    rw [hnone, forall_prop_of_true hname]
    rw [← wp_createFindSlot dName hQ hname]
    show wp _ (blkholderAlloc >>= _) Q v ↔ _
    rw [wp_blkholderAlloc]
    constructor
    · intro h
      exact h (some 0) (by simp)
    · intro h page _
      cases page with
      | none => exact (wp_done _ _ _).mpr (hQ _)
      | some addr => exact h
  · refine iff_of_true ?_ fun h => absurd h hname
    rw [NameFree] at hname
    cases hout : locateOutcome sbi.fsInfo (walkRefused look sbi.fsInfo v sbi.fsInfo.clusters
        dir.iStart) (scanName (padName dName) (chainSlots look sbi.fsInfo v dir.iStart)) with
    | error e =>
      have he : e ≠ .enoent := by
        rintro rfl
        revert hout
        cases scanName (padName dName) (chainSlots look sbi.fsInfo v dir.iStart) with
        | some r => simp [locateOutcome]
        | none =>
          rw [locateOutcome]
          split
          · simp
          · simp
      simp only [locateReturn, if_pos he]
      exact (wp_done _ _ _).mpr (hQ e)
    | ok found =>
      cases found with
      | none => exact absurd hout hname
      | some found => exact (wp_done _ _ _).mpr (hQ _)

/-- The write of the block of a slot that is reused. -/
theorem wp_writeSlot (hwf : WellFormed fs) {s : Slot} (hmem : s ∈ clusterSlots fs v s.cls)
    (de : SfatDirEntry) {f : Bool → Driver β} {Q : β → Vol → Prop}
    (hQ : wp (failingWorld mayFail look) (f false) Q v) :
    wp (failingWorld mayFail look) (writeBlock fs.blockSize (clsToBlk fs s.cls + s.blk)
      (putDirent (if s.de.attr = sfatAttrEmptyEnd ∧ s.idx * 32 < fs.blockSize - 32 then
        putAttr (blockAt v fs.blockSize (clsToBlk fs s.cls + s.blk)) (s.idx * 32 + 32)
          sfatAttrEmptyEnd
      else blockAt v fs.blockSize (clsToBlk fs s.cls + s.blk)) (s.idx * 32) de) >>= f) Q v ↔
    wp (failingWorld mayFail look) (f true) Q (slotWritten fs v s de) := by
  rw [wp_writeBlock, putBlock_slotWritten hwf hmem]
  exact and_iff_left fun _ => hQ

/-- **A slot that is reused**, with the terminator at most moved in its block. -/
theorem wp_createInFreeSlot (hwf : WellFormed sbi.fsInfo) {s : Slot}
    (hmem : s ∈ clusterSlots sbi.fsInfo v s.cls) (hQ : ∀ e, Q (.error e, dir) v)
    (hkeep : ¬ s.EndsBlock sbi.fsInfo) (t : ℕ) :
    wp (failingWorld mayFail look)
        (createInFreeSlot sbi dir name t junk (freeSlotOf sbi.fsInfo v s)) Q v ↔
      wp (failingWorld mayFail look)
        (createFinish sbi { dir with iMtime := t } (sfatFormDirEntry false name 0 0 t)
          (formDirEntryPos sbi.fsInfo s.cls s.blk (s.idx * 32)))
        (fun r v' => Q (r, { dir with iMtime := t }) v')
        (slotWritten sbi.fsInfo v s (sfatFormDirEntry false name 0 0 t)) := by
  obtain ⟨-, -, hidx, hde⟩ := mem_clusterSlots.mp hmem
  obtain ⟨d, hd16, hd, hbs⟩ := hwf.blockSize_slots
  have hentry : direntAt (blockAt v sbi.fsInfo.blockSize (clsToBlk sbi.fsInfo s.cls + s.blk))
      (s.idx * 32) = s.de := by
    rw [hde, Nat.mul_comm]
  have hcond : ¬ (s.de.attr = sfatAttrEmptyEnd ∧ ¬ s.idx * 32 < sbi.fsInfo.blockSize - 32) :=
    fun h => hkeep ⟨h.1, by omega⟩
  rw [createInFreeSlot]
  simp only [freeSlotOf, hentry]
  refine Iff.trans (wp_writeSlot hwf hmem _ ?_) ?_
  · exact (wp_done _ _ _).mpr (hQ .eio)
  rw [if_pos rfl, if_neg hcond]
  exact wp_bind_pure _ _ _ _

/-- **A slot that is reused**, with the terminator moved to another block. -/
theorem wp_createInLastSlot (hwf : WellFormed sbi.fsInfo) {s : Slot}
    (hmem : s ∈ clusterSlots sbi.fsInfo v s.cls) (hQ : ∀ e, Q (.error e, dir) v)
    (hlast : s.EndsBlock sbi.fsInfo) (t : ℕ) :
    wp (failingWorld mayFail look)
        (createInFreeSlot sbi dir name t junk (freeSlotOf sbi.fsInfo v s)) Q v ↔
      wp (failingWorld mayFail look) (createMoveTerminator sbi.fsInfo s.cls s.blk junk)
        (fun r v₂ => match r with
          | some r => Q (r, { dir with iMtime := t }) v₂
          | none => wp (failingWorld mayFail look)
            (createFinish sbi { dir with iMtime := t } (sfatFormDirEntry false name 0 0 t)
              (formDirEntryPos sbi.fsInfo s.cls s.blk (s.idx * 32)))
            (fun r v' => Q (r, { dir with iMtime := t }) v') v₂)
        (slotWritten sbi.fsInfo v s (sfatFormDirEntry false name 0 0 t)) := by
  obtain ⟨-, -, hidx, hde⟩ := mem_clusterSlots.mp hmem
  obtain ⟨d, hd16, hd, hbs⟩ := hwf.blockSize_slots
  have hentry : direntAt (blockAt v sbi.fsInfo.blockSize (clsToBlk sbi.fsInfo s.cls + s.blk))
      (s.idx * 32) = s.de := by
    rw [hde, Nat.mul_comm]
  have hcond : s.de.attr = sfatAttrEmptyEnd ∧ ¬ s.idx * 32 < sbi.fsInfo.blockSize - 32 :=
    ⟨hlast.1, by have := hlast.2; omega⟩
  rw [createInFreeSlot]
  simp only [freeSlotOf, hentry]
  refine Iff.trans (wp_writeSlot hwf hmem _ ?_) ?_
  · exact (wp_done _ _ _).mpr (hQ .eio)
  rw [if_pos rfl, if_pos hcond, wp_bind]
  have hmatch : ∀ (r : Option CreateReturn) (v₂ : Vol), wp (failingWorld mayFail look) (match r with
      | some r => pure (r, { dir with iMtime := t })
      | none => do
        let r ← createFinish sbi { dir with iMtime := t } (sfatFormDirEntry false name 0 0 t)
          (formDirEntryPos sbi.fsInfo s.cls s.blk (s.idx * 32))
        pure (r, { dir with iMtime := t }) : Driver (CreateReturn × Inode)) Q v₂ ↔ (match r with
      | some r => Q (r, { dir with iMtime := t }) v₂
      | none => wp (failingWorld mayFail look)
        (createFinish sbi { dir with iMtime := t } (sfatFormDirEntry false name 0 0 t)
          (formDirEntryPos sbi.fsInfo s.cls s.blk (s.idx * 32)))
        (fun r v' => Q (r, { dir with iMtime := t }) v') v₂) := by
    intro r v₂
    cases r with
    | some r => exact wp_done _ _ _
    | none => exact wp_bind_pure _ _ _ _
  constructor
  · intro h
    exact wp_mono h fun r v₂ hr => (hmatch r v₂).mp hr
  · intro h
    exact wp_mono h fun r v₂ hr => (hmatch r v₂).mpr hr

def ClusterSafe (mayFail : Request → Prop) (fs : FsInfo) (v : Vol) (cls : ℕ) (de : SfatDirEntry) :
    Prop :=
  ¬ mayFail (.readBlock fs.blockSize (clsToBlk fs cls)) ∧
  ¬ mayFail (.writeBlock fs.blockSize (clsToBlk fs cls)
    (putAttr (putDirent (blockAt v fs.blockSize (clsToBlk fs cls)) 0 de) 32 sfatAttrEmptyEnd))

/-- **A full directory**: it gets a new cluster, if one is free and can be linked. -/
theorem wp_createInNewCluster (hwf : WellFormed sbi.fsInfo) (hQ : ∀ e, Q (.error e, dir) v)
    (hlink : ∀ c, FirstFree sbi.fsInfo v c → ∀ e,
      Q (.error e, dir) (setFatWord sbi.fsInfo v c sfatEntryEoc)) (t : ℕ) :
    wp (failingWorld mayFail look) (createInNewCluster sbi dir name t junk) Q v ↔
      ∀ c, FirstFree sbi.fsInfo v c → ∀ d, appendTarget look sbi.fsInfo
          (setFatWord sbi.fsInfo v c sfatEntryEoc) sbi.fsInfo.clusters dir.iStart = some d →
        (¬ ClusterSafe mayFail sbi.fsInfo
            (setFatWord sbi.fsInfo (setFatWord sbi.fsInfo v c sfatEntryEoc) d c) c
            (sfatFormDirEntry false name 0 0 t) →
          Q (.error .eio, dir.grown sbi.fsInfo t)
            (setFatWord sbi.fsInfo (setFatWord sbi.fsInfo v c sfatEntryEoc) d c)) ∧
        wp (failingWorld mayFail look)
          (createFinish sbi (dir.grown sbi.fsInfo t) (sfatFormDirEntry false name 0 0 t)
            (formDirEntryPos sbi.fsInfo c junk.blk 0))
          (fun r v' => Q (r, dir.grown sbi.fsInfo t) v')
          (clusterStarted sbi.fsInfo
            (setFatWord sbi.fsInfo (setFatWord sbi.fsInfo v c sfatEntryEoc) d c) c
            (sfatFormDirEntry false name 0 0 t)) := by
  obtain ⟨k, hk16, -, hbs⟩ := hwf.blockSize_slots
  rw [createInNewCluster]
  simp only []
  refine Iff.trans (wp_acquire_bind hwf fun e => ?_) ?_
  · exact (wp_done _ _ _).mpr (hQ e)
  refine forall_congr' fun c => forall_congr' fun hc => ?_
  simp only []
  refine Iff.trans (wp_append_bind hwf _ _ fun e => ?_) ?_
  · exact (wp_done _ _ _).mpr (hlink c hc e)
  refine forall_congr' fun d => forall_congr' fun _ => ?_
  generalize setFatWord sbi.fsInfo (setFatWord sbi.fsInfo v c sfatEntryEoc) d c = w
  simp only []
  rw [wp_readBlock]
  simp only []
  rw [wp_writeBlock, putBlock_putAttr _ _ (by omega), putBlock_putDirent _ _ (by omega),
    putBlock_blockAt]
  simp only [if_true, Bool.false_eq_true, if_false]
  rw [wp_bind_pure, ClusterSafe]
  constructor
  · rintro ⟨⟨hok, hwrite⟩, hread⟩
    refine ⟨fun hsafe => ?_, hok⟩
    rcases not_and_or.mp hsafe with hm | hm
    · exact (wp_done _ _ _).mp (hread (not_not.mp hm))
    · exact (wp_done _ _ _).mp (hwrite (not_not.mp hm))
  · rintro ⟨hfail, hok⟩
    exact ⟨⟨hok, fun hm => (wp_done _ _ _).mpr (hfail fun h => h.2 hm)⟩,
      fun hm => (wp_done _ _ _).mpr (hfail fun h => h.1 hm)⟩

end Create

/-! ### Calls that return 0 -/

section Success

variable {sbi : SbInfo} {dir : Inode} {junk : CreateJunk}

/-- The terminator moves as if nothing had failed, if errors do no harm. -/
theorem moveTerminator_failing (hwf : WellFormed fs) (s : Slot)
    {Q : Option CreateReturn → Vol → Prop} (herr : ∀ e w, Q (some (.error e)) w)
    (h : Q (moveTerminator look fs v s junk).1 (moveTerminator look fs v s junk).2) :
    wp (failingWorld mayFail look) (createMoveTerminator fs s.cls s.blk junk) Q v := by
  rw [wp_createMoveTerminator_failing hwf]
  rw [moveTerminator] at h
  split
  · rename_i hblk
    rw [if_pos hblk] at h
    exact ⟨h, fun _ => herr _ _⟩
  · rename_i hblk
    rw [if_neg hblk] at h
    split
    · exact herr _ _
    · rename_i hpred
      rw [if_neg hpred] at h
      refine ⟨fun _ => herr _ _, fun _ => herr _ _, ?_⟩
      split
      · rename_i heoc
        rwa [if_pos heoc] at h
      · rename_i heoc
        rw [if_neg heoc] at h
        split
        · rename_i hnext
          rwa [if_pos hnext] at h
        · rename_i hnext
          rw [if_neg hnext] at h
          exact ⟨h, fun _ => herr _ _⟩

/-- **A call that returns 0 has met no failure**: it went one of the ways through the function. -/
theorem create_ok (hwf : WellFormed sbi.fsInfo) (dir : Inode) (dName : List UInt8) (v : Vol) :
    wp (failingWorld mayFail look) (sfatCreateFile sbi dir dName junk)
      (fun r v' => ∀ i, r.1 = .ok i → CreateEnd look sbi v dir (padName dName) junk r v') v := by
  -- the common end, after a way that leads there
  have hfinish : ∀ {t : ℕ} {de : SfatDirEntry} {iPos : ℕ} {dir' : Inode} {v₁ : Vol},
      de.isDir = false → CreateStep look sbi.fsInfo v dir (padName dName) junk t
        (.ok (de, iPos)) dir' v₁ →
      wp (failingWorld mayFail look) (createFinish sbi dir' de iPos) (fun r v' =>
        ∀ i, r = .ok i → CreateEnd look sbi v dir (padName dName) junk (r, dir') v') v₁ := by
    intro t de iPos dir' v₁ hfile hstep
    apply createFinish_of hfile
    · intro _ e i hi
      cases hi
    · intro _ i hi
      cases hi
    · intro inode hbuilt i _
      exact ⟨t, _, v₁, hstep, rfl, inode, rfl, hbuilt⟩
  rw [wp_create dName fun e i hi => by cases hi]
  intro hname
  refine ⟨fun s hs t => ?_, fun hfull t => ?_⟩
  · have hmem := (mem_dirSlots.mp (List.mem_of_find?_eq_some hs)).2
    by_cases hlast : s.EndsBlock sbi.fsInfo
    · rw [wp_createInLastSlot hwf hmem (fun e i hi => by cases hi) hlast]
      generalize hmove : moveTerminator look sbi.fsInfo
        (slotWritten sbi.fsInfo v s (sfatFormDirEntry false (padName dName) 0 0 t)) s junk = m
      apply moveTerminator_failing hwf
      · intro e w i hi
        cases hi
      · rw [hmove]
        obtain ⟨r, v₂⟩ := m
        cases r with
        | none => exact hfinish (formDirEntry_file _ _ _ _) (.slotMoved hname hs hlast hmove)
        | some r =>
          intro i _
          exact ⟨t, _, v₂, .slotStuck hname hs hlast hmove, rfl, rfl⟩
    · rw [wp_createInFreeSlot hwf hmem (fun e i hi => by cases hi) hlast]
      exact hfinish (formDirEntry_file _ _ _ _) (.slot hname hs hlast)
  · rw [wp_createInNewCluster hwf (fun e i hi => by cases hi) fun c hc e i hi => by cases hi]
    intro c hc d hd
    refine ⟨fun _ i hi => (by cases hi), ?_⟩
    exact hfinish (formDirEntry_file _ _ _ _) (.newCluster hname hfull hc hd)

end Success

end SimpleFat
