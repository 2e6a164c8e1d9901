import SimpleFat.ReadFile

/-!
# Moving bytes to a cluster and back

`sfat_write_cluster` works in three phases and `sfat_read_cluster` in one uniform loop, but both
report how far they came: the bytes up to there are on the volume, or with the user.  So a read
after a write delivers the written bytes where the ranges meet, and the old ones elsewhere.

* `sfatReadCluster_spec` — what a read delivers, in any environment;
* `clsAddr_separate` — different clusters do not overlap;
* `write_cluster_durable`, `read_after_write` — the two results.
-/

namespace SimpleFat

open SimpleFat.Lib

variable {H : Host} {fs : FsInfo} {v : Vol} {len addr cls offset : ℕ}

/-! ### Reading -/

/-- A read is over: it delivered the first bytes of its range, and fewer than asked for only after a
failure. -/
structure ReadDone (H : Host) (len addr : ℕ) (v : Vol) (out : List UInt8) (v' : Vol) : Prop where
  vol_eq : v' = v
  length_le : out.length ≤ len
  out_eq : out = bytesAt v addr out.length
  failed : out.length < len → ∃ c, H.mayFail c

/-- Without failures everything is delivered. -/
theorem ReadDone.complete {out : List UInt8} {v' : Vol} (h : ReadDone H len addr v out v')
    (hquiet : ∀ c, ¬ H.mayFail c) : out.length = len := by
  by_contra hne
  have hle := h.length_le
  obtain ⟨c, hc⟩ := h.failed (by omega)
  exact hquiet c hc

/-- The bytes that one block delivers. -/
theorem delivered_eq (blk off n : ℕ) :
    (List.range n).map (fun i => blockAt v fs.blockSize blk (off + i)) =
      bytesAt v (blk * fs.blockSize + off) n := by
  rw [bytesAt]
  refine List.map_congr_left fun i _ => ?_
  rw [blockAt, window_apply, Nat.add_assoc]

/-- The loop adds a part of the bytes of its range to what was delivered before. -/
theorem readClusterLoop_spec (fuel : ℕ) {len blk off : ℕ} (out : List UInt8)
    (hoff : off < fs.blockSize) (hfuel : len ≤ fuel) :
    wp H.world (readClusterLoop fs fuel len blk off out) (fun r v' => v' = v ∧
      ∃ n ≤ len, r.1 = out ++ bytesAt v (blk * fs.blockSize + off) n ∧
        (n < len → ∃ c, H.mayFail c)) v := by
  induction fuel generalizing len blk off out with
  | zero =>
    refine (wp_done _ _ _).mpr ⟨rfl, 0, Nat.zero_le _, (List.append_nil out).symm, fun hlt => ?_⟩
    omega
  | succ fuel ih =>
    rw [readClusterLoop]
    by_cases h0 : len = 0
    · rw [if_pos h0]
      refine (wp_done _ _ _).mpr ⟨rfl, 0, Nat.zero_le _, (List.append_nil out).symm, fun hlt => ?_⟩
      omega
    · rw [if_neg h0, wp_readBlock]
      refine ⟨?_, fun hm => (wp_done _ _ _).mpr
        ⟨rfl, 0, Nat.zero_le _, (List.append_nil out).symm, fun _ => ⟨_, hm⟩⟩⟩
      simp only []
      rw [wp_copyToUser]
      intro copied hcopied hfail
      rw [delivered_eq]
      by_cases hc : copied ≠ 0
      · rw [if_pos hc]
        exact (wp_done _ _ _).mpr
          ⟨rfl, min len (fs.blockSize - off) - copied, by omega, rfl, fun _ => ⟨_, hfail hc⟩⟩
      · obtain rfl : copied = 0 := Decidable.not_not.mp hc
        rw [if_neg hc, Nat.sub_zero]
        refine wp_mono (ih _ (by omega) (by omega)) fun r v' hr => ?_
        obtain ⟨rfl, n, hn, hout, hshort⟩ := hr
        refine ⟨rfl, min len (fs.blockSize - off) + n, by omega, ?_, fun hlt => hshort (by omega)⟩
        rw [hout, List.append_assoc, bytesAt_add]
        congr 2
        -- a further block begins where this one ends
        rcases Nat.eq_zero_or_pos n with rfl | hpos
        · rfl
        · have hfull : min len (fs.blockSize - off) = fs.blockSize - off := by omega
          rw [hfull, Nat.add_mul, Nat.one_mul]
          congr 1
          omega

/-- **`sfat_read_cluster` delivers what it reports**, and changes nothing. -/
theorem sfatReadCluster_spec (hblk : fs.blockSize = 2 ^ fs.blockBits) (len cls offset : ℕ) :
    wp H.world (sfatReadCluster fs len cls offset)
      (fun r v' => ReadDone H len (clsAddr fs cls + offset) v r.1 v') v := by
  obtain ⟨haddr, hoff⟩ := offset_block hblk cls offset
  rw [sfatReadCluster, wp_blkholderAlloc]
  intro page hpage
  cases page with
  | none => exact (wp_done _ _ _).mpr ⟨rfl, Nat.zero_le _, rfl, fun _ => ⟨_, hpage rfl⟩⟩
  | some page =>
    refine wp_mono (readClusterLoop_spec len [] hoff (Nat.le_refl len)) fun r v' hr => ?_
    obtain ⟨rfl, n, hn, hout, hshort⟩ := hr
    rw [haddr, List.nil_append] at hout
    have hlen : r.1.length = n := by rw [hout, bytesAt_length]
    exact ⟨rfl, hlen ▸ hn, by rw [hlen]; exact hout, hlen ▸ hshort⟩

/-! ### Clusters apart -/

section Apart

variable {c d : ℕ}

def FitsSizeT (fs : FsInfo) (cls : ℕ) : Prop :=
  fs.dataStartBlk + (cls + 1) * fs.blkPerClus ≤ sizeT

theorem clsToBlk_fits (h : ClusterSizes fs) (hc : FitsSizeT fs c) :
    clsToBlk fs c = fs.dataStartBlk + c * fs.blkPerClus := by
  have hpos : 0 < fs.blkPerClus := by
    rw [h.blkPerClus_eq]
    exact Nat.two_pow_pos _
  rw [FitsSizeT, Nat.add_mul, Nat.one_mul] at hc
  rw [clsToBlk_def, Nat.shiftLeft_eq, ← h.blkPerClus_eq, Nat.mod_eq_of_lt (by omega)]

/-- The byte address of a cluster whose blocks have numbers. -/
theorem clsAddr_fits (h : ClusterSizes fs) (hc : FitsSizeT fs c) :
    clsAddr fs c = fs.dataStartBlk * fs.blockSize + c * fs.clusterSize := by
  rw [clsAddr, clsToBlk_fits h hc, h.clusterSize_blocks, Nat.add_mul, Nat.mul_assoc]

/-- **Different clusters do not overlap.** -/
theorem clsAddr_separate (h : ClusterSizes fs) (hc : FitsSizeT fs c) (hd : FitsSizeT fs d)
    (hne : c ≠ d) : clsAddr fs c + fs.clusterSize ≤ clsAddr fs d ∨
      clsAddr fs d + fs.clusterSize ≤ clsAddr fs c := by
  rw [clsAddr_fits h hc, clsAddr_fits h hd]
  rcases Nat.lt_or_gt_of_ne hne with hlt | hlt
  · have hmul := Nat.mul_le_mul_right fs.clusterSize (show c + 1 ≤ d from hlt)
    rw [Nat.add_mul, Nat.one_mul] at hmul
    omega
  · have hmul := Nat.mul_le_mul_right fs.clusterSize (show d + 1 ≤ c from hlt)
    rw [Nat.add_mul, Nat.one_mul] at hmul
    omega

end Apart

/-! ### The results -/

/-- **What `sfat_write_cluster` reports is on the volume**, and nothing else has changed, whatever
fails. -/
theorem write_cluster_durable (h : ClusterSizes fs) (buf : ℕ → UInt8) (len cls offset : ℕ) :
    wp H.world (sfatWriteCluster fs buf len cls offset) (fun r v' => r.1 ≤ len ∧
      (∀ i < r.1, v' (clsAddr fs cls + offset + i) = buf i) ∧
      (∀ a, a < clsAddr fs cls + offset ∨ clsAddr fs cls + offset + r.1 ≤ a → v' a = v a) ∧
      ((∀ c, ¬ H.mayFail c) → r.1 = len)) v := by
  refine wp_mono (sfatWriteCluster_spec h.blockSize_eq cls offset) fun r v' hr => ?_
  rw [hr.vol_eq]
  refine ⟨hr.retLen_le, fun i hi => patch_add v buf hi, fun a ha => ?_, hr.complete⟩
  rcases ha with ha | ha
  · exact patch_of_lt v buf ha
  · exact patch_of_ge v buf ha

theorem write_cluster_durable_thirtyOne :
    wp (Host.code noFailure).world (sfatWriteCluster sbi31.fsInfo (fun _ => 7) 700 1 100)
      (fun r v' => r.1 ≤ 700 ∧
        (∀ i < r.1, v' (clsAddr sbi31.fsInfo 1 + 100 + i) = 7) ∧
        (∀ a, a < clsAddr sbi31.fsInfo 1 + 100 ∨ clsAddr sbi31.fsInfo 1 + 100 + r.1 ≤ a →
          v' a = twoClusterVolume a) ∧
        ((∀ c, ¬ (Host.code noFailure).mayFail c) → r.1 = 700)) twoClusterVolume :=
  write_cluster_durable placed31.clusterSizes (fun _ => 7) 700 1 100

/-- **A read after a write** delivers the written bytes where the ranges meet and the old bytes
elsewhere, as many as it reports; without failures that is all of them. -/
theorem read_after_write {W : Host} (hW : ∀ c, ¬ W.mayFail c) (h : ClusterSizes fs) {cls' : ℕ}
    (hfit : FitsSizeT fs cls) (hfit' : FitsSizeT fs cls') (buf : ℕ → UInt8) {len' offset' : ℕ}
    (hrange : offset + len ≤ fs.clusterSize) (hrange' : offset' + len' ≤ fs.clusterSize) :
    wp W.world (sfatWriteCluster fs buf len cls offset) (fun r v₁ => r.1 = len ∧
      wp H.world (sfatReadCluster fs len' cls' offset') (fun q v' => v' = v₁ ∧
        q.1.length ≤ len' ∧
        (∀ i < q.1.length, q.1[i]? = some
          (if cls' = cls ∧ offset ≤ offset' + i ∧ offset' + i < offset + len then
            buf (offset' + i - offset)
          else v (clsAddr fs cls' + (offset' + i)))) ∧
        ((∀ c, ¬ H.mayFail c) → q.1.length = len')) v₁) v := by
  refine wp_mono (sfatWriteCluster_spec h.blockSize_eq cls offset) fun r v₁ hr => ?_
  have hlen : r.1 = len := hr.complete hW
  have hv₁ : v₁ = patch v (clsAddr fs cls + offset) len buf := by rw [hr.vol_eq, hlen]; rfl
  refine ⟨hlen, wp_mono (sfatReadCluster_spec h.blockSize_eq len' cls' offset') fun q v' hq => ?_⟩
  refine ⟨hq.vol_eq, hq.length_le, fun i hi => ?_, hq.complete⟩
  have hle := hq.length_le
  rw [hq.out_eq, bytesAt, List.getElem?_map, List.getElem?_range hi, Option.map_some, hv₁,
    Nat.add_assoc]
  congr 1
  by_cases hmeet : cls' = cls ∧ offset ≤ offset' + i ∧ offset' + i < offset + len
  · obtain ⟨rfl, hlo, hhi⟩ := hmeet
    rw [if_pos ⟨rfl, hlo, hhi⟩, patch_of_mem v buf (by omega) (by omega)]
    congr 1
    omega
  · rw [if_neg hmeet]
    by_cases hcls : cls' = cls
    · subst hcls
      have hout : offset' + i < offset ∨ offset + len ≤ offset' + i := by
        by_contra hin
        exact hmeet ⟨rfl, by omega, by omega⟩
      rcases hout with hout | hout
      · exact patch_of_lt v buf (by omega)
      · exact patch_of_ge v buf (by omega)
    · rcases clsAddr_separate h hfit' hfit hcls with happ | happ
      · exact patch_of_lt v buf (by omega)
      · exact patch_of_ge v buf (by omega)

theorem read_after_write_thirtyOne :
    wp (Host.code noFailure).world (sfatWriteCluster sbi31.fsInfo (fun _ => 7) 700 1 100)
      (fun r v₁ => r.1 = 700 ∧
      wp (Host.code fun _ => True).world (sfatReadCluster sbi31.fsInfo 600 1 512) (fun q v' =>
        v' = v₁ ∧ q.1.length ≤ 600 ∧
        (∀ i < q.1.length, q.1[i]? = some
          (if 1 = 1 ∧ 100 ≤ 512 + i ∧ 512 + i < 100 + 700 then 7
          else twoClusterVolume (clsAddr sbi31.fsInfo 1 + (512 + i)))) ∧
        ((∀ c, ¬ (Host.code fun _ => True).mayFail c) → q.1.length = 600)) v₁) twoClusterVolume :=
  read_after_write not_noFailure placed31.clusterSizes (by rw [FitsSizeT]; decide)
    (by rw [FitsSizeT]; decide) (fun _ => 7) (by decide) (by decide)

end SimpleFat
