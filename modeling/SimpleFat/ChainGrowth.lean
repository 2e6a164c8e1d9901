import SimpleFat.ChainAppend
import SimpleFat.WriteRun

/-!
# Growing a chain

The loop of `sfat_sync_write` that adds clusters takes the first free cluster, links it to the
current one and writes to it, for as long as something is left.  The FAT may hold anything: the
clusters that are taken were free, so they are on no chain, and the data goes to them alone.

* `AreasApart` — the geometry that is needed;
* `GrowRun` — the loop as its calls, with the clusters that it acquires, `growRun_of_exec`;
* `Grown` — what the loop has done, `Grown.step`, `GrowRun.grown`;
* `chain_growth` — the result.
-/

namespace SimpleFat

open SimpleFat.Lib

variable {H : Host} {fs : FsInfo} {v v' w : Vol} {cur c k a : ℕ} {ns : List ℕ} {buf : ℕ → UInt8}

/-- **The areas do not meet**: the clusters that have a word in the FAT are apart from each other
and from the FAT, and their numbers are cluster numbers. -/
structure AreasApart (fs : FsInfo) : Prop where
  words : WordBlocks fs
  sizes : ClusterSizes fs
  fatWords_le : fatWords fs ≤ sfatEntryMax
  clusters : ∀ c d, c < fatWords fs → d < fatWords fs → c ≠ d →
    clsAddr fs c + fs.clusterSize ≤ clsAddr fs d ∨ clsAddr fs d + fs.clusterSize ≤ clsAddr fs c
  fat : ∀ c < fatWords fs, clsAddr fs c + fs.clusterSize ≤ fatWordAddr fs 0 ∨
    fatWordAddr fs (fatWords fs) ≤ clsAddr fs c

theorem Placed.areasApart (hp : Placed fs) (hwords : fatWords fs ≤ sfatEntryMax) :
    AreasApart fs where
  words := hp.wordBlocks
  sizes := hp.clusterSizes
  fatWords_le := hwords
  clusters _ _ hc hd hne := clsAddr_apart hp (lt_of_fatWords hp hc) (lt_of_fatWords hp hd) hne
  fat c hc := by
    obtain ⟨m, -, hbs⟩ := hp.blockSize_words
    have hdata := dataStart_le_clsAddr hp (lt_of_fatWords hp hc)
    have hmul := Nat.mul_le_mul_right fs.blockSize hp.fat_before_data
    have hlen : 4 * fatWords fs = fs.fatLengthBlk * fs.blockSize := by
      rw [fatWords, show fs.blockSize / 4 = 2 ^ m by omega, Nat.mul_left_comm, ← hbs]
    rw [Nat.add_mul] at hmul
    right
    rw [fatWordAddr, hlen]
    omega

theorem AreasApart.clusterSize_pos (h : AreasApart fs) : 0 < fs.clusterSize := by
  rw [h.sizes.clusterSize_eq]
  exact Nat.two_pow_pos _

def OutsideFat (fs : FsInfo) (x : ℕ) : Prop :=
  x < fatWordAddr fs 0 ∨ fatWordAddr fs (fatWords fs) ≤ x

def OutsideCluster (fs : FsInfo) (c x : ℕ) : Prop :=
  x < clsAddr fs c ∨ clsAddr fs c + fs.clusterSize ≤ x

theorem setFatWord_outside {x d : ℕ} (hd : d < fatWords fs) (hx : OutsideFat fs x) :
    setFatWord fs v d c x = v x := by
  rw [OutsideFat] at hx
  simp only [fatWordAddr] at hx
  rcases hx with hx | hx
  · exact patch_of_lt _ _ (by rw [fatWordAddr]; omega)
  · exact patch_of_ge _ _ (by rw [fatWordAddr]; omega)

/-- Data in a cluster is not in the FAT. -/
theorem AreasApart.fatWord_data (h : AreasApart fs) (hc : c < fatWords fs) {n d : ℕ}
    (hn : n ≤ fs.clusterSize) (hd : d < fatWords fs) :
    fatWord fs (patch v (clsAddr fs c) n buf) d = fatWord fs v d := by
  have hfat := h.fat c hc
  simp only [fatWordAddr] at hfat
  refine fatWord_patch ?_
  rw [fatWordAddr]
  omega

/-- The bytes of a cluster are not in the FAT. -/
theorem AreasApart.outsideFat (h : AreasApart fs) (hc : c < fatWords fs) {j : ℕ}
    (hj : j < fs.clusterSize) : OutsideFat fs (clsAddr fs c + j) := by
  have hfat := h.fat c hc
  rw [OutsideFat]
  omega

/-! ### The loop as its calls -/

/-- **Executions of the loop**, call by call, with the clusters that were acquired. -/
inductive GrowRun (H : Host) (fs : FsInfo) :
    SyncWriteState → Vol → List ℕ → SyncWriteState → Vol → Prop
  /-- Nothing is left. -/
  | done {st : SyncWriteState} {v : Vol} : st.len = 0 → GrowRun H fs st v [] st v
  /-- No cluster was acquired. -/
  | noCluster {st : SyncWriteState} {v v₁ : Vol} {tr : List Request} {e : Errno} : st.len ≠ 0 →
      Exec H.world (sfatFatEntryAcquire fs) v tr (.error e) v₁ → GrowRun H fs st v [] st v₁
  /-- The cluster was not linked. -/
  | unlinked {st : SyncWriteState} {v v₁ v₂ : Vol} {tr tr₁ : List Request} {c : ℕ} {e : Errno} :
      st.len ≠ 0 → Exec H.world (sfatFatEntryAcquire fs) v tr (.ok c) v₁ →
      Exec H.world (sfatFatEntryModify fs st.curCls c) v₁ tr₁ (some e) v₂ →
      GrowRun H fs st v [c] st v₂
  /-- The write to the cluster was short. -/
  | short {st st₁ : SyncWriteState} {v v₁ v₂ v₃ : Vol} {tr tr₁ tr₂ : List Request} {c n : ℕ} :
      st.len ≠ 0 → Exec H.world (sfatFatEntryAcquire fs) v tr (.ok c) v₁ →
      Exec H.world (sfatFatEntryModify fs st.curCls c) v₁ tr₁ none v₂ →
      Exec H.world (writeChunk fs (st.at c) 0) v₂ tr₂ (.out (st₁, n)) v₃ →
      GrowRun H fs st v [c] st₁ v₃
  /-- The cluster was written, and the loop goes on. -/
  | more {st st₁ st' : SyncWriteState} {v v₁ v₂ v₃ v' : Vol} {tr tr₁ tr₂ : List Request} {c : ℕ}
      {ns : List ℕ} : st.len ≠ 0 → Exec H.world (sfatFatEntryAcquire fs) v tr (.ok c) v₁ →
      Exec H.world (sfatFatEntryModify fs st.curCls c) v₁ tr₁ none v₂ →
      Exec H.world (writeChunk fs (st.at c) 0) v₂ tr₂ (.next st₁) v₃ →
      GrowRun H fs st₁ v₃ ns st' v' → GrowRun H fs st v (c :: ns) st' v'

/-- **Every execution of the loop is such a run**: it has fuel enough, since each cluster takes at
least one byte. -/
theorem growRun_of_exec (h : AreasApart fs) (fuel : ℕ) {st : SyncWriteState} (hfuel : st.len ≤ fuel)
    {tr : List Request} {r : Option SyncWriteState}
    (he : Exec H.world (writeNew fs fuel st) v tr r v') :
    ∃ ns st', r = some st' ∧ GrowRun H fs st v ns st' v' := by
  induction fuel generalizing st v tr with
  | zero =>
    have h0 : st.len = 0 := by omega
    rw [writeNew, if_pos h0] at he
    obtain ⟨rfl, rfl⟩ := he.of_pure
    exact ⟨[], st, rfl, .done h0⟩
  | succ fuel ih =>
    rw [writeNew] at he
    by_cases h0 : st.len = 0
    · rw [if_pos h0] at he
      obtain ⟨rfl, rfl⟩ := he.of_pure
      exact ⟨[], st, rfl, .done h0⟩
    · rw [if_neg h0] at he
      obtain ⟨_, _, q, v₁, hacq, he⟩ := he.of_bind
      cases q with
      | error e =>
        obtain ⟨rfl, rfl⟩ := he.of_pure
        exact ⟨[], st, rfl, .noCluster h0 hacq⟩
      | ok c =>
        obtain ⟨_, _, q, v₂, hmod, he⟩ := he.of_bind
        cases q with
        | some e =>
          obtain ⟨rfl, rfl⟩ := he.of_pure
          exact ⟨[c], st, rfl, .unlinked h0 hacq hmod⟩
        | none =>
          obtain ⟨_, _, q, v₃, hchunk, he⟩ := he.of_bind
          cases q with
          | out q =>
            obtain ⟨rfl, rfl⟩ := he.of_pure
            exact ⟨[c], q.1, rfl, .short h0 hacq hmod hchunk⟩
          | next st₁ =>
            have hout := (wp_iff_exec _ _ _).mp
              (writeChunk_spec h.sizes.blockSize_eq (st.at c) 0) _ _ _ hchunk
            have hpos := @chunkLen_pos fs (st.at c) 0 h0 h.clusterSize_pos
            have hle : st₁.len ≤ fuel := by
              rw [hout.1]
              show st.len - chunkLen fs (st.at c) 0 ≤ fuel
              omega
            obtain ⟨ns, st', hr, hrun⟩ := ih hle he
            exact ⟨c :: ns, st', hr, .more h0 hacq hmod hchunk hrun⟩

/-! ### What the loop has done -/

/-- **The chain has grown**: of the clusters `ns` the first `k` are linked behind `cur`, and the
first `a` bytes of the buffer lie in them. -/
structure Grown (fs : FsInfo) (v v' : Vol) (cur : ℕ) (ns : List ℕ) (k : ℕ) (buf : ℕ → UInt8)
    (a : ℕ) : Prop where
  nodup : ns.Nodup
  free : ∀ c ∈ ns, c < fatWords fs ∧ fatWord fs v c = sfatEntryFree
  linked : WordChain fs v' cur (cur :: ns.take k)
  /-- a cluster that is not linked has the end mark, and no word leads to it that did not before -/
  isolated : ∀ c ∈ ns.drop k, fatWord fs v' c = sfatEntryEoc ∧
    ∀ d < fatWords fs, fatWord fs v' d = c → fatWord fs v d = c
  words : ∀ d < fatWords fs, d ≠ cur → d ∉ ns → fatWord fs v' d = fatWord fs v d
  kept : ∀ s ds, WordChain fs v s ds → (∀ d ∈ ds, d < fatWords fs) → cur ∉ ds →
    WordChain fs v' s ds
  extended : ∀ s ds, WordChain fs v s ds → (∀ d ∈ ds, d < fatWords fs) → cur ∈ ds →
    WordChain fs v' s (ds ++ ns.take k)
  accu_le : a ≤ k * fs.clusterSize
  bytes : ∀ j < a, ∃ c, (ns.take k)[j / fs.clusterSize]? = some c ∧
    v' (clsAddr fs c + j % fs.clusterSize) = buf j
  frame : ∀ x, OutsideFat fs x → (∀ c ∈ ns, OutsideCluster fs c x) → v' x = v x

/-- Nothing was acquired. -/
theorem Grown.refl (hword : fatWord fs v cur = sfatEntryEoc) : Grown fs v v cur [] 0 buf 0 where
  nodup := List.nodup_nil
  free := by simp
  linked := .stop hword
  isolated := by simp
  words _ _ _ _ := rfl
  kept _ _ hds _ _ := hds
  extended _ _ hds _ _ := by
    rw [List.take_nil, List.append_nil]
    exact hds
  accu_le := Nat.zero_le _
  bytes _ hj := absurd hj (Nat.not_lt_zero _)
  frame _ _ _ := rfl

/-- A free cluster is on no chain: its word is the number of no cluster. -/
theorem not_mem_of_free (h : AreasApart fs) {s : ℕ} {ds : List ℕ} (hds : WordChain fs v s ds)
    (hlt : ∀ d ∈ ds, d < fatWords fs) (hfree : fatWord fs v c = sfatEntryFree) : c ∉ ds := by
  intro hmem
  rcases PathTo.inner hds hmem with heoc | ⟨-, e, he, hemem⟩
  · rw [hfree] at heoc
    exact absurd heoc (by decide)
  · have hle := h.fatWords_le
    have hlast := hlt e hemem
    rw [← Option.some.inj he, hfree] at hlast
    rw [sfatEntryMax] at hle
    rw [sfatEntryFree] at hlast
    omega

/-- A cluster was acquired and not linked. -/
theorem Grown.unlinked (h : AreasApart fs) (hword : fatWord fs v cur = sfatEntryEoc)
    (hc : FirstFree fs v c) : Grown fs v (setFatWord fs v c sfatEntryEoc) cur [c] 0 buf 0 := by
  have hne : cur ≠ c := fun heq => by
    rw [heq, hc.2.1] at hword
    exact absurd hword (by decide)
  have hother : ∀ {s : ℕ} {ds : List ℕ}, WordChain fs v s ds → (∀ d ∈ ds, d < fatWords fs) →
      WordChain fs (setFatWord fs v c sfatEntryEoc) s ds := fun hds hlt =>
    hds.congr fun d hd => fatWord_setFatWord_ne fun heq =>
      not_mem_of_free h hds hlt hc.2.1 (heq ▸ hd)
  refine ⟨List.nodup_singleton c, ?_, ?_, ?_, fun d _ _ hd => ?_, fun s ds hds hlt _ => hother hds hlt,
    fun s ds hds hlt _ => ?_, Nat.zero_le _, fun j hj => absurd hj (Nat.not_lt_zero j), fun x hx _ => ?_⟩
  · intro d hd
    rw [List.mem_singleton.mp hd]
    exact ⟨hc.1, hc.2.1⟩
  · refine .stop ?_
    rw [fatWord_setFatWord_ne hne]
    exact hword
  · intro d hd
    obtain rfl : d = c := List.mem_singleton.mp hd
    refine ⟨fatWord_setFatWord_of_lt (by decide), fun e _ he => ?_⟩
    by_cases hed : e = d
    · have hle := h.fatWords_le
      have hlt := hc.1
      rw [hed, fatWord_setFatWord_of_lt (by decide), sfatEntryEoc] at he
      rw [sfatEntryMax] at hle
      omega
    · rwa [fatWord_setFatWord_ne hed] at he
  · exact fatWord_setFatWord_ne fun heq => hd (by rw [heq]; exact List.mem_singleton_self c)
  · rw [List.take_zero, List.append_nil]
    exact hother hds hlt
  · exact setFatWord_outside hc.1 hx

/-- The volume after a cluster was acquired, linked and written. -/
def clusterAdded (fs : FsInfo) (v : Vol) (cur c n : ℕ) (buf : ℕ → UInt8) : Vol :=
  patch (clusterLinked fs v cur c) (clsAddr fs c) n buf

section Added

variable {n : ℕ}

theorem cur_ne (hword : fatWord fs v cur = sfatEntryEoc) (hc : FirstFree fs v c) : cur ≠ c := by
  intro heq
  rw [heq, hc.2.1] at hword
  exact absurd hword (by decide)

theorem fatWord_added_self (h : AreasApart fs) (hword : fatWord fs v cur = sfatEntryEoc)
    (hc : FirstFree fs v c) (hn : n ≤ fs.clusterSize) :
    fatWord fs (clusterAdded fs v cur c n buf) c = sfatEntryEoc := by
  rw [clusterAdded, h.fatWord_data hc.1 hn hc.1, clusterLinked,
    fatWord_setFatWord_ne (cur_ne hword hc).symm]
  exact fatWord_setFatWord_of_lt (by decide)

theorem fatWord_added_cur (h : AreasApart fs) (hc : FirstFree fs v c) (hn : n ≤ fs.clusterSize)
    (hcur : cur < fatWords fs) : fatWord fs (clusterAdded fs v cur c n buf) cur = c := by
  have hle := h.fatWords_le
  have hlt := hc.1
  rw [sfatEntryMax] at hle
  rw [clusterAdded, h.fatWord_data hc.1 hn hcur, clusterLinked,
    fatWord_setFatWord_of_lt (by omega)]

theorem fatWord_added_ne (h : AreasApart fs) (hc : FirstFree fs v c) (hn : n ≤ fs.clusterSize)
    {d : ℕ} (hd : d < fatWords fs) (hdcur : d ≠ cur) (hdc : d ≠ c) :
    fatWord fs (clusterAdded fs v cur c n buf) d = fatWord fs v d := by
  rw [clusterAdded, h.fatWord_data hc.1 hn hd, clusterLinked, fatWord_setFatWord_ne hdcur,
    fatWord_setFatWord_ne hdc]

/-- Bytes outside the FAT and the new cluster are as before. -/
theorem added_frame (hc : FirstFree fs v c) (hn : n ≤ fs.clusterSize) (hcur : cur < fatWords fs)
    {x : ℕ} (hx : OutsideFat fs x) (hxc : OutsideCluster fs c x) :
    clusterAdded fs v cur c n buf x = v x := by
  have hlinked : clusterLinked fs v cur c x = v x := by
    rw [clusterLinked, setFatWord_outside hcur hx, setFatWord_outside hc.1 hx]
  rw [clusterAdded]
  rcases hxc with hxc | hxc
  · rw [patch_of_lt _ _ hxc, hlinked]
  · rw [patch_of_ge _ _ (by omega), hlinked]

/-- A chain through `cur` has the new cluster at its end. -/
theorem chain_added (h : AreasApart fs) (hword : fatWord fs v cur = sfatEntryEoc)
    (hc : FirstFree fs v c) (hn : n ≤ fs.clusterSize) (hcur : cur < fatWords fs) {s : ℕ}
    {ds : List ℕ} (hds : WordChain fs v s ds) (hlt : ∀ d ∈ ds, d < fatWords fs) (hmem : cur ∈ ds) :
    WordChain fs (clusterAdded fs v cur c n buf) s (ds ++ [c]) := by
  have hnot := not_mem_of_free h hds hlt hc.2.1
  have hlast : ds.getLast? = some cur := by
    rw [List.getLast?_eq_some_getLast hds.ne_nil, Option.some_inj]
    exact (hds.eq_last (List.getLast?_eq_some_getLast hds.ne_nil) hmem hword).symm
  have hle := h.fatWords_le
  have hltc := hc.1
  rw [sfatEntryMax] at hle
  refine hds.append hlast (fatWord_added_cur h hc hn hcur) (by rw [sfatEntryEoc]; omega)
    (fun d hd hdcur => ?_) (fatWord_added_self h hword hc hn)
  exact fatWord_added_ne h hc hn (hlt d hd) hdcur fun heq => hnot (heq ▸ hd)

/-- Another chain is as before. -/
theorem chain_kept (h : AreasApart fs) (hc : FirstFree fs v c) (hn : n ≤ fs.clusterSize)
    {s : ℕ} {ds : List ℕ} (hds : WordChain fs v s ds) (hlt : ∀ d ∈ ds, d < fatWords fs)
    (hmem : cur ∉ ds) :
    WordChain fs (clusterAdded fs v cur c n buf) s ds := by
  have hnot := not_mem_of_free h hds hlt hc.2.1
  refine hds.congr fun d hd => fatWord_added_ne h hc hn (hlt d hd) (fun heq => ?_) fun heq => ?_
  · exact hmem (heq ▸ hd)
  · exact hnot (heq ▸ hd)

end Added

/-- **One round more**: a cluster is acquired, linked and written, and then the loop goes on. -/
theorem Grown.step (h : AreasApart fs) (hcur : cur < fatWords fs)
    (hword : fatWord fs v cur = sfatEntryEoc) (hc : FirstFree fs v c) {n : ℕ}
    (hn : n ≤ fs.clusterSize) (hfull : a = 0 ∨ n = fs.clusterSize)
    (hrest : Grown fs (clusterAdded fs v cur c n buf) v' c ns k (window buf n) a) :
    Grown fs v v' cur (c :: ns) (k + 1) buf (n + a) := by
  have hself : fatWord fs (clusterAdded fs v cur c n buf) c = sfatEntryEoc :=
    fatWord_added_self h hword hc hn
  have hlink : fatWord fs (clusterAdded fs v cur c n buf) cur = c :=
    fatWord_added_cur h hc hn hcur
  have hne := cur_ne hword hc
  have hle := h.fatWords_le
  have hltc := hc.1
  rw [sfatEntryMax] at hle
  -- the clusters of the other rounds were free already
  have hns : ∀ d ∈ ns, d ≠ cur ∧ d ≠ c ∧ d < fatWords fs ∧ fatWord fs v d = sfatEntryFree := by
    intro d hd
    obtain ⟨hlt, hfree⟩ := hrest.free d hd
    have hdc : d ≠ c := fun heq => by
      rw [heq, hself] at hfree
      exact absurd hfree (by decide)
    have hdcur : d ≠ cur := fun heq => by
      rw [heq, hlink, sfatEntryFree] at hfree
      omega
    rw [fatWord_added_ne h hc hn hlt hdcur hdc] at hfree
    exact ⟨hdcur, hdc, hlt, hfree⟩
  have hcurNs : cur ∉ ns := fun hmem => (hns cur hmem).1 rfl
  have hcNs : c ∉ ns := fun hmem => (hns c hmem).2.1 rfl
  have hcurWord : fatWord fs v' cur = c := by rw [hrest.words cur hcur hne hcurNs, hlink]
  refine ⟨List.nodup_cons.mpr ⟨hcNs, hrest.nodup⟩, ?_, ?_, ?_, ?_, ?_, ?_, ?_, ?_, ?_⟩
  · exact List.forall_mem_cons.mpr ⟨⟨hc.1, hc.2.1⟩, fun d hd => (hns d hd).2.2⟩
  · rw [List.take_succ_cons]
    refine .next ?_ (congrArg some hcurWord) hrest.linked
    rw [hcurWord, sfatEntryEoc]
    omega
  · intro d hd
    rw [List.drop_succ_cons] at hd
    obtain ⟨heoc, hto⟩ := hrest.isolated d hd
    obtain ⟨-, hdc, hdlt, -⟩ := hns d (List.mem_of_mem_drop hd)
    refine ⟨heoc, fun e he heq => ?_⟩
    have hadded := hto e he heq
    by_cases hecur : e = cur
    · rw [hecur, hlink] at hadded
      exact absurd hadded.symm hdc
    · by_cases hec : e = c
      · rw [hec, hself, sfatEntryEoc] at hadded
        omega
      · rwa [fatWord_added_ne h hc hn he hecur hec] at hadded
  · intro d hd hdcur hdn
    obtain ⟨hdc, hdns⟩ := not_or.mp (List.mem_cons.not.mp hdn)
    rw [hrest.words d hd hdc hdns, fatWord_added_ne h hc hn hd hdcur hdc]
  · intro s ds hds hlt hmem
    exact hrest.kept s ds (chain_kept h hc hn hds hlt hmem) hlt (not_mem_of_free h hds hlt hc.2.1)
  · intro s ds hds hlt hmem
    have hadded : WordChain fs (clusterAdded fs v cur c n buf) s (ds ++ [c]) :=
      chain_added h hword hc hn hcur hds hlt hmem
    have hltc' : ∀ d ∈ ds ++ [c], d < fatWords fs := fun d hd => by
      rcases List.mem_append.mp hd with hd | hd
      · exact hlt d hd
      · rw [List.mem_singleton.mp hd]
        exact hc.1
    have hall := hrest.extended s _ hadded hltc' (List.mem_append_right _ (List.mem_singleton_self c))
    rwa [List.append_assoc, List.singleton_append] at hall
  · have hacc := hrest.accu_le
    rw [Nat.add_mul, Nat.one_mul]
    omega
  · intro j hj
    have hpos := h.clusterSize_pos
    by_cases hjn : j < n
    · -- the rest of the loop leaves the cluster alone
      have hin : j < fs.clusterSize := by omega
      refine ⟨c, by rw [Nat.div_eq_of_lt hin]; rfl, ?_⟩
      rw [Nat.mod_eq_of_lt hin, hrest.frame _ (h.outsideFat hc.1 hin), clusterAdded,
        patch_add _ _ hjn]
      intro d hd
      obtain ⟨-, hdc, hdlt, -⟩ := hns d hd
      have happ := h.clusters c d hc.1 hdlt hdc.symm
      rw [OutsideCluster]
      omega
    · have hnsz : n = fs.clusterSize := hfull.resolve_left (by omega)
      obtain ⟨d, hd, hbyte⟩ := hrest.bytes (j - n) (by omega)
      rw [window_apply, Nat.add_sub_cancel' (by omega)] at hbyte
      have hge : fs.clusterSize ≤ j := by omega
      refine ⟨d, ?_, ?_⟩
      · rw [Nat.div_eq_sub_div hpos hge, ← hnsz]
        exact hnsz ▸ hd
      · rw [Nat.mod_eq_sub_mod hge, ← hnsz]
        exact hnsz ▸ hbyte
  · intro x hx hxns
    obtain ⟨hxc, hxns⟩ := List.forall_mem_cons.mp hxns
    rw [hrest.frame x hx hxns, added_frame hc hn hcur hx hxc]

/-- **A run has grown the chain of the current cluster.** -/
theorem GrowRun.grown (h : AreasApart fs) {st st' : SyncWriteState}
    (hrun : GrowRun H fs st v ns st' v') (hcur : st.curCls < fatWords fs)
    (hword : fatWord fs v st.curCls = sfatEntryEoc) :
    st.accuLen ≤ st'.accuLen ∧ st'.accuLen - st.accuLen ≤ st.len ∧
      ∃ k ≤ ns.length, ns.length ≤ k + 1 ∧
        Grown fs v v' st.curCls ns k st.buf (st'.accuLen - st.accuLen) := by
  have hacquired : ∀ {v v₁ : Vol} {tr : List Request} {r : Except Errno ℕ},
      Exec H.world (sfatFatEntryAcquire fs) v tr r v₁ → AcquireOutcome H fs v r v₁ :=
    fun he => (wp_iff_exec _ _ _).mp (h.words.acquire_spec _) _ _ _ he
  have hchunk := fun st v => (wp_iff_exec _ _ _).mp
    (@writeChunk_spec H fs v h.sizes.blockSize_eq st 0)
  induction hrun with
  | @done st v _ =>
    rw [Nat.sub_self]
    exact ⟨Nat.le_refl _, Nat.zero_le _, 0, Nat.le_refl 0, Nat.zero_le _, Grown.refl hword⟩
  | @noCluster st v v₁ _ e _ hacq =>
    obtain rfl : v₁ = v := (hacquired hacq).1
    rw [Nat.sub_self]
    exact ⟨Nat.le_refl _, Nat.zero_le _, 0, Nat.le_refl 0, Nat.zero_le _, Grown.refl hword⟩
  | @unlinked st v v₁ v₂ _ _ c e _ hacq hmod =>
    obtain ⟨hc, rfl⟩ := hacquired hacq
    obtain ⟨rfl, -⟩ := (wp_iff_exec _ _ _).mp (h.words.modify_spec st.curCls c _) _ _ _ hmod
    rw [Nat.sub_self]
    exact ⟨Nat.le_refl _, Nat.zero_le _, 0, Nat.zero_le _, Nat.le_refl _,
      Grown.unlinked h hword hc⟩
  | @short st st₁ v v₁ v₂ v₃ _ _ _ c n _ hacq hmod hwrite =>
    obtain ⟨hc, rfl⟩ := hacquired hacq
    obtain ⟨-, rfl⟩ := (wp_iff_exec _ _ _).mp (h.words.modify_spec st.curCls c _) _ _ _ hmod
    obtain ⟨rfl, hlt, hdone⟩ := hchunk _ _ _ _ _ hwrite
    have hv := hdone.vol_eq
    subst hv
    rw [chunkLen] at hlt
    have hlen : n ≤ st.len := Nat.le_trans (Nat.le_of_lt hlt) (Nat.min_le_left _ _)
    have hn : n ≤ fs.clusterSize := by omega
    have hgrown : Grown fs v (clusterAdded fs v st.curCls c n st.buf) st.curCls [c] 1 st.buf n :=
      Grown.step h hcur hword hc hn (.inl rfl) (Grown.refl (fatWord_added_self h hword hc hn))
    have hacc : ((st.at c).advance n).accuLen = st.accuLen + n := rfl
    rw [hacc, Nat.add_sub_cancel_left]
    exact ⟨Nat.le_add_right _ _, hlen, 1, Nat.le_refl 1, Nat.le_succ 1, hgrown⟩
  | @more st st₁ st' v v₁ v₂ v₃ v' _ _ _ c ns _ hacq hmod hwrite _ ih =>
    obtain ⟨hc, rfl⟩ := hacquired hacq
    obtain ⟨-, rfl⟩ := (wp_iff_exec _ _ _).mp (h.words.modify_spec st.curCls c _) _ _ _ hmod
    obtain ⟨rfl, hdone⟩ := hchunk _ _ _ _ _ hwrite
    have hv := hdone.vol_eq
    subst hv
    have hn : chunkLen fs (st.at c) 0 ≤ fs.clusterSize := by
      rw [chunkLen]
      omega
    have hlen : chunkLen fs (st.at c) 0 = min st.len fs.clusterSize := rfl
    have hself := @fatWord_added_self fs v st.curCls c st.buf _ h hword hc hn
    obtain ⟨hle, hrestLen, k, hk, hk', hgrown⟩ := ih hc.1 hself
    have hacc : ((st.at c).advance (chunkLen fs (st.at c) 0)).accuLen =
      st.accuLen + chunkLen fs (st.at c) 0 := rfl
    have hleft : ((st.at c).advance (chunkLen fs (st.at c) 0)).len =
      st.len - chunkLen fs (st.at c) 0 := rfl
    rw [hacc] at hle hrestLen hgrown
    rw [hleft] at hrestLen
    have hstep := Grown.step h hcur hword hc hn (by omega) hgrown
    rw [show chunkLen fs (st.at c) 0 + (st'.accuLen - (st.accuLen + chunkLen fs (st.at c) 0)) =
      st'.accuLen - st.accuLen by omega] at hstep
    exact ⟨by omega, by omega, k + 1, Nat.succ_le_succ hk, Nat.succ_le_succ hk', hstep⟩

/-! ### The result -/

/-- **Growing a chain is safe for every other chain**, whatever fails and whatever the FAT holds:
the clusters that the loop acquires are linked in order behind the current one, all of them or all
but the last, the bytes it counts are in them, and nothing else has changed. -/
theorem chain_growth (h : AreasApart fs) {st : SyncWriteState} (hcur : st.curCls < fatWords fs)
    (hword : fatWord fs v st.curCls = sfatEntryEoc) :
    wp H.world (writeNew fs st.len st) (fun r v' => ∃ ns st', r = some st' ∧
      GrowRun H fs st v ns st' v' ∧ ∃ k ≤ ns.length, ns.length ≤ k + 1 ∧
        Grown fs v v' st.curCls ns k st.buf (st'.accuLen - st.accuLen)) v := by
  refine (wp_iff_exec _ _ _).mpr fun tr r v' he => ?_
  obtain ⟨ns, st', rfl, hrun⟩ := growRun_of_exec h st.len (Nat.le_refl _) he
  exact ⟨ns, st', rfl, hrun, (hrun.grown h hcur hword).2.2⟩

theorem chain_growth_oneFile :
    wp (Host.code fun _ => True).world
      (writeNew sbi31.fsInfo (syncWriteStart root31 (fun _ => 7) 5000 0).len
        (syncWriteStart root31 (fun _ => 7) 5000 0))
      (fun r v' => ∃ ns st', r = some st' ∧
        GrowRun (Host.code fun _ => True) sbi31.fsInfo (syncWriteStart root31 (fun _ => 7) 5000 0)
          oneFileVolume ns st' v' ∧ ∃ k ≤ ns.length, ns.length ≤ k + 1 ∧
          Grown sbi31.fsInfo oneFileVolume v' (syncWriteStart root31 (fun _ => 7) 5000 0).curCls ns k
            (syncWriteStart root31 (fun _ => 7) 5000 0).buf
            (st'.accuLen - (syncWriteStart root31 (fun _ => 7) 5000 0).accuLen)) oneFileVolume :=
  chain_growth (placed31.areasApart (by decide)) (show 0 < fatWords sbi31.fsInfo by decide)
    (show fatWord sbi31.fsInfo oneFileVolume 0 = sfatEntryEoc by decide +kernel)

end SimpleFat
