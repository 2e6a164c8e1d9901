import SimpleFat.CapacityRuns

/-!
# Runs that there is room for

A store of files without limits refuses a call only if the name is there, or if a write starts behind
the end of its file.  The volume is such a store as long as the files need fewer clusters than it has,
and every write ends in the clusters of its file or starts behind them.

* `ServeStep`, `ServedRun` — the store without limits, and its runs;
* `Fits` — the calls that there is room for;
* `Sequential.writeBounded`, `Fits.keeps` — they keep the volume consistent;
* `Calls.served`, `fitting_runs_served` — they are served, and so is every run of them.
-/

namespace SimpleFat

open SimpleFat.Lib

/-! ### The store without limits -/

/-- **What a call does**, if there is no limit to the room. -/
inductive ServeStep (clusterSize : ℕ) : Files → VolumeCall → CallResult → Files → Prop
  | created {σ : Files} {n : List UInt8} {junk : CreateJunk} {inode : Inode} (h : n.take 11 ∉ σ.keys) :
      ServeStep clusterSize σ (.create n junk) (.dentry (.ok (some inode))) (σ.create (n.take 11) h)
  | taken {σ : Files} {n : List UInt8} {junk : CreateJunk} : n.take 11 ∈ σ.keys →
      ServeStep clusterSize σ (.create n junk) (.dentry (.error .eexist)) σ
  | found {σ : Files} {n bytes : List UInt8} {inode : Inode} : (n.take 11, bytes) ∈ σ.files →
      inode.iSize = bytes.length →
      ServeStep clusterSize σ (.lookup n) (.dentry (.ok (some inode))) σ
  | missing {σ : Files} {n : List UInt8} : n.take 11 ∉ σ.keys →
      ServeStep clusterSize σ (.lookup n) (.dentry (.ok none)) σ
  | listed {σ : Files} {fPos : ℕ} {r : ReaddirState} :
      (∀ call ∈ r.dirent, ∀ n, σ.keys[call.pos / 32]? = some n → emittedName call = n) →
      ServeStep clusterSize σ (.readdir fPos) (.listed r) σ
  | read {σ : Files} {n bytes out : List UInt8} {len ppos : ℕ} : (n.take 11, bytes) ∈ σ.files →
      out = (bytes.drop ppos).take (min len (clusterSize - ppos)) →
      ServeStep clusterSize σ (.read n len ppos) (.data out (ppos + out.length)) σ
  /-- All bytes are written. -/
  | wrote {σ : Files} {n bytes : List UInt8} {buf : ℕ → UInt8} {len ppos : ℕ} :
      (n.take 11, bytes) ∈ σ.files → ppos ≤ bytes.length → len ≠ 0 →
      ServeStep clusterSize σ (.write n buf len ppos) (.wrote (.ok len) (ppos + len))
        (σ.write (n.take 11) ppos (firstBytes len buf))
  | rejected {σ : Files} {n bytes : List UInt8} {buf : ℕ → UInt8} {len ppos : ℕ} :
      (n.take 11, bytes) ∈ σ.files → bytes.length < ppos ∨ len = 0 →
      ServeStep clusterSize σ (.write n buf len ppos) (.wrote (.error .einval) ppos) σ
  | dropped {σ : Files} {n : List UInt8} : ServeStep clusterSize σ (.drop n) .dropped σ
  | mounted {σ : Files} {options : MountOptions} :
      ServeStep clusterSize σ (.remount options) .mounted σ

inductive ServedRun (clusterSize : ℕ) : List (VolumeCall × CallResult) → Files → Prop
  | empty : ServedRun clusterSize [] FileStore.empty
  | step {log : List (VolumeCall × CallResult)} {σ σ' : Files} {c : VolumeCall} {r : CallResult} :
      ServedRun clusterSize log σ → ServeStep clusterSize σ c r σ' →
      ServedRun clusterSize (log ++ [(c, r)]) σ'

/-! ### Calls that there is room for -/

def Mounted.onVolume (st : Mounted) : List (List UInt8 × List UInt8) :=
  volumeFiles st.sbi.fsInfo st.vol st.dir.iStart

/-- **A write in the clusters of its file or behind them**: it ends in them, and does not start at the
end of the file if that is the end of a block, or it starts at the end of the last one. -/
def WritesAligned (fs : FsInfo) (size len ppos : ℕ) : Prop :=
  insideFile fs size ppos = true ∧ ppos + len ≤ clustersFor fs size * fs.clusterSize ∨
    ppos = size ∧ fs.clusterSize ∣ size

/-- **The calls that there is room for**: after them the files need fewer clusters than there are. -/
def Fits (st : Mounted) : VolumeCall → Prop
  | .create n junk => NextSet st.sbi.fsInfo st.vol st.dir junk ∧
      (n.take 11 ∉ st.onVolume.map Prod.fst →
        demand st.sbi.fsInfo (st.onVolume ++ [(n.take 11, [])]) < st.sbi.fsInfo.clusters)
  | .read n _ _ => ∀ inode, st.files n = some inode → OwnsSlot st n inode ∨ FlushesAside st n inode
  | .write n buf len ppos => ∀ inode, st.files n = some inode → OwnsSlot st n inode ∧
      ∀ bytes, (n.take 11, bytes) ∈ st.onVolume → ppos ≤ bytes.length → len ≠ 0 →
        WritesAligned st.sbi.fsInfo bytes.length len ppos ∧ ppos + len < 2 ^ 32 ∧
        demand st.sbi.fsInfo (FileStore.writeFiles st.onVolume (n.take 11) ppos (firstBytes len buf)) <
          st.sbi.fsInfo.clusters
  | _ => True

/-! ### How much a write needs -/

section Needs

variable {fs : FsInfo} {files : List (List UInt8 × List UInt8)} {k old new : List UInt8}
  {pos size len ppos : ℕ}

/-- **What the files need after a write** to one of them. -/
theorem demand_write (hnodup : (files.map Prod.fst).Nodup) (h : (k, old) ∈ files)
    (hpos : pos ≤ old.length) :
    demand fs (FileStore.writeFiles files k pos new) + clustersFor fs old.length =
      demand fs files + clustersFor fs (max old.length (pos + new.length)) := by
  obtain ⟨pre, post, rfl, hwrite⟩ := FileStore.writeFiles_split hnodup h pos new
  rw [hwrite]
  simp only [demand, neededClusters, List.length_append, List.length_cons, List.map_append,
    List.map_cons, List.sum_append, List.sum_cons, splice_length hpos]
  omega

/-- Behind whole clusters. -/
theorem clustersFor_add (hcs : 0 < fs.clusterSize) (h : fs.clusterSize ∣ size) (len : ℕ) :
    clustersFor fs (size + len) = clustersFor fs size + clustersFor fs len := by
  obtain ⟨m, rfl⟩ := h
  have hadd : ∀ x, clustersFor fs (fs.clusterSize * m + x) = m + clustersFor fs x := by
    intro x
    rw [clustersFor, clustersFor, Nat.add_assoc, Nat.mul_add_div hcs]
  have hwhole := hadd 0
  rw [clustersFor_zero hcs, Nat.add_zero, Nat.add_zero] at hwhole
  rw [hadd, hwhole]

/-- A write that ends in the clusters of its file needs no more. -/
theorem clustersFor_inside (hcs : 0 < fs.clusterSize)
    (h : ppos + len ≤ clustersFor fs size * fs.clusterSize) :
    clustersFor fs (max size (ppos + len)) = clustersFor fs size := by
  have hcov := clustersFor_covers hcs size
  rw [clustersFor]
  apply Nat.div_eq_of_lt_le
  · omega
  · rw [Nat.add_mul, Nat.one_mul]
    omega

/-- At the end of whole clusters. -/
theorem insideFile_whole (hwf : WellFormed fs) (h : fs.clusterSize ∣ size) :
    insideFile fs size size = false := by
  have hblocks : fs.blockSize ∣ size :=
    (Dvd.intro_left fs.blkPerClus hwf.clusterSize_blocks.symm).trans h
  rw [insideFile, and_blockSize hwf, Nat.mod_eq_zero_of_dvd hblocks]
  simp

/-- **An aligned write** needs clusters only behind those of its file. -/
theorem WritesAligned.demand_eq (hp : Placed fs) (hal : WritesAligned fs old.length len ppos)
    (hnodup : (files.map Prod.fst).Nodup) (h : (k, old) ∈ files) (hpos : ppos ≤ old.length)
    (buf : ℕ → UInt8) : demand fs (FileStore.writeFiles files k ppos (firstBytes len buf)) =
      if insideFile fs old.length ppos then demand fs files else demand fs files + clustersFor fs len := by
  have hcs := hp.clusterSize_pos
  have hneed : demand fs (FileStore.writeFiles files k ppos (firstBytes len buf)) +
      clustersFor fs old.length = demand fs files +
        clustersFor fs (max old.length (ppos + (firstBytes len buf).length)) :=
    demand_write hnodup h hpos
  rw [firstBytes_length] at hneed
  rcases hal with ⟨hin, hfit⟩ | ⟨rfl, hdvd⟩
  · rw [clustersFor_inside hcs hfit] at hneed
    rw [if_pos hin]
    omega
  · rw [Nat.max_eq_right (Nat.le_add_right _ len), clustersFor_add hcs hdvd] at hneed
    rw [insideFile_whole hp.toWellFormed hdvd, if_neg Bool.false_ne_true]
    omega

/-- **An aligned write** finds room for all of its bytes. -/
theorem WritesAligned.le_room (hp : Placed fs) {used : ℕ} (hal : WritesAligned fs size len ppos)
    (hroom : insideFile fs size ppos = false → used + clustersFor fs len ≤ fs.clusters) :
    len ≤ writeRoom fs used size ppos := by
  have hcs := hp.clusterSize_pos
  rcases hal with ⟨hin, hfit⟩ | ⟨rfl, hdvd⟩
  · rw [writeRoom, if_pos hin]
    omega
  · have hend := insideFile_whole hp.toWellFormed hdvd
    have hcov := (clustersFor_covers hcs len).1
    have hle : clustersFor fs len * fs.clusterSize ≤ (fs.clusters - used) * fs.clusterSize :=
      Nat.mul_le_mul_right _ (by have := hroom hend; omega)
    rw [writeRoom, hend, if_neg Bool.false_ne_true]
    omega

end Needs

/-! ### Calls stay inside -/

section Inside

variable {fs : FsInfo} {v : Vol} {inode : Inode} {cs : List ℕ} {k m cur len ppos : ℕ}

/-- **The next clusters** are there. -/
theorem Sequential.takesInside (hp : Placed fs) (h : Sequential fs v k) (hcur : cur < k)
    (hroom : k + m ≤ fs.clusters) : TakesInside fs m v cur := by
  induction m generalizing v k cur with
  | zero => trivial
  | succ m ih =>
    intro c hc _
    obtain rfl := h.next hc
    have hlt : c < fs.clusters := by omega
    exact ⟨hlt, ih (h.linked hc.1 hcur (Nat.lt_trans hlt hp.clusters_lt)) (Nat.lt_succ_self c) (by omega)⟩

/-- **Links** go to words in use. -/
theorem Sequential.linksInside (h : Sequential fs v k) (hcur : cur < k) (hk : k ≤ fs.clusters) :
    LinksInside fs v m cur := by
  induction m generalizing cur with
  | zero => trivial
  | succ m ih =>
    intro _ hmax
    have hup := (h.up cur hcur).resolve_left fun heoc => by
      rw [heoc] at hmax
      exact absurd hmax (by decide)
    exact ⟨by omega, ih hup.2⟩

/-- **A write for which there is room** stays inside. -/
theorem Sequential.writeBounded (hp : Placed fs) (h : Sequential fs v k)
    (hfile : FileChain fs v inode cs) (hallow : WriteAllowed inode len ppos) (hk : k ≤ fs.clusters)
    (hroom : ¬ WritesInside fs inode ppos → k + clustersFor fs len ≤ fs.clusters) :
    WriteBounded fs v inode len ppos := by
  have hcs := hp.clusterSize_pos
  have hused : ∀ {pos c : ℕ}, 0 < inode.iSize → pos / fs.clusterSize < cs.length →
      SeekFinds storedWord fs v inode.iStart pos c → c < k := by
    intro pos c hsize hlt hseek
    have hget := ((hfile.seek_iff hp hsize hlt).mp hseek).1
    exact h.chain_lt hp (hfile.chain hsize) (List.mem_of_getElem? hget)
  constructor
  · intro hin c hseek
    obtain ⟨hsize, hlt⟩ := hfile.inside hp hallow hin
    have hc := hused hsize hlt hseek
    exact ⟨by omega, h.linksInside hc hk⟩
  · intro hin hsize c hseek
    obtain ⟨hindex, hlength⟩ := hfile.last_index hp hsize
    have hle := hallow.1
    rw [WritesInside] at hin
    rw [show ppos = inode.iSize by omega] at hseek
    exact h.takesInside hp (hused hsize (by omega) hseek) (hroom (by rwa [WritesInside]))
  · intro hin hsize c hc
    obtain rfl := h.next hc
    have hstep := clustersFor_step hcs hallow.2
    have hroom := hroom hin
    exact ⟨by omega, (h.acquired hc.1).takesInside hp (Nat.lt_succ_self c) (by omega)⟩

end Inside

/-! ### One call -/

/-- **A name that is not there** is reported as missing, if the walk over the directory is not refused. -/
theorem lookup_none {look : (blk pos : ℕ) → Page → ℕ} {sbi : SbInfo} {dir : Inode} {n : List UInt8}
    {v v' : Vol} {tr : List Request} {r : CreateReturn}
    (hfind : findName look sbi.fsInfo v dir.iStart (padName n) = none)
    (hwalk : walkRefused look sbi.fsInfo v sbi.fsInfo.clusters dir.iStart = false)
    (he : Exec (lookupWorld look) (sfatLookup sbi dir n) v tr r v') : r = .ok none := by
  have hspec : wp (lookupWorld look) (sfatLookup sbi dir n) (fun r _ => r = .ok none) v := by
    rw [sfatLookup, wp_bind, wp_sfatDentryLocate, scanName_chainSlots, hfind, hwalk]
    cases (chainSlots look sbi.fsInfo v dir.iStart).any Slot.isEnd with
    | true => exact (wp_done _ _ _).mpr rfl
    | false => exact (wp_done _ _ _).mpr rfl
  exact (wp_iff_exec _ _ _).mp hspec _ _ _ he

/-- A call that creates a file fails only if the name is there, as long as there are free words and the
last cluster of the volume is not the directory's. -/
theorem CreateDoes.served {fs : FsInfo} {used room last : ℕ} {old new : List (List UInt8 × List UInt8)}
    {n : List UInt8} {e : Errno} (hlast : last + 1 < fs.clusters) (hused : used < fatWords fs)
    (h : CreateDoes fs used room last old n (.error e) new) : e = .eexist := by
  cases h with
  | eexist _ => rfl
  | enoent _ _ _ hfull => omega
  | refused _ _ hend => omega
  | stuck _ _ hend => omega

section Calls

variable {S : ℕ} {L : FormatLayout} {v₀ : Vol} {P : Prop} {ub : UndefinedShift} {st st' : Mounted}
  {σ : Files} {c : VolumeCall} {r : CallResult}

/-- **If nothing was lost**, the words in use are as many as the files and the directory need. -/
theorem VolumeInv.sequential_demand (h : formatLayout 512 S = some L) (hpos : 1 ≤ L.clusters)
    (inv : VolumeInv L v₀ 0 P st) :
    Sequential st.sbi.fsInfo st.vol (demand st.sbi.fsInfo st.onVolume) := by
  obtain ⟨ds, slots, chains, hdisk, -, hacc, -⟩ := inv.held
  obtain ⟨m, hseq⟩ := inv.sequential
  have hused := hacc.used_eq (inv.placed h hpos) hdisk
  rw [hseq.usedWords_eq] at hused
  rwa [Mounted.onVolume, ← hused]

/-- **A call that there is room for** keeps the volume consistent. -/
theorem Fits.keeps (h : formatLayout 512 S = some L) (hpos : 1 ≤ L.clusters)
    (inv : VolumeInv L v₀ 0 P st) (hroom : demand st.sbi.fsInfo st.onVolume < st.sbi.fsInfo.clusters)
    (hfits : Fits st c) : CallKeeps st c := by
  have hp := inv.placed h hpos
  have hseq := inv.sequential_demand h hpos
  obtain ⟨ds, slots, chains, hdisk, hmem, -, -⟩ := inv.held
  cases c with
  | create n junk =>
    refine ⟨hfits.1, fun _ c hc => ?_⟩
    obtain rfl := hseq.next hc
    exact hroom
  | write n buf len ppos =>
    intro inode hfile hstarts
    obtain ⟨hown, hrest⟩ := hfits inode hfile
    obtain ⟨s, hs, hat, hstart, hsize, hchain⟩ := hdisk.owner hmem hfile hown
    refine ⟨hown, fun cs hfileChain => ?_⟩
    have hlisted : (n.take 11, entryContent st.sbi.fsInfo st.vol s.de) ∈ st.onVolume := by
      rw [Mounted.onVolume, hdisk.filled.files_eq, ← hat.1]
      exact List.mem_map_of_mem (f := Slot.file st.sbi.fsInfo st.vol) hs
    have hbytes : (entryContent st.sbi.fsInfo st.vol s.de).length = inode.iSize := by
      rw [entryContent, firstBytes_length, hsize]
    have hnodup : (st.onVolume.map Prod.fst).Nodup := by
      rw [Mounted.onVolume, hdisk.filled.files_names]
      exact hdisk.names
    obtain ⟨hle, hlen⟩ := hstarts.1
    obtain ⟨hal, h32, hdemand⟩ := hrest _ hlisted (hbytes ▸ hle) hlen
    rw [hal.demand_eq hp hnodup hlisted (hbytes ▸ hle) buf, hbytes] at hdemand
    rw [hbytes] at hal
    refine ⟨fun happ => ?_, fun _ _ => ⟨?_, fun hbig => absurd hbig (by omega)⟩, ?_⟩
    · rcases hal with ⟨hin, -⟩ | ⟨-, hdvd⟩
      · rw [insideFile_iff, WritesInside, and_blockSize hp.toWellFormed] at hin
        rcases hin with hin | hin
        · exact hin happ.whole_blocks
        · exact absurd happ.at_end (Nat.ne_of_lt hin)
      · exact happ.inside_cluster (Nat.mod_eq_zero_of_dvd hdvd)
    · rw [hsize]
      exact (hdisk.filled.fits hs).size
    · apply hseq.writeBounded hp hfileChain ⟨hle, hlen⟩ (Nat.le_of_lt hroom)
      intro hin
      rw [if_neg fun hinside => hin ((insideFile_iff _ _ _).mp hinside)] at hdemand
      exact Nat.le_of_lt hdemand
  | read n len ppos => exact hfits
  | lookup n => trivial
  | readdir fPos => trivial
  | drop n => trivial
  | remount options => trivial

/-- **A file is created**, or its name is there. -/
theorem VolumeInv.create_served (h : formatLayout 512 S = some L) (hpos : 1 ≤ L.clusters)
    (inv : VolumeInv L v₀ 0 P st) (hroom : demand st.sbi.fsInfo st.onVolume < st.sbi.fsInfo.clusters)
    {n : List UInt8} {junk : CreateJunk} {e : Errno} (hkeep : CallKeeps st (.create n junk))
    (hcall : Calls ub st (.create n junk) (.dentry (.error e)) st') : e = .eexist := by
  have hp := inv.placed h hpos
  have hseq := inv.sequential_demand h hpos
  have hwords := clusters_le_fatWords hp
  obtain ⟨ds, last, hchain, hlast, hdoes⟩ := inv.createDoes h hpos hkeep hcall
  rw [← inv.root.fsInfo] at hchain hdoes
  have hused := hseq.chain_lt hp hchain (List.mem_of_getLast? hlast)
  rw [hseq.usedWords_eq] at hdoes
  exact hdoes.served (by omega) (by omega)

/-- **A name that is not there** is reported as missing. -/
theorem VolumeInv.lookup_served (h : formatLayout 512 S = some L) (hpos : 1 ≤ L.clusters)
    (inv : VolumeInv L v₀ 0 P st) (hroom : demand st.sbi.fsInfo st.onVolume < st.sbi.fsInfo.clusters)
    (hσ : HoldsFiles st σ) {n : List UInt8} {r : CreateReturn} (hn : n.take 11 ∉ σ.keys)
    (hcall : Calls ub st (.lookup n) (.dentry r) st') : r = .ok none := by
  have hp := inv.placed h hpos
  have hseq := inv.sequential_demand h hpos
  have hpred := hp.clustersPred_eq hp.clusters_pos
  obtain ⟨ds, slots, chains, hdisk, -, -, -⟩ := inv.held
  have hchain := (dirChain_iff hp.toWellFormed).mp hdisk.filled.chain
  cases hcall with
  | lookup hnul he =>
    refine lookup_none ?_ ?_ he
    · cases hfind : findName storedWord st.sbi.fsInfo st.vol st.dir.iStart (padName n) with
      | none => rfl
      | some s =>
        obtain ⟨hs, hname⟩ := hdisk.filled.found_name hnul hfind
        rw [hσ.keys hdisk, ← hname] at hn
        exact absurd (List.mem_map_of_mem hs) hn
    · by_contra hrefused
      obtain ⟨c, hc, hcut⟩ := refused_mem_walk ((Bool.not_eq_false _).mp hrefused)
      rw [hdisk.filled.walk] at hc
      have hused := hseq.chain_lt hp hchain hc
      omega

/-- **A write** writes all bytes, or it is rejected. -/
theorem VolumeInv.write_served (h : formatLayout 512 S = some L) (hpos : 1 ≤ L.clusters)
    (inv : VolumeInv L v₀ 0 P st) (hroom : demand st.sbi.fsInfo st.onVolume < st.sbi.fsInfo.clusters)
    {n : List UInt8} {buf : ℕ → UInt8} {len ppos ppos' : ℕ} {r : Except Errno ℕ}
    (hfits : Fits st (.write n buf len ppos))
    (hcall : Calls ub st (.write n buf len ppos) (.wrote r ppos') st') :
    ∃ bytes, (n.take 11, bytes) ∈ st.onVolume ∧
      ((ppos ≤ bytes.length ∧ len ≠ 0 ∧ r = .ok len ∧
        demand st.sbi.fsInfo (FileStore.writeFiles st.onVolume (n.take 11) ppos (firstBytes len buf)) <
          st.sbi.fsInfo.clusters) ∨
      (bytes.length < ppos ∨ len = 0) ∧ r = .error .einval) := by
  have hp := inv.placed h hpos
  have hseq := inv.sequential_demand h hpos
  have hkeep := hfits.keeps h hpos inv hroom
  obtain ⟨inode, hfile⟩ : ∃ inode, st.files n = some inode := by
    cases hcall with
    | write hfile _ => exact ⟨_, hfile⟩
  obtain ⟨hown, hrest⟩ := hfits inode hfile
  obtain ⟨bytes, hlisted, hbytes, hreturns⟩ := inv.writeReturns h hpos hkeep hfile hown hcall
  obtain ⟨ds, slots, chains, hdisk, hmem, -, -⟩ := inv.held
  rw [← inv.root.fsInfo, ← inv.root.iStart] at hlisted
  rw [← inv.root.fsInfo, hseq.usedWords_eq] at hreturns
  have hnodup : (st.onVolume.map Prod.fst).Nodup := by
    rw [Mounted.onVolume, hdisk.filled.files_names]
    exact hdisk.names
  refine ⟨bytes, hlisted, ?_⟩
  cases hreturns with
  | rejected hout => exact .inr ⟨hout, rfl⟩
  | notFound hle hlen hin hend =>
    -- the first cluster is in use
    obtain ⟨s, -, -, -, -, hchain⟩ := hdisk.owner hmem hfile hown
    rw [hbytes] at hle hin
    have hsize := (hchain.inside hp ⟨hle, hlen⟩ ((insideFile_iff _ _ _).mp hin)).1
    have hused := hseq.chain_lt hp (hchain.chain hsize) (hchain.chain hsize).1.head_mem
    omega
  | wrote hle hlen hin =>
    obtain ⟨hal, -, hdemand⟩ := hrest bytes hlisted hle hlen
    have hneed := hal.demand_eq hp hnodup hlisted hle buf
    have hfull : len ≤ writeRoom st.sbi.fsInfo (demand st.sbi.fsInfo st.onVolume) bytes.length ppos := by
      apply hal.le_room hp
      intro hend
      rw [hend, if_neg Bool.false_ne_true] at hneed
      omega
    rw [Nat.min_eq_left hfull]
    exact .inl ⟨hle, hlen, rfl, hdemand⟩

/-- **One call** is served, loses nothing, and leaves room. -/
theorem Calls.served (h : formatLayout 512 S = some L) (hpos : 1 ≤ L.clusters)
    (inv : VolumeInv L v₀ 0 P st) (hroom : demand st.sbi.fsInfo st.onVolume < st.sbi.fsInfo.clusters)
    (hfat : fatWords st.sbi.fsInfo ≤ sfatEntryFree) (hfits : Fits st c) (hcall : Calls ub st c r st')
    (hσ : HoldsFiles st σ) :
    shortWrite (c, r) = 0 ∧ ∃ σ', ServeStep st.sbi.fsInfo.clusterSize σ c r σ' ∧ HoldsFiles st' σ' ∧
      demand st.sbi.fsInfo σ'.files < st.sbi.fsInfo.clusters := by
  have hkeep := hfits.keeps h hpos inv hroom
  have hfiles : st.onVolume = σ.files := hσ
  obtain ⟨σ', hstep, hσ'⟩ := (hcall.step h hpos inv hkeep).2 hfat σ hσ
  have hsame := hroom
  rw [hfiles] at hsame
  cases hstep with
  | created hn =>
    have hgrown := hfits.2
    rw [hfiles] at hgrown
    exact ⟨rfl, _, .created hn, hσ', hgrown hn⟩
  | refused he =>
    obtain rfl := inv.create_served h hpos hroom hkeep hcall
    exact ⟨rfl, σ, .taken (he.mp rfl), hσ', hsame⟩
  | stuck hn => cases inv.create_served h hpos hroom hkeep hcall
  | found hmem hsize => exact ⟨rfl, σ, .found hmem hsize, hσ', hsame⟩
  | missing hn _ =>
    obtain rfl := inv.lookup_served h hpos hroom hσ hn hcall
    exact ⟨rfl, σ, .missing hn, hσ', hsame⟩
  | listed hnames => exact ⟨rfl, σ, .listed hnames, hσ', hsame⟩
  | read hmem hout => exact ⟨rfl, σ, .read hmem hout, hσ', hsame⟩
  | @wrote n bytes buf len ppos cnt _ _ _ =>
    obtain ⟨bytes', hmem, ⟨hle, hlen, hr, hdemand⟩ | ⟨-, hr⟩⟩ := inv.write_served h hpos hroom hfits hcall
    · obtain rfl := Except.ok.inj hr
      rw [hfiles] at hmem hdemand
      exact ⟨show min 1 (cnt - cnt) = 0 by omega, _, .wrote hmem hle hlen, hσ', hdemand⟩
    · cases hr
  | notWritten =>
    obtain ⟨bytes', hmem, ⟨-, -, hr, -⟩ | ⟨hout, hr⟩⟩ := inv.write_served h hpos hroom hfits hcall
    · cases hr
    · obtain rfl := Except.error.inj hr
      rw [hfiles] at hmem
      exact ⟨rfl, σ, .rejected hmem hout, hσ', hsame⟩
  | dropped => exact ⟨rfl, σ, .dropped, hσ', hsame⟩
  | mounted => exact ⟨rfl, σ, .mounted, hσ', hsame⟩

end Calls

/-! ### Runs -/

section Runs

variable {S : ℕ} {L : FormatLayout} {v₀ : Vol} {ub : UndefinedShift} {options : MountOptions}
  {log : List (VolumeCall × CallResult)} {st : Mounted}

/-- **A run of calls that there is room for** keeps the volume consistent, loses nothing and is
served. -/
theorem VolumeRun.served (h : formatLayout 512 S = some L) (hpos : 2 ≤ L.clusters)
    (hfat : fatWords (formattedFsInfo L) ≤ sfatEntryFree)
    (hrun : VolumeRun ub options L v₀ Fits log st) :
    VolumeRun ub options L v₀ CallKeeps log st ∧ shortWrites log = 0 ∧
      ∃ σ, ServedRun (formattedFsInfo L).clusterSize log σ ∧ HoldsFiles st σ ∧
        demand (formattedFsInfo L) σ.files < (formattedFsInfo L).clusters := by
  have hone : 1 ≤ L.clusters := by omega
  induction hrun with
  | mounted he =>
    refine ⟨.mounted he, rfl, _, .empty, (VolumeInv.mounted h hone he).2, ?_⟩
    show (0 - 1) / _ + 1 + 0 < L.clusters
    rw [Nat.zero_sub, Nat.zero_div]
    exact hpos
  | @call log st st' c r _ hfits hcall ih =>
    obtain ⟨hrun, hshort, σ, hserved, hσ, hroom⟩ := ih
    have inv := hrun.inv h hone
    rw [hshort] at inv
    have hfs := inv.root.fsInfo
    rw [← hσ, ← hfs] at hroom
    rw [← hfs] at hfat
    obtain ⟨hlost, σ', hstep, hσ', hroom'⟩ := hcall.served h hone inv hroom hfat hfits hσ
    rw [hfs] at hstep hroom'
    refine ⟨hrun.call (hfits.keeps h hone inv hroom) hcall, ?_, σ', hserved.step hstep, hσ', hroom'⟩
    rw [shortWrites_concat, hshort, hlost]

/-- **As long as there is room, the volume is a store without limits**: a run of calls that there is room
for creates every file with a new name and writes every byte, and uses as many clusters as the files and
the directory need. -/
theorem fitting_runs_served (h : formatLayout 512 S = some L) (hpos : 2 ≤ L.clusters)
    (hfat : L.fatLengthSectors < 2 ^ 25) (hrun : VolumeRun ub options L v₀ Fits log st) :
    VolumeRun ub options L v₀ CallKeeps log st ∧
      ∃ σ, ServedRun 2048 log σ ∧ volumeFiles (formattedFsInfo L) st.vol 0 = σ.files ∧
        usedWords (formattedFsInfo L) st.vol = demand (formattedFsInfo L) σ.files := by
  obtain ⟨hkeeps, hshort, σ, hserved, hσ, -⟩ := hrun.served h hpos (formatted_fatWords hfat)
  have hone : 1 ≤ L.clusters := by omega
  have inv := hkeeps.inv h hone
  rw [hshort] at inv
  have hused := (inv.sequential_demand h hone).usedWords_eq
  rw [show st.onVolume = σ.files from hσ, inv.root.fsInfo] at hused
  rw [HoldsFiles, inv.root.fsInfo, inv.root.iStart] at hσ
  exact ⟨hkeeps, σ, hserved, hσ, hused⟩

theorem mounted31_fits : Fits mounted31 (.create [97] ⟨0, 0⟩) := by
  refine ⟨mounted31_keeps.1, fun _ => ?_⟩
  have hnone : mounted31.onVolume = [] := by decide +kernel
  rw [hnone]
  decide

theorem created31_fits : Fits created31 (.write [97] (fun _ => 7) 1 0) := by
  intro inode hinode
  obtain rfl : firstFile31 = inode := Option.some.inj (created31_file.symm.trans hinode)
  refine ⟨by decide +kernel, fun bytes hmem _ _ => ?_⟩
  have hone : created31.onVolume = [([97], [])] := by decide +kernel
  rw [hone] at hmem ⊢
  obtain rfl : bytes = [] := (Prod.mk.inj (List.mem_singleton.mp hmem)).2
  exact ⟨.inr ⟨rfl, Nat.dvd_zero _⟩, by decide, by decide⟩

theorem fitting_runs_served_oneByte : ∃ st,
    VolumeRun zeroShift sbi31.options layout31 (fun _ => 0) CallKeeps
      (writeLog ++ [(.read [97] 10 0, .data [7] 1)]) st ∧
    ∃ σ, ServedRun 2048 (writeLog ++ [(.read [97] 10 0, .data [7] 1)]) σ ∧
      volumeFiles (formattedFsInfo layout31) st.vol 0 = σ.files ∧
      usedWords (formattedFsInfo layout31) st.vol = demand (formattedFsInfo layout31) σ.files :=
  ⟨read31, fitting_runs_served (show formatLayout 512 31 = some layout31 by decide) (by decide)
    (by decide) (((mounted31_run.call mounted31_fits created31_call).call created31_fits
      written31_call).call written31_keeps read31_call)⟩

end Runs

end SimpleFat
