import SimpleFat.Remount
import SimpleFat.VolumeRuns

/-!
# Listings after a run

While a volume stays mounted, the directory in memory has the size of its chain, so that a listing from
the start gets to all of its slots.  It returns an error only where the accessor refuses a cluster: the
last one of the data area, if the listing has to look behind it.

* `DirChain.walk_rounds` — a walk of any number of rounds over the whole chain;
* `FilledDir.lists_iff` — when a listing emits the names;
* `listing_complete_iff` — the result, for runs.
-/

namespace SimpleFat

open SimpleFat.Lib

variable {look : (blk pos : ℕ) → Page → ℕ} {fs : FsInfo} {v : Vol} {start : ℕ} {ds : List ℕ}
  {slots : List Slot}

/-! ### The walk -/

/-- **A walk that is long enough** is the whole chain, if one is, and it ends without an error exactly if
the accessor takes the last cluster. -/
theorem DirChain.walk_rounds (hwf : WellFormed fs) (h : DirChain look fs v start ds) {m n : ℕ}
    (hm : walkClusters look fs v m start = ds) (hn : ds.length ≤ n) :
    walkClusters look fs v n start = ds ∧
      (walkEnded look fs v n start = true ↔ ds.getLast h.path.ne_nil + 1 < fs.clusters) := by
  obtain ⟨hp, hbelow⟩ := h
  have hmax := hwf.clusters_lt
  rw [sfatEntryMax] at hmax
  have hpred : ∀ c < fs.clusters, (fs.clustersPred ≤ c ↔ ¬ c + 1 < fs.clusters) := by
    intro c hc
    rw [hwf.clustersPred_eq (by omega)]
    omega
  induction hp generalizing m n with
  | @stop c hD =>
    obtain ⟨n, rfl⟩ : ∃ k, n = k + 1 := ⟨n - 1, by simp at hn; omega⟩
    have hend : fs.clusters < nextWord look fs v c := by
      have hword : nextWord look fs v c = sfatEntryEoc := hD
      rw [hword, sfatEntryEoc]
      omega
    have hc := hpred c (hbelow c (by simp))
    rw [walkClusters_succ, walkEnded, List.getLast_singleton]
    by_cases hrefused : fs.clustersPred ≤ c
    · rw [if_pos hrefused, if_pos hrefused]
      exact ⟨rfl, iff_of_false (by simp) (hc.mp hrefused)⟩
    · rw [if_neg hrefused, if_neg hrefused, if_pos hend, if_pos hend]
      exact ⟨rfl, iff_of_true rfl (by omega)⟩
  | @next c d cs hnot hs hp ih =>
    obtain ⟨n, rfl⟩ : ∃ k, n = k + 1 := ⟨n - 1, by simp at hn; omega⟩
    obtain rfl := Option.some.inj hs
    have hne : cs ≠ [] := hp.ne_nil
    have hd : nextWord look fs v c < fs.clusters := hbelow _ (List.mem_cons_of_mem _ hp.head_mem)
    have hnext : ¬ fs.clusters < nextWord look fs v c := by omega
    -- the walk that there is has taken this cluster
    obtain ⟨m, rfl⟩ : ∃ k, m = k + 1 := by
      cases m with
      | zero => cases hm
      | succ k => exact ⟨k, rfl⟩
    rw [walkClusters_succ, List.cons.injEq] at hm
    have hrest := hm.2
    have hacc : ¬ fs.clustersPred ≤ c := by
      intro hrefused
      rw [if_pos hrefused] at hrest
      exact hne hrest.symm
    rw [if_neg hacc, if_neg hnext] at hrest
    obtain ⟨hw, he⟩ := ih hrest (n := n) (by simpa using hn)
      (fun e he => hbelow e (List.mem_cons_of_mem _ he))
    rw [walkClusters_succ, walkEnded, if_neg hacc, if_neg hacc, if_neg hnext, if_neg hnext, hw,
      List.getLast_cons hne]
    exact ⟨rfl, he⟩

/-! ### The listing -/

/-- A walk without a terminator that does not end returns an error. -/
theorem WalkOutcome.not_ended {st : ReaddirState}
    (h : WalkOutcome (fun _ => False) slots false ⟨0, 0, []⟩ st)
    (hnone : slots.any Slot.isEnd = false) : st.error ≠ 0 := by
  cases h with
  | stopped hstop =>
    cases hstop with
    | atEnd hsplit hpass hend hst =>
      rw [hsplit, List.any_append, List.any_cons, hend] at hnone
      simp at hnone
    | refused _ _ _ _ _ href _ _ _ => exact href.elim
  | passed hended _ => cases hended
  | exhausted _ _ heinval =>
    rw [heinval]
    decide

/-- A chain has room for an entry. -/
theorem DirChain.holds_slot (hp : Placed fs) (h : DirChain look fs v start ds) :
    32 ≤ ds.length * fs.clusterSize ∧ fs.clusterSize ≤ ds.length * fs.clusterSize := by
  have hone := Nat.le_mul_of_pos_left fs.clusterSize (List.length_pos_of_ne_nil h.path.ne_nil)
  have hblk := Nat.le_mul_of_pos_left fs.blockSize hp.blkPerClus_pos
  obtain ⟨d, hd16, -, hbs⟩ := hp.blockSize_slots
  rw [← hp.clusterSize_blocks] at hblk
  exact ⟨by omega, hone⟩

/-- What a listing of the whole chain meets. -/
theorem FilledDir.readdir_walk (hp : Placed fs) (h : FilledDir fs v start ds slots)
    (hlt : ds.length * fs.clusterSize + fs.clusterSize ≤ sizeT) (hstart : ¬ fs.clustersPred ≤ start) :
    wp (lookupWorld storedWord) (sfatReaddir fs start (ds.length * fs.clusterSize) 0)
      (fun st v' => v' = v ∧ AllNamed (dirSlots fs v ds) st ∧ ∃ ended,
        (ended = true ↔ ds.getLast h.chain.path.ne_nil + 1 < fs.clusters) ∧
        WalkOutcome (fun _ => False) (dirSlots fs v ds) ended ⟨0, 0, []⟩ st) v := by
  have hcs := hp.clusterSize_pos
  obtain ⟨h32, hone⟩ := h.chain.holds_slot hp
  have hrounds : (ds.length * fs.clusterSize + fs.clusterSize - 1) / fs.clusterSize = ds.length := by
    apply Nat.div_eq_of_lt_le
    · omega
    · rw [Nat.add_mul, Nat.one_mul]
      omega
  have hcls : linked (nextCls storedWord fs v) (0 / fs.clusterSize) start = some start := by
    rw [Nat.zero_div]
    rfl
  have hspec : wp (lookupWorld storedWord) _ _ v := sfatReaddir_spec hp.toWellFormed
    h32 hlt (Nat.lt_of_lt_of_le hcs hone) (Nat.zero_mod 32) hstart hcls
  obtain ⟨hwalk, hended⟩ := h.chain.walk_rounds hp.toWellFormed h.walk (Nat.le_refl ds.length)
  rw [hrounds, hwalk, Nat.zero_mod, Nat.zero_div, List.drop_zero] at hspec
  have hnamed : wp (lookupWorld storedWord) (sfatReaddir fs start (ds.length * fs.clusterSize) 0)
      (fun st _ => AllNamed (dirSlots fs v ds) st) v := by
    rw [← h.seen]
    exact wp_mono (sfatReaddir_named hp.toWellFormed start _ 0) fun _ _ h => h.2
  refine wp_mono (wp_and hspec hnamed) fun st v' hst => ?_
  obtain ⟨⟨hv, hout⟩, hall⟩ := hst
  exact ⟨hv, hall, _, hended, hout⟩

/-- **When a listing emits the names**: the accessor takes the first cluster, and the last one, too, if
all slots are in use. -/
theorem FilledDir.lists_iff (hp : Placed fs) (h : FilledDir fs v start ds slots)
    (hlt : ds.length * fs.clusterSize + fs.clusterSize ≤ sizeT) :
    ListsNames fs v start (ds.length * fs.clusterSize) (slotNames slots) ↔
      start + 1 < fs.clusters ∧ (slots.length = (dirSlots fs v ds).length →
        ds.getLast h.chain.path.ne_nil + 1 < fs.clusters) := by
  have hstartlt : start < fs.clusters := h.chain.below _ h.chain.path.head_mem
  have hpred : fs.clustersPred ≤ start ↔ ¬ start + 1 < fs.clusters := by
    rw [hp.clustersPred_eq hp.clusters_pos]
    omega
  obtain ⟨post, hsplit, hhead⟩ := h.split
  have hnoEnd : slots.any Slot.isEnd = false := noEnd_used h.used
  by_cases hstart : fs.clustersPred ≤ start
  · -- the seek refuses the directory
    refine iff_of_false (fun hlists => ?_) fun hacc => hpred.mp hstart hacc.1
    have h32 := (h.chain.holds_slot hp).1
    obtain ⟨st, w, hst, hne⟩ :=
      wp_lookups_nonempty (wp_and hlists (sfatReaddir_refused hp.toWellFormed h32 hstart))
    exact hne hst.1
  · have hwalk := h.readdir_walk hp hlt hstart
    rw [and_iff_right (show start + 1 < fs.clusters by omega)]
    constructor
    · intro hlists hfull
      have hnil : post = [] := by
        rw [hsplit, List.length_append] at hfull
        exact List.eq_nil_of_length_eq_zero (by omega)
      obtain ⟨st, w, hst, -, -, ended, hended, hout⟩ := wp_lookups_nonempty (wp_and hlists hwalk)
      rw [hsplit, hnil, List.append_nil] at hout
      cases ended with
      | true => exact hended.mp rfl
      | false => exact absurd hst.1 (hout.not_ended hnoEnd)
    · intro hlast
      refine wp_mono hwalk fun st w hst => ?_
      obtain ⟨-, hall, ended, hended, hout⟩ := hst
      rw [hsplit] at hout hall
      have hbefore : beforeEnd (slots ++ post) = slots ∧
          ((slots ++ post).any Slot.isEnd = true ∨ ended = true) := by
        cases post with
        | nil =>
          rw [List.append_nil, beforeEnd_of_noEnd hnoEnd]
          exact ⟨rfl, .inr (hended.mpr (hlast (by rw [hsplit, List.append_nil])))⟩
        | cons t rest =>
          have hend := isEnd_of_attr (hhead t rest rfl)
          refine ⟨beforeEnd_split hnoEnd hend, .inl ?_⟩
          rw [List.any_append, List.any_cons, hend]
          simp
      obtain ⟨herr, hemits⟩ := hout.emits hbefore.2
      rw [hbefore.1] at hemits
      refine ⟨herr, hemits.emittedNames (k := 0) rfl (fun t ht => (h.used t ht).2) ?_ hall⟩
      intro i s hs
      rw [Nat.zero_add, List.getElem?_append_left (List.getElem?_eq_some_iff.mp hs).1, hs]

/-! ### The result -/

section Runs

variable {S : ℕ} {L : FormatLayout} {v₀ : Vol} {ub : UndefinedShift} {options : MountOptions}
  {log : List (VolumeCall × CallResult)} {st : Mounted}

/-- **A listing after a run emits the names of all files**, in directory order, and returns 0, exactly if
the volume has a second cluster and, where the files fill the directory, its last cluster is not the last
one of the volume. -/
theorem listing_complete_iff (h : formatLayout 512 S = some L) (hpos : 1 ≤ L.clusters)
    (hrun : VolumeRun ub options L v₀ CallKeeps log st) (hsame : SameMount log) :
    ∃ ds last, FatChain (formattedFsInfo L) st.vol 0 ds ∧ ds.getLast? = some last ∧
      (ListsNames st.sbi.fsInfo st.vol st.dir.iStart st.dir.iSize
          ((volumeFiles (formattedFsInfo L) st.vol 0).map Prod.fst) ↔
        2 ≤ L.clusters ∧ ((volumeFiles (formattedFsInfo L) st.vol 0).length = ds.length * 64 →
          last + 1 < L.clusters)) := by
  have inv := hrun.inv h hpos
  have hp := inv.placed h hpos
  obtain ⟨ds, slots, chains, hdisk, -, -, hsize⟩ := inv.held
  have hfilled := hdisk.filled
  have hsize := hsize hsame
  rw [inv.root.fsInfo, inv.root.iStart] at hfilled
  rw [inv.root.fsInfo] at hp hsize
  have hlt : ds.length * (formattedFsInfo L).clusterSize + (formattedFsInfo L).clusterSize ≤ sizeT := by
    have hlen := hfilled.chain.length_le
    have hclusters := hp.clusters_lt
    rw [sfatEntryMax] at hclusters
    rw [show (formattedFsInfo L).clusterSize = 2048 from rfl, sizeT]
    omega
  have hiff := hfilled.lists_iff hp hlt
  rw [dirSlots_length, show (formattedFsInfo L).blkPerClus * (formattedFsInfo L).direntPerBlk = 64 from
    rfl] at hiff
  refine ⟨ds, ds.getLast hfilled.chain.path.ne_nil, (dirChain_iff hp.toWellFormed).mp hfilled.chain,
    List.getLast?_eq_getLast_of_ne_nil _, ?_⟩
  rw [inv.root.fsInfo, inv.root.iStart, hsize, hfilled.files_names, hfilled.files_eq, List.length_map]
  exact hiff

theorem listing_complete_iff_oneByte : ∃ st ds last,
    VolumeRun zeroShift sbi31.options layout31 (fun _ => 0) CallKeeps
      (writeLog ++ [(.read [97] 10 0, .data [7] 1)]) st ∧
    FatChain (formattedFsInfo layout31) st.vol 0 ds ∧ ds.getLast? = some last ∧
      (ListsNames st.sbi.fsInfo st.vol st.dir.iStart st.dir.iSize
          ((volumeFiles (formattedFsInfo layout31) st.vol 0).map Prod.fst) ↔
        2 ≤ layout31.clusters ∧
          ((volumeFiles (formattedFsInfo layout31) st.vol 0).length = ds.length * 64 →
            last + 1 < layout31.clusters)) := by
  obtain ⟨st, hrun⟩ := oneByte_run
  have hsame : SameMount (writeLog ++ [(.read [97] 10 0, .data [7] 1)]) := by
    simp [SameMount, writeLog, VolumeCall.SameMount]
  obtain ⟨ds, last, h⟩ := listing_complete_iff
    (show formatLayout 512 31 = some layout31 by decide) (by decide) hrun hsame
  exact ⟨st, ds, last, hrun, h⟩

end Runs

end SimpleFat
