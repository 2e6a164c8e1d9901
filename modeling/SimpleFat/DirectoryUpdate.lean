import SimpleFat.Enumeration
import SimpleFat.FileChain

/-!
# A directory before and after a write

The slots of a directory are the entries at a list of addresses, so after a write they are the same
slots read again.  Slots at different places do not overlap, and a walk does not change as long as
the words of the FAT do not.

* `dirSlots_reread` — the slots after a write are the slots before it, read again;
* `slot_apart` — different slots are 32 bytes apart;
* `dirSlots_split` — what comes before and behind a slot;
* `DirChain.walk_congr` — the walk of the scanners depends on the words of the chain only.
-/

namespace SimpleFat

open SimpleFat.Lib

variable {fs : FsInfo} {v v' : Vol} {cs : List ℕ}

/-! ### Slots read again -/

/-- The slot at the same place of another volume. -/
def Slot.reread (fs : FsInfo) (v : Vol) (s : Slot) : Slot := { s with de := direntAt v (s.addr fs) }

@[simp] theorem Slot.reread_addr (s : Slot) : (s.reread fs v).addr fs = s.addr fs := rfl

@[simp] theorem Slot.reread_de (s : Slot) : (s.reread fs v).de = direntAt v (s.addr fs) := rfl

/-- A slot whose entry did not change. -/
theorem Slot.reread_eq {s : Slot} (h : direntAt v (s.addr fs) = s.de) : s.reread fs v = s := by
  rw [Slot.reread, h]

theorem pageSlots_reread (cls blk n k : ℕ) :
    pageSlots cls blk (blockAt v' fs.blockSize (clsToBlk fs cls + blk)) n k =
      (pageSlots cls blk (blockAt v fs.blockSize (clsToBlk fs cls + blk)) n k).map
        (Slot.reread fs v') := by
  rw [pageSlots, pageSlots, List.map_map]
  apply List.map_congr_left
  intro i _
  show (⟨cls, blk, i, _⟩ : Slot) = ⟨cls, blk, i, direntAt v' (slotAddr fs cls blk i)⟩
  rw [direntAt_blockAt, slotAddr]

theorem blockSlots_reread (cls n blk : ℕ) :
    blockSlots fs v' cls n blk = (blockSlots fs v cls n blk).map (Slot.reread fs v') := by
  induction n generalizing blk with
  | zero => rfl
  | succ n ih =>
    rw [blockSlots_succ, blockSlots_succ, List.map_append, ← ih,
      pageSlots_reread (v := v) cls blk fs.direntPerBlk 0]

/-- **The slots of a directory after a write are those before it, read again.** -/
theorem dirSlots_reread (v v' : Vol) (cs : List ℕ) :
    dirSlots fs v' cs = (dirSlots fs v cs).map (Slot.reread fs v') := by
  induction cs with
  | nil => rfl
  | cons c cs ih =>
    rw [dirSlots_cons, dirSlots_cons, List.map_append, ← ih, clusterSlots, clusterSlots,
      ← blockSlots_reread]

/-- A slot of a directory, read again, is itself. -/
theorem reread_self {s : Slot} (hs : s ∈ dirSlots fs v cs) : s.reread fs v = s :=
  Slot.reread_eq (slot_de (mem_dirSlots.mp hs).2).symm

/-- A part of a directory that did not change. -/
theorem map_reread_eq {slots : List Slot} (h : ∀ s ∈ slots, direntAt v' (s.addr fs) = s.de) :
    slots.map (Slot.reread fs v') = slots := by
  have hid : slots.map (Slot.reread fs v') = slots.map id :=
    List.map_congr_left fun s hs => Slot.reread_eq (h s hs)
  rw [hid, List.map_id]

/-! ### Slots at different places -/

/-- Two numbers with the same quotient and remainder. -/
theorem mul_add_inj {d a b i j : ℕ} (hi : i < d) (hj : j < d) (h : a * d + i = b * d + j) :
    a = b ∧ i = j := by
  have hdiv : ∀ q r, r < d → (q * d + r) / d = q := fun q r hr => by
    rw [Nat.mul_comm, Nat.mul_add_div (Nat.zero_lt_of_lt hr), Nat.div_eq_of_lt hr, Nat.add_zero]
  have hq : a = b := by rw [← hdiv a i hi, h, hdiv b j hj]
  subst hq
  exact ⟨rfl, by omega⟩

/-- A slot address is 32 times the number of the slot in the volume. -/
theorem Slot.addr_eq (hp : Placed fs) {s : Slot} (hcls : s.cls < 2 ^ 32) :
    s.addr fs = 32 * ((fs.dataStartBlk + s.cls * fs.blkPerClus + s.blk) * fs.direntPerBlk + s.idx) := by
  obtain ⟨d, -, hd, hbs⟩ := hp.blockSize_slots
  rw [Slot.addr, slotAddr, hp.clsToBlk_eq hcls, hd, hbs]
  ring

structure SlotPlaced (fs : FsInfo) (s : Slot) : Prop where
  cls_lt : s.cls < 2 ^ 32
  blk_lt : s.blk < fs.blkPerClus
  idx_lt : s.idx < fs.direntPerBlk

theorem placed_of_mem {s : Slot} (hlt : ∀ c ∈ cs, c < 2 ^ 32) (hs : s ∈ dirSlots fs v cs) :
    SlotPlaced fs s := by
  obtain ⟨hcls, hmem⟩ := mem_dirSlots.mp hs
  obtain ⟨-, hblk, hidx, -⟩ := mem_clusterSlots.mp hmem
  exact ⟨hlt _ hcls, hblk, hidx⟩

/-- Slots with one address are at one place. -/
theorem place_of_addr (hp : Placed fs) {s t : Slot} (hs : SlotPlaced fs s) (ht : SlotPlaced fs t)
    (h : s.addr fs = t.addr fs) : s.cls = t.cls ∧ s.blk = t.blk ∧ s.idx = t.idx := by
  rw [Slot.addr_eq hp hs.cls_lt, Slot.addr_eq hp ht.cls_lt] at h
  obtain ⟨hblk, hidx⟩ := mul_add_inj hs.idx_lt ht.idx_lt (Nat.eq_of_mul_eq_mul_left (by decide) h)
  rw [Nat.add_assoc, Nat.add_assoc] at hblk
  obtain ⟨hcls, hblk⟩ := mul_add_inj hs.blk_lt ht.blk_lt (Nat.add_left_cancel hblk)
  exact ⟨hcls, hblk, hidx⟩

/-- **Slots at different places are 32 bytes apart.** -/
theorem slot_apart (hp : Placed fs) {s t : Slot} (hs : SlotPlaced fs s) (ht : SlotPlaced fs t)
    (h : ¬ (s.cls = t.cls ∧ s.blk = t.blk ∧ s.idx = t.idx)) :
    s.addr fs + 32 ≤ t.addr fs ∨ t.addr fs + 32 ≤ s.addr fs := by
  have hne : s.addr fs ≠ t.addr fs := fun heq => h (place_of_addr hp hs ht heq)
  rw [Slot.addr_eq hp hs.cls_lt, Slot.addr_eq hp ht.cls_lt] at hne ⊢
  omega

/-! ### The slot at an index -/

section Index

variable {s : Slot}

theorem pageSlots_getElem? {cls blk n k i : ℕ} {data : Page}
    (h : (pageSlots cls blk data n k)[i]? = some s) :
    s = ⟨cls, blk, k + i, direntAt data (32 * (k + i))⟩ := by
  rw [pageSlots, List.getElem?_map, Option.map_eq_some_iff] at h
  obtain ⟨j, hj, rfl⟩ := h
  rw [List.getElem?_eq_some_iff] at hj
  obtain ⟨hlt, hj⟩ := hj
  rw [List.getElem_range'_1] at hj
  rw [hj]

theorem blockSlots_getElem? {cls n blk b i : ℕ} (hi : i < fs.direntPerBlk)
    (h : (blockSlots fs v cls n blk)[b * fs.direntPerBlk + i]? = some s) :
    s = ⟨cls, blk + b, i, direntAt v (slotAddr fs cls (blk + b) i)⟩ := by
  induction n generalizing blk b with
  | zero => cases h
  | succ n ih =>
    rw [blockSlots_succ] at h
    cases b with
    | zero =>
      rw [Nat.zero_mul, Nat.zero_add, List.getElem?_append_left (by rw [pageSlots_length]; exact hi)] at h
      rw [pageSlots_getElem? h, direntAt_blockAt, Nat.zero_add, Nat.add_zero, slotAddr]
    | succ b =>
      have hidx : (b + 1) * fs.direntPerBlk + i = fs.direntPerBlk + (b * fs.direntPerBlk + i) := by
        ring
      rw [hidx, List.getElem?_append_right (by rw [pageSlots_length]; omega), pageSlots_length,
        Nat.add_sub_cancel_left] at h
      rw [ih h, Nat.add_assoc, Nat.add_comm 1]

/-- **The slot at an index** of a directory. -/
theorem dirSlots_getElem? {cs : List ℕ} {j b i : ℕ} (hb : b < fs.blkPerClus)
    (hi : i < fs.direntPerBlk)
    (h : (dirSlots fs v cs)[(j * fs.blkPerClus + b) * fs.direntPerBlk + i]? = some s) :
    ∃ c, cs[j]? = some c ∧ s = ⟨c, b, i, direntAt v (slotAddr fs c b i)⟩ := by
  have hin : b * fs.direntPerBlk + i < fs.blkPerClus * fs.direntPerBlk := by
    have hmul := Nat.mul_le_mul_right fs.direntPerBlk (show b + 1 ≤ fs.blkPerClus from hb)
    rw [Nat.add_mul, Nat.one_mul] at hmul
    omega
  induction cs generalizing j with
  | nil => cases h
  | cons c cs ih =>
    rw [dirSlots_cons] at h
    cases j with
    | zero =>
      rw [Nat.zero_mul, Nat.zero_add,
        List.getElem?_append_left (by rw [clusterSlots_length]; exact hin), clusterSlots] at h
      have hs := blockSlots_getElem? hi h
      rw [Nat.zero_add] at hs
      exact ⟨c, rfl, hs⟩
    | succ j =>
      have hidx : ((j + 1) * fs.blkPerClus + b) * fs.direntPerBlk + i =
          fs.blkPerClus * fs.direntPerBlk +
            ((j * fs.blkPerClus + b) * fs.direntPerBlk + i) := by
        ring
      rw [hidx, List.getElem?_append_right (by rw [clusterSlots_length]; omega), clusterSlots_length,
        Nat.add_sub_cancel_left] at h
      exact ih h

/-- A slot that comes after some others comes before the next one of its block. -/
theorem next_not_before {ks : List ℕ} {pre post : List Slot} {t : Slot}
    (hsplit : dirSlots fs v ks = pre ++ s :: post) (hs : s ∉ pre) (ht : t ∈ pre) :
    ¬ (t.cls = s.cls ∧ t.blk = s.blk ∧ t.idx = s.idx + 1) := by
  rintro ⟨hcls, hblk, hidx⟩
  have hmem : ∀ u ∈ pre ++ s :: post, u ∈ dirSlots fs v ks := fun u hu => hsplit ▸ hu
  have htin := (mem_clusterSlots.mp (mem_dirSlots.mp (hmem t (by simp [ht]))).2)
  obtain ⟨m, hm, hget⟩ := List.getElem_of_mem ht
  have hpos : 0 < fs.direntPerBlk := Nat.zero_lt_of_lt htin.2.2.1
  have hposb : 0 < fs.blkPerClus := Nat.zero_lt_of_lt htin.2.1
  have hget? : ∀ i, i < pre.length → (dirSlots fs v ks)[i]? = pre[i]? := fun i hi => by
    rw [hsplit, List.getElem?_append_left hi]
  -- the number of the slot in its block, of the block in its cluster, and of the cluster
  have hdivm := Nat.div_add_mod m fs.direntPerBlk
  have hdivq := Nat.div_add_mod (m / fs.direntPerBlk) fs.blkPerClus
  have hi := Nat.mod_lt m hpos
  have hb := Nat.mod_lt (m / fs.direntPerBlk) hposb
  generalize m % fs.direntPerBlk = i at *
  generalize m / fs.direntPerBlk % fs.blkPerClus = b at *
  generalize m / fs.direntPerBlk / fs.blkPerClus = j at *
  rw [← hdivq, Nat.mul_comm, Nat.mul_comm fs.blkPerClus] at hdivm
  have htm : (dirSlots fs v ks)[(j * fs.blkPerClus + b) * fs.direntPerBlk + i]? = some t := by
    rw [hdivm, hget? m hm, List.getElem?_eq_getElem hm, hget]
  obtain ⟨c, hc, rfl⟩ := dirSlots_getElem? hb hi htm
  have hi1 : i = s.idx + 1 := hidx
  -- the slot before it in the list is the given one
  obtain ⟨u, hu⟩ : ∃ u, pre[m - 1]? = some u := ⟨_, List.getElem?_eq_getElem (by omega)⟩
  have hum : (dirSlots fs v ks)[(j * fs.blkPerClus + b) * fs.direntPerBlk + (i - 1)]? = some u := by
    rw [← hu, ← hget? (m - 1) (by omega)]
    congr 1
    omega
  obtain ⟨c', hc', rfl⟩ := dirSlots_getElem? hb (by omega) hum
  obtain rfl : c = c' := Option.some.inj (hc.symm.trans hc')
  have hsde := slot_de (mem_dirSlots.mp (hmem s (by simp))).2
  refine hs ?_
  obtain ⟨scls, sblk, sidx, sde⟩ := s
  obtain rfl : c = scls := hcls
  obtain rfl : b = sblk := hblk
  obtain rfl : i - 1 = sidx := by
    have : i = sidx + 1 := hidx
    omega
  rw [show sde = _ from hsde]
  exact List.mem_of_getElem? hu

end Index


/-! ### Before and behind a slot -/

theorem pageSlots_append (cls blk : ℕ) (data : Page) (m n k : ℕ) :
    pageSlots cls blk data (m + n) k =
      pageSlots cls blk data m k ++ pageSlots cls blk data n (k + m) := by
  rw [pageSlots, pageSlots, pageSlots, ← List.map_append, List.range'_append_1]

theorem blockSlots_append (cls m n blk : ℕ) :
    blockSlots fs v cls (m + n) blk =
      blockSlots fs v cls m blk ++ blockSlots fs v cls n (blk + m) := by
  rw [blockSlots, blockSlots, blockSlots, ← List.flatMap_append, List.range'_append_1]

theorem dirSlots_nodup (h : cs.Nodup) : (dirSlots fs v cs).Nodup := by
  have hpage : ∀ c b data, (pageSlots c b data fs.direntPerBlk 0).Nodup := by
    intro c b data
    refine List.Nodup.map (fun i j hij => ?_) (List.nodup_range' ..)
    exact congrArg Slot.idx hij
  have hcluster : ∀ c, (clusterSlots fs v c).Nodup := by
    intro c
    refine List.nodup_flatMap.mpr ⟨fun b _ => hpage c b _, ?_⟩
    refine (List.nodup_range' (s := 0) (n := fs.blkPerClus)).imp fun {a b} hab s hsa hsb => hab ?_
    rw [← (mem_pageSlots.mp hsa).2.1, ← (mem_pageSlots.mp hsb).2.1]
  refine List.nodup_flatMap.mpr ⟨fun c _ => hcluster c, h.imp fun {c d} hcd s hsc hsd => hcd ?_⟩
  rw [← (mem_clusterSlots.mp hsc).1, ← (mem_clusterSlots.mp hsd).1]

/-- A list without repetition is split at one of its elements in one way. -/
theorem split_unique {α : Type*} {x : α} {as bs as' bs' : List α} (hnodup : (as ++ x :: bs).Nodup)
    (h : as ++ x :: bs = as' ++ x :: bs') : as = as' ∧ bs = bs' := by
  induction as generalizing as' with
  | nil =>
    cases as' with
    | nil => exact ⟨rfl, (List.cons.inj h).2⟩
    | cons y as' =>
      obtain ⟨rfl, htail⟩ := List.cons.inj h
      exact absurd (htail ▸ List.mem_append_right as' List.mem_cons_self)
        (List.nodup_cons.mp hnodup).1
  | cons y as ih =>
    cases as' with
    | nil =>
      obtain ⟨rfl, htail⟩ := List.cons.inj h
      exact absurd (List.mem_append_right as List.mem_cons_self) (List.nodup_cons.mp hnodup).1
    | cons z as' =>
      obtain ⟨rfl, htail⟩ := List.cons.inj h
      obtain ⟨rfl, rfl⟩ := ih (List.nodup_cons.mp hnodup).2 htail
      exact ⟨rfl, rfl⟩

/-- The slots behind a slot: the rest of its block, the rest of its cluster, the clusters behind. -/
def slotsBehind (fs : FsInfo) (v : Vol) (s : Slot) (cs : List ℕ) : List Slot :=
  pageSlots s.cls s.blk (blockAt v fs.blockSize (clsToBlk fs s.cls + s.blk))
      (fs.direntPerBlk - (s.idx + 1)) (s.idx + 1) ++
    (blockSlots fs v s.cls (fs.blkPerClus - (s.blk + 1)) (s.blk + 1) ++ dirSlots fs v cs)

/-- **What lies behind a slot of a directory.** -/
theorem dirSlots_split (hnodup : cs.Nodup) {s : Slot} {pre post : List Slot}
    (h : dirSlots fs v cs = pre ++ s :: post) :
    ∃ as bs, cs = as ++ s.cls :: bs ∧ post = slotsBehind fs v s bs := by
  have hs : s ∈ dirSlots fs v cs := h ▸ List.mem_append_right pre List.mem_cons_self
  obtain ⟨hcls, hmem⟩ := mem_dirSlots.mp hs
  obtain ⟨-, hblk, hidx, hde⟩ := mem_clusterSlots.mp hmem
  obtain ⟨as, bs, rfl⟩ := List.append_of_mem hcls
  have hD : fs.direntPerBlk = s.idx + (1 + (fs.direntPerBlk - (s.idx + 1))) := by omega
  have hB : fs.blkPerClus = s.blk + (1 + (fs.blkPerClus - (s.blk + 1))) := by omega
  have hpage : pageSlots s.cls s.blk (blockAt v fs.blockSize (clsToBlk fs s.cls + s.blk))
      fs.direntPerBlk 0 =
      pageSlots s.cls s.blk (blockAt v fs.blockSize (clsToBlk fs s.cls + s.blk)) s.idx 0 ++
        s :: pageSlots s.cls s.blk (blockAt v fs.blockSize (clsToBlk fs s.cls + s.blk))
          (fs.direntPerBlk - (s.idx + 1)) (s.idx + 1) := by
    conv_lhs => rw [hD, pageSlots_append, Nat.zero_add, Nat.add_comm 1, pageSlots_succ, ← hde]
  have hcluster : clusterSlots fs v s.cls =
      blockSlots fs v s.cls s.blk 0 ++
        (pageSlots s.cls s.blk (blockAt v fs.blockSize (clsToBlk fs s.cls + s.blk))
            fs.direntPerBlk 0 ++
          blockSlots fs v s.cls (fs.blkPerClus - (s.blk + 1)) (s.blk + 1)) := by
    conv_lhs => rw [clusterSlots, hB, blockSlots_append, Nat.zero_add, Nat.add_comm 1,
      blockSlots_succ]
  refine ⟨as, bs, rfl, ?_⟩
  have hsplit : dirSlots fs v (as ++ s.cls :: bs) =
      (dirSlots fs v as ++ (blockSlots fs v s.cls s.blk 0 ++
        pageSlots s.cls s.blk (blockAt v fs.blockSize (clsToBlk fs s.cls + s.blk)) s.idx 0)) ++
      s :: slotsBehind fs v s bs := by
    rw [dirSlots_append, dirSlots_cons, hcluster, hpage, slotsBehind]
    simp only [List.append_assoc, List.cons_append]
  have hnd : (dirSlots fs v (as ++ s.cls :: bs)).Nodup := dirSlots_nodup hnodup
  rw [h] at hnd
  exact (split_unique hnd (h.symm.trans hsplit)).2

/-! ### The walk -/

section Walk

variable {look : (blk pos : ℕ) → Page → ℕ} {start : ℕ}

/-- A walk does not leave the chain. -/
theorem DirChain.walk_prefix (hwf : WellFormed fs) (h : DirChain look fs v start cs) (n : ℕ) :
    walkClusters look fs v n start <+: cs := by
  obtain ⟨hpath, hbelow⟩ := h
  have hmax := hwf.clusters_lt
  rw [sfatEntryMax] at hmax
  induction hpath generalizing n with
  | @stop c hD =>
    cases n with
    | zero => exact List.nil_prefix
    | succ n =>
      have hend : fs.clusters < nextWord look fs v c := by
        rw [show nextWord look fs v c = sfatEntryEoc from hD, sfatEntryEoc]
        omega
      rw [walkClusters_succ, if_pos hend]
      split
      · exact List.prefix_refl _
      · exact List.prefix_refl _
  | @next c d cs hn hs hp ih =>
    cases n with
    | zero => exact List.nil_prefix
    | succ n =>
      obtain rfl := Option.some.inj hs
      rw [walkClusters_succ]
      refine List.cons_prefix_cons.mpr ⟨rfl, ?_⟩
      split
      · exact List.nil_prefix
      · split
        · exact List.nil_prefix
        · exact ih n fun e he => hbelow e (List.mem_cons_of_mem _ he)

/-- **The walk of the scanners depends on the words of the chain only.** -/
theorem DirChain.walk_congr (hp : Placed fs) (h : DirChain storedWord fs v start cs)
    (hword : ∀ c ∈ cs, fatWord fs v' c = fatWord fs v c) (n : ℕ) :
    walkClusters storedWord fs v' n start = walkClusters storedWord fs v n start := by
  refine trail_congr_mem fun c hc => ?_
  have hmem : c ∈ cs := (h.walk_prefix hp.toWellFormed n).subset hc
  rw [nextCls, nextCls, nextWord_storedWord hp.toWellFormed, nextWord_storedWord hp.toWellFormed,
    hword c hmem]

theorem DirChain.nodup (h : DirChain look fs v start cs) : cs.Nodup := h.path.nodup

theorem DirChain.length_le (h : DirChain look fs v start cs) : cs.length ≤ fs.clusters :=
  h.path.length_le h.below

/-- A walk that is not refused passes over every cluster of the chain. -/
theorem DirChain.accepted (hwf : WellFormed fs) (h : DirChain look fs v start cs) {n : ℕ}
    (hn : cs.length ≤ n) (href : walkRefused look fs v n start = false) :
    ∀ c ∈ cs, c + 1 < fs.clusters := by
  obtain ⟨hpath, hbelow⟩ := h
  induction hpath generalizing n with
  | @stop c hD =>
    obtain ⟨n, rfl⟩ : ∃ m, n = m + 1 := ⟨n - 1, by simp at hn; omega⟩
    have hc : c < fs.clusters := hbelow c (List.mem_singleton_self c)
    have hpred := hwf.clustersPred_eq (by omega)
    rw [walkRefused] at href
    intro e he
    obtain rfl := List.mem_singleton.mp he
    split at href
    · cases href
    · omega
  | @next c d cs hn' hs hp ih =>
    obtain ⟨n, rfl⟩ : ∃ m, n = m + 1 := ⟨n - 1, by simp at hn; omega⟩
    obtain rfl := Option.some.inj hs
    have hc : c < fs.clusters := hbelow c List.mem_cons_self
    have hd : nextWord look fs v c < fs.clusters := hbelow _ (List.mem_cons_of_mem _ hp.head_mem)
    have hpred := hwf.clustersPred_eq (by omega)
    rw [walkRefused] at href
    split at href
    · cases href
    · rw [if_neg (by omega)] at href
      intro e he
      rcases List.mem_cons.mp he with rfl | he
      · omega
      · exact ih (by simpa using hn) href (fun e he => hbelow e (List.mem_cons_of_mem _ he)) e he

end Walk

end SimpleFat
