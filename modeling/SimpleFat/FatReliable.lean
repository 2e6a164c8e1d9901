import SimpleFat.CreateFrame
import SimpleFat.WriteComplete

/-!
# Clusters on a chain

Patterns of failures in which the FAT itself can be read and written, and the clusters that can be
reached from a start over the words of the FAT, whatever these are.  A word that is a mark leads to
no cluster, so a free cluster has no successor, and taking it changes no link.

* `FatReliable` — the patterns, `modify_reliable`, `wp_append_reliable`;
* `OnChain` — the clusters of a chain;
* `NoneLost` — what was free is free or on the chain;
* `StaysLinked`, `noneLost_linked` — one cluster more that is taken and linked.
-/

namespace SimpleFat

open SimpleFat.Lib

variable {mayFail : Request → Prop} {look : (blk pos : ℕ) → Page → ℕ} {fs : FsInfo}
  {v v' v₀ w : Vol} {start cur c k : ℕ}

/-! ### The FAT can be read and written -/

/-- The requests of the functions on the FAT: memory and the blocks of the first FAT. -/
def FatRequest (fs : FsInfo) : Request → Prop
  | .blkholderAlloc => True
  | .readBlock sz b => sz = fs.blockSize ∧ fs.fatStartBlk ≤ b ∧ b < fs.fatStartBlk + fs.fatLengthBlk
  | .writeBlock sz b _ =>
    sz = fs.blockSize ∧ fs.fatStartBlk ≤ b ∧ b < fs.fatStartBlk + fs.fatLengthBlk
  | .le32OfPointer _ _ _ _ => True
  | _ => False

/-- **The FAT is reliable**: other requests may fail. -/
def FatReliable (fs : FsInfo) (mayFail : Request → Prop) : Prop :=
  ∀ c, FatRequest fs c → ¬ mayFail c

theorem fatReliable_noFailure (fs : FsInfo) : FatReliable fs noFailure := fun c _ => not_noFailure c

/-- A request that cannot fail is answered as if nothing could. -/
theorem failingWorld_reliable {c : Request} (hc : ¬ mayFail c) (v : Vol) (r : Answer c) (v' : Vol) :
    failingWorld noFailure look v c r v' ↔ failingWorld mayFail look v c r v' := by
  refine ⟨failingWorld_mono v c r v', fun h => ?_⟩
  cases c with
  | blkholderAlloc => exact ⟨h.1, fun hr => absurd (h.2 hr) hc⟩
  | readBlock sz b => exact ⟨h.1, h.2.imp_right fun hr => absurd hr.2 hc⟩
  | writeBlock sz b d => exact h.imp_right fun hr => absurd hr.2.2 hc
  | le32OfPointer a b p d => exact h
  | copyFromUser n => exact ⟨h.1, h.2.1, fun hr => absurd (h.2.2 hr) hc⟩
  | copyToUser n => exact ⟨h.1, h.2.1, fun hr => absurd (h.2.2 hr) hc⟩
  | currentTimeSec => exact h
  | newInode => exact ⟨h.1, fun hr => absurd (h.2 hr) hc⟩
  | iunique m => exact h
  | dAllocRoot => exact ⟨h.1, fun hr => absurd (h.2 hr) hc⟩
  | filldir call => exact ⟨h.1, h.2.imp_right fun hr => absurd hr.2 hc⟩

/-- **A program on the FAT** runs as if nothing could fail. -/
theorem wp_reliable (h : FatReliable fs mayFail) {α : Type} {p : Driver α} {Q : α → Vol → Prop}
    (hp : asks (failingWorld noFailure look) (FatRequest fs) p v) :
    wp (failingWorld mayFail look) p Q v ↔ wp (failingWorld noFailure look) p Q v :=
  (wp_congr_asks (fun c hc s r s' => failingWorld_reliable (h c hc) s r s') hp).symm

theorem fatBlk_ge (cls : ℕ) : fs.fatStartBlk ≤ fatBlk fs cls := Nat.le_add_left _ _

/-- The block of the word of a cluster that the accessors take. -/
theorem fatRequest_read (hp : Placed fs) {cls : ℕ} (hcls : ¬ fs.clustersPred ≤ cls) :
    FatRequest fs (.readBlock fs.blockSize (fatBlk fs cls)) :=
  ⟨rfl, fatBlk_ge cls, fatBlk_lt hp (Nat.lt_of_succ_lt (lt_clusters_of_accepted hp hcls))⟩

theorem asks_getEntry (hp : Placed fs) (cls : ℕ) :
    asks (failingWorld mayFail look) (FatRequest fs) (sfatGetEntryContent fs cls) v := by
  rw [sfatGetEntryContent]
  split
  · exact asks_done _ _ _
  · rename_i hcls
    rw [asks_blkholderAlloc]
    refine ⟨trivial, fun page _ => ?_⟩
    cases page with
    | none => exact asks_done _ _ _
    | some addr =>
      rw [asks_readBlock]
      refine ⟨fatRequest_read hp hcls, ?_, fun _ => asks_done _ _ _⟩
      rw [asks_le32OfPointer]
      exact ⟨trivial, fun _ _ => asks_done _ _ _⟩

theorem asks_modify (hp : Placed fs) (cls attr : ℕ) :
    asks (failingWorld mayFail look) (FatRequest fs) (sfatFatEntryModify fs cls attr) v := by
  rw [sfatFatEntryModify]
  split
  · exact asks_done _ _ _
  · rename_i hcls
    rw [asks_blkholderAlloc]
    refine ⟨trivial, fun page _ => ?_⟩
    cases page with
    | none => exact asks_done _ _ _
    | some addr =>
      rw [asks_readBlock]
      refine ⟨fatRequest_read hp hcls, ?_, fun _ => asks_done _ _ _⟩
      rw [asks_writeBlock]
      exact ⟨fatRequest_read hp hcls, asks_done _ _ _, fun _ => asks_done _ _ _⟩

theorem asks_appendLoop (hp : Placed fs) (endCls n cls : ℕ) :
    asks (failingWorld mayFail look) (FatRequest fs) (appendLoop fs endCls n cls) v := by
  induction n generalizing cls v with
  | zero => exact asks_done _ _ _
  | succ n ih =>
    rw [appendLoop, asks_bind]
    refine ⟨asks_getEntry hp cls, wp_of_forall fun r v' => ?_⟩
    cases r with
    | error e => exact asks_done _ _ _
    | ok next =>
      show asks _ _ (if next = sfatEntryEoc then _ else _) v'
      split
      · exact asks_modify hp cls endCls
      · split
        · exact asks_done _ _ _
        · exact ih next

theorem asks_acquire :
    asks (failingWorld mayFail look) (FatRequest fs) (sfatFatEntryAcquire fs) v := by
  have hblocks : ∀ (n b : ℕ) (w : Vol), fs.fatStartBlk ≤ b → b + n ≤ fs.fatStartBlk + fs.fatLengthBlk →
      asks (failingWorld mayFail look) (FatRequest fs) (acquireBlocks fs n b) w := by
    intro n
    induction n with
    | zero => exact fun _ _ _ _ => asks_done _ _ _
    | succ n ih =>
      intro b w hge hle
      have hblk : FatRequest fs (.readBlock fs.blockSize b) := ⟨rfl, hge, by omega⟩
      rw [acquireBlocks, asks_readBlock]
      refine ⟨hblk, ?_, fun _ => asks_done _ _ _⟩
      cases hk : findFree (blockAt w fs.blockSize b) (fs.blockSize / 4) 0 with
      | none =>
        simp only [hk]
        exact ih (b + 1) w (by omega) (by omega)
      | some k =>
        simp only [hk]
        rw [asks_writeBlock]
        exact ⟨hblk, asks_done _ _ _, fun _ => asks_done _ _ _⟩
  rw [sfatFatEntryAcquire, asks_blkholderAlloc]
  refine ⟨trivial, fun page _ => ?_⟩
  cases page with
  | none => exact asks_done _ _ _
  | some addr => exact hblocks fs.fatLengthBlk fs.fatStartBlk v (Nat.le_refl _) (Nat.le_refl _)

/-- A change of a word is refused only for its number. -/
theorem modify_reliable (hp : Placed fs) (h : FatReliable fs mayFail) (cls x : ℕ) :
    wp (failingWorld mayFail look) (sfatFatEntryModify fs cls x) (fun r v' => match r with
      | none => cls < fs.clustersPred ∧ v' = setFatWord fs v cls x
      | some _ => fs.clustersPred ≤ cls ∧ v' = v) v := by
  rw [wp_reliable h (asks_modify hp cls x)]
  refine (wp_sfatFatEntryModify_lookups hp.toWellFormed cls x _).mpr ?_
  split
  · rename_i hcls
    exact ⟨hcls, rfl⟩
  · rename_i hcls
    exact ⟨Nat.lt_of_not_le hcls, rfl⟩

/-- **The extension of a chain** fails only for the words it meets. -/
theorem wp_append_reliable (hp : Placed fs) (h : FatReliable fs mayFail) (start endCls : ℕ) {β : Type}
    {f : Option Errno → Driver β} {Q : β → Vol → Prop} :
    wp (failingWorld mayFail look) (sfatFileAppendCls fs start endCls >>= f) Q v ↔
      wp (failingWorld mayFail look)
        (f (appendOutcome fs v endCls (appendTarget look fs v fs.clusters start)).1) Q
        (appendOutcome fs v endCls (appendTarget look fs v fs.clusters start)).2 := by
  rw [wp_bind, sfatFileAppendCls, wp_reliable h (asks_appendLoop hp endCls fs.clusters start)]
  exact wp_appendLoop hp.toWellFormed endCls fs.clusters start _

/-! ### Chains over any words -/

/-- The cluster that the word of a cluster leads to, if it is no mark. -/
def wordLink (fs : FsInfo) (v : Vol) (c : ℕ) : Option ℕ :=
  if c < fatWords fs ∧ fatWord fs v c < sfatEntryMax then some (fatWord fs v c) else none

/-- **The clusters of the chain from a start**: those that its words lead to. -/
def OnChain (fs : FsInfo) (v : Vol) (start k : ℕ) : Prop :=
  ∃ n, linked (wordLink fs v) n start = some k

/-- **No cluster is lost**: a word that was free is free or on the chain from a start. -/
def NoneLost (fs : FsInfo) (v v' : Vol) (start : ℕ) : Prop :=
  ∀ k < fatWords fs, fatWord fs v k = sfatEntryFree →
    fatWord fs v' k = sfatEntryFree ∨ OnChain fs v' start k

theorem wordLink_congr (h : SameFat fs v v') : wordLink fs v' = wordLink fs v := by
  funext c
  rw [wordLink, wordLink]
  by_cases hc : c < fatWords fs
  · rw [h c hc]
  · rw [if_neg fun hn => hc hn.1, if_neg fun hn => hc hn.1]

/-- A mark in the place of a mark changes no link. -/
theorem wordLink_mark {x : ℕ} (hold : sfatEntryMax ≤ fatWord fs v c)
    (hnew : sfatEntryMax ≤ x % 2 ^ 32) : wordLink fs (setFatWord fs v c x) = wordLink fs v := by
  funext d
  rw [wordLink, wordLink]
  by_cases hd : d = c
  · rw [hd, fatWord_setFatWord, if_neg fun hn => by omega, if_neg fun hn => by omega]
  · rw [fatWord_setFatWord_ne hd]

/-- A free cluster has no successor. -/
theorem wordLink_free (hfree : fatWord fs v c = sfatEntryFree) : wordLink fs v c = none := by
  rw [wordLink, hfree]
  exact if_neg fun hn => absurd hn.2 (by decide)

/-- **Taking a free cluster changes no link.** -/
theorem wordLink_acquired (hfree : fatWord fs v c = sfatEntryFree) :
    wordLink fs (setFatWord fs v c sfatEntryEoc) = wordLink fs v :=
  wordLink_mark (by rw [hfree]; decide) (by decide)

theorem OnChain.congr (h : SameFat fs v v') : OnChain fs v' start k ↔ OnChain fs v start k := by
  rw [OnChain, OnChain, wordLink_congr h]

theorem onChain_acquired (hfree : fatWord fs v c = sfatEntryFree) :
    OnChain fs (setFatWord fs v c sfatEntryEoc) start k ↔ OnChain fs v start k := by
  rw [OnChain, OnChain, wordLink_acquired hfree]

/-- Links lead to no mark. -/
theorem wordLink_lt {d : ℕ} (h : wordLink fs v c = some d) : d < sfatEntryMax := by
  rw [wordLink] at h
  split at h
  · rename_i hlt
    rw [← Option.some.inj h]
    exact hlt.2
  · cases h

/-- No number of a mark is on a chain from a cluster. -/
theorem OnChain.lt_max (h : OnChain fs v start k) (hstart : start < sfatEntryMax) :
    k < sfatEntryMax := by
  obtain ⟨n, hn⟩ := h
  cases n with
  | zero =>
    rw [← Option.some.inj hn]
    exact hstart
  | succ n =>
    rw [linked_succ] at hn
    obtain ⟨d, -, hd⟩ := Option.bind_eq_some_iff.mp hn
    exact wordLink_lt hd

theorem NoneLost.refl (fs : FsInfo) (v : Vol) (start : ℕ) : NoneLost fs v v start :=
  fun _ _ hfree => .inl hfree

theorem NoneLost.sameFat (h : NoneLost fs v₀ v start) (hfat : SameFat fs v v') :
    NoneLost fs v₀ v' start := by
  intro k hk hfree
  rw [hfat k hk, OnChain.congr hfat]
  exact h k hk hfree

/-- A volume with the same FAT has lost nothing. -/
theorem NoneLost.of_sameFat (hfat : SameFat fs v v') : NoneLost fs v v' start :=
  (NoneLost.refl fs v start).sameFat hfat

/-- **A cluster that was taken and not linked** is lost, but if it was on the chain already. -/
theorem noneLost_acquired (hc : FirstFree fs v c) (h : NoneLost fs v₀ v start) :
    NoneLost fs v₀ (setFatWord fs v c sfatEntryEoc) start ↔
      (fatWord fs v₀ c = sfatEntryFree → OnChain fs v start c) := by
  have hword : fatWord fs (setFatWord fs v c sfatEntryEoc) c ≠ sfatEntryFree := by
    rw [fatWord_setFatWord]
    decide
  constructor
  · intro hlost hfree
    exact (onChain_acquired hc.2.1).mp ((hlost c hc.1 hfree).resolve_left hword)
  · intro hon k hk hfree
    rw [onChain_acquired hc.2.1]
    by_cases hkc : k = c
    · exact .inr (hkc ▸ hon (hkc ▸ hfree))
    · rw [fatWord_setFatWord_ne hkc]
      exact h k hk hfree

/-! ### Clusters that are linked behind each other -/

section Link

/-- The words after a cluster was taken and linked. -/
theorem fatWord_clusterLinked (hcur : c < 2 ^ 32) (k : ℕ) :
    fatWord fs (clusterLinked fs v cur c) k =
      if k = cur then c else if k = c then sfatEntryEoc else fatWord fs v k := by
  rw [clusterLinked]
  split
  · rename_i hk
    rw [hk, fatWord_setFatWord_of_lt hcur]
  · rename_i hk
    rw [fatWord_setFatWord_ne hk]
    split
    · rename_i hkc
      rw [hkc, fatWord_setFatWord_of_lt (by decide)]
    · rename_i hkc
      rw [fatWord_setFatWord_ne hkc]

/-- The only link that changes is that of the cluster before: the other one has none before and
after. -/
theorem wordLink_clusterLinked (hp : Placed fs) (hc : FirstFree fs v c) (hne : k ≠ cur) :
    wordLink fs (clusterLinked fs v cur c) k = wordLink fs v k := by
  have hword := @fatWord_clusterLinked fs v cur c (lt_of_fatWords hp hc.1) k
  rw [if_neg hne] at hword
  by_cases hkc : k = c
  · subst hkc
    rw [if_pos rfl] at hword
    rw [wordLink_free hc.2.1, wordLink, hword]
    exact if_neg fun hn => absurd hn.2 (by decide)
  · rw [if_neg hkc] at hword
    rw [wordLink, wordLink, hword]

theorem wordLink_linked (hp : Placed fs) (hc : FirstFree fs v c) (hcur : cur < fatWords fs) :
    wordLink fs (clusterLinked fs v cur c) cur = if c < sfatEntryMax then some c else none := by
  rw [wordLink, fatWord_clusterLinked (lt_of_fatWords hp hc.1), if_pos rfl]
  by_cases hmax : c < sfatEntryMax
  · rw [if_pos ⟨hcur, hmax⟩, if_pos hmax]
  · rw [if_neg fun hn => hmax hn.2, if_neg hmax]

/-- The new cluster leads nowhere else. -/
theorem wordLink_taken (hp : Placed fs) (hc : FirstFree fs v c) (hcur : cur < fatWords fs) {d : ℕ}
    (h : wordLink fs (clusterLinked fs v cur c) c = some d) : d = c := by
  by_cases hself : c = cur
  · subst hself
    rw [wordLink_linked hp hc hcur] at h
    split at h
    · exact (Option.some.inj h).symm
    · cases h
  · rw [wordLink_clusterLinked hp hc hself, wordLink_free hc.2.1] at h
    cases h

/-- The cluster before is on the chain if it was. -/
theorem onChain_before_iff (hp : Placed fs) (hc : FirstFree fs v c) :
    OnChain fs (clusterLinked fs v cur c) start cur ↔ OnChain fs v start cur := by
  constructor
  · rintro ⟨n, hn⟩
    exact or_self_iff.mp (linked_agree (fun a ha => (wordLink_clusterLinked hp hc ha).symm) hn)
  · rintro ⟨n, hn⟩
    exact or_self_iff.mp (linked_agree (fun a ha => wordLink_clusterLinked hp hc ha) hn)

/-- **The new cluster is on the chain** if the one before it is, under a number that is no mark, or
if it was on the chain already. -/
theorem onChain_taken_iff (hp : Placed fs) (hc : FirstFree fs v c) (hcur : cur < fatWords fs)
    (hstart : start < sfatEntryMax) :
    OnChain fs (clusterLinked fs v cur c) start c ↔
      OnChain fs v start cur ∧ c < sfatEntryMax ∨ OnChain fs v start c := by
  constructor
  · intro h
    have hmax := h.lt_max hstart
    obtain ⟨n, hn⟩ := h
    rcases linked_agree (fun a ha => (wordLink_clusterLinked hp hc ha).symm) hn with h | h
    · exact .inr h
    · exact .inl ⟨h, hmax⟩
  · have hlink : OnChain fs v start cur → c < sfatEntryMax →
        OnChain fs (clusterLinked fs v cur c) start c := by
      intro h hmax
      obtain ⟨n, hn⟩ := (onChain_before_iff hp hc).mpr h
      refine ⟨n + 1, ?_⟩
      rw [linked_succ, hn, Option.bind_some, wordLink_linked hp hc hcur, if_pos hmax]
    rintro (⟨h, hmax⟩ | h)
    · exact hlink h hmax
    · have hmax := h.lt_max hstart
      obtain ⟨n, hn⟩ := h
      rcases linked_agree (fun a ha => wordLink_clusterLinked hp hc ha) hn with h | h
      · exact h
      · exact hlink ((onChain_before_iff hp hc).mp h) hmax

/-- A cluster in use that is on the chain afterwards was on it before. -/
theorem onChain_of_linked (hp : Placed fs) (hc : FirstFree fs v c) (hcur : cur < fatWords fs)
    (hused : fatWord fs v k ≠ sfatEntryFree) (h : OnChain fs (clusterLinked fs v cur c) start k) :
    OnChain fs v start k := by
  by_cases hkcur : k = cur
  · exact hkcur ▸ (onChain_before_iff hp hc).mp (hkcur ▸ h)
  · obtain ⟨n, hn⟩ := h
    -- from the two clusters a walk goes on to the new one only
    refine ⟨n, linked_outside (S := fun a => a = cur ∨ a = c) ?_ (fun a ha => ?_) ?_ hn⟩
    · rintro a (rfl | rfl) b hb
      · rw [wordLink_linked hp hc hcur] at hb
        split at hb
        · exact .inr (Option.some.inj hb).symm
        · cases hb
      · exact .inr (wordLink_taken hp hc hcur hb)
    · exact (wordLink_clusterLinked hp hc fun h => ha (.inl h)).symm
    · rintro (h | h)
      · exact hkcur h
      · exact hused (h ▸ hc.2.1)

/-- **The link keeps a cluster on the chain**: the new one is linked to one of the chain, under a
number that is no mark; or it was on the chain already, and the one before it was not free. -/
def StaysLinked (fs : FsInfo) (v : Vol) (start cur c : ℕ) : Prop :=
  OnChain fs v start cur ∧ c < sfatEntryMax ∨
    OnChain fs v start c ∧ fatWord fs v cur ≠ sfatEntryFree

theorem StaysLinked.sameFat (h : StaysLinked fs v start cur c) (hfat : SameFat fs v v')
    (hcur : cur < fatWords fs) : StaysLinked fs v' start cur c := by
  rw [StaysLinked, OnChain.congr hfat, OnChain.congr hfat, hfat cur hcur]
  exact h

theorem StaysLinked.lt_max (h : StaysLinked fs v start cur c) (hstart : start < sfatEntryMax) :
    c < sfatEntryMax :=
  h.elim And.right fun h => h.1.lt_max hstart

/-- **Nothing that was taken lies behind a cluster**: nothing was taken yet, or it leads nowhere
else. -/
def NoneBehind (fs : FsInfo) (v₀ v : Vol) (cur : ℕ) : Prop :=
  (∀ k < fatWords fs, fatWord fs v₀ k = sfatEntryFree → fatWord fs v k = sfatEntryFree) ∨
    ∀ d, wordLink fs v cur = some d → d = cur

theorem NoneBehind.refl (fs : FsInfo) (v : Vol) (cur : ℕ) : NoneBehind fs v v cur :=
  .inl fun _ _ hfree => hfree

theorem NoneBehind.sameFat (h : NoneBehind fs v₀ v cur) (hfat : SameFat fs v v') :
    NoneBehind fs v₀ v' cur := by
  rw [NoneBehind, wordLink_congr hfat]
  exact h.imp_left fun h k hk hfree => (hfat k hk).trans (h k hk hfree)

/-- The new cluster is the current one from then on. -/
theorem noneBehind_taken (hp : Placed fs) (hc : FirstFree fs v c) (hcur : cur < fatWords fs) :
    NoneBehind fs v₀ (clusterLinked fs v cur c) c :=
  .inr fun _ h => wordLink_taken hp hc hcur h

/-- **One cluster more** that is taken and linked: none is lost, if the link keeps it on the chain. -/
theorem noneLost_linked (hp : Placed fs) (hc : FirstFree fs v c) (hcur : cur < fatWords fs)
    (hstart : start < sfatEntryMax) (hbehind : NoneBehind fs v₀ v cur)
    (hlost : NoneLost fs v₀ v start) (hstay : StaysLinked fs v start cur c) :
    NoneLost fs v₀ (clusterLinked fs v cur c) start := by
  have hword := @fatWord_clusterLinked fs v cur c (lt_of_fatWords hp hc.1)
  have htaken : OnChain fs (clusterLinked fs v cur c) start c :=
    (onChain_taken_iff hp hc hcur hstart).mpr (hstay.imp_right And.left)
  intro k hk hfree
  by_cases hkc : k = c
  · exact .inr (hkc ▸ htaken)
  by_cases hkcur : k = cur
  · have hon : OnChain fs v start cur := by
      rcases hlost k hk hfree with hfree | hon
      · rcases hstay with hlink | ⟨-, hused⟩
        · exact hlink.1
        · exact absurd (hkcur ▸ hfree) hused
      · exact hkcur ▸ hon
    rw [hkcur]
    exact .inr ((onChain_before_iff hp hc).mpr hon)
  · rw [hword, if_neg hkcur, if_neg hkc]
    rcases hlost k hk hfree with hfree | hon
    · exact .inl hfree
    · rcases hbehind with hnone | hdead
      · exact .inl (hnone k hk hfree)
      · obtain ⟨n, hn⟩ := hon
        refine .inr ⟨n, linked_outside (S := (· = cur)) ?_ (fun a ha => ?_) hkcur hn⟩
        · rintro a rfl b hb
          exact hdead b hb
        · exact wordLink_clusterLinked hp hc ha

end Link

end SimpleFat
