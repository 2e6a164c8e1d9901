import SimpleFat.FormattedVolume

/-!
# The FAT as an array

The law of an array for the reader and the writer of FAT words: after a change the reader delivers
the new word at its index and the old ones elsewhere, no other byte of the volume changes, and in
every state the reader delivers the stored word.  `ArrayLaw` states it in an environment.

* `readsWord_iff` — the reader keeps its half exactly if the lookup expression delivers the word;
* `modify_bytes` — the writer keeps its half in every environment;
* `fat_array_code` — the lookup expression delivers an address, so the law holds nowhere; with
  lookups that deliver the stored words it holds everywhere.
-/

namespace SimpleFat

open SimpleFat.Lib

section ArrayLaw

variable {H : Host} {fs : FsInfo} {v : Vol} {c d x w : ℕ}

/-- The reader delivers a word for a cluster, or reports that a request failed. -/
def ReadsWord (H : Host) (fs : FsInfo) (v : Vol) (d w : ℕ) : Prop :=
  wp H.world (sfatGetEntryContent fs d) (fun r v' => v' = v ∧
    (r = .ok w ∨ ∃ e, r = .error e ∧ e ≠ .einval ∧ ∃ req, H.mayFail req)) v

/-- **The FAT is an array**: what a change of word `c` to `x` means for the reader of word `d`. -/
def ArrayLaw (H : Host) (fs : FsInfo) (v : Vol) (c d x : ℕ) : Prop :=
  wp H.world (sfatFatEntryModify fs c x) (fun r v' => r = none →
    (∀ a, a < fatWordAddr fs c ∨ fatWordAddr fs c + 4 ≤ a → v' a = v a) ∧
      ReadsWord H fs v' d (if d = c then x else fatWord fs v d)) v ∧
  ReadsWord H fs v d (fatWord fs v d)

/-- The reader delivers a word exactly if the lookup expression does. -/
theorem readsWord_iff (hd : d < fs.clustersPred) : ReadsWord H fs v d w ↔
    ∀ addr r, H.lookup addr (fatBlk fs d) (fatPos fs d) (blockAt v fs.blockSize (fatBlk fs d)) r →
      r = w := by
  have hacc : ¬ fs.clustersPred ≤ d := Nat.not_le.mpr hd
  rw [ReadsWord, wp_sfatGetEntryContent, if_neg hacc]
  constructor
  · intro h addr r hr
    rcases (h.2.2 addr r hr).2 with hok | ⟨e, herr, -⟩
    · exact Except.ok.inj hok
    · cases herr
  · intro h
    refine ⟨fun hm => ⟨rfl, .inr ⟨.enomem, rfl, by decide, _, hm⟩⟩,
      fun hm => ⟨rfl, .inr ⟨.eio, rfl, by decide, _, hm⟩⟩, fun addr r hr => ⟨rfl, .inl ?_⟩⟩
    rw [h addr r hr]

/-- A changed word is the only change. -/
theorem setFatWord_bytes {a : ℕ} (ha : a < fatWordAddr fs c ∨ fatWordAddr fs c + 4 ≤ a) :
    setFatWord fs v c x a = v a := by
  rw [setFatWord, putLe32]
  rcases ha with ha | ha
  · exact patch_of_lt _ _ ha
  · exact patch_of_ge _ _ ha

/-- The words after a change. -/
theorem fatWord_setFatWord_eq (hx : x < 2 ^ 32) :
    fatWord fs (setFatWord fs v c x) d = if d = c then x else fatWord fs v d := by
  split
  · rename_i h
    rw [h, fatWord_setFatWord_of_lt hx]
  · rename_i h
    exact fatWord_setFatWord_ne h

/-- The writer changes one word, in every environment. -/
theorem modify_bytes (h : WordBlocks fs) :
    wp H.world (sfatFatEntryModify fs c x) (fun r v' => r = none →
      (∀ a, a < fatWordAddr fs c ∨ fatWordAddr fs c + 4 ≤ a → v' a = v a) ∧
        v' = setFatWord fs v c x) v := by
  refine wp_mono (h.modify_spec c x v) fun r v' hr hnone => ?_
  subst hnone
  obtain ⟨-, rfl⟩ := hr
  exact ⟨fun a ha => setFatWord_bytes ha, rfl⟩

/-- The law in environments whose lookups deliver the stored words. -/
theorem arrayLaw_storedWord (h : WordBlocks fs) (mayFail : Request → Prop) (hd : d < fs.clustersPred)
    (hx : x < 2 ^ 32) : ArrayLaw (Host.lookups mayFail storedWord) fs v c d x := by
  have hreads : ∀ v', ReadsWord (Host.lookups mayFail storedWord) fs v' d (fatWord fs v' d) := by
    intro v'
    refine (readsWord_iff hd).mpr fun addr r hr => ?_
    have hr : r = storedWord _ _ _ := hr
    rw [hr, storedWord, h.le32_fatBlk]
  refine ⟨wp_mono (modify_bytes h) fun r v' hr hnone => ?_, hreads v⟩
  obtain ⟨hbytes, rfl⟩ := hr hnone
  refine ⟨hbytes, ?_⟩
  rw [← fatWord_setFatWord_eq hx]
  exact hreads _

/-- The lookup expression as it stands delivers different numbers for pages at different
addresses. -/
theorem not_readsWord_code (mayFail : Request → Prop) (hd : d < fs.clustersPred) :
    ¬ ReadsWord (Host.code mayFail) fs v d w := by
  intro h
  have hall := (readsWord_iff hd).mp h
  have hcode : ∀ addr, (addr + fatPos fs d) % 2 ^ 32 = w := fun addr =>
    hall addr ((addr + fatPos fs d) % 2 ^ 32) (by simp only [Host.code])
  have h0 := hcode 0
  have h1 := hcode 4096
  omega

/-- **The FAT is not an array for the code as it stands**, whatever the geometry, the volume and
the clusters; it is one when lookups deliver the stored words. -/
theorem fat_array_code (h : WordBlocks fs) (mayFail : Request → Prop) (v : Vol)
    (_hc : c < fs.clustersPred) (hd : d < fs.clustersPred) (hx : x < 2 ^ 32) :
    ¬ ArrayLaw (Host.code mayFail) fs v c d x ∧
    ArrayLaw (Host.lookups mayFail storedWord) fs v c d x :=
  ⟨fun hlaw => not_readsWord_code mayFail hd hlaw.2, arrayLaw_storedWord h mayFail hd hx⟩

end ArrayLaw

/-- The clusters 1 and 2 of a device of 31 sectors. -/
theorem fat_array_code_thirtyOne :
    ¬ ArrayLaw (Host.code noFailure) (formattedFsInfo layout31) (formatVolume layout31 fun _ => 0)
        1 2 sfatEntryEoc ∧
    ArrayLaw (Host.lookups noFailure storedWord) (formattedFsInfo layout31)
      (formatVolume layout31 fun _ => 0) 1 2 sfatEntryEoc :=
  fat_array_code ⟨rfl, by decide⟩ noFailure _ (by decide +kernel) (by decide +kernel) (by decide)

/-- With the page at address 4096, the lookup of cluster 1, whose word is `SFAT_ENTRY_FREE`,
delivers 4100. -/
theorem fat_array_fails :
    ¬ ArrayLaw (Host.code noFailure) (formattedFsInfo layout31) (formatVolume layout31 fun _ => 0)
        1 1 sfatEntryEoc ∧
    (run (Host.quiet fun addr _ pos _ => (addr + pos) % 2 ^ 32)
      (sfatGetEntryContent (formattedFsInfo layout31) 1) (formatVolume layout31 fun _ => 0)).1 =
        .ok 4100 ∧
    fatWord (formattedFsInfo layout31) (formatVolume layout31 fun _ => 0) 1 = sfatEntryFree := by
  refine ⟨fun h => not_readsWord_code noFailure (by decide +kernel) h.2, ?_, ?_⟩
  · have hacc : ¬ (formattedFsInfo layout31).clustersPred ≤ 1 := by decide +kernel
    have hpos : (4096 + fatPos (formattedFsInfo layout31) 1) % 2 ^ 32 = 4100 := by decide +kernel
    rw [sfatGetEntryContent, if_neg hacc, ← hpos]
    exact rfl
  · rw [formatVolume_fatWord (by decide) _ (by decide), if_neg (by decide)]

end SimpleFat
