import SimpleFat.CreateRun

/-!
# Appending a cluster to a chain

`sfat_file_append_cls` walks over the words of the FAT, whatever they are, for at most `clusters`
rounds.  If it finds an end mark it replaces that word, and the chain from the start is the old one
with the new cluster at its end; otherwise it changes nothing.

* `WordChain` — a chain: a path over the words of the FAT to the first end mark;
* `WordChain.congr`, `WordChain.append` — chains under a change of the FAT;
* `appendTarget_path` — the cluster that the walk stops at;
* `append_chain` — the result.
-/

namespace SimpleFat

open SimpleFat.Lib

variable {mayFail : Request → Prop} {fs : FsInfo} {v w : Vol} {start endCls t : ℕ} {cs : List ℕ}

/-! ### Chains -/

/-- A chain: the clusters from the start to the first one whose word is the end mark. -/
def WordChain (fs : FsInfo) (v : Vol) (start : ℕ) (cs : List ℕ) : Prop :=
  PathTo (fun c => some (fatWord fs v c)) (fun c => fatWord fs v c = sfatEntryEoc) start cs

/-- The first `n` clusters of a walk over the words of the FAT, which may be no chain. -/
def wordWalk (fs : FsInfo) (v : Vol) (n start : ℕ) : List ℕ :=
  trail (fun c => some (fatWord fs v c)) n start

/-- **A chain depends on the words of its clusters.** -/
theorem WordChain.congr (h : WordChain fs v start cs)
    (hw : ∀ c ∈ cs, fatWord fs w c = fatWord fs v c) : WordChain fs w start cs := by
  refine PathTo.congr h (fun c hc _ => ?_) fun c hc => ?_
  · show some (fatWord fs w c) = some (fatWord fs v c)
    rw [hw c hc]
  · rw [hw c hc]

/-- Only the last cluster has the end mark. -/
theorem WordChain.eq_last (h : WordChain fs v start cs) (hlast : cs.getLast? = some t) {c : ℕ}
    (hc : c ∈ cs) (heoc : fatWord fs v c = sfatEntryEoc) : c = t := by
  rw [List.getLast?_eq_some_getLast h.ne_nil] at hlast
  by_contra hne
  have hmem : c ∈ cs.dropLast := List.mem_dropLast_of_mem_of_ne_getLast hc fun heq =>
    hne (heq.trans (Option.some.inj hlast))
  exact (PathTo.dropLast_next h hmem).1 heoc

/-- The last cluster has the end mark. -/
theorem WordChain.word_last (h : WordChain fs v start cs) (hlast : cs.getLast? = some t) :
    fatWord fs v t = sfatEntryEoc := by
  rw [List.getLast?_eq_some_getLast h.ne_nil] at hlast
  have hword := PathTo.last h
  rwa [Option.some.inj hlast] at hword

/-- **A chain whose last cluster is linked to a cluster with the end mark** is the longer chain. -/
theorem WordChain.append (h : WordChain fs v start cs) (hlast : cs.getLast? = some t)
    (ht : fatWord fs w t = endCls) (hend : endCls ≠ sfatEntryEoc)
    (hw : ∀ c ∈ cs, c ≠ t → fatWord fs w c = fatWord fs v c)
    (hword : fatWord fs w endCls = sfatEntryEoc) : WordChain fs w start (cs ++ [endCls]) := by
  refine PathTo.concat h ?_ (fun c hc hne => ?_) (fun c hc => ?_) hword
  · rw [List.getLast?_eq_some_getLast h.ne_nil] at hlast
    rw [Option.some.inj hlast, ht]
  · show some (fatWord fs w c) = some (fatWord fs v c)
    rw [hw c hc fun hct => hne (hct ▸ h.word_last hlast)]
  · by_cases hct : c = t
    · rw [hct, ht]
      exact hend
    · rw [hw c hc hct]
      exact fun heoc => hct (h.eq_last hlast hc heoc)

/-! ### The walk -/

/-- The walk stops at the end of a chain. -/
theorem appendTarget_path (h : WordBlocks fs) {n : ℕ}
    (ht : appendTarget storedWord fs v n start = some t) :
    ∃ cs, WordChain fs v start cs ∧ cs.length ≤ n ∧ cs.getLast? = some t := by
  induction n generalizing start with
  | zero => cases ht
  | succ n ih =>
    rw [appendTarget, h.nextWord_storedWord] at ht
    by_cases hcls : fs.clustersPred ≤ start
    · rw [if_pos hcls] at ht
      cases ht
    · rw [if_neg hcls] at ht
      by_cases heoc : fatWord fs v start = sfatEntryEoc
      · rw [if_pos heoc] at ht
        obtain rfl := Option.some.inj ht
        exact ⟨[start], .stop heoc, Nat.succ_le_succ (Nat.zero_le n), rfl⟩
      · rw [if_neg heoc] at ht
        by_cases hnext : fs.clusters < fatWord fs v start
        · rw [if_pos hnext] at ht
          cases ht
        · rw [if_neg hnext] at ht
          obtain ⟨cs, hchain, hlen, hlast⟩ := ih ht
          refine ⟨start :: cs, .next heoc rfl hchain, Nat.succ_le_succ hlen, ?_⟩
          rw [List.getLast?_cons, hlast]
          rfl

theorem within_sfatFatEntryModify (cls attr : ℕ) : within (sfatFatEntryModify fs cls attr) 3 := by
  rw [sfatFatEntryModify]
  split
  · exact within_done _ _
  · intro page
    cases page with
    | none => exact within_done _ _
    | some addr =>
      intro data
      cases data with
      | none => exact within_done _ _
      | some data =>
        intro ok
        cases ok with
        | false => exact within_done _ _
        | true => exact within_done _ _

/-- **The walk ends** after as many lookups as its counter allows, and at most one change. -/
theorem within_appendLoop (endCls n cls : ℕ) : within (appendLoop fs endCls n cls) (3 * n + 3) := by
  induction n generalizing cls with
  | zero => exact within_done _ _
  | succ n ih =>
    rw [appendLoop, show 3 * (n + 1) + 3 = 3 + (3 * n + 3) by omega]
    refine within_bind (within_sfatGetEntryContent fs cls) fun r => ?_
    cases r with
    | error e => exact within_done _ _
    | ok next =>
      show within (if next = sfatEntryEoc then _ else _) _
      split
      · exact within_mono (within_sfatFatEntryModify cls endCls) (by omega)
      · split
        · exact within_done _ _
        · exact ih next

/-! ### The result -/

/-- **The chain from a cluster got a new last cluster**: `t` was the last one. -/
structure Appended (fs : FsInfo) (v v' : Vol) (start endCls : ℕ) (cs : List ℕ) (t : ℕ) : Prop where
  chain : WordChain fs v start cs
  length_le : cs.length ≤ fs.clusters
  last : cs.getLast? = some t
  /-- the only change -/
  vol_eq : v' = setFatWord fs v t endCls
  word : fatWord fs v' t = endCls
  extended : fatWord fs v endCls = sfatEntryEoc → endCls ∉ cs →
    WordChain fs v' start (cs ++ [endCls])
  others : ∀ s ds, WordChain fs v s ds → t ∉ ds → WordChain fs v' s ds
  walks : ∀ n s, t ∉ wordWalk fs v n s → wordWalk fs v' n s = wordWalk fs v n s

/-- A replaced end mark appends. -/
theorem appended_of_chain (hend : endCls < sfatEntryMax) (hchain : WordChain fs v start cs)
    (hlen : cs.length ≤ fs.clusters) (hlast : cs.getLast? = some t) :
    Appended fs v (setFatWord fs v t endCls) start endCls cs t := by
  rw [sfatEntryMax] at hend
  have hword : fatWord fs (setFatWord fs v t endCls) t = endCls :=
    fatWord_setFatWord_of_lt (by omega)
  have hmem : t ∈ cs := List.mem_of_getLast? hlast
  refine ⟨hchain, hlen, hlast, rfl, hword, fun heoc hnot => ?_, fun s ds hds ht => ?_,
    fun n s ht => ?_⟩
  · refine hchain.append hlast hword ?_ (fun c _ hne => fatWord_setFatWord_ne hne) ?_
    · rw [sfatEntryEoc]
      omega
    · have hne : endCls ≠ t := fun heq => hnot (heq ▸ hmem)
      rw [fatWord_setFatWord_ne hne]
      exact heoc
  · refine hds.congr fun c hc => fatWord_setFatWord_ne fun heq => ?_
    exact ht (heq ▸ hc)
  · refine trail_congr_mem fun c hc => ?_
    have hne : c ≠ t := fun heq => ht (heq ▸ hc)
    rw [fatWord_setFatWord_ne hne]

/-- **`sfat_file_append_cls` ends, and appends or changes nothing**, for every content of the FAT
and every start. -/
theorem append_chain (h : WordBlocks fs) (start : ℕ) {endCls : ℕ} (hend : endCls < sfatEntryMax) :
    within (sfatFileAppendCls fs start endCls) (3 * fs.clusters + 3) ∧
    wp (storedWorld mayFail) (sfatFileAppendCls fs start endCls) (fun r v' =>
      (r = none → ∃ cs t, Appended fs v v' start endCls cs t) ∧ (r ≠ none → v' = v)) v := by
  refine ⟨within_appendLoop endCls fs.clusters start, ?_⟩
  refine wp_mono (appendLoop_spec h endCls fs.clusters start) fun r v' hr => ?_
  obtain ⟨t, ht, rfl, rfl⟩ | ⟨e, rfl, rfl⟩ := hr
  · obtain ⟨cs, hchain, hlen, hlast⟩ := appendTarget_path h ht
    exact ⟨fun _ => ⟨cs, t, appended_of_chain hend hchain hlen hlast⟩, fun hne => absurd rfl hne⟩
  · exact ⟨by simp, fun _ => rfl⟩

theorem append_chain_oneFile :
    within (sfatFileAppendCls sbi31.fsInfo 0 2) (3 * sbi31.fsInfo.clusters + 3) ∧
    wp (storedWorld fun _ => True) (sfatFileAppendCls sbi31.fsInfo 0 2) (fun r v' =>
      (r = none → ∃ cs t, Appended sbi31.fsInfo oneFileVolume v' 0 2 cs t) ∧
        (r ≠ none → v' = oneFileVolume)) oneFileVolume :=
  append_chain placed31.wordBlocks 0 (by decide)

end SimpleFat
