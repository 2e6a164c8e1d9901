import SimpleFat.EntryPosition
import SimpleFat.ScannersAgree

/-!
# Enumerating a directory in several calls

A directory is read by a run of calls of `sfat_readdir` on one open file, each from the position
the last one left, while `filldir` may refuse entries.

* `readdir_call` — one call reports the used slots from its position up to the first terminator
  after it, or up to an entry that is refused;
* `EnumerationInv.step` — over a run the accepted entries are the live slots before the position;
* `enumeration_runs` — so a run enumerates the live slots, each once and in order, as long as no
  call starts behind the terminator where used slots lie, or at the size of the directory.
-/

namespace SimpleFat

open SimpleFat.Lib

variable {refuse : FilldirCall → Prop} {look : (blk pos : ℕ) → Page → ℕ} {fs : FsInfo} {v : Vol}

/-! ### The chain of a directory -/

/-- The chain of a directory: its clusters lie in the data area, and the last word is the end
mark. -/
structure DirChain (look : (blk pos : ℕ) → Page → ℕ) (fs : FsInfo) (v : Vol) (start : ℕ)
    (cs : List ℕ) : Prop where
  path : PathTo (fun c => some (nextWord look fs v c))
    (fun c => nextWord look fs v c = sfatEntryEoc) start cs
  below : ∀ c ∈ cs, c < fs.clusters

section Walk

variable {start : ℕ} {cs : List ℕ}

theorem DirChain.drop (h : DirChain look fs v start cs) {i : ℕ} (hi : i < cs.length) :
    DirChain look fs v (cs[i]) (cs.drop i) :=
  ⟨h.path.drop hi, fun c hc => h.below c (List.mem_of_mem_drop hc)⟩

/-- A walk that the accessor lets pass over `j` clusters visits them and the next one. -/
theorem DirChain.walk_take (hwf : WellFormed fs) (h : DirChain look fs v start cs) {n j : ℕ}
    (hj : j < cs.length) (hn : j < n) (hacc : ∀ c ∈ cs.take j, c + 1 < fs.clusters) :
    cs.take (j + 1) <+: walkClusters look fs v n start := by
  obtain ⟨hp, hbelow⟩ := h
  induction hp generalizing n j with
  | @stop c hD =>
    obtain rfl : j = 0 := by simpa using hj
    obtain ⟨n, rfl⟩ : ∃ m, n = m + 1 := ⟨n - 1, by omega⟩
    rw [walkClusters_succ, List.take_succ_cons, List.take_zero]
    exact List.cons_prefix_cons.mpr ⟨rfl, List.nil_prefix⟩
  | @next c d cs hn' hs hp ih =>
    obtain ⟨n, rfl⟩ : ∃ m, n = m + 1 := ⟨n - 1, by omega⟩
    rw [walkClusters_succ]
    cases j with
    | zero =>
      rw [List.take_succ_cons, List.take_zero]
      exact List.cons_prefix_cons.mpr ⟨rfl, List.nil_prefix⟩
    | succ j =>
      obtain rfl := Option.some.inj hs
      have hc : c + 1 < fs.clusters := hacc c (by simp)
      have hd : nextWord look fs v c < fs.clusters :=
        hbelow _ (List.mem_cons_of_mem _ hp.head_mem)
      have hpred := hwf.clustersPred_eq (by omega)
      rw [if_neg (by omega), if_neg (by omega), List.take_succ_cons]
      refine List.cons_prefix_cons.mpr ⟨rfl, ih (by simpa using hj) (by omega) ?_ ?_⟩
      · exact fun e he => hacc e (by simp [he])
      · exact fun e he => hbelow e (List.mem_cons_of_mem _ he)

/-- A walk that the accessor lets pass over every cluster is the chain and reaches its end. -/
theorem DirChain.walk_all (hwf : WellFormed fs) (h : DirChain look fs v start cs) {n : ℕ}
    (hn : cs.length ≤ n) (hacc : ∀ c ∈ cs, c + 1 < fs.clusters) :
    walkClusters look fs v n start = cs ∧ walkEnded look fs v n start = true := by
  obtain ⟨hp, hbelow⟩ := h
  have hmax := hwf.clusters_lt
  rw [sfatEntryMax] at hmax
  induction hp generalizing n with
  | @stop c hD =>
    obtain ⟨n, rfl⟩ : ∃ m, n = m + 1 := ⟨n - 1, by simp at hn; omega⟩
    have hc : c + 1 < fs.clusters := hacc c (by simp)
    have hpred : ¬ fs.clustersPred ≤ c := by
      rw [hwf.clustersPred_eq (by omega)]
      omega
    have hend : fs.clusters < nextWord look fs v c := by
      have hword : nextWord look fs v c = sfatEntryEoc := hD
      rw [hword, sfatEntryEoc]
      omega
    rw [walkClusters_succ, walkEnded, if_neg hpred, if_neg hpred, if_pos hend, if_pos hend]
    exact ⟨rfl, rfl⟩
  | @next c d cs hn' hs hp ih =>
    obtain ⟨n, rfl⟩ : ∃ m, n = m + 1 := ⟨n - 1, by simp at hn; omega⟩
    obtain rfl := Option.some.inj hs
    have hc : c + 1 < fs.clusters := hacc c (by simp)
    have hd : nextWord look fs v c < fs.clusters :=
      hbelow _ (List.mem_cons_of_mem _ hp.head_mem)
    have hpred : ¬ fs.clustersPred ≤ c := by
      rw [hwf.clustersPred_eq (by omega)]
      omega
    have hnext : ¬ fs.clusters < nextWord look fs v c := by omega
    obtain ⟨hw, he⟩ := ih (n := n) (by simpa using hn)
      (fun e he => hacc e (List.mem_cons_of_mem _ he))
      (fun e he => hbelow e (List.mem_cons_of_mem _ he))
    rw [walkClusters_succ, walkEnded, if_neg hpred, if_neg hpred, if_neg hnext, if_neg hnext, hw,
      he]
    exact ⟨rfl, rfl⟩

end Walk

/-! ### The slots before the terminator -/

def beforeEnd (slots : List Slot) : List Slot := slots.takeWhile fun s => !s.isEnd

section BeforeEnd

variable {slots pre post : List Slot} {s : Slot}

theorem beforeEnd_noEnd (slots : List Slot) : (beforeEnd slots).any Slot.isEnd = false := by
  rw [List.any_eq_false]
  intro t ht
  simpa using List.mem_takeWhile_imp ht

theorem beforeEnd_of_noEnd (h : slots.any Slot.isEnd = false) : beforeEnd slots = slots := by
  rw [beforeEnd, List.takeWhile_eq_self_iff]
  intro t ht
  simpa using List.any_eq_false.mp h t ht

theorem beforeEnd_split (hpre : pre.any Slot.isEnd = false) (hs : s.isEnd = true) :
    beforeEnd (pre ++ s :: post) = pre := by
  have hself := beforeEnd_of_noEnd hpre
  rw [beforeEnd] at hself ⊢
  rw [List.takeWhile_append, hself, if_pos rfl, List.takeWhile_cons_of_neg (by simp [hs]),
    List.append_nil]

/-- The slots without a terminator at the start come first. -/
theorem beforeEnd_prefix (hpre : pre.any Slot.isEnd = false) :
    beforeEnd (pre ++ post) = pre ++ beforeEnd post := by
  have hself := beforeEnd_of_noEnd hpre
  rw [beforeEnd] at hself ⊢
  rw [List.takeWhile_append, hself, if_pos rfl, beforeEnd]

/-- A list has no terminator, or is split by the first one. -/
theorem noEnd_or_split (slots : List Slot) : slots.any Slot.isEnd = false ∨
    ∃ s post, slots = beforeEnd slots ++ s :: post ∧ s.isEnd = true := by
  induction slots with
  | nil => exact .inl rfl
  | cons t slots ih =>
    by_cases ht : t.isEnd = true
    · refine .inr ⟨t, slots, ?_, ht⟩
      rw [beforeEnd, List.takeWhile_cons_of_neg (by simp [ht]), List.nil_append]
    · have hcons : beforeEnd (t :: slots) = t :: beforeEnd slots := by
        rw [beforeEnd, List.takeWhile_cons_of_pos (by simpa using ht), beforeEnd]
      rcases ih with hno | ⟨s, post, hsplit, hs⟩
      · exact .inl (by simp [ht, hno])
      · refine .inr ⟨s, post, ?_, hs⟩
        rw [hcons, List.cons_append, ← hsplit]

theorem liveSlots_beforeEnd (slots : List Slot) : liveSlots (beforeEnd slots) = liveSlots slots := by
  rcases noEnd_or_split slots with hno | ⟨s, post, hsplit, hs⟩
  · rw [beforeEnd_of_noEnd hno]
  · have hlive : liveSlots (beforeEnd slots ++ s :: post) = _ :=
      liveSlots_split (beforeEnd_noEnd slots) hs
    rw [← hsplit] at hlive
    exact hlive.symm

/-- The live slots on both sides of a position that no terminator precedes. -/
theorem liveSlots_take_drop {n : ℕ} (h : (slots.take n).any Slot.isEnd = false) :
    liveSlots slots = liveSlots (slots.take n) ++ liveSlots (slots.drop n) := by
  have happend : liveSlots (slots.take n ++ slots.drop n) = _ := live_append_of_not_stop h _
  rwa [List.take_append_drop] at happend

end BeforeEnd

/-! ### One call -/

/-- What a call does with the slots from its position on. -/
inductive CallOutcome (refuse : FilldirCall → Prop) (rest : List Slot) (f : ℕ)
    (st : ReaddirState) : Prop
  /-- It reports the used slots up to the terminator, and passes the terminator. -/
  | complete : st.error = 0 → Emits f (beforeEnd rest) st.dirent →
      st.cpos = f + 32 * min ((beforeEnd rest).length + 1) rest.length →
      CallOutcome refuse rest f st
  /-- It stops at a used slot that is refused. -/
  | refused {pre post : List Slot} {s : Slot} {call : FilldirCall} :
      beforeEnd rest = pre ++ s :: post → s.isEmpty = false → Reports st.cpos s call →
      refuse call → st.error < 0 → Emits f pre st.dirent → st.cpos = f + 32 * pre.length →
      CallOutcome refuse rest f st

/-- When a call from position `f` of a directory does what it should: it starts inside the
directory, no terminator was passed or no used slot lies before the next one, and the accessor lets
the call get as far as it has to. -/
structure CallCondition (fs : FsInfo) (cs : List ℕ) (slots : List Slot) (f : ℕ) : Prop where
  inside : f < cs.length * fs.clusterSize
  fresh : (slots.take (f / 32)).any Slot.isEnd = false ∨ liveSlots (slots.drop (f / 32)) = []
  accepted : ∀ c ∈ cs.take (max 1 ((f / 32 + (beforeEnd (slots.drop (f / 32))).length) /
    (fs.clusterSize / 32))), c + 1 < fs.clusters

theorem dirSlots_take (hwf : WellFormed fs) (cs : List ℕ) {j : ℕ} (hj : j ≤ cs.length) :
    dirSlots fs v (cs.take j) = (dirSlots fs v cs).take (j * (fs.clusterSize / 32)) := by
  have hsplit : dirSlots fs v cs = dirSlots fs v (cs.take j) ++ dirSlots fs v (cs.drop j) := by
    rw [← dirSlots_append, List.take_append_drop]
  rw [hsplit, List.take_left']
  rw [dirSlots_length, List.length_take, Nat.min_eq_left hj, slots_per_cluster hwf]

theorem dirSlots_drop (hwf : WellFormed fs) (cs : List ℕ) {j : ℕ} (hj : j ≤ cs.length) :
    dirSlots fs v (cs.drop j) = (dirSlots fs v cs).drop (j * (fs.clusterSize / 32)) := by
  have hsplit : dirSlots fs v cs = dirSlots fs v (cs.take j) ++ dirSlots fs v (cs.drop j) := by
    rw [← dirSlots_append, List.take_append_drop]
  rw [hsplit, List.drop_left']
  rw [dirSlots_length, List.length_take, Nat.min_eq_left hj, slots_per_cluster hwf]

/-- What the walk of a call leaves, on the slots that the walk sees. -/
theorem CallOutcome.of_walk {L rest : List Slot} {ended : Bool} {f : ℕ} {st : ReaddirState}
    (hwalk : WalkOutcome refuse L ended ⟨0, f, []⟩ st)
    (hL : rest.any Slot.isEnd = false ∧ L = rest ∧ ended = true ∨
      ∃ s post post', s.isEnd = true ∧ rest = beforeEnd rest ++ s :: post ∧
        L = beforeEnd rest ++ s :: post') :
    CallOutcome refuse rest f st := by
  have hbefore : beforeEnd L = beforeEnd rest := by
    rcases hL with ⟨-, rfl, -⟩ | ⟨s, post, post', hs, -, hL⟩
    · rfl
    · rw [hL, beforeEnd_split (beforeEnd_noEnd rest) hs]
  cases hwalk with
  | stopped hstop =>
    cases hstop with
    | @atEnd pre s post st₁ hsplit hpass hend hst =>
      have hpre : beforeEnd rest = pre := by rw [← hbefore, hsplit, beforeEnd_split hpass.noEnd hend]
      obtain ⟨calls, hdir, hemit⟩ := hpass.emitted
      rw [List.nil_append] at hdir
      refine .complete ?_ ?_ ?_
      · rw [hst]
        exact hpass.error
      · rw [hpre, hst, show ({ st₁ with cpos := st₁.cpos + 32 } : ReaddirState).dirent = calls from hdir]
        exact hemit
      · have hlong : pre.length + 1 ≤ rest.length := by
          rcases hL with ⟨hno, rfl, -⟩ | ⟨t, post₂, -, -, hrest, -⟩
          · rw [hsplit, List.any_append, List.any_cons, hend] at hno
            simp at hno
          · rw [hrest, hpre, List.length_append, List.length_cons]
            omega
        rw [hst, hpre, Nat.min_eq_left hlong]
        show st₁.cpos + 32 = _
        rw [hpass.cpos]
        ring
    | @refused pre s post st₁ call hsplit hpass hend hemp hrep href herr hpos hdir =>
      obtain ⟨calls, hdir', hemit⟩ := hpass.emitted
      rw [List.nil_append] at hdir'
      have hpre : beforeEnd rest = pre ++ s :: beforeEnd post := by
        rw [← hbefore, hsplit, beforeEnd_prefix hpass.noEnd, beforeEnd,
          List.takeWhile_cons_of_pos (by simp [hend]), beforeEnd]
      refine .refused hpre hemp ?_ href herr ?_ ?_
      · rwa [hpos]
      · rw [hdir, hdir']
        exact hemit
      · rw [hpos, hpass.cpos]
  | passed hended hpass =>
    obtain ⟨calls, hdir, hemit⟩ := hpass.emitted
    rw [List.nil_append] at hdir
    rcases hL with ⟨hno, rfl, -⟩ | ⟨s, post, post', hs, -, hL⟩
    · refine .complete hpass.error ?_ ?_
      · rw [beforeEnd_of_noEnd hno, hdir]
        exact hemit
      · rw [beforeEnd_of_noEnd hno, Nat.min_eq_right (Nat.le_succ _), hpass.cpos]
    · have hno := hpass.noEnd
      rw [hL, List.any_append, List.any_cons, hs] at hno
      simp at hno
  | exhausted hended hno herr =>
    rcases hL with ⟨-, -, htrue⟩ | ⟨s, post, post', hs, -, hL⟩
    · rw [hended] at htrue
      cases htrue
    · rw [hL, List.any_append, List.any_cons, hs] at hno
      simp at hno

/-- The slots that a walk from the first cluster of a chain sees, from its slot `k` on: those of
the chain, at least up to the terminator. -/
theorem DirChain.walk_slots (hwf : WellFormed fs) {start n k : ℕ} {cs : List ℕ}
    {rest L : List Slot} (h : DirChain look fs v start cs) (hn : cs.length ≤ n)
    (hk : k < fs.clusterSize / 32) (hrest : (dirSlots fs v cs).drop k = rest)
    (hL : (dirSlots fs v (walkClusters look fs v n start)).drop k = L)
    (hacc : ∀ c ∈ cs.take ((k + (beforeEnd rest).length) / (fs.clusterSize / 32)),
      c + 1 < fs.clusters) :
    rest.any Slot.isEnd = false ∧ L = rest ∧ walkEnded look fs v n start = true ∨
      ∃ s post post', s.isEnd = true ∧ rest = beforeEnd rest ++ s :: post ∧
        L = beforeEnd rest ++ s :: post' := by
  obtain ⟨spc, hspc⟩ : ∃ spc, fs.clusterSize / 32 = spc := ⟨_, rfl⟩
  have hslots : (dirSlots fs v cs).length = cs.length * spc := by
    rw [dirSlots_length, slots_per_cluster hwf, hspc]
  have hlong : cs.length * spc - k = rest.length := by rw [← hrest, List.length_drop, hslots]
  have hne : spc ≤ cs.length * spc :=
    Nat.le_mul_of_pos_left _ (List.length_pos_iff.mpr h.path.ne_nil)
  rw [hspc] at hk hacc
  rcases noEnd_or_split rest with hno | ⟨s, post, hsplit, hs⟩
  · -- no terminator: the walk has to get over every cluster
    have hall : ∀ c ∈ cs, c + 1 < fs.clusters := by
      intro c hc
      refine hacc c ?_
      rw [beforeEnd_of_noEnd hno, ← hlong, Nat.add_sub_cancel' (by omega),
        Nat.mul_div_cancel _ (by omega), List.take_length]
      exact hc
    obtain ⟨hw, hended⟩ := h.walk_all hwf hn hall
    exact .inl ⟨hno, by rw [← hL, ← hrest, hw], hended⟩
  · -- the walk has to get to the cluster of the terminator
    generalize hbefore : beforeEnd rest = before at *
    obtain ⟨m, hm⟩ : ∃ m, k + before.length = m := ⟨_, rfl⟩
    obtain ⟨j, hj⟩ : ∃ j, m / spc = j := ⟨_, rfl⟩
    have hmlt : m < cs.length * spc := by
      rw [hsplit, List.length_append, List.length_cons] at hlong
      omega
    have hjlen : j < cs.length := by
      rw [← hj]
      exact Nat.div_lt_of_lt_mul (by rwa [Nat.mul_comm])
    have hmj : m < (j + 1) * spc := by
      rw [← hj]
      exact Nat.lt_mul_of_div_lt (Nat.lt_succ_self _) (by omega)
    have hle : (j + 1) * spc ≤ cs.length * spc := Nat.mul_le_mul_right _ hjlen
    rw [hm, hj] at hacc
    obtain ⟨more, hmore⟩ := h.walk_take hwf hjlen (Nat.lt_of_lt_of_le hjlen hn) hacc
    refine .inr ⟨s, post, post.take ((j + 1) * spc - m - 1) ++ dirSlots fs v more, hs, hsplit, ?_⟩
    have htake : ((dirSlots fs v cs).take ((j + 1) * spc)).drop k =
        before ++ s :: post.take ((j + 1) * spc - m - 1) := by
      have hq : (j + 1) * spc - k - before.length = (j + 1) * spc - m - 1 + 1 := by omega
      rw [List.drop_take, hrest, hsplit, List.take_append, List.take_of_length_le (by omega), hq,
        List.take_succ_cons]
    have hslotsTake : dirSlots fs v (cs.take (j + 1)) = _ := dirSlots_take hwf cs hjlen
    rw [← hL, ← hmore, dirSlots_append, hslotsTake, hspc,
      List.drop_append_of_le_length (by rw [List.length_take, hslots]; omega), htake,
      List.append_assoc, List.cons_append]

/-- **One call on a directory**, from a position where it does what it should. -/
theorem readdir_call (hwf : WellFormed fs) {start : ℕ} {cs : List ℕ}
    (hchain : DirChain look fs v start cs) {f : ℕ} (halign : f % 32 = 0)
    (hcond : CallCondition fs cs (dirSlots fs v cs) f) :
    wp (refusingWorld refuse look) (sfatReaddir fs start (cs.length * fs.clusterSize) f)
      (fun st v' => v' = v ∧ CallOutcome refuse ((dirSlots fs v cs).drop (f / 32)) f st) v := by
  have hcs := hwf.clusterSize_pos
  have hcs15 := hwf.clusterSize_le
  have hmax := hwf.clusters_lt
  rw [sfatEntryMax] at hmax
  have hlen : cs.length ≤ fs.clusters := hchain.path.length_le hchain.below
  have hne : 0 < cs.length := List.length_pos_iff.mpr hchain.path.ne_nil
  obtain ⟨hinside, -, hacc⟩ := hcond
  -- a cluster has a whole number of slots
  obtain ⟨spc, hspc, hspc0⟩ : ∃ spc, fs.clusterSize = 32 * spc ∧ 0 < spc := by
    obtain ⟨d, hd16, -, hbs⟩ := hwf.blockSize_slots
    refine ⟨fs.blkPerClus * d, by rw [hwf.clusterSize_blocks, hbs]; ring, ?_⟩
    exact Nat.mul_pos hwf.blkPerClus_pos (by omega)
  have hdiv : fs.clusterSize / 32 = spc := by omega
  rw [hdiv] at hacc
  -- the cluster of the position, and the slot in it
  obtain ⟨i, hi⟩ : ∃ i, f / fs.clusterSize = i := ⟨_, rfl⟩
  obtain ⟨k, hk⟩ : ∃ k, f % fs.clusterSize / 32 = k := ⟨_, rfl⟩
  have hilen : i < cs.length := by
    rw [← hi]
    exact Nat.div_lt_of_lt_mul (by rwa [Nat.mul_comm])
  have hkspc : k < spc := by
    have := Nat.mod_lt f hcs
    omega
  have hfk : f / 32 = i * spc + k := by
    have hsplit := Nat.div_add_mod f fs.clusterSize
    have hmul : fs.clusterSize * i = 32 * (i * spc) := by rw [hspc]; ring
    rw [hi, hmul] at hsplit
    omega
  have hrest : (dirSlots fs v (cs.drop i)).drop k = (dirSlots fs v cs).drop (f / 32) := by
    rw [dirSlots_drop hwf cs (Nat.le_of_lt hilen), hdiv, List.drop_drop, hfk]
  generalize (dirSlots fs v cs).drop (f / 32) = rest at *
  -- which clusters are accepted
  obtain ⟨j, hj⟩ : ∃ j, (k + (beforeEnd rest).length) / spc = j := ⟨_, rfl⟩
  have hij : (f / 32 + (beforeEnd rest).length) / spc = i + j := by
    rw [hfk, Nat.add_assoc, Nat.mul_comm, Nat.mul_add_div hspc0, hj]
  rw [hij] at hacc
  have hstart : start + 1 < fs.clusters := by
    refine hacc start (List.take_subset_take_left cs (Nat.le_max_left _ _) ?_)
    obtain ⟨c, ds, rfl⟩ := List.exists_cons_of_length_pos hne
    cases hchain.path with
    | stop _ => exact List.mem_cons_self
    | next _ _ _ => exact List.mem_cons_self
  have hpred : ¬ fs.clustersPred ≤ start := by
    rw [hwf.clustersPred_eq (by omega)]
    omega
  have hacci : ∀ c ∈ cs.take i, c + 1 < fs.clusters := fun c hc =>
    hacc c (List.take_subset_take_left cs (by omega) hc)
  have haccj : ∀ c ∈ (cs.drop i).take j, c + 1 < fs.clusters := by
    intro c hc
    rw [List.take_drop] at hc
    exact hacc c (List.take_subset_take_left cs (by omega) (List.mem_of_mem_drop hc))
  have hcls : linked (nextCls look fs v) i start = some cs[i] := by
    obtain ⟨more, hmore⟩ := hchain.walk_take hwf hilen hilen hacci
    rw [List.take_succ_eq_append_getElem hilen, List.append_assoc, List.singleton_append] at hmore
    have hlinked := (trail_split hmore.symm).1
    rwa [List.length_take, Nat.min_eq_left (by omega)] at hlinked
  -- the sizes
  have hrounds : (cs.length * fs.clusterSize + fs.clusterSize - 1) / fs.clusterSize = cs.length := by
    rw [Nat.add_sub_assoc hcs, Nat.mul_comm, Nat.mul_add_div hcs,
      Nat.div_eq_of_lt (by omega), Nat.add_zero]
  have hbytes : cs.length * fs.clusterSize ≤ 2 ^ 32 * 2 ^ 15 := Nat.mul_le_mul (by omega) hcs15
  have h32 : 32 ≤ cs.length * fs.clusterSize := by
    have := Nat.mul_le_mul hne (show 32 ≤ fs.clusterSize by omega)
    omega
  have hlinked : linked (nextCls look fs v) (f / fs.clusterSize) start = some cs[i] := by
    rw [hi]
    exact hcls
  refine wp_mono (sfatReaddir_spec hwf h32 (by rw [sizeT]; omega) hinside halign hpred hlinked)
    fun st v' hst => ⟨hst.1, ?_⟩
  obtain ⟨rfl, hwalk⟩ := hst
  rw [hrounds, hk] at hwalk
  refine CallOutcome.of_walk hwalk ((hchain.drop hilen).walk_slots hwf ?_ (hdiv ▸ hkspc) hrest rfl ?_)
  · rw [List.length_drop]
    omega
  · rwa [hdiv, hj]

/-! ### Runs of calls -/

/-- One call of a run: the entries that `filldir` may refuse in it, and what it left behind. -/
structure ReaddirCall where
  refuse : FilldirCall → Prop
  st : ReaddirState

def accepted (calls : List ReaddirCall) : List FilldirCall := calls.flatMap fun c => c.st.dirent

/-- The runs of calls on one open directory, each from a position with the property `P`; they end
with a position and a volume. -/
inductive EnumerationRun (look : (blk pos : ℕ) → Page → ℕ) (fs : FsInfo) (v : Vol)
    (start size : ℕ) (P : ℕ → Prop) : List ReaddirCall → ℕ → Vol → Prop
  | opened : EnumerationRun look fs v start size P [] 0 v
  | call {calls : List ReaddirCall} {f : ℕ} {v₁ v₂ : Vol} {refuse : FilldirCall → Prop}
      {tr : List Request} {st : ReaddirState} :
      EnumerationRun look fs v start size P calls f v₁ → P f →
      Exec (refusingWorld refuse look) (sfatReaddir fs start size f) v₁ tr st v₂ →
      EnumerationRun look fs v start size P (calls ++ [⟨refuse, st⟩]) st.cpos v₂

/-- What a call should do after the calls before it: the accepted entries are the first live slots,
all of them if it returns 0, which it does if nothing is refused; and nothing is emitted once all
were accepted. -/
structure CallCorrect (slots : List Slot) (before : List ReaddirCall) (c : ReaddirCall) : Prop where
  inOrder : ∃ k, List.Forall₂ (ReportsSlot slots) (accepted (before ++ [c]))
    ((liveSlots slots).take k)
  complete : c.st.error = 0 →
    List.Forall₂ (ReportsSlot slots) (accepted (before ++ [c])) (liveSlots slots)
  returns : (∀ call, ¬ c.refuse call) → c.st.error = 0
  silent : (accepted before).length = (liveSlots slots).length →
    c.st.error = 0 ∧ c.st.dirent = []

def RunCorrect (slots : List Slot) (calls : List ReaddirCall) : Prop :=
  ∀ before c after, calls = before ++ c :: after → CallCorrect slots before c

/-- The invariant of a run: the accepted entries are the live slots before the position. -/
structure EnumerationInv (slots : List Slot) (calls : List ReaddirCall) (f : ℕ) : Prop where
  aligned : f % 32 = 0
  reported : List.Forall₂ (ReportsSlot slots) (accepted calls) (liveSlots (slots.take (f / 32)))

section Runs

variable {slots rest pre post : List Slot} {f : ℕ}

theorem accepted_concat (calls : List ReaddirCall) (c : ReaddirCall) :
    accepted (calls ++ [c]) = accepted calls ++ c.st.dirent := by
  rw [accepted, List.flatMap_append, List.flatMap_singleton, accepted]

/-- The live slots before a position are the first live slots. -/
theorem liveSlots_take (slots : List Slot) (n : ℕ) :
    ∃ k, liveSlots (slots.take n) = (liveSlots slots).take k := by
  cases hend : (slots.take n).any Slot.isEnd with
  | true =>
    have hstop : liveSlots (slots.take n ++ slots.drop n) = _ := live_append_of_stop hend _
    rw [List.take_append_drop] at hstop
    exact ⟨(liveSlots slots).length, by rw [List.take_length, hstop, liveSlots]⟩
  | false =>
    refine ⟨(liveSlots (slots.take n)).length, ?_⟩
    rw [liveSlots_take_drop hend, List.take_left]

/-- The calls for slots from a position on report slots of the directory. -/
theorem Emits.reports_from {calls : List FilldirCall} (h : Emits f pre calls)
    (hpre : pre.any Slot.isEnd = false) (halign : f % 32 = 0)
    (hrest : slots.drop (f / 32) = pre ++ post) :
    List.Forall₂ (ReportsSlot slots) calls (liveSlots pre) := by
  refine (h.forall₂ hpre).imp fun call s hs => ⟨hs.1, ?_⟩
  obtain ⟨i, hpos, hi⟩ := hs.2
  have hdiv : call.pos / 32 = f / 32 + i := by omega
  refine ⟨by omega, ?_⟩
  rw [hdiv, ← List.getElem?_drop, hrest,
    List.getElem?_append_left (List.getElem?_eq_some_iff.mp hi).1, hi]

/-- The live slots before the position that a call leaves, and what it emitted. -/
theorem CallOutcome.emitted {st : ReaddirState} (halign : f % 32 = 0)
    (hrest : slots.drop (f / 32) = rest) (h : CallOutcome refuse rest f st) :
    ∃ m, st.cpos = f + 32 * m ∧
      List.Forall₂ (ReportsSlot slots) st.dirent (liveSlots (rest.take m)) ∧
      (st.error = 0 → liveSlots (rest.take m) = liveSlots rest) ∧
      (st.error ≠ 0 → (∃ call, refuse call) ∧ liveSlots rest ≠ []) := by
  have hno := beforeEnd_noEnd rest
  cases h with
  | complete herr hemit hpos =>
    have htake : liveSlots (rest.take (min ((beforeEnd rest).length + 1) rest.length)) =
        liveSlots rest := by
      rcases noEnd_or_split rest with hnoEnd | ⟨s, post, hsplit, hs⟩
      · rw [beforeEnd_of_noEnd hnoEnd, Nat.min_eq_right (Nat.le_succ _), List.take_length]
      · generalize beforeEnd rest = pre at *
        have hlong : pre.length + 1 ≤ rest.length := by
          rw [hsplit, List.length_append, List.length_cons]
          omega
        rw [Nat.min_eq_left hlong, hsplit, List.take_length_add_append, List.take_succ_cons,
          List.take_zero, liveSlots_split hno hs, liveSlots_split hno hs]
    refine ⟨_, hpos, ?_, fun _ => htake, fun hne => absurd herr hne⟩
    rw [htake, ← liveSlots_beforeEnd rest]
    rcases noEnd_or_split rest with hnoEnd | ⟨s, post, hsplit, -⟩
    · have hall : slots.drop (f / 32) = beforeEnd rest ++ [] := by
        rw [hrest, beforeEnd_of_noEnd hnoEnd, List.append_nil]
      exact hemit.reports_from hno halign hall
    · exact hemit.reports_from hno halign (hrest.trans hsplit)
  | @refused pre post s call hbefore hemp hrep href herr hemit hpos =>
    obtain ⟨tail, htail⟩ : ∃ tail, rest = pre ++ s :: tail := by
      rcases noEnd_or_split rest with hnoEnd | ⟨t, tail, hsplit, -⟩
      · exact ⟨post, by rw [← hbefore, beforeEnd_of_noEnd hnoEnd]⟩
      · exact ⟨post ++ t :: tail, by rw [hsplit, hbefore, List.append_assoc, List.cons_append]⟩
    rw [hbefore, List.any_append, List.any_cons, Bool.or_eq_false_iff, Bool.or_eq_false_iff] at hno
    refine ⟨pre.length, hpos, ?_, fun h0 => absurd h0 (by omega), fun _ => ⟨⟨call, href⟩, ?_⟩⟩
    · rw [htail, List.take_left]
      exact hemit.reports_from hno.1 halign (hrest.trans htail)
    · -- the refused slot is live
      have hlive : liveSlots rest = liveSlots pre ++ liveSlots (s :: tail) := by
        rw [htail]
        exact live_append_of_not_stop hno.1 _
      rw [hlive, liveSlots, liveSlots, live, if_neg (by simp [hno.2.1]), if_neg (by simp [hemp])]
      simp

/-- The invariant holds when the directory is opened. -/
theorem EnumerationInv.opened : EnumerationInv slots [] 0 :=
  ⟨rfl, .nil⟩

/-- **A call from a position where it does what it should** keeps the invariant and is correct. -/
theorem EnumerationInv.step {calls : List ReaddirCall} (h : EnumerationInv slots calls f)
    (hfresh : (slots.take (f / 32)).any Slot.isEnd = false ∨ liveSlots (slots.drop (f / 32)) = [])
    {st : ReaddirState} (hout : CallOutcome refuse (slots.drop (f / 32)) f st) :
    EnumerationInv slots (calls ++ [⟨refuse, st⟩]) st.cpos ∧
      CallCorrect slots calls ⟨refuse, st⟩ := by
  obtain ⟨halign, hreported⟩ := h
  obtain ⟨m, hpos, hemit, hzero, hrefused⟩ := hout.emitted halign rfl
  have hnext : st.cpos / 32 = f / 32 + m := by omega
  generalize f / 32 = n at *
  have htake : slots.take (n + m) = slots.take n ++ (slots.drop n).take m := List.take_add
  -- the live slots before both positions
  have hlive : liveSlots (slots.take (n + m)) =
      liveSlots (slots.take n) ++ liveSlots ((slots.drop n).take m) ∧
      liveSlots slots = liveSlots (slots.take n) ++ liveSlots (slots.drop n) := by
    cases hend : (slots.take n).any Slot.isEnd with
    | false =>
      rw [htake]
      exact ⟨live_append_of_not_stop hend _, liveSlots_take_drop hend⟩
    | true =>
      have hnil : liveSlots (slots.drop n) = [] := hfresh.resolve_left (by simp [hend])
      obtain ⟨k, hk⟩ := liveSlots_take (slots.drop n) m
      have hstop : ∀ bs, liveSlots (slots.take n ++ bs) = liveSlots (slots.take n) := fun bs =>
        live_append_of_stop hend bs
      refine ⟨?_, ?_⟩
      · rw [htake, hstop, hk, hnil, List.take_nil, List.append_nil]
      · rw [hnil, List.append_nil, ← hstop (slots.drop n), List.take_append_drop]
  have hall : List.Forall₂ (ReportsSlot slots) (accepted (calls ++ [⟨refuse, st⟩]))
      (liveSlots (slots.take (n + m))) := by
    rw [accepted_concat, hlive.1]
    exact List.rel_append hreported hemit
  refine ⟨⟨by omega, by rwa [hnext]⟩, ?_, fun h0 => ?_, fun hnone => ?_, fun hdone => ?_⟩
  · obtain ⟨k, hk⟩ := liveSlots_take slots (n + m)
    exact ⟨k, hk ▸ hall⟩
  · rwa [hlive.1, hzero h0, ← hlive.2] at hall
  · by_contra hne
    obtain ⟨⟨call, hcall⟩, -⟩ := hrefused hne
    exact hnone call hcall
  · -- nothing is left after the position
    have hnil : liveSlots (slots.drop n) = [] := by
      have hlen := hreported.length_eq
      rw [hdone, hlive.2, List.length_append] at hlen
      exact List.eq_nil_of_length_eq_zero (by omega)
    have h0 : st.error = 0 := by
      by_contra hne
      exact (hrefused hne).2 hnil
    rw [hzero h0, hnil] at hemit
    exact ⟨h0, List.forall₂_nil_right_iff.mp hemit⟩

theorem RunCorrect.concat {calls : List ReaddirCall} {c : ReaddirCall}
    (h : RunCorrect slots calls) (hc : CallCorrect slots calls c) :
    RunCorrect slots (calls ++ [c]) := by
  intro before d after hsplit
  -- the call is the last one, or an earlier one
  rcases List.eq_nil_or_concat after with rfl | ⟨after, e, rfl⟩
  · obtain ⟨rfl, hlast⟩ := List.append_inj' hsplit rfl
    obtain rfl := (List.cons.inj hlast).1
    exact hc
  · rw [List.concat_eq_append, ← List.cons_append, ← List.append_assoc] at hsplit
    exact h before d after (List.append_inj' hsplit rfl).1

end Runs

/-- **Runs enumerate a directory**: if every call starts inside the directory, at a position where
no terminator was passed or no used slot lies before the next one, and the accessor lets it get as
far as it has to, then every call of the run is correct. -/
theorem enumeration_runs (hwf : WellFormed fs) {start : ℕ} {cs : List ℕ}
    (hchain : DirChain look fs v start cs) {calls : List ReaddirCall} {f : ℕ} {v₁ : Vol}
    (hrun : EnumerationRun look fs v start (cs.length * fs.clusterSize)
      (CallCondition fs cs (dirSlots fs v cs)) calls f v₁) :
    RunCorrect (dirSlots fs v cs) calls := by
  have hinv : v₁ = v ∧ EnumerationInv (dirSlots fs v cs) calls f ∧
      RunCorrect (dirSlots fs v cs) calls := by
    induction hrun with
    | opened => exact ⟨rfl, .opened, fun before c after h => by simp at h⟩
    | @call calls f v₁ v₂ refuse tr st hrun hcond hexec ih =>
      obtain ⟨rfl, hinv, hcorrect⟩ := ih
      obtain ⟨rfl, hout⟩ := (wp_iff_exec _ _ _).mp (readdir_call hwf hchain hinv.aligned hcond)
        _ _ _ hexec
      obtain ⟨hinv', hcall⟩ := hinv.step hcond.fresh hout
      exact ⟨rfl, hinv', hcorrect.concat hcall⟩
  exact hinv.2.2

/-- Nothing fails, and `filldir` takes the entries up to a position. -/
def roomUpTo (room : ℕ) : Vol → (c : Request) → Answer c × Vol
  | v, .filldir call => (if room ≤ call.pos then (-1 : ℤ) else 0, v)
  | v, c => Host.quiet (fun _ => storedWord) v c

theorem roomUpTo_world (room : ℕ) (v : Vol) (c : Request) :
    refusingWorld (fun call => room ≤ call.pos) storedWord v c (roomUpTo room v c).1
      (roomUpTo room v c).2 := by
  have hquiet : refusingWorld (fun call => room ≤ call.pos) storedWord v c
      (Host.quiet (fun _ => storedWord) v c).1 (Host.quiet (fun _ => storedWord) v c).2 :=
    Host.quiet_world (fun _ _ _ _ => rfl) v c
  cases c with
  | filldir call =>
    refine ⟨rfl, ?_⟩
    by_cases hroom : room ≤ call.pos
    · exact .inr ⟨by simp [roomUpTo, hroom], hroom⟩
    · exact .inl (by simp [roomUpTo, hroom])
  | _ => exact hquiet

/-- A call from position `f` on the root directory of a volume. -/
def callUpTo (room : ℕ) (v : Vol) (f : ℕ) : ReaddirCall where
  refuse := fun call => room ≤ call.pos
  st := (run (roomUpTo room) (sfatReaddir sbi31.fsInfo 0 2048 f) v).1

/-- The first call is a run, and leaves the volume as it was. -/
theorem EnumerationRun.first (room : ℕ) (v : Vol) {P : ℕ → Prop} (h0 : P 0) :
    EnumerationRun storedWord sbi31.fsInfo v 0 2048 P [callUpTo room v 0]
      (callUpTo room v 0).st.cpos v := by
  have hexec := Exec.of_run (roomUpTo_world room) (sfatReaddir sbi31.fsInfo 0 2048 0) v
  have hstart : ¬ sbi31.fsInfo.clustersPred ≤ 0 := by
    rw [placed31.toWellFormed.clustersPred_eq (by decide)]
    decide
  have hsame := ((wp_iff_exec _ _ _).mp (sfatReaddir_spec placed31.toWellFormed (by decide)
    (by decide) (by decide) rfl hstart rfl) _ _ _ hexec).1
  rw [hsame] at hexec
  exact .call .opened h0 hexec

/-- A call that goes on where the first one stopped. -/
theorem EnumerationRun.second (room room' : ℕ) {v : Vol} {f : ℕ} {P : ℕ → Prop} (h0 : P 0)
    (hf : (callUpTo room v 0).st.cpos = f) (hP : P f) :
    ∃ f' v', EnumerationRun storedWord sbi31.fsInfo v 0 2048 P [callUpTo room v 0, callUpTo room' v f]
      f' v' := by
  subst hf
  exact ⟨_, _, .call (.first room v h0) hP (Exec.of_run (roomUpTo_world room') _ v)⟩

/-- The root directory with two files, `a` and `b`. -/
def twoFilesVolume : Vol :=
  putAttr (putDirent oneFileVolume 6688 (sfatFormDirEntry false (padName [98]) 0 0 0)) 6720
    sfatAttrEmptyEnd

/-- The buffer of the first call is full after one file; the second call goes on with the other. -/
theorem enumeration_runs_refused :
    (callUpTo 32 twoFilesVolume 0).st.error = -1 ∧
    RunCorrect (dirSlots sbi31.fsInfo twoFilesVolume [0])
      [callUpTo 32 twoFilesVolume 0, callUpTo 2048 twoFilesVolume 32] := by
  have hchain : DirChain storedWord sbi31.fsInfo twoFilesVolume 0 [0] :=
    ⟨.stop (by decide +kernel), by decide⟩
  have hcond : ∀ f, f = 0 ∨ f = 32 →
      CallCondition sbi31.fsInfo [0] (dirSlots sbi31.fsInfo twoFilesVolume [0]) f := by
    rintro f (rfl | rfl)
    · exact ⟨by decide, by decide +kernel, by decide +kernel⟩
    · exact ⟨by decide, by decide +kernel, by decide +kernel⟩
  obtain ⟨f', v', hrun⟩ := EnumerationRun.second 32 2048 (hcond 0 (.inl rfl))
    (show (callUpTo 32 twoFilesVolume 0).st.cpos = 32 by decide +kernel) (hcond 32 (.inr rfl))
  exact ⟨by decide +kernel, enumeration_runs placed31.toWellFormed hchain hrun⟩

/-- The root directory with one file, `a`, and behind the terminator a stale entry, `b`. -/
def staleVolume : Vol :=
  putDirent oneFileVolume 6720 (sfatFormDirEntry false (padName [98]) 0 0 0)

/-- A run of two calls of which the second is not correct. -/
theorem not_runCorrect {slots : List Slot} {v : Vol} {f : ℕ}
    (hf : (callUpTo 2048 v 0).st.cpos = f)
    (h : ¬ CallCorrect slots [callUpTo 2048 v 0] (callUpTo 2048 v f)) :
    ∃ calls f v₁, EnumerationRun storedWord sbi31.fsInfo v 0 2048 (fun _ => True) calls f v₁ ∧
      ¬ RunCorrect slots calls := by
  obtain ⟨f', v', hrun⟩ := EnumerationRun.second 2048 2048 (P := fun _ => True) trivial hf trivial
  exact ⟨_, _, _, hrun, fun hcorrect => h (hcorrect [callUpTo 2048 v 0] (callUpTo 2048 v f) [] rfl)⟩

/-- **The second call emits the stale entry**; and when a full directory was read, the second call
returns `-EINVAL`. -/
theorem enumeration_fails :
    (DirChain storedWord sbi31.fsInfo staleVolume 0 [0] ∧
      ∃ calls f v₁, EnumerationRun storedWord sbi31.fsInfo staleVolume 0 2048 (fun _ => True)
        calls f v₁ ∧ ¬ RunCorrect (dirSlots sbi31.fsInfo staleVolume [0]) calls) ∧
    (DirChain storedWord sbi31.fsInfo fullRootVolume 0 [0] ∧
      ∃ calls f v₁, EnumerationRun storedWord sbi31.fsInfo fullRootVolume 0 2048 (fun _ => True)
        calls f v₁ ∧ ¬ RunCorrect (dirSlots sbi31.fsInfo fullRootVolume [0]) calls) := by
  have hchain : ∀ {v : Vol}, nextWord storedWord sbi31.fsInfo v 0 = sfatEntryEoc →
      DirChain storedWord sbi31.fsInfo v 0 [0] := fun heoc => ⟨.stop heoc, by decide⟩
  refine ⟨⟨hchain (by decide +kernel), ?_⟩, ⟨hchain (by decide +kernel), ?_⟩⟩
  · refine not_runCorrect (f := 64) (by decide +kernel) fun hc => ?_
    have hsilent := (hc.silent (by decide +kernel)).2
    have hone : (callUpTo 2048 staleVolume 64).st.dirent.length = 1 := by decide +kernel
    rw [hsilent] at hone
    exact absurd hone (by decide)
  · refine not_runCorrect (f := 2048) (by decide +kernel) fun hc => ?_
    have hzero := (hc.silent (by decide +kernel)).1
    have herr : (callUpTo 2048 fullRootVolume 2048).st.error = -22 := by decide +kernel
    rw [hzero] at herr
    exact absurd herr (by decide)

end SimpleFat
