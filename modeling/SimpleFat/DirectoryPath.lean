import SimpleFat.DirectorySlots

/-!
# The clusters that a scan of a directory needs

`DirPath` is the chain of a directory up to the first cluster that has the terminator or ends the
chain.  It visits no cluster twice and is not longer than the number of clusters, so the bounds of
the scanners are enough for it, and what they see depends on its slots alone:

* `locate_of_path`, `free_of_path`, `count_of_path` — the three scanners on a directory path;
* `exists_dirPath` — a walk that met the terminator or the end of the chain gives the path.
-/

namespace SimpleFat

open SimpleFat.Lib

variable {refuse : FilldirCall → Prop} {look : (blk pos : ℕ) → Page → ℕ} {fs : FsInfo} {v : Vol}

/-- A cluster of a directory after which no scan goes on: it has the terminator, or the accessor
accepts it and its word is greater than `clusters`. -/
def ScanStops (look : (blk pos : ℕ) → Page → ℕ) (fs : FsInfo) (v : Vol) (cls : ℕ) : Prop :=
  (clusterSlots fs v cls).any Slot.isEnd = true ∨
    cls < fs.clustersPred ∧ fs.clusters < nextWord look fs v cls

/-- The clusters of a directory up to the first one after which no scan goes on. -/
def DirPath (look : (blk pos : ℕ) → Page → ℕ) (fs : FsInfo) (v : Vol) (start : ℕ)
    (cs : List ℕ) : Prop :=
  PathTo (nextCls look fs v) (ScanStops look fs v) start cs

theorem nextCls_some {c d : ℕ} (h : nextCls look fs v c = some d) :
    c < fs.clustersPred ∧ nextWord look fs v c = d ∧ d ≤ fs.clusters := by
  rw [nextCls] at h
  split at h
  · cases h
  · split at h
    · cases h
    · obtain rfl := Option.some.inj h
      exact ⟨by omega, rfl, by omega⟩

/-- A walk that met the terminator or the end of the chain went along the path. -/
theorem exists_dirPath {n start : ℕ}
    (h : (dirSlots fs v (walkClusters look fs v n start)).any Slot.isEnd = true ∨
      walkEnded look fs v n start = true) :
    ∃ cs, DirPath look fs v start cs ∧ cs.length ≤ n := by
  induction n generalizing start with
  | zero => exact absurd h (by simp [walkClusters, trail, walkEnded])
  | succ n ih =>
    rw [walkClusters_succ, dirSlots_cons, List.any_append, walkEnded] at h
    by_cases hend : (clusterSlots fs v start).any Slot.isEnd = true
    · exact ⟨[start], .stop (.inl hend), Nat.succ_le_succ (Nat.zero_le n)⟩
    · have hend' : (clusterSlots fs v start).any Slot.isEnd = false := by simpa using hend
      rw [hend', Bool.false_or] at h
      by_cases hpred : fs.clustersPred ≤ start
      · rw [if_pos hpred, if_pos hpred] at h
        exact absurd h (by simp)
      · by_cases hnext : fs.clusters < nextWord look fs v start
        · exact ⟨[start], .stop (.inr ⟨by omega, hnext⟩), Nat.succ_le_succ (Nat.zero_le n)⟩
        · rw [if_neg hpred, if_neg hpred, if_neg hnext, if_neg hnext] at h
          obtain ⟨cs, hcs, hlen⟩ := ih h
          have hstep : nextCls look fs v start = some (nextWord look fs v start) := by
            rw [nextCls, if_neg hpred, if_neg hnext]
          refine ⟨start :: cs, .next ?_ hstep hcs, Nat.succ_le_succ hlen⟩
          intro hstop
          rcases hstop with hstop | ⟨-, hstop⟩
          · exact hend hstop
          · exact hnext hstop

/-- The bound of the scanners is enough: all clusters of the path but the last are different
numbers below `clusters - 1`. -/
theorem DirPath.length_le (hwf : WellFormed fs) (hpos : 1 ≤ fs.clusters) {start : ℕ}
    {cs : List ℕ} (h : DirPath look fs v start cs) : cs.length ≤ fs.clusters := by
  have hpred := hwf.clustersPred_eq hpos
  have hsub : cs.dropLast ⊆ List.range (fs.clusters - 1) := by
    intro d hd
    rw [List.mem_range, ← hpred]
    obtain ⟨-, e, he⟩ := h.dropLast_next hd
    exact (nextCls_some he).1
  have hnodup : cs.dropLast.Nodup := h.nodup.sublist (List.dropLast_sublist cs)
  have hlen := (List.subperm_of_subset hnodup hsub).length_le
  rw [List.length_range, List.length_dropLast] at hlen
  omega

/-- Any walk that is long enough meets the terminator on the path, or is the path and reaches the
end of the chain. -/
theorem DirPath.walk {start : ℕ} {cs : List ℕ} (h : DirPath look fs v start cs) {n : ℕ}
    (hn : cs.length ≤ n) :
    ((dirSlots fs v cs).any Slot.isEnd = true ∧
      ∃ rest, dirSlots fs v (walkClusters look fs v n start) = dirSlots fs v cs ++ rest) ∨
    ((dirSlots fs v cs).any Slot.isEnd = false ∧ walkClusters look fs v n start = cs ∧
      walkEnded look fs v n start = true ∧ walkRefused look fs v n start = false) := by
  induction h generalizing n with
  | @stop c hstop =>
    obtain ⟨n, rfl⟩ : ∃ m, n = m + 1 := ⟨n - 1, by simp at hn; omega⟩
    rw [walkClusters_succ, walkEnded, walkRefused, dirSlots_cons, dirSlots_nil, List.append_nil]
    by_cases hend : (clusterSlots fs v c).any Slot.isEnd = true
    · rw [dirSlots_cons]
      exact .inl ⟨hend, _, rfl⟩
    · obtain ⟨hlt, hnext⟩ := hstop.resolve_left hend
      have hpred : ¬ fs.clustersPred ≤ c := by omega
      rw [if_neg hpred, if_neg hpred, if_neg hpred, if_pos hnext, if_pos hnext, if_pos hnext]
      exact .inr ⟨by simpa using hend, rfl, rfl, rfl⟩
  | @next c d cs hgo hstep hp ih =>
    obtain ⟨n, rfl⟩ : ∃ m, n = m + 1 := ⟨n - 1, by simp at hn; omega⟩
    obtain ⟨hlt, rfl, hle⟩ := nextCls_some hstep
    have hend : (clusterSlots fs v c).any Slot.isEnd = false := by
      have := fun hend => hgo (.inl hend)
      simpa using this
    have hpred : ¬ fs.clustersPred ≤ c := by omega
    have hnext : ¬ fs.clusters < nextWord look fs v c := by omega
    rw [walkClusters_succ, walkEnded, walkRefused, dirSlots_cons, dirSlots_cons, if_neg hpred,
      if_neg hpred, if_neg hpred, if_neg hnext, if_neg hnext, if_neg hnext, List.any_append, hend,
      Bool.false_or]
    rcases ih (by simpa using hn) with ⟨hany, rest, hrest⟩ | ⟨hany, hwalk, hended, href⟩
    · exact .inl ⟨hany, rest, by rw [hrest, List.append_assoc]⟩
    · exact .inr ⟨hany, by rw [hwalk], hended, href⟩

/-! ### The scanners on a path -/

section Scanners

variable {start : ℕ} {cs : List ℕ}

/-- The scan for a name sees the slots of the path only. -/
theorem DirPath.scanName (h : DirPath look fs v start cs) {n : ℕ} (hn : cs.length ≤ n)
    (name : Vector UInt8 11) :
    locateOutcome fs (walkRefused look fs v n start)
        (scanName name (dirSlots fs v (walkClusters look fs v n start))) =
      .ok (((liveSlots (dirSlots fs v cs)).find? fun s => strncmpEq name s.de.name).map
        (locatedOf fs)) := by
  rcases h.walk hn with ⟨hany, rest, hrest⟩ | ⟨hany, hwalk, -, href⟩
  · rw [hrest, scanName_append, SimpleFat.scanName, scanFor_eq, hany, ← liveSlots]
    cases (liveSlots (dirSlots fs v cs)).find? fun s => strncmpEq name s.de.name with
    | none => rfl
    | some s => rfl
  · rw [hwalk, href, SimpleFat.scanName, scanFor_eq, hany, ← liveSlots]
    cases (liveSlots (dirSlots fs v cs)).find? fun s => strncmpEq name s.de.name with
    | none => rfl
    | some s => rfl

def locateOnPath (fs : FsInfo) (slots : List Slot) (name : Vector UInt8 11) :
    Except Errno LocatedEntry :=
  match (liveSlots slots).find? fun s => strncmpEq name s.de.name with
  | some s => .ok (locatedOf fs s)
  | none => .error .enoent

/-- **`sfat_dentry_locate` on a directory path**: the first live slot with the name. -/
theorem locate_of_path (h : DirPath look fs v start cs) (hlen : cs.length ≤ fs.clusters)
    (name : Vector UInt8 11) (Q : Except Errno LocatedEntry → Vol → Prop) :
    wp (refusingWorld refuse look) (sfatDentryLocate fs start name) Q v ↔
      Q (locateOnPath fs (dirSlots fs v cs) name) v := by
  rw [wp_sfatDentryLocate, chainSlots, h.scanName hlen, locateOnPath]
  cases (liveSlots (dirSlots fs v cs)).find? fun s => strncmpEq name s.de.name with
  | none => exact Iff.rfl
  | some s => exact Iff.rfl

def freeOnPath (fs : FsInfo) (v : Vol) (slots : List Slot) : Except Errno FreeSlot :=
  match firstUnused slots with
  | some s => .ok (freeSlotOf fs v s)
  | none => .error .enoent

/-- **`sfat_free_dentry_locate` on a directory path**: the first slot that is not in use. -/
theorem free_of_path (h : DirPath look fs v start cs) (hlen : cs.length ≤ fs.clusters)
    (Q : Except Errno FreeSlot → Vol → Prop) :
    wp (refusingWorld refuse look) (sfatFreeDentryLocate fs start) Q v ↔
      Q (freeOnPath fs v (dirSlots fs v cs)) v := by
  rw [sfatFreeDentryLocate, wp_freeClusters, freeOnPath]
  rcases h.walk hlen with ⟨hany, rest, hrest⟩ | ⟨hany, hwalk, -, href⟩
  · obtain ⟨s, hs⟩ : ∃ s, firstUnused (dirSlots fs v cs) = some s := by
      cases hf : firstUnused (dirSlots fs v cs) with
      | some s => exact ⟨s, rfl⟩
      | none =>
        -- the terminator itself is not in use
        obtain ⟨s, hs, hend⟩ := List.any_eq_true.mp hany
        have hused := List.find?_eq_none.mp hf s hs
        simp [hend] at hused
    rw [hrest, firstUnused_append, hs]
    exact Iff.rfl
  · rw [hwalk, href]
    cases firstUnused (dirSlots fs v cs) with
    | none => exact Iff.rfl
    | some s => exact Iff.rfl

/-- **`sfat_count_subdirs` on a directory path**: the number of live slots. -/
theorem count_of_path (hwf : WellFormed fs) (h : DirPath look fs v start cs)
    (hstart : start < sfatEntryMax) {rounds : ℕ} (hlen : cs.length ≤ rounds)
    (Q : Except Errno ℕ → Vol → Prop) :
    wp (refusingWorld refuse look) (countClusters fs (rounds + 1) start 0) Q v ↔
      Q (.ok (liveSlots (dirSlots fs v cs)).length) v := by
  rw [wp_countClusters hwf rounds start 0 hstart]
  rcases h.walk hlen with ⟨hany, rest, hrest⟩ | ⟨hany, hwalk, hended, -⟩
  · rw [hrest, countNext_append, countNext, if_pos hany, Nat.zero_add]
    exact Iff.rfl
  · rw [hwalk, hended, countNext, hany, Nat.zero_add]
    exact Iff.rfl

end Scanners

end SimpleFat
