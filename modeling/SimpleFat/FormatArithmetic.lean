import SimpleFat.FormatMount

/-!
# The arithmetic of the format tool

`main` of `app/format.cpp` from the queries of the block device to the writes.  The layout is
computed in `size_t` from what the device reports; `layoutBy` is that computation with the
subtraction left open, so that the one of the code and an exact one can be compared.

* `exactLayout_isSome_iff` — when no divisor is 0 and no subtraction wraps;
* `format_safe_iff` — the devices on which the tool is safe.
-/

namespace SimpleFat

open SimpleFat.Lib

/-- What a block device reports; a query whose `ioctl` fails is `none` and throws.  `getsize`
counts sectors of 512 bytes. -/
structure BlockDevice where
  opens : Bool
  getsize64 : Option ℕ
  getss : Option ℕ
  getpbsz : Option ℕ
  getbsz : Option ℕ
  getsize : Option ℕ
  /-- The count is a `size_t`. -/
  getsize_lt : ∀ n ∈ getsize, n < sizeT

/-- The queries of the tool, made before anything is written: the logical sector size and the
sector count. -/
def BlockDevice.queries (bdev : BlockDevice) : Option (ℕ × ℕ) := do
  guard bdev.opens
  let _ ← bdev.getsize64
  let getss ← bdev.getss
  let _ ← bdev.getpbsz
  let _ ← bdev.getbsz
  let getsize ← bdev.getsize
  return (getss, getsize)

/-- How the tool ends on a device that takes its writes. -/
inductive FormatEnd where
  /-- An exception before the first write. -/
  | stopped
  /-- A division by zero. -/
  | trapped
  | written (v : Vol)

/-- `main`. -/
def formatMain (bdev : BlockDevice) (v : Vol) : FormatEnd :=
  match bdev.queries with
  | none => .stopped
  | some (getss, getsize) =>
    match formatLayout getss getsize with
    | none => .trapped
    | some L => .written (formatVolume L v)

/-! ### The layout with another subtraction -/

/-- The layout of the tool, where `sub` takes the differences. -/
def layoutBy (sub : ℕ → ℕ → Option ℕ) (getss getsize : ℕ) : Option FormatLayout :=
  if getss = 0 ∨ bytesPerSector / getss = 0 then none
  else do
    let sectors := getsize / (bytesPerSector / getss)
    let afterSuper ← sub sectors 1
    let afterReserve ← sub afterSuper reserveSectors
    let clusters := afterReserve / sectorsPerCluster
    let clusters := if sfatEntryMax < clusters then sfatEntryMax else clusters
    let fatLengthSectors := (clusters * 4 + bytesPerSector - 1) / bytesPerSector
    let fatLengthClusters :=
      (sfatNo * fatLengthSectors + sectorsPerCluster - 1) / sectorsPerCluster
    let clusters ← sub clusters fatLengthClusters
    return { sectors := sectors, fatLengthSectors := fatLengthSectors, clusters := clusters }

/-- `a - b` where it does not wrap. -/
def exactSub (a b : ℕ) : Option ℕ := if b ≤ a then some (a - b) else none

/-- The layout where no divisor is 0 and no subtraction wraps. -/
def exactLayout (getss getsize : ℕ) : Option FormatLayout := layoutBy exactSub getss getsize

theorem formatLayout_eq_layoutBy (getss getsize : ℕ) :
    formatLayout getss getsize = layoutBy (fun a b => some (subSizeT a b)) getss getsize := rfl

theorem subSizeT_of_le {a b : ℕ} (h : b ≤ a) (ha : a < sizeT) : subSizeT a b = a - b := by
  simp only [subSizeT, sizeT] at *
  omega

/-- The sector size divides into 512 bytes at least once. -/
theorem sectorRatio_pos {getss : ℕ} (hpos : 0 < getss) (hle : getss ≤ 512) :
    0 < bytesPerSector / getss := Nat.div_pos hle hpos

theorem layoutBy_trap (sub : ℕ → ℕ → Option ℕ) {getss : ℕ} (h : ¬ (0 < getss ∧ getss ≤ 512))
    (getsize : ℕ) : layoutBy sub getss getsize = none := by
  refine if_pos ?_
  rcases Nat.eq_zero_or_pos getss with h0 | hpos
  · exact Or.inl h0
  · exact Or.inr (Nat.div_eq_of_lt (by rw [bytesPerSector]; omega))

/-- Sectors shorter than 512 bytes only scale the count down. -/
theorem layoutBy_scaled (sub : ℕ → ℕ → Option ℕ) {getss : ℕ} (hpos : 0 < getss)
    (hle : getss ≤ 512) (getsize : ℕ) :
    layoutBy sub getss getsize = layoutBy sub 512 (getsize / (bytesPerSector / getss)) := by
  have hratio := sectorRatio_pos hpos hle
  rw [layoutBy, layoutBy, if_neg (by omega), if_neg (by decide),
    show bytesPerSector / 512 = 1 from rfl, Nat.div_one]

def cappedClusters (sectors : ℕ) : ℕ :=
  if sfatEntryMax < sectors / 4 then sfatEntryMax else sectors / 4

def fatSectorsFor (c : ℕ) : ℕ := (c * 4 + 512 - 1) / 512

/-- The three subtractions of the layout. -/
theorem layoutBy_eq_some {sub : ℕ → ℕ → Option ℕ} {sectors : ℕ} {L : FormatLayout} :
    layoutBy sub 512 sectors = some L ↔
      ∃ a b, sub sectors 1 = some a ∧ sub a 10 = some b ∧ L.sectors = sectors ∧
        L.fatLengthSectors = fatSectorsFor (cappedClusters b) ∧
        sub (cappedClusters b) ((2 * L.fatLengthSectors + 4 - 1) / 4) = some L.clusters := by
  rw [layoutBy, if_neg (by decide), show bytesPerSector / 512 = 1 from rfl, Nat.div_one]
  simp only [Option.bind_eq_bind, Option.bind_eq_some_iff, Option.pure_def, Option.some.injEq]
  show (∃ a, _ ∧ ∃ b, _ ∧ ∃ c, sub (cappedClusters b)
    ((2 * fatSectorsFor (cappedClusters b) + 4 - 1) / 4) = some c ∧
      FormatLayout.mk sectors (fatSectorsFor (cappedClusters b)) c = L) ↔ _
  refine ⟨?_, ?_⟩
  · rintro ⟨a, ha, b, hb, c, hc, rfl⟩
    exact ⟨a, b, ha, hb, rfl, rfl, hc⟩
  · obtain ⟨s, f, c⟩ := L
    rintro ⟨a, b, ha, hb, rfl, rfl, hc⟩
    exact ⟨a, ha, b, hb, c, hc, rfl⟩

theorem exactSub_eq_some {a b c : ℕ} : exactSub a b = some c ↔ b ≤ a ∧ c = a - b := by
  rw [exactSub]
  split
  · rename_i h
    rw [Option.some.injEq]
    exact ⟨fun he => ⟨h, he.symm⟩, fun he => he.2.symm⟩
  · rename_i h
    exact ⟨by simp, fun he => absurd he.1 h⟩

/-- The FAT never takes more clusters than there are. -/
theorem fatClusters_le (c : ℕ) : (2 * fatSectorsFor c + 4 - 1) / 4 ≤ c := by
  rw [fatSectorsFor]
  rcases Nat.eq_zero_or_pos c with rfl | hpos
  · decide
  · omega

/-- **When the arithmetic is exact**: the sector size is no longer than 512 bytes and the super
sector and the reserved sectors are there. -/
theorem exactLayout_isSome_iff (getss getsize : ℕ) :
    (exactLayout getss getsize).isSome ↔
      (0 < getss ∧ getss ≤ 512) ∧ 11 ≤ getsize / (bytesPerSector / getss) := by
  by_cases hss : 0 < getss ∧ getss ≤ 512
  · rw [exactLayout, layoutBy_scaled _ hss.1 hss.2, Option.isSome_iff_exists]
    simp only [layoutBy_eq_some, exactSub_eq_some]
    generalize getsize / (bytesPerSector / getss) = sectors
    refine ⟨fun h => ?_, fun h => ?_⟩
    · obtain ⟨L, a, b, ⟨h1, ha⟩, ⟨h10, -⟩, -⟩ := h
      exact ⟨hss, by omega⟩
    have hle := h.2
    have hfat := fatClusters_le (cappedClusters (sectors - 1 - 10))
    exact ⟨{ sectors := sectors
             fatLengthSectors := fatSectorsFor (cappedClusters (sectors - 1 - 10))
             clusters := cappedClusters (sectors - 1 - 10) -
               (2 * fatSectorsFor (cappedClusters (sectors - 1 - 10)) + 4 - 1) / 4 },
      sectors - 1, sectors - 1 - 10, ⟨by omega, rfl⟩, ⟨by omega, rfl⟩, rfl, rfl, hfat, rfl⟩
  · rw [exactLayout, layoutBy_trap _ hss]
    exact ⟨by simp, fun h => absurd h.1 hss⟩

/-- Where the arithmetic is exact, it is that of the code. -/
theorem formatLayout_of_exact {getss getsize : ℕ} {L : FormatLayout} (hlt : getsize < sizeT)
    (h : exactLayout getss getsize = some L) : formatLayout getss getsize = some L := by
  have hss := ((exactLayout_isSome_iff getss getsize).mp (h ▸ rfl)).1
  rw [exactLayout, layoutBy_scaled _ hss.1 hss.2] at h
  rw [formatLayout_eq_layoutBy, layoutBy_scaled _ hss.1 hss.2]
  have hscaled : getsize / (bytesPerSector / getss) < sizeT :=
    Nat.lt_of_le_of_lt (Nat.div_le_self _ _) hlt
  obtain ⟨a, b, ha, hb, hsec, hfat, hclus⟩ := layoutBy_eq_some.mp h
  rw [exactSub_eq_some] at ha hb hclus
  have hcap : cappedClusters b < sizeT := by
    rw [cappedClusters, sfatEntryMax, sizeT]
    split <;> omega
  refine layoutBy_eq_some.mpr ⟨a, b, ?_, ?_, hsec, hfat, ?_⟩
  · rw [subSizeT_of_le ha.1 hscaled, ha.2]
  · rw [subSizeT_of_le hb.1 (by omega), hb.2]
  · rw [subSizeT_of_le hclus.1 hcap, hclus.2]

/-! ### The device -/

/-- **The boot sector fits the device**: the root cluster exists, and the FAT copies and the data
clusters end within `bytes`. -/
structure BootSectorFits (b : BootSector) (bytes : ℕ) : Prop where
  root : b.rootStart < b.clusters
  fats : (1 + b.reserved + b.fats * b.fatLength) * b.sectorSize ≤ bytes
  clusters : (1 + b.reserved + b.fats * b.fatLength + b.clusters * b.secPerClus) * b.sectorSize ≤
    bytes

/-- **The tool is safe on a device** with the contents `v`. -/
structure FormatSafe (bdev : BlockDevice) (v : Vol) : Prop where
  exact : ∀ getss getsize, bdev.queries = some (getss, getsize) →
    (exactLayout getss getsize).isSome
  ends : formatMain bdev v = .stopped ∨ ∃ v', formatMain bdev v = .written v' ∧
    ∀ getss getsize, bdev.queries = some (getss, getsize) →
      BootSectorFits (bootSectorAt v') (getsize * bytesPerSector)

/-- When no query fails, the reported sector size is at most 512 bytes and the reported count makes
19 sectors: super sector, reserve, a cluster for the FATs and one for data. -/
def BlockDevice.LaysOut (bdev : BlockDevice) : Prop :=
  ∀ getss getsize, bdev.queries = some (getss, getsize) →
    (0 < getss ∧ getss ≤ 512) ∧ 19 ≤ getsize / (bytesPerSector / getss)

theorem BlockDevice.queries_lt {bdev : BlockDevice} {getss getsize : ℕ}
    (h : bdev.queries = some (getss, getsize)) : getsize < sizeT := by
  simp only [BlockDevice.queries, Option.bind_eq_bind, Option.bind_eq_some_iff, Option.pure_def,
    Option.some.injEq, Prod.mk.injEq] at h
  obtain ⟨_, -, _, -, _, -, _, -, _, -, n, hn, -, rfl⟩ := h
  exact bdev.getsize_lt n hn

/-- Under 19 sectors no data cluster is left beside the FATs. -/
theorem exactLayout_clusters_zero {sectors : ℕ} {L : FormatLayout} (hlt : sectors < 19)
    (h : exactLayout 512 sectors = some L) : L.clusters = 0 := by
  obtain ⟨a, b, ha, hb, -, hfat, hclus⟩ := layoutBy_eq_some.mp h
  rw [exactSub_eq_some] at ha hb hclus
  have hcap : cappedClusters b ≤ 1 := by
    rw [cappedClusters, sfatEntryMax]
    split <;> omega
  rw [fatSectorsFor] at hfat
  omega

theorem bootSectorFits_of_layout {sectors bytes : ℕ} {L : FormatLayout}
    (h : formatLayout 512 sectors = some L) (hpos : 1 ≤ L.clusters)
    (hfits : 11 + L.fatLengthSectors * 2 + L.clusters * 4 ≤ sectors) (hbytes : sectors * 512 ≤ bytes)
    (v : Vol) : BootSectorFits (bootSectorAt (formatVolume L v)) bytes := by
  obtain ⟨hclus, hfat, -, -⟩ := formatLayout_bounds h
  rw [sfatEntryMax] at hclus
  have hfat32 : L.fatLengthSectors % 2 ^ 32 = L.fatLengthSectors := Nat.mod_eq_of_lt (by omega)
  have hclus32 : L.clusters % 2 ^ 32 = L.clusters := Nat.mod_eq_of_lt (by omega)
  have hend : (1 + 10 + 2 * L.fatLengthSectors + L.clusters * 4) * 512 ≤ bytes :=
    Nat.le_trans (Nat.mul_le_mul_right _ (by omega)) hbytes
  have hstart : (1 + 10 + 2 * L.fatLengthSectors) * 512 ≤ bytes :=
    Nat.le_trans (Nat.mul_le_mul_right _ (by omega)) hbytes
  rw [bootSectorAt_formatVolume, hfat32, hclus32]
  exact ⟨hpos, hstart, hend⟩

/-- **When the arithmetic of the tool is safe**, for every device and whatever it contains. -/
theorem format_safe_iff (bdev : BlockDevice) (v : Vol) : FormatSafe bdev v ↔ bdev.LaysOut := by
  cases hq : bdev.queries with
  | none =>
    have hnone : ∀ getss getsize, bdev.queries ≠ some (getss, getsize) := fun _ _ h =>
      absurd (hq.symm.trans h) (by simp)
    refine ⟨fun _ getss getsize h => absurd h (hnone _ _), fun _ =>
      ⟨fun _ _ h => absurd h (hnone _ _), Or.inl ?_⟩⟩
    rw [formatMain, hq]
  | some reported =>
    obtain ⟨getss, getsize⟩ := reported
    have hlt := BlockDevice.queries_lt hq
    have hsame : ∀ ss size, bdev.queries = some (ss, size) → ss = getss ∧ size = getsize :=
      fun ss size h => by
        have he := Option.some.inj (h.symm.trans hq)
        exact ⟨congrArg Prod.fst he, congrArg Prod.snd he⟩
    refine ⟨fun hsafe ss size h => ?_, fun hlays => ?_⟩
    · obtain ⟨rfl, rfl⟩ := hsame ss size h
      have hexact := hsafe.exact _ _ hq
      obtain ⟨hss, -⟩ := (exactLayout_isSome_iff _ _).mp hexact
      refine ⟨hss, ?_⟩
      obtain ⟨L, hL⟩ := Option.isSome_iff_exists.mp hexact
      have hmain : formatMain bdev v = .written (formatVolume L v) := by
        rw [formatMain, hq]
        show (match formatLayout ss size with | none => _ | some L => _) = _
        rw [formatLayout_of_exact hlt hL]
      by_contra hshort
      rw [exactLayout, layoutBy_scaled _ hss.1 hss.2] at hL
      have hzero := exactLayout_clusters_zero (by omega) hL
      obtain hstop | ⟨v', hv', hfits⟩ := hsafe.ends
      · rw [hmain] at hstop
        exact absurd hstop (by simp)
      · rw [hmain] at hv'
        obtain rfl := FormatEnd.written.inj hv'
        have hroot := (hfits _ _ hq).root
        rw [bootSectorAt_formatVolume, hzero] at hroot
        exact absurd hroot (Nat.lt_irrefl _)
    · obtain ⟨hss, hsectors⟩ := hlays _ _ hq
      have hratio := sectorRatio_pos hss.1 hss.2
      have hscaled : getsize / (bytesPerSector / getss) ≤ getsize := Nat.div_le_self _ _
      obtain ⟨L, hL, hpos, -, hfits⟩ := formatLayout_fits hsectors (by omega)
      have hlayout : formatLayout getss getsize = some L := by
        rw [formatLayout_eq_layoutBy, layoutBy_scaled _ hss.1 hss.2, ← formatLayout_eq_layoutBy, hL]
      refine ⟨fun ss size h => ?_, Or.inr ⟨formatVolume L v, ?_, fun ss size h => ?_⟩⟩
      · obtain ⟨rfl, rfl⟩ := hsame ss size h
        exact (exactLayout_isSome_iff _ _).mpr ⟨hss, by omega⟩
      · rw [formatMain, hq]
        show (match formatLayout getss getsize with | none => _ | some L => _) = _
        rw [hlayout]
      · obtain ⟨rfl, rfl⟩ := hsame ss size h
        exact bootSectorFits_of_layout hL hpos hfits (Nat.mul_le_mul_right _ hscaled) v

/-- A device that answers every query. -/
def reportingDevice (getss getsize : ℕ) (h : getsize < sizeT) : BlockDevice where
  opens := true
  getsize64 := some (getsize * 512)
  getss := some getss
  getpbsz := some getss
  getbsz := some 4096
  getsize := some getsize
  getsize_lt := fun n hn => by
    obtain rfl := Option.some.inj hn
    exact h

/-- **The tool divides by zero** on a device with logical sectors of 4096 bytes, wraps around on a
device of ten sectors, and leaves one of eighteen sectors without a data cluster. -/
theorem format_not_safe :
    formatMain (reportingDevice 4096 (2 ^ 21) (by decide)) (fun _ => 0) = .trapped ∧
    exactLayout 512 10 = none ∧ formatLayout 512 10 = some
      { sectors := 10, fatLengthSectors := 33554432, clusters := 4278190070 } ∧
    formatLayout 512 18 = some { sectors := 18, fatLengthSectors := 1, clusters := 0 } ∧
    ¬ FormatSafe (reportingDevice 4096 (2 ^ 21) (by decide)) (fun _ => 0) ∧
    ¬ FormatSafe (reportingDevice 512 10 (by decide)) (fun _ => 0) ∧
    ¬ FormatSafe (reportingDevice 512 18 (by decide)) (fun _ => 0) := by
  have htrap : formatMain (reportingDevice 4096 (2 ^ 21) (by decide)) (fun _ => 0) = .trapped := by
    rw [formatMain, show (reportingDevice 4096 (2 ^ 21) (by decide)).queries =
      some (4096, 2 ^ 21) from rfl]
    rfl
  refine ⟨htrap, by decide, by decide, by decide, ?_, ?_, ?_⟩
  · intro hsafe
    obtain hstop | ⟨v', hwritten, -⟩ := hsafe.ends
    · exact absurd (htrap.symm.trans hstop) (by simp)
    · exact absurd (htrap.symm.trans hwritten) (by simp)
  · intro hsafe
    exact absurd (hsafe.exact 512 10 rfl) (by decide)
  · intro hsafe
    obtain hstop | ⟨v', hwritten, hfits⟩ := hsafe.ends
    · cases hstop
    · obtain rfl := FormatEnd.written.inj hwritten
      have hroot := (hfits 512 18 rfl).root
      exact absurd hroot (by decide)

end SimpleFat
