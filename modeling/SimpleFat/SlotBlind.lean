import SimpleFat.BlockGuard
import SimpleFat.InodeSpec
import SimpleFat.WriteContracts

/-!
# Creation does not look at what a flush stores

`sfat_inode_write_to_hd` stores 20 bytes of a slot, behind its name and its attribute.
`sfat_create_file` passes over the slots of a directory, but of a slot in use it looks at the name
and the attribute only.  So two creations that read pages which differ in those 20 bytes make the
same requests, write pages that differ there at most, and return the same.

* `FileSlot` — the slot of a file, and `FileSlot.Covers`, the bytes of it that a flush stores;
* `Twin` — two such programs, with the rule `Twin.bind` for sequences;
* `twin_locate`, `twin_freeLocate`, `twin_acquire`, … — the functions that a creation calls;
* `twin_createFile` — the creation.
-/

namespace SimpleFat

open SimpleFat.Lib

variable {fs : FsInfo}

/-! ### The slot and its pages -/

/-- The slot of a file: its cluster, its block in the volume, its position in the block. -/
structure FileSlot (fs : FsInfo) where
  cls : ℕ
  blk : ℕ
  pos : ℕ
  cls_lt : cls < fatWords fs
  in_cls : clsToBlk fs cls ≤ blk ∧ blk < clsToBlk fs cls + fs.blkPerClus
  aligned : pos % 32 = 0
  pos_lt : pos < fs.blockSize

/-- The bytes of a block that a flush of the file stores. -/
def FileSlot.Covers (s : FileSlot fs) (blk i : ℕ) : Prop :=
  blk = s.blk ∧ s.pos + 12 ≤ i ∧ i < s.pos + 32

/-- Two pages of a block that may differ in these bytes. -/
def FileSlot.SamePage (s : FileSlot fs) (blk : ℕ) (d d' : Page) : Prop :=
  ∀ i < fs.blockSize, ¬ s.Covers blk i → d i = d' i

def FileSlot.Used (s : FileSlot fs) (d : Page) : Prop :=
  (direntAt d s.pos).isEnd = false ∧ (direntAt d s.pos).isEmpty = false

variable {s : FileSlot fs} {blk : ℕ} {d d' : Page}

theorem FileSlot.SamePage.refl (s : FileSlot fs) (blk : ℕ) (d : Page) : s.SamePage blk d d :=
  fun _ _ _ => rfl

/-- Names and attributes are not covered. -/
theorem FileSlot.not_covers (s : FileSlot fs) (blk : ℕ) {off i : ℕ} (hoff : off % 32 = 0)
    (hi : i < 12) : ¬ s.Covers blk (off + i) := by
  have haligned := s.aligned
  rintro ⟨-, hlo, hhi⟩
  omega

theorem FileSlot.SamePage.attr (h : s.SamePage blk d d') {off : ℕ} (hoff : off % 32 = 0)
    (hlt : off + 11 < fs.blockSize) : (direntAt d off).attr = (direntAt d' off).attr :=
  h (off + 11) hlt (s.not_covers blk hoff (by decide))

theorem FileSlot.SamePage.isEnd (h : s.SamePage blk d d') {off : ℕ} (hoff : off % 32 = 0)
    (hlt : off + 11 < fs.blockSize) : (direntAt d off).isEnd = (direntAt d' off).isEnd := by
  rw [SfatDirEntry.isEnd, SfatDirEntry.isEnd, h.attr hoff hlt]

theorem FileSlot.SamePage.isEmpty (h : s.SamePage blk d d') {off : ℕ} (hoff : off % 32 = 0)
    (hlt : off + 11 < fs.blockSize) : (direntAt d off).isEmpty = (direntAt d' off).isEmpty := by
  rw [SfatDirEntry.isEmpty, SfatDirEntry.isEmpty, h.attr hoff hlt]

theorem FileSlot.SamePage.name (h : s.SamePage blk d d') {off : ℕ} (hoff : off % 32 = 0)
    (hlt : off + 11 < fs.blockSize) : (direntAt d off).name = (direntAt d' off).name := by
  show Vector.ofFn _ = Vector.ofFn _
  congr 1
  funext i
  exact h (off + i) (by omega) (s.not_covers blk hoff (by omega))

/-- Pages of another block agree. -/
theorem FileSlot.SamePage.eq_of_ne (h : s.SamePage blk d d') (hblk : blk ≠ s.blk) :
    ∀ i < fs.blockSize, d i = d' i :=
  fun i hi => h i hi fun hc => hblk hc.1

/-- The same change of both pages. -/
theorem FileSlot.SamePage.patch (h : s.SamePage blk d d') (pos n : ℕ) (g : ℕ → UInt8) :
    s.SamePage blk (patch d pos n g) (patch d' pos n g) := by
  intro i hi hc
  rw [Lib.patch, Lib.patch, h i hi hc]

/-! ### What the scans find in two pages -/

inductive SameLoop {ρ : Type} (R : ρ → ρ → Prop) : Loop Unit ρ → Loop Unit ρ → Prop
  | next : SameLoop R (.next ()) (.next ())
  | out {r r' : ρ} : R r r' → SameLoop R (.out r) (.out r')

/-- What `sfat_dentry_locate` finds in two pages: the entries may differ. -/
inductive SameEntry : Option (ℕ × SfatDirEntry) → Option (ℕ × SfatDirEntry) → Prop
  | missing : SameEntry none none
  | found (k : ℕ) (de de' : SfatDirEntry) : SameEntry (some (k, de)) (some (k, de'))

theorem locateSlots_same (h : s.SamePage blk d d') (name : Vector UInt8 11) (n k : ℕ)
    (hn : 32 * (k + n) ≤ fs.blockSize) :
    SameLoop SameEntry (locateSlots name d n k) (locateSlots name d' n k) := by
  induction n generalizing k with
  | zero => exact .next
  | succ n ih =>
    have hoff : 32 * k % 32 = 0 := Nat.mul_mod_right 32 k
    have hlt : 32 * k + 11 < fs.blockSize := by omega
    have hrest := ih (k + 1) (by omega)
    simp only [locateSlots, h.isEnd hoff hlt, h.isEmpty hoff hlt, h.name hoff hlt]
    split
    · exact .out .missing
    · split
      · exact hrest
      · split
        · exact .out (.found _ _ _)
        · exact hrest

theorem freeSlots_same (h : s.SamePage blk d d') (n k : ℕ) (hn : 32 * (k + n) ≤ fs.blockSize) :
    freeSlots d n k = freeSlots d' n k := by
  induction n generalizing k with
  | zero => rfl
  | succ n ih =>
    have hoff : 32 * k % 32 = 0 := Nat.mul_mod_right 32 k
    have hlt : 32 * k + 11 < fs.blockSize := by omega
    simp only [freeSlots, h.isEnd hoff hlt, h.isEmpty hoff hlt, ih (k + 1) (by omega)]

/-- A slot that is found is not in use. -/
theorem freeSlots_spec {n k j : ℕ} (h : freeSlots d n k = some j) :
    k ≤ j ∧ j < k + n ∧ ¬ ((direntAt d (32 * j)).isEnd = false ∧
      (direntAt d (32 * j)).isEmpty = false) := by
  induction n generalizing k with
  | zero => cases h
  | succ n ih =>
    rw [freeSlots] at h
    split at h
    · rename_i hfree
      cases h
      refine ⟨Nat.le_refl _, by omega, ?_⟩
      rintro ⟨hend, hempty⟩
      simp [hend, hempty] at hfree
    · obtain ⟨hlo, hhi, hused⟩ := ih h
      exact ⟨by omega, by omega, hused⟩

theorem findFree_congr {n k : ℕ} (h : ∀ i < 4 * (k + n), d i = d' i) :
    findFree d n k = findFree d' n k := by
  induction n generalizing k with
  | zero => rfl
  | succ n ih =>
    have hword : le32 d (4 * k) = le32 d' (4 * k) := le32_congr fun i hi => h _ (by omega)
    rw [findFree, findFree, hword, ih fun i hi => h i (by omega)]

/-! ### Twins -/

def Unwritten (past : Past Request Answer) : Prop :=
  ∀ e ∈ past, ∀ sz b w, e.1 ≠ .writeBlock sz b w

/-- What a page that was read before any write shows: the entry of the file is in use, and so is its
cluster. -/
def FileSlot.Seen (s : FileSlot fs) (past : Past Request Answer) (blk : ℕ) (d : Page) : Prop :=
  Unwritten past → (blk = s.blk → s.Used d) ∧
    (blk = fatBlk fs s.cls → le32 d (fatPos fs s.cls) ≠ sfatEntryFree)

/-- A page that is written has the covered bytes of the page that was read from its block. -/
def FileSlot.Keeps (s : FileSlot fs) (past : Past Request Answer) (blk : ℕ) (d : Page) : Prop :=
  blk = s.blk → ∃ page, lastRead fs.blockSize blk past = some page ∧
    ∀ i, s.Covers blk i → d i = page i

/-- Neither a block nor a page is in the request. -/
def Plain : Request → Prop
  | .readBlock _ _ => False
  | .writeBlock _ _ _ => False
  | .le32OfPointer _ _ _ _ => False
  | _ => True

/-- Two programs that make the same requests, as long as the pages they read differ in the covered
bytes only; `past` is what the first one has seen, and `Q` relates the results. -/
inductive Twin (s : FileSlot fs) {α : Type} (Q : Past Request Answer → α → α → Prop) :
    Past Request Answer → Driver α → Driver α → Prop
  | done {past : Past Request Answer} {a a' : α} : Q past a a' → Twin s Q past (.done a) (.done a')
  | read {past : Past Request Answer} {blk : ℕ} {k k' : Option Page → Driver α} :
      Twin s Q (⟨.readBlock fs.blockSize blk, (none : Option Page)⟩ :: past) (k none) (k' none) →
      (∀ d d', s.SamePage blk d d' → s.Seen past blk d →
        Twin s Q (⟨.readBlock fs.blockSize blk, (some d : Option Page)⟩ :: past) (k (some d))
          (k' (some d'))) →
      Twin s Q past (.ask (.readBlock fs.blockSize blk) k) (.ask (.readBlock fs.blockSize blk) k')
  | write {past : Past Request Answer} {blk : ℕ} {d d' : Page} {k k' : Bool → Driver α} :
      s.SamePage blk d d' → s.Keeps past blk d →
      (∀ ok : Bool, Twin s Q (⟨.writeBlock fs.blockSize blk d, ok⟩ :: past) (k ok) (k' ok)) →
      Twin s Q past (.ask (.writeBlock fs.blockSize blk d) k)
        (.ask (.writeBlock fs.blockSize blk d') k')
  | lookup {past : Past Request Answer} {addr blk pos : ℕ} {d d' : Page} {k k' : ℕ → Driver α} :
      pos + 4 ≤ fs.blockSize → (∀ i < fs.blockSize, d i = d' i) →
      (∀ r : ℕ, Twin s Q (⟨.le32OfPointer addr blk pos d, r⟩ :: past) (k r) (k' r)) →
      Twin s Q past (.ask (.le32OfPointer addr blk pos d) k) (.ask (.le32OfPointer addr blk pos d') k')
  | plain {past : Past Request Answer} {c : Request} {k k' : Answer c → Driver α} : Plain c →
      (∀ r, Twin s Q (⟨c, r⟩ :: past) (k r) (k' r)) → Twin s Q past (.ask c k) (.ask c k')

variable {α β : Type} {Q : Past Request Answer → α → α → Prop} {past : Past Request Answer}

/-- The rule of sequencing. -/
theorem Twin.bind {Q' : Past Request Answer → β → β → Prop} {p p' : Driver α}
    {f f' : α → Driver β} (h : Twin s Q past p p')
    (hf : ∀ past a a', Q past a a' → Twin s Q' past (f a) (f' a')) :
    Twin s Q' past (p >>= f) (p' >>= f') := by
  induction h with
  | done hq => exact hf _ _ _ hq
  | read _ _ ihnone ih => exact .read ihnone fun d d' hsame hseen => ih d d' hsame hseen
  | write hsame hkeeps _ ih => exact .write hsame hkeeps ih
  | lookup hpos heq _ ih => exact .lookup hpos heq ih
  | plain hc _ ih => exact .plain hc ih

/-- A weaker relation of the results. -/
theorem Twin.mono {Q' : Past Request Answer → α → α → Prop} {p p' : Driver α}
    (h : Twin s Q past p p') (hQ : ∀ past a a', Q past a a' → Q' past a a') :
    Twin s Q' past p p' := by
  induction h with
  | done hq => exact .done (hQ _ _ _ hq)
  | read _ _ ihnone ih => exact .read ihnone ih
  | write hsame hkeeps _ ih => exact .write hsame hkeeps ih
  | lookup hpos heq _ ih => exact .lookup hpos heq ih
  | plain hc _ ih => exact .plain hc ih

/-- A request that writes no block. -/
theorem Unwritten.cons (h : Unwritten past) {c : Request} (r : Answer c)
    (hc : ∀ sz b w, c ≠ .writeBlock sz b w) : Unwritten (⟨c, r⟩ :: past) := by
  intro e he
  rcases List.mem_cons.mp he with rfl | he
  · exact hc
  · exact h e he

/-- What every execution of the first program returns. -/
theorem Twin.obeys {P : Request → Prop} {Q' : α → Prop} {p p' : Driver α} (h : Twin s Q past p p')
    (ho : Lib.obeys P Q' p) : Twin s (fun past a a' => Q past a a' ∧ Q' a) past p p' := by
  induction h with
  | done hq => exact .done ⟨hq, ho⟩
  | read _ _ ihnone ih => exact .read (ihnone (ho.2 _)) fun d d' hs hd => ih d d' hs hd (ho.2 _)
  | write hsame hkeeps _ ih => exact .write hsame hkeeps fun ok => ih ok (ho.2 ok)
  | lookup hpos heq _ ih => exact .lookup hpos heq fun r => ih r (ho.2 r)
  | plain hc _ ih => exact .plain hc fun r => ih r (ho.2 r)

/-- Requests that write no block, and what follows. -/
theorem Twin.request {past : Past Request Answer} {c : Request} {f f' : Answer c → Driver α}
    (hc : Plain c) (hf : ∀ r, Twin s Q (⟨c, r⟩ :: past) (f r) (f' r)) :
    Twin s Q past (ask c >>= f) (ask c >>= f') :=
  .plain hc hf

theorem Twin.readBlock {past : Past Request Answer} {blk : ℕ} {f f' : Option Page → Driver α}
    (hnone : Twin s Q (⟨.readBlock fs.blockSize blk, (none : Option Page)⟩ :: past) (f none) (f' none))
    (hsome : ∀ d d', s.SamePage blk d d' → s.Seen past blk d →
      Twin s Q (⟨.readBlock fs.blockSize blk, (some d : Option Page)⟩ :: past) (f (some d))
        (f' (some d'))) :
    Twin s Q past (SimpleFat.readBlock fs.blockSize blk >>= f)
      (SimpleFat.readBlock fs.blockSize blk >>= f') :=
  .read hnone hsome

theorem Twin.writeBlock {past : Past Request Answer} {blk : ℕ} {d d' : Page}
    {f f' : Bool → Driver α} (hsame : s.SamePage blk d d') (hkeeps : s.Keeps past blk d)
    (hf : ∀ ok : Bool, Twin s Q (⟨.writeBlock fs.blockSize blk d, ok⟩ :: past) (f ok) (f' ok)) :
    Twin s Q past (SimpleFat.writeBlock fs.blockSize blk d >>= f)
      (SimpleFat.writeBlock fs.blockSize blk d' >>= f') :=
  .write hsame hkeeps hf

theorem Unwritten.readBlock (h : Unwritten past) (blk : ℕ) (page : Option Page) :
    Unwritten (⟨.readBlock fs.blockSize blk, page⟩ :: past) :=
  h.cons _ (by simp)

theorem Unwritten.plain (h : Unwritten past) {c : Request} (r : Answer c) (hc : Plain c) :
    Unwritten (⟨c, r⟩ :: past) := by
  apply h.cons
  rintro sz b w rfl
  exact hc

/-! ### Scanning the directory -/

section Scans

variable (hp : Placed fs)
include hp

theorem FileSlot.cls_lt_word (s : FileSlot fs) : s.cls < 2 ^ 32 :=
  Nat.lt_of_lt_of_le s.cls_lt hp.fat_words

/-- Blocks of the FAT are not the block of the slot. -/
theorem fatBlk_ne (s : FileSlot fs) {cls : ℕ} (hcls : ¬ fs.clustersPred ≤ cls) :
    fatBlk fs cls ≠ s.blk := by
  have hlt := fatBlk_lt hp (Nat.lt_of_succ_lt (lt_clusters_of_accepted hp hcls))
  have hdata := dataStart_le_clsToBlk hp (s.cls_lt_word hp)
  have hbefore := hp.fat_before_data
  have hin := s.in_cls
  omega

/-- A lookup of the FAT. -/
theorem twin_getEntry (cls : ℕ) :
    Twin s (fun past' r r' => (Unwritten past → Unwritten past') ∧ r = r') past
      (sfatGetEntryContent fs cls) (sfatGetEntryContent fs cls) := by
  rw [sfatGetEntryContent]
  split
  · exact .done ⟨id, rfl⟩
  · rename_i hcls
    refine .request trivial fun page => ?_
    cases page with
    | none => exact .done ⟨fun hU => hU.plain _ trivial, rfl⟩
    | some addr =>
      have hU₁ (hU : Unwritten past) := hU.plain (c := .blkholderAlloc) (some addr) trivial
      refine .readBlock (.done ⟨fun hU => (hU₁ hU).readBlock _ _, rfl⟩) fun d d' hsame _ => ?_
      refine .lookup (hp.wordBlocks.fatPos_le cls) (hsame.eq_of_ne (fatBlk_ne hp s hcls)) fun r => ?_
      exact .done ⟨fun hU => ((hU₁ hU).readBlock _ _).cons _ (by simp), rfl⟩

/-- What `sfat_dentry_locate` delivers. -/
inductive SameLocated : Except Errno (Option LocatedEntry) → Except Errno (Option LocatedEntry) → Prop
  | error (e : Errno) : SameLocated (.error e) (.error e)
  | missing : SameLocated (.ok none) (.ok none)
  | found (x x' : LocatedEntry) : SameLocated (.ok (some x)) (.ok (some x'))

/-- The slots fill a block. -/
theorem slots_inside : 32 * fs.direntPerBlk = fs.blockSize := by
  obtain ⟨d, -, hd, hbs⟩ := hp.blockSize_slots
  rw [hd, hbs]

theorem twin_locateBlocks (name : Vector UInt8 11) (cls n blk : ℕ) (hU : Unwritten past) :
    Twin s (fun past r r' => Unwritten past ∧ SameLoop SameLocated r r') past
      (locateBlocks fs name cls n blk) (locateBlocks fs name cls n blk) := by
  induction n generalizing blk past with
  | zero => exact .done ⟨hU, .next⟩
  | succ n ih =>
    refine .readBlock (.done ⟨hU.readBlock _ _, .out (.error _)⟩) fun d d' hsame _ => ?_
    have hslots := locateSlots_same hsame name fs.direntPerBlk 0
      (by rw [Nat.zero_add, slots_inside hp])
    dsimp only
    generalize locateSlots name d fs.direntPerBlk 0 = r at hslots ⊢
    generalize locateSlots name d' fs.direntPerBlk 0 = r' at hslots ⊢
    cases hslots with
    | next => exact ih (blk + 1) (hU.readBlock _ _)
    | out h =>
      cases h with
      | missing => exact .done ⟨hU.readBlock _ _, .out .missing⟩
      | found k de de' => exact .done ⟨hU.readBlock _ _, .out (.found _ _)⟩

theorem twin_locateClusters (name : Vector UInt8 11) (n cls : ℕ) (hU : Unwritten past) :
    Twin s (fun past r r' => Unwritten past ∧ SameLocated r r') past
      (locateClusters fs name n cls) (locateClusters fs name n cls) := by
  induction n generalizing cls past with
  | zero => exact .done ⟨hU, .missing⟩
  | succ n ih =>
    apply Twin.bind (twin_locateBlocks hp name cls fs.blkPerClus (clsToBlk fs cls) hU)
    rintro past r r' ⟨hU, h⟩
    cases h with
    | out h => exact .done ⟨hU, h⟩
    | next =>
      apply Twin.bind (twin_getEntry hp cls)
      rintro past r _ ⟨hkept, rfl⟩
      have hU := hkept hU
      cases r with
      | error e => exact .done ⟨hU, .error e⟩
      | ok next =>
        show Twin s _ past (if _ then _ else _) (if _ then _ else _)
        split
        · exact .done ⟨hU, .missing⟩
        · exact ih next hU

/-- What `sfat_dentry_locate` returns: the same error, or an entry. -/
inductive SameResult {ρ : Type} : Except Errno ρ → Except Errno ρ → Prop
  | error (e : Errno) : SameResult (.error e) (.error e)
  | ok (x x' : ρ) : SameResult (.ok x) (.ok x')

/-- **Looking for a name.** -/
theorem twin_locate (name : Vector UInt8 11) (start : ℕ) (hU : Unwritten past) :
    Twin s (fun past r r' => Unwritten past ∧ SameResult r r') past
      (sfatDentryLocate fs start name) (sfatDentryLocate fs start name) := by
  refine .request trivial fun page => ?_
  have hU := hU.plain (c := .blkholderAlloc) page trivial
  cases page with
  | none => exact .done ⟨hU, .error _⟩
  | some addr =>
    apply Twin.bind (twin_locateClusters hp name fs.clusters start hU)
    rintro past r r' ⟨hU, h⟩
    cases h with
    | error e => exact .done ⟨hU, .error e⟩
    | missing => exact .done ⟨hU, .error _⟩
    | found x x' => exact .done ⟨hU, .ok x x'⟩

/-- A free slot that was found in two pages: the pages are those read last from the block, and the
slot is not that of the file. -/
inductive SameFree (s : FileSlot fs) (past : Past Request Answer) :
    Except Errno FreeSlot → Except Errno FreeSlot → Prop
  | error (e : Errno) : SameFree s past (.error e) (.error e)
  | ok {cls blk k : ℕ} {d d' : Page} (hsame : s.SamePage (clsToBlk fs cls + blk) d d')
      (hread : lastRead fs.blockSize (clsToBlk fs cls + blk) past = some d)
      (hk : 32 * k + 32 ≤ fs.blockSize)
      (hother : clsToBlk fs cls + blk = s.blk → k * 32 ≠ s.pos) :
      SameFree s past (.ok ⟨cls, blk, k * 32, d⟩) (.ok ⟨cls, blk, k * 32, d'⟩)

theorem twin_freeBlocks (cls n : ℕ) {blk : ℕ} (hblk : clsToBlk fs cls ≤ blk) (hU : Unwritten past) :
    Twin s (fun past r r' => Unwritten past ∧ SameLoop (SameFree s past) r r') past
      (freeBlocks fs cls n blk) (freeBlocks fs cls n blk) := by
  induction n generalizing blk past with
  | zero => exact .done ⟨hU, .next⟩
  | succ n ih =>
    refine .readBlock (.done ⟨hU.readBlock _ _, .out (.error _)⟩) fun d d' hsame hseen => ?_
    have hin := slots_inside hp
    have hslots := freeSlots_same hsame fs.direntPerBlk 0 (by omega)
    dsimp only
    rw [← hslots]
    cases hfound : freeSlots d fs.direntPerBlk 0 with
    | none => exact ih (Nat.le_succ_of_le hblk) (hU.readBlock _ _)
    | some k =>
      obtain ⟨-, hlt, hunused⟩ := freeSlots_spec hfound
      have hback : clsToBlk fs cls + (blk - clsToBlk fs cls) = blk := by omega
      refine .done ⟨hU.readBlock _ _, .out (.ok ?_ ?_ (by omega) ?_)⟩
      · rw [hback]
        exact hsame
      · rw [hback]
        exact lastRead_read _ _ _ _
      · rw [hback]
        intro hblk' hpos
        apply hunused
        rw [Nat.mul_comm, hpos]
        exact (hseen hU).1 hblk'

theorem twin_freeClusters (n cls : ℕ) (hU : Unwritten past) :
    Twin s (fun past r r' => Unwritten past ∧ SameFree s past r r') past
      (freeClusters fs n cls) (freeClusters fs n cls) := by
  induction n generalizing cls past with
  | zero => exact .done ⟨hU, .error _⟩
  | succ n ih =>
    apply Twin.bind (twin_freeBlocks hp cls fs.blkPerClus (Nat.le_refl _) hU)
    rintro past r r' ⟨hU, h⟩
    cases h with
    | out h => exact .done ⟨hU, h⟩
    | next =>
      apply Twin.bind (twin_getEntry hp cls)
      rintro past r _ ⟨hkept, rfl⟩
      have hU := hkept hU
      cases r with
      | error e => exact .done ⟨hU, .error e⟩
      | ok next =>
        show Twin s _ past (if _ then _ else _) (if _ then _ else _)
        split
        · exact .done ⟨hU, .error _⟩
        · exact ih next hU

/-- **Looking for a free slot.** -/
theorem twin_freeLocate (start : ℕ) (hU : Unwritten past) :
    Twin s (fun past r r' => Unwritten past ∧ SameFree s past r r') past
      (sfatFreeDentryLocate fs start) (sfatFreeDentryLocate fs start) :=
  twin_freeClusters hp fs.clusters start hU

end Scans

/-! ### The FAT -/

section Fat

variable (hp : Placed fs)
include hp

/-- A word found free is not that of the cluster of the slot. -/
theorem acquired_ne {i : ℕ} (hseen : s.Seen past (fs.fatStartBlk + i) d) (hU : Unwritten past) {k : ℕ}
    (hk : k < fs.blockSize / 4) (hfree : le32 d (4 * k) = sfatEntryFree) :
    i * (fs.blockSize / 4) + k ≠ s.cls := by
  intro hcls
  have hdiv : s.cls / (fs.blockSize / 4) = i := by
    rw [← hcls, Nat.mul_comm, Nat.mul_add_div (by omega), Nat.div_eq_of_lt hk, Nat.add_zero]
  have hmod : s.cls % (fs.blockSize / 4) = k := by
    rw [← hcls, Nat.mul_comm, Nat.mul_add_mod, Nat.mod_eq_of_lt hk]
  apply (hseen hU).2
  · rw [fatBlk_eq hp.toWellFormed, hdiv, Nat.add_comm]
  · rw [fatPos_eq hp.toWellFormed, hmod]
    exact hfree

/-- The same result of an allocation: no cluster, or not that of the slot. -/
inductive SameCluster (s : FileSlot fs) : Except Errno ℕ → Except Errno ℕ → Prop
  | error (e : Errno) : SameCluster s (.error e) (.error e)
  | ok {cls : ℕ} (hcls : cls ≠ s.cls) : SameCluster s (.ok cls) (.ok cls)

theorem twin_acquireBlocks (n i : ℕ) (hn : i + n = fs.fatLengthBlk) (hU : Unwritten past) :
    Twin s (fun _ => SameCluster s) past
      (acquireBlocks fs n (fs.fatStartBlk + i)) (acquireBlocks fs n (fs.fatStartBlk + i)) := by
  induction n generalizing i past with
  | zero => exact .done (.error _)
  | succ n ih =>
    have hne : fs.fatStartBlk + i ≠ s.blk := by
      have hdata := dataStart_le_clsToBlk hp (s.cls_lt_word hp)
      have hbefore := hp.fat_before_data
      have hin := s.in_cls
      omega
    obtain ⟨w, hw, hbs⟩ := hp.wordBlocks.blockSize_words
    refine .readBlock (.done (.error _)) fun d d' hsame hseen => ?_
    have hsame' := hsame.eq_of_ne hne
    have hfind : findFree d (fs.blockSize / 4) 0 = findFree d' (fs.blockSize / 4) 0 :=
      findFree_congr fun j hj => hsame' j (by omega)
    have hspec := findFree_spec d (fs.blockSize / 4) 0
    dsimp only
    rw [← hfind]
    cases hk : findFree d (fs.blockSize / 4) 0 with
    | none => exact ih (i + 1) (by omega) (hU.readBlock _ _)
    | some k =>
      rw [hk] at hspec
      obtain ⟨-, hlt, hfree, -⟩ := hspec
      refine .writeBlock (hsame.patch _ _ _) (fun h => absurd h hne) fun ok => ?_
      cases ok with
      | false => exact .done (.error _)
      | true =>
        refine .done (.ok ?_)
        rw [Nat.add_sub_cancel_left, hp.wordBlocks.shiftLeft_words]
        exact acquired_ne hp hseen hU (by omega) hfree

/-- **An allocation** takes another cluster than that of the slot. -/
theorem twin_acquire (hU : Unwritten past) :
    Twin s (fun _ r r' => SameCluster s r r' ∧ ∀ cls, r = .ok cls → cls < 2 ^ 32) past
      (sfatFatEntryAcquire fs) (sfatFatEntryAcquire fs) := by
  have hne : Twin s (fun _ => SameCluster s) past (sfatFatEntryAcquire fs)
      (sfatFatEntryAcquire fs) := by
    refine .request trivial fun page => ?_
    cases page with
    | none => exact .done (.error _)
    | some addr =>
      exact twin_acquireBlocks hp fs.fatLengthBlk 0 (Nat.zero_add _) (hU.plain _ trivial)
  apply (hne.obeys (acquire_obeys hp.wordBlocks)).mono
  rintro past r r' ⟨h, hlt⟩
  exact ⟨h, fun cls hcls => Nat.lt_of_lt_of_le (hlt cls hcls) hp.fat_words⟩

theorem twin_modify (cls attr : ℕ) :
    Twin s (fun _ r r' => r = r') past (sfatFatEntryModify fs cls attr)
      (sfatFatEntryModify fs cls attr) := by
  rw [sfatFatEntryModify]
  split
  · exact .done rfl
  · rename_i hcls
    refine .request trivial fun page => ?_
    cases page with
    | none => exact .done rfl
    | some addr =>
      refine .readBlock (.done rfl) fun d d' hsame _ => ?_
      refine .writeBlock (hsame.patch _ _ _) (fun h => absurd h (fatBlk_ne hp s hcls)) fun ok => ?_
      cases ok with
      | false => exact .done rfl
      | true => exact .done rfl

/-- **Linking a cluster.** -/
theorem twin_append (endCls n cls : ℕ) :
    Twin s (fun _ r r' => r = r') past (appendLoop fs endCls n cls) (appendLoop fs endCls n cls) := by
  induction n generalizing cls past with
  | zero => exact .done rfl
  | succ n ih =>
    apply Twin.bind (twin_getEntry hp cls)
    rintro past r _ ⟨-, rfl⟩
    cases r with
    | error e => exact .done rfl
    | ok next =>
      show Twin s _ past (if next = sfatEntryEoc then _ else _) (if next = sfatEntryEoc then _ else _)
      split
      · exact twin_modify hp cls endCls
      · split
        · exact .done rfl
        · exact ih next

end Fat

/-! ### The creation -/

/-- The entry of the directory itself is not that of the file. -/
def FileSlot.Spares (s : FileSlot fs) (dir : Inode) : Prop :=
  dir.iIno ≠ sfatRootIno → flushPos fs dir % 32 = 0 ∧
    ¬ (flushBlk fs dir = s.blk ∧ flushPos fs dir = s.pos)

theorem FileSlot.SamePage.flushEntry (h : s.SamePage blk d d') (pos : ℕ) (inode : Inode) :
    s.SamePage blk (flushEntry d pos inode) (flushEntry d' pos inode) :=
  ((((h.patch _ _ _).patch _ _ _).patch _ _ _).patch _ _ _).patch _ _ _

/-- **Flushing the directory.** -/
theorem twin_flushDir {dir : Inode} (hdir : s.Spares dir) :
    Twin s (fun _ r r' => r = r') past (sfatInodeWriteToHd fs dir) (sfatInodeWriteToHd fs dir) := by
  rw [sfatInodeWriteToHd]
  split
  · exact .done rfl
  · rename_i hroot
    obtain ⟨haligned, hother⟩ := hdir hroot
    refine .request trivial fun page => ?_
    cases page with
    | none => exact .done rfl
    | some addr =>
      refine .readBlock (.done rfl) fun d d' hsame _ => ?_
      refine .writeBlock (hsame.flushEntry _ _) (fun hblk => ?_) fun ok => ?_
      · refine ⟨d, lastRead_read _ _ _ _, ?_⟩
        rintro i ⟨-, hlo, hhi⟩
        have hne : flushPos fs dir ≠ s.pos := fun hpos => hother ⟨hblk, hpos⟩
        have hs := s.aligned
        exact flushEntry_apply d (flushPos fs dir) dir (by omega)
      · cases ok with
        | false => exact .done rfl
        | true => exact .done rfl

/-- **Building the inode** of a file reads no block. -/
theorem twin_buildInode (sbi : SbInfo) {de : SfatDirEntry} (hde : de.isDir = false) (iPos : ℕ) :
    Twin s (fun _ r r' => r = r') past (sfatBuildInode sbi de iPos) (sfatBuildInode sbi de iPos) := by
  refine .request trivial fun stale => ?_
  cases stale with
  | none => exact .done rfl
  | some stale =>
    refine .request trivial fun ino => ?_
    rw [sfatFillInode]
    refine .request trivial fun now => ?_
    simp only [hde]
    exact .done rfl

variable {sbi : SbInfo} {s : FileSlot sbi.fsInfo} {dir : Inode}

theorem twin_createFinish (hdir : s.Spares dir) {de : SfatDirEntry} (hde : de.isDir = false)
    (iPos : ℕ) : Twin s (fun _ r r' => r = r') past (createFinish sbi dir de iPos)
      (createFinish sbi dir de iPos) := by
  apply Twin.bind (twin_flushDir hdir)
  rintro past r _ rfl
  cases r with
  | some e => exact .done rfl
  | none =>
    apply Twin.bind (twin_buildInode sbi hde iPos)
    rintro past r _ rfl
    cases r with
    | error e => exact .done rfl
    | ok inode => exact .done rfl

theorem FileSlot.Spares.congr (h : s.Spares dir) {dir' : Inode} (hino : dir'.iIno = dir.iIno)
    (hpos : dir'.iPos = dir.iPos) : s.Spares dir' := by
  rw [FileSlot.Spares, flushBlk, flushPos, hino, hpos]
  exact h

/-- The end of the creation of a file. -/
theorem twin_createEnd (hdir : s.Spares dir) (name : Vector UInt8 11) (tvSec iPos : ℕ) :
    Twin s (fun _ r r' => r = r') past
      (createFinish sbi dir (sfatFormDirEntry false name 0 0 tvSec) iPos >>= fun r => pure (r, dir))
      (createFinish sbi dir (sfatFormDirEntry false name 0 0 tvSec) iPos >>= fun r => pure (r, dir)) := by
  apply Twin.bind (twin_createFinish hdir (formDirEntry_file name 0 0 tvSec) iPos)
  rintro past r _ rfl
  exact .done rfl

/-- An attribute is no covered byte. -/
theorem putAttr_covered (d : Page) {off : ℕ} (hoff : off % 32 = 0) (attr : UInt8) {blk i : ℕ}
    (hi : s.Covers blk i) : putAttr d off attr i = d i := by
  have haligned := s.aligned
  obtain ⟨-, hlo, hhi⟩ := hi
  rcases Nat.lt_or_ge i (off + 11) with h | h
  · exact patch_of_lt _ _ h
  · exact patch_of_ge _ _ (by omega)

theorem twin_writeTerminator (cls blk : ℕ) :
    Twin s (fun _ r r' => r = r') past (createWriteTerminator sbi.fsInfo cls blk)
      (createWriteTerminator sbi.fsInfo cls blk) := by
  refine .readBlock (.done rfl) fun d d' hsame _ => ?_
  refine .writeBlock (hsame.patch _ _ _) (fun _ => ?_) fun ok => ?_
  · exact ⟨d, lastRead_read _ _ _ _, fun i hi => putAttr_covered d rfl _ hi⟩
  · cases ok with
    | false => exact .done rfl
    | true => exact .done rfl

theorem twin_moveTerminator (hp : Placed sbi.fsInfo) (cls blk : ℕ) (junk : CreateJunk) :
    Twin s (fun _ r r' => r = r') past (createMoveTerminator sbi.fsInfo cls blk junk)
      (createMoveTerminator sbi.fsInfo cls blk junk) := by
  rw [createMoveTerminator]
  split
  · exact twin_writeTerminator _ _
  · apply Twin.bind (twin_getEntry hp cls)
    rintro past r _ ⟨-, rfl⟩
    cases r with
    | error e => exact .done rfl
    | ok next =>
      show Twin s _ past (if next = sfatEntryEoc then _ else _) (if next = sfatEntryEoc then _ else _)
      split
      · exact .done rfl
      · split
        · exact .done rfl
        · exact twin_writeTerminator _ _

/-- A new entry does not cover the slot of the file. -/
theorem putDirent_covered (d : Page) {off : ℕ} (hoff : off % 32 = 0) {blk i : ℕ}
    (hother : blk = s.blk → off ≠ s.pos) (de : SfatDirEntry) (hi : s.Covers blk i) :
    putDirent d off de i = d i := by
  have haligned := s.aligned
  obtain ⟨hblk, hlo, hhi⟩ := hi
  have hne := hother hblk
  rcases Nat.lt_or_ge i off with h | h
  · exact patch_of_lt _ _ h
  · exact patch_of_ge _ _ (by omega)

/-- **Creation in a free slot.** -/
theorem twin_createInFreeSlot (hp : Placed sbi.fsInfo) (hdir : s.Spares dir) (name : Vector UInt8 11)
    (tvSec : ℕ) (junk : CreateJunk) {slot slot' : FreeSlot}
    (h : SameFree s past (.ok slot) (.ok slot')) :
    Twin s (fun _ r r' => r = r') past (createInFreeSlot sbi dir name tvSec junk slot)
      (createInFreeSlot sbi dir name tvSec junk slot') := by
  cases h with
  | @ok cls blk k d d' hsame hread hk hother =>
    have hoff : k * 32 % 32 = 0 := Nat.mul_mod_left k 32
    have hattr := hsame.attr hoff (by omega)
    have hdir' : s.Spares { dir with iMtime := tvSec } := hdir.congr rfl rfl
    simp only [createInFreeSlot, hattr]
    refine .writeBlock ?_ ?_ fun ok => ?_
    · apply FileSlot.SamePage.patch
      split
      · exact hsame.patch _ _ _
      · exact hsame
    · intro hblk
      refine ⟨d, hread, fun i hi => ?_⟩
      rw [putDirent_covered _ hoff hother _ hi]
      split
      · exact putAttr_covered d (by omega) _ hi
      · rfl
    · cases ok with
      | false => exact .done rfl
      | true =>
        simp only [if_true]
        by_cases hlast : (direntAt d' (k * 32)).attr = sfatAttrEmptyEnd ∧
          ¬ k * 32 < sbi.fsInfo.blockSize - 32
        · simp only [if_pos hlast]
          apply Twin.bind (twin_moveTerminator hp cls blk junk)
          rintro past r _ rfl
          cases r with
          | some r => exact .done rfl
          | none => exact twin_createEnd hdir' name tvSec _
        · simp only [if_neg hlast]
          exact twin_createEnd hdir' name tvSec _

/-- The cluster that was allocated has other blocks. -/
theorem clsToBlk_ne (hp : Placed sbi.fsInfo) {cls : ℕ} (hne : cls ≠ s.cls) (hlt : cls < 2 ^ 32) :
    clsToBlk sbi.fsInfo cls ≠ s.blk := by
  obtain ⟨hlo, hhi⟩ := s.in_cls
  have hpos := hp.blkPerClus_pos
  rw [hp.clsToBlk_eq (s.cls_lt_word hp)] at hlo hhi
  rw [hp.clsToBlk_eq hlt]
  intro hblk
  obtain ⟨j, hj⟩ := Nat.exists_eq_add_of_le hlo
  have hjlt : j < sbi.fsInfo.blkPerClus := by omega
  exact hne (mul_add_inj hpos hjlt (by omega)).1

/-- **Creation in a new cluster.** -/
theorem twin_createInNewCluster (hp : Placed sbi.fsInfo) (hdir : s.Spares dir)
    (name : Vector UInt8 11) (tvSec : ℕ) (junk : CreateJunk) (hU : Unwritten past) :
    Twin s (fun _ r r' => r = r') past (createInNewCluster sbi dir name tvSec junk)
      (createInNewCluster sbi dir name tvSec junk) := by
  apply Twin.bind (twin_acquire hp hU)
  rintro past r r' ⟨h, hlt⟩
  cases h with
  | error e => exact .done rfl
  | @ok cls hne =>
    have hblk := clsToBlk_ne hp hne (hlt cls rfl)
    apply Twin.bind (twin_append hp cls sbi.fsInfo.clusters dir.iStart)
    rintro past r _ rfl
    cases r with
    | some e => exact .done rfl
    | none =>
      refine .readBlock (.done rfl) fun d d' hsame _ => ?_
      refine .writeBlock ((hsame.patch _ _ _).patch _ _ _) (fun h => absurd h hblk) fun ok => ?_
      cases ok with
      | false => exact .done rfl
      | true =>
        apply twin_createEnd
        exact hdir.congr rfl rfl

/-- **The creation does not look at the bytes that a flush of the file stores.** -/
theorem twin_createFile (hp : Placed sbi.fsInfo) (hdir : s.Spares dir) (dName : List UInt8)
    (junk : CreateJunk) (hU : Unwritten past) :
    Twin s (fun _ r r' => r = r') past (sfatCreateFile sbi dir dName junk)
      (sfatCreateFile sbi dir dName junk) := by
  apply Twin.bind (twin_locate hp (padName dName) dir.iStart hU)
  rintro past r r' ⟨hU, h⟩
  cases h with
  | ok x x' => exact .done rfl
  | error e =>
    show Twin s _ past (if e ≠ .enoent then _ else _) (if e ≠ .enoent then _ else _)
    split
    · exact .done rfl
    · refine .request trivial fun page => ?_
      have hU := hU.plain (c := .blkholderAlloc) page trivial
      cases page with
      | none => exact .done rfl
      | some addr =>
        apply Twin.bind (twin_freeLocate hp dir.iStart hU)
        rintro past r r' ⟨hU, h⟩
        cases h with
        | error e =>
          show Twin s _ past (if e ≠ .enoent then _ else _) (if e ≠ .enoent then _ else _)
          split
          · exact .done rfl
          · refine .request trivial fun tvSec => ?_
            exact twin_createInNewCluster hp hdir _ _ junk (hU.plain _ trivial)
        | ok hsame hread hk hother =>
          refine .request trivial fun tvSec => ?_
          exact twin_createInFreeSlot hp hdir _ _ junk (.ok hsame hread hk hother)

end SimpleFat
