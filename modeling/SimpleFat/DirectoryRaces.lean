import SimpleFat.SlotBlind

/-!
# A creation and a flush side by side

`sfat_create_file` and `sfat_inode_write_to_hd` both read a block of a directory into a page of their
own, change one slot and write the whole block back, and nothing keeps the requests of the one from
the requests of the other.

* `flushed_covered`, `flushed_elsewhere` — a flush stores the same bytes whatever the block holds;
* `Twin.step_flushed` — the creation takes the same step before and after the flush;
* `directory_race` — if a block is written only while it holds what its writer read from it, the two
  calls end as if the creation had been first and the flush second;
* `directory_race_fails` — otherwise either of the two can be lost.
-/

namespace SimpleFat

open SimpleFat.Lib

variable {H : Host} {fs : FsInfo} {s : FileSlot fs} {other : Inode} {v : Vol}

/-! ### The bytes of a flush -/

/-- The slot is the one that a flush of the inode stores into. -/
structure FileSlot.IsOf (s : FileSlot fs) (other : Inode) : Prop where
  not_root : other.iIno ≠ sfatRootIno
  blk_eq : flushBlk fs other = s.blk
  pos_eq : flushPos fs other = s.pos

/-- The bytes that are stored do not depend on the page. -/
theorem flushEntry_inside (d d' : Page) (inode : Inode) {pos i : ℕ} (hlo : pos + 12 ≤ i)
    (hhi : i < pos + 32) : flushEntry d pos inode i = flushEntry d' pos inode i := by
  simp only [flushEntry, putLe32, patch]
  split_ifs
  all_goals first
    | rfl
    | omega

/-- The slot lies in one block. -/
theorem FileSlot.inside (hp : Placed fs) (s : FileSlot fs) : s.pos + 32 ≤ fs.blockSize := by
  have hin := slots_inside hp
  have haligned := s.aligned
  have hlt := s.pos_lt
  omega

/-- A block after a block was written. -/
theorem blockAt_putBlock (v : Vol) (sz b : ℕ) (d : Page) {i : ℕ} (hi : i < sz) :
    blockAt (putBlock v sz b d) sz b i = d i := by
  rw [blockAt, window_apply, putBlock, patch_add _ _ hi]

theorem blockAt_putBlock_ne (v : Vol) {sz b blk : ℕ} (d : Page) (hne : blk ≠ b) {i : ℕ}
    (hi : i < sz) : blockAt (putBlock v sz b d) sz blk i = blockAt v sz blk i := by
  rw [blockAt, blockAt, window_apply, window_apply, putBlock]
  rcases Nat.lt_or_gt_of_ne hne with h | h
  · apply patch_of_lt
    have hmul := Nat.mul_le_mul_right sz (show blk + 1 ≤ b from h)
    rw [Nat.add_mul, Nat.one_mul] at hmul
    omega
  · apply patch_of_ge
    have hmul := Nat.mul_le_mul_right sz (show b + 1 ≤ blk from h)
    rw [Nat.add_mul, Nat.one_mul] at hmul
    omega

/-- A byte of a block, after a flush. -/
theorem blockAt_flushed (hs : s.IsOf other) (v : Vol) {i : ℕ} (hi : i < fs.blockSize) :
    blockAt (flushed fs v other) fs.blockSize s.blk i =
      flushEntry (blockAt v fs.blockSize s.blk) s.pos other i := by
  rw [flushed, if_neg hs.not_root, hs.blk_eq, hs.pos_eq, blockAt_putBlock _ _ _ _ hi]

/-- **The covered bytes** of a flushed volume are those of any flushed volume. -/
theorem flushed_covered (hp : Placed fs) (hs : s.IsOf other) (v v' : Vol) {blk i : ℕ}
    (hi : s.Covers blk i) : blockAt (flushed fs v other) fs.blockSize blk i =
      blockAt (flushed fs v' other) fs.blockSize blk i := by
  have hin := s.inside hp
  obtain ⟨rfl, hlo, hhi⟩ := hi
  rw [blockAt_flushed hs v (by omega), blockAt_flushed hs v' (by omega)]
  exact flushEntry_inside _ _ other hlo hhi

/-- **The other bytes** do not change. -/
theorem flushed_elsewhere (hs : s.IsOf other) (v : Vol) {blk i : ℕ} (hi : i < fs.blockSize)
    (hc : ¬ s.Covers blk i) :
    blockAt (flushed fs v other) fs.blockSize blk i = blockAt v fs.blockSize blk i := by
  by_cases hblk : blk = s.blk
  · subst hblk
    rw [blockAt_flushed hs v hi]
    apply flushEntry_apply
    by_contra hin
    exact hc ⟨rfl, by omega, by omega⟩
  · rw [flushed, if_neg hs.not_root, hs.blk_eq, blockAt_putBlock_ne _ _ hblk hi]

/-- So the pages of a flushed volume differ in the covered bytes only. -/
theorem samePage_flushed (hs : s.IsOf other) (v : Vol) (blk : ℕ) :
    s.SamePage blk (blockAt (flushed fs v other) fs.blockSize blk) (blockAt v fs.blockSize blk) :=
  fun _ hi hc => flushed_elsewhere hs v hi hc

/-- Volumes whose blocks agree. -/
theorem ext_blocks (hbs : 0 < fs.blockSize) {v v' : Vol}
    (h : ∀ blk, ∀ i < fs.blockSize, blockAt v fs.blockSize blk i = blockAt v' fs.blockSize blk i) :
    v = v' := by
  funext a
  have ha := h (a / fs.blockSize) (a % fs.blockSize) (Nat.mod_lt a hbs)
  rwa [blockAt, blockAt, window_apply, window_apply, Nat.div_add_mod'] at ha

/-- **A write after the flush is the flush of the write**, if the page has the covered bytes. -/
theorem putBlock_flushed (hp : Placed fs) (hs : s.IsOf other) (v : Vol) {blk : ℕ} {d d' : Page}
    (hsame : s.SamePage blk d d')
    (hcov : ∀ i, s.Covers blk i → d i = blockAt (flushed fs v other) fs.blockSize blk i) :
    putBlock (flushed fs v other) fs.blockSize blk d =
      flushed fs (putBlock v fs.blockSize blk d') other := by
  have hbs : 0 < fs.blockSize := Nat.lt_of_lt_of_le (by omega) (s.inside hp)
  apply ext_blocks hbs
  intro b i hi
  by_cases hc : s.Covers b i
  · by_cases hb : b = blk
    · subst hb
      rw [blockAt_putBlock _ _ _ _ hi, hcov i hc]
      exact flushed_covered hp hs _ _ hc
    · rw [blockAt_putBlock_ne _ _ hb hi]
      exact flushed_covered hp hs _ _ hc
  · rw [flushed_elsewhere hs _ hi hc]
    by_cases hb : b = blk
    · subst hb
      rw [blockAt_putBlock _ _ _ _ hi, blockAt_putBlock _ _ _ _ hi]
      exact hsame i hi hc
    · rw [blockAt_putBlock_ne _ _ hb hi, blockAt_putBlock_ne _ _ hb hi]
      exact flushed_elsewhere hs _ hi hc

/-! ### The steps of the creation -/

/-- The environment looks at blocks: a lookup of the FAT does not look behind its block, and whether
a write may fail does not depend on the data. -/
structure Host.BlockWise (H : Host) (fs : FsInfo) : Prop where
  lookup : ∀ addr blk pos d d' r, pos + 4 ≤ fs.blockSize → (∀ i < fs.blockSize, d i = d' i) →
    H.lookup addr blk pos d r → H.lookup addr blk pos d' r
  mayFail : ∀ sz b d d', H.mayFail (.writeBlock sz b d) → H.mayFail (.writeBlock sz b d')

theorem Host.code_blockWise (fs : FsInfo) : (Host.code noFailure).BlockWise fs where
  lookup _ _ _ _ _ _ _ _ h := h
  mayFail _ _ _ _ h := h

/-- What a program that has written nothing reads from the volume `u`. -/
def FileSlot.Shows (s : FileSlot fs) (past : Past Request Answer) (u : Vol) : Prop :=
  Unwritten past → s.Used (blockAt u fs.blockSize s.blk) ∧ fatWord fs u s.cls ≠ sfatEntryFree

theorem FileSlot.Shows.seen (hp : Placed fs) {past : Past Request Answer} {u : Vol}
    (h : s.Shows past u) (blk : ℕ) : s.Seen past blk (blockAt u fs.blockSize blk) := by
  intro hU
  obtain ⟨hused, hfree⟩ := h hU
  refine ⟨fun hblk => by rwa [hblk], fun hblk => ?_⟩
  rwa [hblk, hp.wordBlocks.le32_fatBlk]

/-- A flush leaves the entry in use, and the FAT alone. -/
theorem FileSlot.Shows.flushed (hp : Placed fs) (hs : s.IsOf other) {past : Past Request Answer}
    {u : Vol} (h : s.Shows past u) : s.Shows past (flushed fs u other) := by
  intro hU
  obtain ⟨⟨hend, hempty⟩, hfree⟩ := h hU
  have hsame := samePage_flushed hs u
  have hin := s.inside hp
  refine ⟨⟨?_, ?_⟩, ?_⟩
  · rw [(hsame s.blk).isEnd s.aligned (by omega)]
    exact hend
  · rw [(hsame s.blk).isEmpty s.aligned (by omega)]
    exact hempty
  · have hne : fatBlk fs s.cls ≠ s.blk := by
      have hdiv : s.cls / (fs.blockSize / 4) < fs.fatLengthBlk :=
        Nat.div_lt_of_lt_mul (by rw [Nat.mul_comm]; exact s.cls_lt)
      have hdata := dataStart_le_clsToBlk hp (s.cls_lt_word hp)
      have hbefore := hp.fat_before_data
      have hblk := s.in_cls
      rw [fatBlk_eq hp.toWellFormed]
      omega
    rw [← hp.wordBlocks.le32_fatBlk] at hfree ⊢
    rwa [le32_congr fun i hi => (hsame _).eq_of_ne hne _ _]
    have := hp.wordBlocks.fatPos_le s.cls
    omega

section Steps

variable {α : Type} {Q : Past Request Answer → α → α → Prop} {past : Past Request Answer}
  {c : Request} {k : Answer c → Driver α} {r : Answer c} {v' : Vol}

/-- **A step before the flush**: the two programs are one, and stay one. -/
theorem Twin.step_same (h : Twin s Q past (.ask c k) (.ask c k)) (hw : H.world v c r v')
    (hseen : ∀ blk, s.Seen past blk (blockAt v fs.blockSize blk)) :
    Twin s Q (⟨c, r⟩ :: past) (k r) (k r) := by
  cases h with
  | read hnone hsome =>
    obtain ⟨-, rfl | ⟨rfl, -⟩⟩ := hw
    · exact hsome _ _ (.refl s _ _) (hseen _)
    · exact hnone
  | write _ _ h => exact h r
  | lookup _ _ h => exact h r
  | plain _ h => exact h r

/-- Requests without a block have the same answers everywhere. -/
theorem Plain.world (hc : Plain c) (hw : H.world v c r v') (u : Vol) :
    v' = v ∧ H.world u c r u := by
  cases c with
  | blkholderAlloc => exact ⟨hw.1, rfl, hw.2⟩
  | copyFromUser n => exact ⟨hw.1, rfl, hw.2⟩
  | copyToUser n => exact ⟨hw.1, rfl, hw.2⟩
  | currentTimeSec => exact ⟨hw, rfl⟩
  | newInode => exact ⟨hw.1, rfl, hw.2⟩
  | iunique m => exact ⟨hw.1, rfl, hw.2⟩
  | dAllocRoot => exact ⟨hw.1, rfl, hw.2⟩
  | filldir call => exact ⟨hw.1, rfl, hw.2⟩
  | readBlock sz b => exact hc.elim
  | writeBlock sz b d => exact hc.elim
  | le32OfPointer a b p d => exact hc.elim

/-- **A step after the flush**: the second program takes the same step on the volume without it. -/
theorem Twin.step_flushed (hH : H.BlockWise fs) (hp : Placed fs) (hs : s.IsOf other)
    {q : Driver α} {u : Vol} (h : Twin s Q past (.ask c k) q)
    (hg : rereads past c (flushed fs u other)) (hw : H.world (flushed fs u other) c r v')
    (hshows : s.Shows past u) : ∃ (c' : Request) (k' : Answer c' → Driver α) (r' : Answer c')
      (u' : Vol), q = .ask c' k' ∧ H.world u c' r' u' ∧ v' = flushed fs u' other ∧
        Twin s Q (⟨c, r⟩ :: past) (k r) (k' r') ∧ ((∀ sz b w, c ≠ .writeBlock sz b w) → u' = u) := by
  have hsame := samePage_flushed hs u
  cases h with
  | @read _ blk _ k' hnone hsome =>
    obtain ⟨rfl, rfl | ⟨rfl, hm⟩⟩ := hw
    · refine ⟨.readBlock fs.blockSize blk, k', some (blockAt u fs.blockSize blk), u, rfl,
        ⟨rfl, .inl rfl⟩, rfl, ?_, fun _ => rfl⟩
      exact hsome _ _ (hsame blk) ((hshows.flushed hp hs).seen hp blk)
    · exact ⟨.readBlock fs.blockSize blk, k', (none : Option Page), u, rfl,
        ⟨rfl, .inr ⟨rfl, hm⟩⟩, rfl, hnone, fun _ => rfl⟩
  | @write _ blk d d' _ k' hpage hkeeps h =>
    rcases hw with ⟨rfl, rfl⟩ | ⟨rfl, rfl, hm⟩
    · refine ⟨.writeBlock fs.blockSize blk d', k', true, putBlock u fs.blockSize blk d', rfl,
        .inl ⟨rfl, rfl⟩, ?_, h true, fun hc => absurd rfl (hc _ _ _)⟩
      apply putBlock_flushed hp hs u hpage
      intro i hc
      obtain ⟨page, hread, hpage⟩ := hkeeps hc.1
      have hi : i < fs.blockSize := by
        have hin := s.inside hp
        have hhi := hc.2.2
        omega
      rw [hpage i hc, rereads_writeBlock hread hg i hi]
    · exact ⟨.writeBlock fs.blockSize blk d', k', false, u, rfl,
        .inr ⟨rfl, rfl, hH.mayFail _ _ _ _ hm⟩, rfl, h false, fun _ => rfl⟩
  | @lookup _ addr blk pos d d' _ k' hpos heq h =>
    obtain ⟨rfl, hl⟩ := hw
    exact ⟨.le32OfPointer addr blk pos d', k', r, u, rfl,
      ⟨rfl, hH.lookup addr blk pos d d' r hpos heq hl⟩, rfl, h r, fun _ => rfl⟩
  | @plain _ _ _ k' hc h =>
    obtain ⟨rfl, hw'⟩ := hc.world hw u
    exact ⟨c, k', r, u, rfl, hw', rfl, h r, fun _ => rfl⟩

end Steps

/-! ### The steps of the flush -/

/-- The end of a flush that has read its block. -/
def flushStore (fs : FsInfo) (inode : Inode) (data : Page) : Driver (Option Errno) := do
  if ← writeBlock fs.blockSize (flushBlk fs inode) (flushEntry data (flushPos fs inode) inode) then
    pure none
  else pure (some .eio)

/-- A flush that has its page. -/
def flushRead (fs : FsInfo) (inode : Inode) : Driver (Option Errno) := do
  match ← readBlock fs.blockSize (flushBlk fs inode) with
  | none => pure (some .eio)
  | some data => flushStore fs inode data

def flushFile (fs : FsInfo) (inode : Inode) : Driver (Option Errno) := do
  match ← blkholderAlloc with
  | none => pure (some .enomem)
  | some _ => flushRead fs inode

theorem flush_unfold {inode : Inode} (hroot : inode.iIno ≠ sfatRootIno) :
    sfatInodeWriteToHd fs inode = flushFile fs inode := by
  rw [sfatInodeWriteToHd, if_neg hroot]
  rfl

/-- A flush that has not stored anything, with what it has read; if it has failed, it can fail in the
same way at any time. -/
inductive FlushAt (H : Host) (fs : FsInfo) (inode : Inode) (past : Past Request Answer)
    (p : Driver (Option Errno)) : Prop where
  | entry (h : p = flushFile fs inode)
  | read (h : p = flushRead fs inode)
  | store (data : Page) (hread : lastRead fs.blockSize (flushBlk fs inode) past = some data)
      (h : p = flushStore fs inode data)
  | failed (e : Errno) (h : p = .done (some e))
      (hagain : ∀ u, ∃ tr, Exec H.world (flushFile fs inode) u tr (some e) u)

/-- A flush that is given a page and its block stores the fields. -/
theorem exec_flush (H : Host) {inode : Inode} (hroot : inode.iIno ≠ sfatRootIno) (u : Vol) :
    ∃ tr, Exec H.world (flushFile fs inode) u tr none (flushed fs u inode) := by
  have hpage : H.world u .blkholderAlloc (some 0 : Option ℕ) u := ⟨rfl, by simp⟩
  have hread : H.world u (.readBlock fs.blockSize (flushBlk fs inode))
      (some (blockAt u fs.blockSize (flushBlk fs inode)) : Option Page) u := ⟨rfl, .inl rfl⟩
  have hwrite : H.world u (.writeBlock fs.blockSize (flushBlk fs inode) (flushEntry
      (blockAt u fs.blockSize (flushBlk fs inode)) (flushPos fs inode) inode)) true
      (flushed fs u inode) := by
    rw [flushed, if_neg hroot]
    exact .inl ⟨rfl, rfl⟩
  exact ⟨_, .ask hpage (.ask hread (.ask hwrite .done))⟩

/-- **What one step of a flush does**: nothing, or it is the store. -/
theorem FlushAt.step (hH : H.BlockWise fs) (hs : s.IsOf other) {past : Past Request Answer} {c : Request}
    {k : Answer c → Driver (Option Errno)} {r : Answer c} {v' : Vol}
    (h : FlushAt H fs other past (.ask c k)) (hg : rereads past c v) (hw : H.world v c r v') :
    FlushAt H fs other (⟨c, r⟩ :: past) (k r) ∧ v' = v ∨
      k r = .done none ∧ v' = flushed fs v other := by
  cases h with
  | entry h =>
    change _ = Program.ask _ _ at h
    cases h
    obtain ⟨rfl, hm⟩ := hw
    cases r with
    | none =>
      refine .inl ⟨.failed .enomem rfl fun u => ?_, rfl⟩
      have hpage : H.world u .blkholderAlloc (none : Option ℕ) u := ⟨rfl, hm⟩
      exact ⟨_, .ask hpage .done⟩
    | some addr => exact .inl ⟨.read rfl, rfl⟩
  | read h =>
    change _ = Program.ask _ _ at h
    cases h
    obtain ⟨rfl, hr⟩ := hw
    cases r with
    | none =>
      refine .inl ⟨.failed .eio rfl fun u => ?_, rfl⟩
      have hfail : H.mayFail (.readBlock fs.blockSize (flushBlk fs other)) := by
        rcases hr with hr | ⟨-, hm⟩
        · cases hr
        · exact hm
      have hpage : H.world u .blkholderAlloc (some 0 : Option ℕ) u := ⟨rfl, by simp⟩
      have hread : H.world u (.readBlock fs.blockSize (flushBlk fs other)) (none : Option Page) u :=
        ⟨rfl, .inr ⟨rfl, hfail⟩⟩
      exact ⟨_, .ask hpage (.ask hread .done)⟩
    | some data => exact .inl ⟨.store data (lastRead_read _ _ _ _) rfl, rfl⟩
  | store data hread h =>
    change _ = Program.ask _ _ at h
    cases h
    have hsame := rereads_writeBlock hread hg
    rcases hw with ⟨rfl, rfl⟩ | ⟨rfl, rfl, hm⟩
    · refine .inr ⟨rfl, ?_⟩
      rw [flushed, if_neg hs.not_root, putBlock, putBlock]
      apply patch_congr
      intro i hi
      by_cases hin : flushPos fs other + 12 ≤ i ∧ i < flushPos fs other + 32
      · exact flushEntry_inside _ _ other hin.1 hin.2
      · rw [flushEntry_apply _ _ _ (by omega), flushEntry_apply _ _ _ (by omega)]
        exact (hsame i hi).symm
    · refine .inl ⟨.failed .eio rfl fun u => ?_, rfl⟩
      have hpage : H.world u .blkholderAlloc (some 0 : Option ℕ) u := ⟨rfl, by simp⟩
      have hread : H.world u (.readBlock fs.blockSize (flushBlk fs other))
          (some (blockAt u fs.blockSize (flushBlk fs other)) : Option Page) u := ⟨rfl, .inl rfl⟩
      have hwrite : H.world u (.writeBlock fs.blockSize (flushBlk fs other) (flushEntry
          (blockAt u fs.blockSize (flushBlk fs other)) (flushPos fs other) other)) false u :=
        .inr ⟨rfl, rfl, hH.mayFail _ _ _ _ hm⟩
      exact ⟨_, .ask hpage (.ask hread (.ask hwrite .done))⟩
  | failed e h => cases h

/-! ### Runs of the two calls -/

inductive DirCall where
  | create
  | flush
  deriving DecidableEq, Repr

abbrev DirCall.Ret : DirCall → Type
  | .create => CreateReturn × Inode
  | .flush => Option Errno

/-- The creation of a file, and the flush of another one. -/
structure DirCalls where
  sbi : SbInfo
  dir : Inode
  dName : List UInt8
  junk : CreateJunk
  other : Inode

def DirCalls.code (d : DirCalls) : (call : DirCall) → Driver call.Ret
  | .create => sfatCreateFile d.sbi d.dir d.dName d.junk
  | .flush => sfatInodeWriteToHd d.sbi.fsInfo d.other

abbrev DirPool : Type := Pool Request Answer DirCall DirCall.Ret Vol

def DirCalls.start (d : DirCalls) (v : Vol) : DirPool := Pool.start d.code v

/-- A run so far: the creation has done what it does alone, starting from `v`, and the flush has done
nothing yet or comes on top. -/
inductive DirCalls.Serial (H : Host) (d : DirCalls) (s : FileSlot d.sbi.fsInfo) (v : Vol)
    (p : DirPool) : Prop where
  | before
      (hflush : FlushAt H d.sbi.fsInfo d.other (p.past .flush) (p.left .flush))
      (hserial : ∀ tr r w, Exec H.world (p.left .create) p.shared tr r w →
        ∃ tr', Exec H.world (d.code .create) v tr' r w)
      (htwin : Twin s (fun _ r r' => r = r') (p.past .create) (p.left .create) (p.left .create))
      (hclean : s.Shows (p.past .create) p.shared)
  | after (q : Driver (CreateReturn × Inode)) (u : Vol)
      (hflush : p.left .flush = .done none)
      (hshared : p.shared = flushed d.sbi.fsInfo u d.other)
      (hserial : ∀ tr r w, Exec H.world q u tr r w → ∃ tr', Exec H.world (d.code .create) v tr' r w)
      (htwin : Twin s (fun _ r r' => r = r') (p.past .create) (p.left .create) q)
      (hclean : s.Shows (p.past .create) u)

variable {d : DirCalls} {s : FileSlot d.sbi.fsInfo}

/-- A request that writes nothing keeps what the program reads. -/
theorem FileSlot.Shows.step {past : Past Request Answer} {u u' : Vol} (h : s.Shows past u)
    {c : Request} (r : Answer c) (hu : (∀ sz b w, c ≠ .writeBlock sz b w) → u' = u) :
    s.Shows (⟨c, r⟩ :: past) u' := by
  intro hU
  have hc : ∀ sz b w, c ≠ .writeBlock sz b w := hU ⟨c, r⟩ List.mem_cons_self
  rw [hu hc]
  exact h fun e he => hU e (List.mem_cons_of_mem _ he)

/-- A request that is no write leaves the volume alone. -/
theorem Host.world_unchanged {H : Host} {v v' : Vol} {c : Request} {r : Answer c}
    (hw : H.world v c r v') (hc : ∀ sz b w, c ≠ .writeBlock sz b w) : v' = v := by
  cases c with
  | writeBlock sz b w => exact absurd rfl (hc sz b w)
  | currentTimeSec => exact hw
  | _ => exact hw.1

/-- **One step of the two calls.** -/
theorem DirCalls.Serial.step {H : Host} {v : Vol} (hH : H.BlockWise d.sbi.fsInfo)
    (hp : Placed d.sbi.fsInfo) (hs : s.IsOf d.other) {p q : DirPool} (h : d.Serial H s v p)
    (hstep : Pool.Step H.world rereads p q) : d.Serial H s v q := by
  obtain ⟨call, c, k, r, hleft, hg, hw, hqleft, hqpast, hothers⟩ := hstep.alone
  cases call with
  | create =>
    obtain ⟨hfl, hfp⟩ := hothers .flush (by decide)
    cases h with
    | before hflush hserial htwin hclean =>
      rw [hleft] at hserial htwin
      apply Serial.before
      · rw [hfl, hfp]
        exact hflush
      · intro tr a w he
        rw [hqleft] at he
        exact hserial _ _ _ (.ask hw he)
      · rw [hqleft, hqpast]
        exact htwin.step_same hw (hclean.seen hp)
      · rw [hqpast]
        exact hclean.step r (Host.world_unchanged hw)
    | after q' u hflush hshared hserial htwin hclean =>
      rw [hleft] at htwin
      rw [hshared] at hg hw
      obtain ⟨c', k', r', u', rfl, hw', hv', htwin', hu'⟩ :=
        htwin.step_flushed hH hp hs hg hw hclean
      apply Serial.after (k' r') u'
      · rw [hfl]
        exact hflush
      · exact hv'
      · intro tr a w he
        exact hserial _ _ _ (.ask hw' he)
      · rw [hqleft, hqpast]
        exact htwin'
      · rw [hqpast]
        exact hclean.step r hu'
  | flush =>
    obtain ⟨hcl, hcp⟩ := hothers .create (by decide)
    cases h with
    | before hflush hserial htwin hclean =>
      rw [hleft] at hflush
      rcases hflush.step hH hs hg hw with ⟨hflush, hv⟩ | ⟨hdone, hv⟩
      · apply Serial.before
        · rw [hqleft, hqpast]
          exact hflush
        · rw [hcl, hv]
          exact hserial
        · rw [hcl, hcp]
          exact htwin
        · rw [hcp, hv]
          exact hclean
      · apply Serial.after (p.left .create) p.shared
        · rw [hqleft, hdone]
        · exact hv
        · exact hserial
        · rw [hcl, hcp]
          exact htwin
        · rw [hcp]
          exact hclean
    | after q' u hflush hshared hserial htwin hclean =>
      rw [hleft] at hflush
      cases hflush

/-- The calls at their entries. -/
theorem DirCalls.serial_start {H : Host} {v : Vol} (hp : Placed d.sbi.fsInfo) (hs : s.IsOf d.other)
    (hdir : s.Spares d.dir) (hshows : s.Shows [] v) : d.Serial H s v (d.start v) := by
  apply Serial.before
  · apply FlushAt.entry
    exact flush_unfold hs.not_root
  · intro tr r w he
    exact ⟨tr, he⟩
  · exact twin_createFile hp hdir d.dName d.junk fun e he => absurd he List.not_mem_nil
  · exact hshows

/-! ### The result -/

/-- The slots of `w` are those of `u`, with the fields of the inode in its own slot. -/
def FileSlot.FlushedOnTop (s : FileSlot fs) (inode : Inode) (u w : Vol) : Prop :=
  direntAt (blockAt w fs.blockSize s.blk) s.pos =
      (direntAt (blockAt u fs.blockSize s.blk) s.pos).update inode ∧
    ∀ blk off, off % 32 = 0 → off + 32 ≤ fs.blockSize → ¬ (blk = s.blk ∧ off = s.pos) →
      direntAt (blockAt w fs.blockSize blk) off = direntAt (blockAt u fs.blockSize blk) off

theorem flushedOnTop {fs : FsInfo} {s : FileSlot fs} {other : Inode} (hp : Placed fs)
    (hs : s.IsOf other) (u : Vol) : s.FlushedOnTop other u (flushed fs u other) := by
  have hin := s.inside hp
  have haligned := s.aligned
  constructor
  · rw [← direntAt_flushEntry]
    apply direntAt_congr
    intro i hi
    exact blockAt_flushed hs u (by omega)
  · intro blk off hoff hlt hne
    apply direntAt_congr
    intro i hi
    apply flushed_elsewhere hs u (by omega)
    rintro ⟨hblk, hlo, hhi⟩
    exact hne ⟨hblk, by omega⟩

/-- **A creation and a flush that do not disturb each other.**  In every run in which a block is
written only while it holds what its writer read from it, the two calls return what they return one
after the other, creation first, and the volume is the same; if the flush succeeds, every slot is as
the creation left it, with the flushed fields in the slot of the file. -/
theorem directory_race {H : Host} {v : Vol} (hH : H.BlockWise d.sbi.fsInfo)
    (hp : Placed d.sbi.fsInfo) (hs : s.IsOf d.other) (hdir : s.Spares d.dir)
    (hused : s.Used (blockAt v d.sbi.fsInfo.blockSize s.blk))
    (hcls : fatWord d.sbi.fsInfo v s.cls ≠ sfatEntryFree) {p : DirPool}
    (run : Pool.Run H.world rereads (d.start v) p) {r : CreateReturn × Inode} {o : Option Errno}
    (hcreate : p.left .create = .done r) (hflush : p.left .flush = .done o) :
    ∃ tr₁ u tr₂, Exec H.world (sfatCreateFile d.sbi d.dir d.dName d.junk) v tr₁ r u ∧
      Exec H.world (sfatInodeWriteToHd d.sbi.fsInfo d.other) u tr₂ o p.shared ∧
      (o = none → s.FlushedOnTop d.other u p.shared) := by
  have hserial : d.Serial H s v p := by
    apply run.keeps (I := d.Serial H s v)
    · intro p q h hstep
      exact h.step hH hp hs hstep
    · exact DirCalls.serial_start hp hs hdir fun _ => ⟨hused, hcls⟩
  rw [flush_unfold hs.not_root]
  cases hserial with
  | before hflushing hserial _ _ =>
    rw [hcreate] at hserial
    rw [hflush] at hflushing
    obtain ⟨tr₁, he₁⟩ := hserial _ _ _ .done
    cases hflushing with
    | failed e he hagain =>
      cases he
      obtain ⟨tr₂, he₂⟩ := hagain p.shared
      exact ⟨tr₁, p.shared, tr₂, he₁, he₂, by simp⟩
    | entry h => cases h
    | read h => cases h
    | store data hread h => cases h
  | after q u hdone hshared hserial htwin _ =>
    rw [hflush] at hdone
    cases hdone
    rw [hcreate] at htwin
    cases htwin with
    | done hr =>
      subst hr
      obtain ⟨tr₁, he₁⟩ := hserial _ _ _ .done
      obtain ⟨tr₂, he₂⟩ := exec_flush H hs.not_root u
      rw [hshared]
      exact ⟨tr₁, u, tr₂, he₁, he₂, fun _ => flushedOnTop hp hs u⟩

/-- The file of the volume with one file; its size in memory is 5. -/
def fileInode31 : Inode := { root31 with iIno := 6, iPos := 6656, iSize := 5, dirOps := false }

/-- The creation of the file `b`, and a flush of the file `a`. -/
def dirCalls31 : DirCalls := ⟨sbi31, root31, [98], ⟨0, 0⟩, fileInode31⟩

/-- The slot of the file `a`: the first one of the root directory. -/
def fileSlot31 : FileSlot sbi31.fsInfo where
  cls := 0
  blk := 13
  pos := 0
  cls_lt := by decide
  in_cls := by decide +kernel
  aligned := rfl
  pos_lt := by decide

/-- The flush comes between the two scans of the creation. -/
def between31 : DirPool :=
  (dirCalls31.start oneFileVolume).play Host.codeAnswers
    [.create, .create, .flush, .flush, .flush, .create, .create, .create, .create, .create, .create,
      .create]

theorem directory_race_oneFile : ∃ r o, between31.left .create = .done r ∧
    between31.left .flush = .done o ∧ ∃ tr₁ u tr₂,
      Exec (Host.code noFailure).world (sfatCreateFile sbi31 root31 [98] ⟨0, 0⟩) oneFileVolume tr₁ r u ∧
      Exec (Host.code noFailure).world (sfatInodeWriteToHd sbi31.fsInfo fileInode31) u tr₂ o
        between31.shared ∧
      (o = none → fileSlot31.FlushedOnTop fileInode31 u between31.shared) := by
  have hcreate : (between31.left .create).result.isSome := by decide +kernel
  have hflush : (between31.left .flush).result.isSome := by decide +kernel
  obtain ⟨r, hr⟩ := Option.isSome_iff_exists.mp hcreate
  obtain ⟨o, ho⟩ := Option.isSome_iff_exists.mp hflush
  have hs : fileSlot31.IsOf fileInode31 := ⟨by decide, by decide +kernel, by decide +kernel⟩
  have hrun : Pool.Run (Host.code noFailure).world rereads (dirCalls31.start oneFileVolume) between31 :=
    Pool.Run.of_play Host.codeAnswers_world (by decide +kernel)
  refine ⟨r, o, Program.result_eq_some.mp hr, Program.result_eq_some.mp ho, ?_⟩
  exact directory_race (d := dirCalls31) (Host.code_blockWise _) placed31 hs
    (fun h => absurd rfl h) ⟨by decide +kernel, by decide +kernel⟩ (by decide +kernel) hrun
    (Program.result_eq_some.mp hr) (Program.result_eq_some.mp ho)

def Created (p : DirPool) : Bool :=
  match (p.left .create).result with
  | some (.ok (some _), _) => true
  | _ => false

/-- **Either call can be lost**, while both succeed: the size that was flushed, when the creation has
read the block before the flush and writes it after; and the new entry, when the flush has read the
block before the creation and writes it after. -/
theorem directory_race_fails :
    (∃ p : DirPool, Pool.Run (Host.code noFailure).world Guard.none
        (dirCalls31.start oneFileVolume) p ∧
      Created p ∧ (p.left .flush).result = some none ∧
      (direntAt p.shared 6656).size = 0 ∧ fileInode31.iSize = 5) ∧
    ∃ p : DirPool, Pool.Run (Host.code noFailure).world Guard.none
        (dirCalls31.start oneFileVolume) p ∧
      Created p ∧ (p.left .flush).result = some none ∧ (direntAt p.shared 6688).isEnd := by
  constructor
  · refine ⟨_, Pool.Run.of_play_none Host.codeAnswers_world
      [.create, .create, .create, .create, .create, .flush, .flush, .flush, .create, .create,
        .create, .create] _, ?_, ?_, ?_, rfl⟩
    · decide +kernel
    · decide +kernel
    · decide +kernel
  · refine ⟨_, Pool.Run.of_play_none Host.codeAnswers_world
      [.flush, .flush, .create, .create, .create, .create, .create, .create, .create, .create,
        .create, .flush] _, ?_, ?_, ?_⟩
    · decide +kernel
    · decide +kernel
    · decide +kernel

end SimpleFat
