import SimpleFat.BlockGuard
import SimpleFat.EntryPosition

/-!
# Writers of the FAT side by side

`sfat_fat_entry_acquire` and `sfat_fat_entry_modify` read a block of the FAT into a page of their
own, change one word and write the whole block back.  `fat_lock` is never taken, so the requests of
several writers interleave in any order.

* `FatWriter.At.step` — what one step of a writer does to the FAT;
* `AtomicStores`, `FatPool.atomic` — under the guard `rereads` the writers store their words at once;
* `fat_races` — so no cluster is handed out twice and no update is lost;
* `fat_races_fail` — without it, both happen.
-/

namespace SimpleFat

open SimpleFat.Lib

/-! ### The writers -/

/-- A call that changes the FAT. -/
inductive FatWriter where
  | acquire
  | modify (cls attr : ℕ)
  deriving DecidableEq, Repr

abbrev FatWriter.Ret : FatWriter → Type
  | .acquire => Except Errno ℕ
  | .modify _ _ => Option Errno

def FatWriter.code (fs : FsInfo) : (w : FatWriter) → Driver w.Ret
  | .acquire => sfatFatEntryAcquire fs
  | .modify cls attr => sfatFatEntryModify fs cls attr

/-- The cluster and the word that a successful call has stored. -/
def FatWriter.stored : (w : FatWriter) → w.Ret → Option (ℕ × ℕ)
  | .acquire, .ok cls => some (cls, sfatEntryEoc)
  | .acquire, .error _ => none
  | .modify cls attr, none => some (cls, attr)
  | .modify _ _, some _ => none

/-- The cluster and the word that a call has stored, if it is over and was successful. -/
def FatWriter.storedBy (w : FatWriter) : Driver w.Ret → Option (ℕ × ℕ)
  | .done r => w.stored r
  | .ask _ _ => none

/-- The end of an allocation that has found word `k` of block `i` free. -/
def acquireMark (fs : FsInfo) (i k : ℕ) (data : Page) : Driver (Except Errno ℕ) := do
  if ← writeBlock fs.blockSize (fs.fatStartBlk + i) (putLe32 data (4 * k) sfatEntryEoc) then
    pure (.ok ((fs.fatStartBlk + i - fs.fatStartBlk) <<< (fs.blockBits - 2) + k))
  else pure (.error .eio)

/-- An allocation that has read block `i`, with `n` blocks to go. -/
def acquireFound (fs : FsInfo) (n i : ℕ) (data : Page) : Driver (Except Errno ℕ) :=
  match findFree data (fs.blockSize / 4) 0 with
  | none => acquireBlocks fs n (fs.fatStartBlk + i + 1)
  | some k => acquireMark fs i k data

/-- Where an allocation stands, with what it has read. -/
inductive AcquireAt (fs : FsInfo) (past : Past Request Answer) (p : Driver (Except Errno ℕ)) :
    Prop where
  | entry (h : p = sfatFatEntryAcquire fs)
  | scan (n i : ℕ) (h : p = acquireBlocks fs n (fs.fatStartBlk + i))
  | mark (i k : ℕ) (data : Page)
      (hread : lastRead fs.blockSize (fs.fatStartBlk + i) past = some data)
      (hk : k < fs.blockSize / 4) (hfree : le32 data (4 * k) = sfatEntryFree)
      (h : p = acquireMark fs i k data)
  | done (r : Except Errno ℕ) (h : p = .done r)

/-- The end of a modification that has read its block. -/
def modifyStore (fs : FsInfo) (cls attr : ℕ) (data : Page) : Driver (Option Errno) := do
  if ← writeBlock fs.blockSize (fatBlk fs cls) (putLe32 data (fatPos fs cls) attr) then pure none
  else pure (some .eio)

/-- Where a modification stands, with what it has read. -/
inductive ModifyAt (fs : FsInfo) (cls attr : ℕ) (past : Past Request Answer)
    (p : Driver (Option Errno)) : Prop where
  | entry (h : p = sfatFatEntryModify fs cls attr)
  | read (h : p = (readBlock fs.blockSize (fatBlk fs cls) >>= fun data => match data with
      | none => pure (some .eio)
      | some data => modifyStore fs cls attr data))
  | store (data : Page) (hread : lastRead fs.blockSize (fatBlk fs cls) past = some data)
      (h : p = modifyStore fs cls attr data)
  | done (r : Option Errno) (h : p = .done r)

def FatWriter.At (fs : FsInfo) : (w : FatWriter) → Past Request Answer → Driver w.Ret → Prop
  | .acquire, past, p => AcquireAt fs past p
  | .modify cls attr, past, p => ModifyAt fs cls attr past p

theorem FatWriter.at_code (fs : FsInfo) (w : FatWriter) (past : Past Request Answer) :
    w.At fs past (w.code fs) := by
  cases w with
  | acquire => exact .entry rfl
  | modify cls attr => exact .entry rfl

/-! ### One step of a writer -/

variable {H : Host} {fs : FsInfo} {v v' : Vol} {past : Past Request Answer}

/-- What a step that leaves `rest` does to the volume: nothing, or it ends the call and stores its
word, over a free one if the call is an allocation. -/
def FatWriter.Effect (fs : FsInfo) (v v' : Vol) (w : FatWriter) (rest : Driver w.Ret) : Prop :=
  v' = v ∧ w.storedBy rest = none ∨
    ∃ cls x, w.storedBy rest = some (cls, x) ∧ v' = setFatWord fs v cls x ∧
      (w = .acquire → fatWord fs v cls = sfatEntryFree)

/-- The scan of an allocation has stored nothing. -/
theorem storedBy_scan (n blk : ℕ) : FatWriter.acquire.storedBy (acquireBlocks fs n blk) = none := by
  cases n with
  | zero => rfl
  | succ n => rfl

theorem AcquireAt.step (hwb : WordBlocks fs) {c : Request}
    {k : Answer c → Driver (Except Errno ℕ)} {r : Answer c} (h : AcquireAt fs past (.ask c k))
    (hg : rereads past c v) (hw : H.world v c r v') :
    AcquireAt fs (⟨c, r⟩ :: past) (k r) ∧ FatWriter.acquire.Effect fs v v' (k r) := by
  cases h with
  | entry h =>
    change _ = Program.ask _ _ at h
    cases h
    obtain ⟨rfl, -⟩ := hw
    cases r with
    | none => exact ⟨.done _ rfl, .inl ⟨rfl, rfl⟩⟩
    | some addr => exact ⟨.scan fs.fatLengthBlk 0 rfl, .inl ⟨rfl, storedBy_scan _ _⟩⟩
  | scan n i h =>
    cases n with
    | zero => cases h
    | succ n =>
      change _ = Program.ask _ _ at h
      cases h
      obtain ⟨rfl, -⟩ := hw
      cases r with
      | none => exact ⟨.done _ rfl, .inl ⟨rfl, rfl⟩⟩
      | some data =>
        show AcquireAt fs _ (acquireFound fs n i data) ∧
          FatWriter.acquire.Effect fs v' v' (acquireFound fs n i data)
        have hfind := findFree_spec data (fs.blockSize / 4) 0
        rw [acquireFound]
        cases hk : findFree data (fs.blockSize / 4) 0 with
        | none => exact ⟨.scan n (i + 1) rfl, .inl ⟨rfl, storedBy_scan _ _⟩⟩
        | some k =>
          rw [hk] at hfind
          obtain ⟨-, hlt, hfree, -⟩ := hfind
          exact ⟨.mark i k data (lastRead_read _ _ _ _) (by omega) hfree rfl, .inl ⟨rfl, rfl⟩⟩
  | mark i k data hread hk hfree h =>
    change _ = Program.ask _ _ at h
    cases h
    have hsame := rereads_writeBlock hread hg
    rcases hw with ⟨rfl, rfl⟩ | ⟨rfl, rfl, -⟩
    · -- the page is the block, so one word of the FAT changes, and it was free
      refine ⟨.done _ rfl, .inr ⟨i * (fs.blockSize / 4) + k, sfatEntryEoc, ?_, ?_, fun _ => ?_⟩⟩
      · show FatWriter.acquire.stored (.ok _) = _
        rw [Nat.add_sub_cancel_left, FatWriter.stored, hwb.shiftLeft_words]
      · rw [putBlock_reread hsame (by omega), setFatWord, hwb.fatStart_addr]
      · rw [← hwb.le32_fatStart, ← hfree]
        apply le32_congr
        intro j hj
        exact hsame _ (by omega)
    · exact ⟨.done _ rfl, .inl ⟨rfl, rfl⟩⟩
  | done r h => cases h

theorem ModifyAt.step (hwb : WordBlocks fs) {cls attr : ℕ} {c : Request}
    {k : Answer c → Driver (Option Errno)} {r : Answer c}
    (h : ModifyAt fs cls attr past (.ask c k)) (hg : rereads past c v) (hw : H.world v c r v') :
    ModifyAt fs cls attr (⟨c, r⟩ :: past) (k r) ∧
      (FatWriter.modify cls attr).Effect fs v v' (k r) := by
  cases h with
  | entry h =>
    rw [sfatFatEntryModify] at h
    split at h
    · cases h
    · change _ = Program.ask _ _ at h
      cases h
      obtain ⟨rfl, -⟩ := hw
      cases r with
      | none => exact ⟨.done _ rfl, .inl ⟨rfl, rfl⟩⟩
      | some addr => exact ⟨.read rfl, .inl ⟨rfl, rfl⟩⟩
  | read h =>
    change _ = Program.ask _ _ at h
    cases h
    obtain ⟨rfl, -⟩ := hw
    cases r with
    | none => exact ⟨.done _ rfl, .inl ⟨rfl, rfl⟩⟩
    | some data => exact ⟨.store data (lastRead_read _ _ _ _) rfl, .inl ⟨rfl, rfl⟩⟩
  | store data hread h =>
    change _ = Program.ask _ _ at h
    cases h
    have hsame := rereads_writeBlock hread hg
    rcases hw with ⟨rfl, rfl⟩ | ⟨rfl, rfl, -⟩
    · refine ⟨.done _ rfl, .inr ⟨cls, attr, rfl, ?_, fun h => by cases h⟩⟩
      rw [putBlock_reread hsame (hwb.fatPos_le cls), hwb.fatBlk_mul_add, setFatWord]
    · exact ⟨.done _ rfl, .inl ⟨rfl, rfl⟩⟩
  | done r h => cases h

/-- **What one step of a writer does.** -/
theorem FatWriter.At.step (hwb : WordBlocks fs) {w : FatWriter} {c : Request}
    {k : Answer c → Driver w.Ret} {r : Answer c} (h : w.At fs past (.ask c k))
    (hg : rereads past c v) (hw : H.world v c r v') :
    w.At fs (⟨c, r⟩ :: past) (k r) ∧ w.Effect fs v v' (k r) := by
  cases w with
  | acquire => exact AcquireAt.step hwb h hg hw
  | modify cls attr => exact ModifyAt.step hwb h hg hw

/-! ### Runs of several writers -/

section Runs

variable {ι : Type} [DecidableEq ι] {writers : ι → FatWriter}

abbrev FatPool (writers : ι → FatWriter) : Type :=
  Pool Request Answer ι (fun i => (writers i).Ret) Vol

def FatPool.start (fs : FsInfo) (writers : ι → FatWriter) (v : Vol) : FatPool writers :=
  Pool.start (fun i => (writers i).code fs) v

/-- The cluster and the word that writer `i` has stored, once its call has succeeded. -/
def FatPool.stored (p : FatPool writers) (i : ι) : Option (ℕ × ℕ) :=
  (writers i).storedBy (p.left i)

def FatPool.Placed (fs : FsInfo) (p : FatPool writers) : Prop :=
  ∀ i, (writers i).At fs (p.past i) (p.left i)

omit [DecidableEq ι] in
theorem FatPool.placed_start (fs : FsInfo) (writers : ι → FatWriter) (v : Vol) :
    (FatPool.start fs writers v).Placed fs := fun i => (writers i).at_code fs []

/-- **What one step does to the FAT and to the results**: nothing, or one writer stores its word. -/
theorem FatPool.step (hwb : WordBlocks fs) {p q : FatPool writers} (hp : p.Placed fs)
    (h : Pool.Step H.world rereads p q) : q.Placed fs ∧
      (q.shared = p.shared ∧ q.stored = p.stored ∨ ∃ i cls x, p.stored i = none ∧
        q.stored = Function.update p.stored i (some (cls, x)) ∧
        q.shared = setFatWord fs p.shared cls x ∧
        (writers i = .acquire → fatWord fs p.shared cls = sfatEntryFree)) := by
  obtain ⟨i, c, k, r, hleft, hg, hw, hqleft, hqpast, hother⟩ := h.alone
  have hat := hp i
  rw [hleft] at hat
  obtain ⟨hat, heff⟩ := hat.step hwb hg hw
  have hnone : p.stored i = none := by rw [FatPool.stored, hleft, FatWriter.storedBy]
  have hstored : ∀ j, j ≠ i → q.stored j = p.stored j := by
    intro j hj
    rw [FatPool.stored, FatPool.stored, (hother j hj).1]
  constructor
  · intro j
    by_cases hj : j = i
    · subst hj
      rw [hqleft, hqpast]
      exact hat
    · rw [(hother j hj).1, (hother j hj).2]
      exact hp j
  · rcases heff with ⟨hv, hrest⟩ | ⟨cls, x, hrest, hv, hfree⟩
    · refine .inl ⟨hv, ?_⟩
      funext j
      by_cases hj : j = i
      · subst hj
        rw [hnone, FatPool.stored, hqleft, hrest]
      · exact hstored j hj
    · refine .inr ⟨i, cls, x, hnone, ?_, hv, hfree⟩
      funext j
      by_cases hj : j = i
      · subst hj
        rw [Function.update_self, FatPool.stored, hqleft, hrest]
      · rw [Function.update_of_ne hj, hstored j hj]

/-- What a call stores is fixed by the call. -/
theorem FatWriter.storedBy_word {w : FatWriter} {p : Driver w.Ret} {c x : ℕ}
    (h : w.storedBy p = some (c, x)) : w = .acquire ∧ x = sfatEntryEoc ∨ w = .modify c x := by
  cases p with
  | ask d k => cases h
  | done r =>
    cases w with
    | acquire =>
      cases r with
      | error e => cases h
      | ok cls =>
        cases h
        exact .inl ⟨rfl, rfl⟩
    | modify cls attr =>
      cases r with
      | some e => cases h
      | none =>
        cases h
        exact .inr rfl

/-- Calls that store their words one after the other, each at once: who has stored what, and the
volume. -/
inductive AtomicStores (fs : FsInfo) (writers : ι → FatWriter) (v : Vol) :
    (ι → Option (ℕ × ℕ)) → Vol → Prop
  | start : AtomicStores fs writers v (fun _ => none) v
  | acquire {st : ι → Option (ℕ × ℕ)} {u : Vol} {i : ι} {cls : ℕ} :
      AtomicStores fs writers v st u → st i = none → writers i = .acquire →
      fatWord fs u cls = sfatEntryFree →
      AtomicStores fs writers v (Function.update st i (some (cls, sfatEntryEoc)))
        (setFatWord fs u cls sfatEntryEoc)
  | modify {st : ι → Option (ℕ × ℕ)} {u : Vol} {i : ι} {cls attr : ℕ} :
      AtomicStores fs writers v st u → st i = none → writers i = .modify cls attr →
      AtomicStores fs writers v (Function.update st i (some (cls, attr))) (setFatWord fs u cls attr)

/-- **Under the guard the writers refine atomic stores.** -/
theorem FatPool.atomic (hwb : WordBlocks fs) {p : FatPool writers}
    (run : Pool.Run H.world rereads (FatPool.start fs writers v) p) :
    p.Placed fs ∧ AtomicStores fs writers v (FatPool.stored p) p.shared := by
  have hstart : (fun i => (writers i).storedBy ((writers i).code fs)) = fun _ => none := by
    funext i
    cases writers i with
    | acquire => rfl
    | modify cls attr =>
      rw [FatWriter.code, sfatFatEntryModify]
      split
      · rfl
      · rfl
  apply run.keeps (I := fun p : FatPool writers =>
    p.Placed fs ∧ AtomicStores fs writers v (FatPool.stored p) p.shared)
  · rintro p q ⟨hp, hlog⟩ hstep
    obtain ⟨hq, ⟨hv, hsame⟩ | ⟨i, cls, x, hnone, hstored, hv, hfree⟩⟩ := FatPool.step hwb hp hstep
    · rw [hsame, hv]
      exact ⟨hq, hlog⟩
    · have hi : FatPool.stored q i = some (cls, x) := by rw [hstored, Function.update_self]
      rw [hv, hstored]
      rcases FatWriter.storedBy_word hi with ⟨hw, rfl⟩ | hw
      · exact ⟨hq, hlog.acquire hnone hw (hfree hw)⟩
      · exact ⟨hq, hlog.modify hnone hw⟩
  · refine ⟨FatPool.placed_start fs writers v, ?_⟩
    show AtomicStores fs writers v (fun i => (writers i).storedBy ((writers i).code fs)) v
    rw [hstart]
    exact .start

def DistinctClusters (writers : ι → FatWriter) (st : ι → Option (ℕ × ℕ)) : Prop :=
  ∀ i j, i ≠ j → writers i = .acquire → writers j = .acquire → ∀ c x d y,
    st i = some (c, x) → st j = some (d, y) → c ≠ d

def StoredApart (st : ι → Option (ℕ × ℕ)) : Prop :=
  ∀ i j, i ≠ j → ∀ c x d y, st i = some (c, x) → st j = some (d, y) → c ≠ d

def StoredPresent (fs : FsInfo) (st : ι → Option (ℕ × ℕ)) (u : Vol) : Prop :=
  ∀ i c x, st i = some (c, x) → fatWord fs u c = x % 2 ^ 32

def NoneFrees (writers : ι → FatWriter) : Prop :=
  ∀ i cls attr, writers i = .modify cls attr → attr % 2 ^ 32 ≠ sfatEntryFree

/-- Who has stored something after one more store. -/
theorem update_some {st : ι → Option (ℕ × ℕ)} {i j : ι} {a b : ℕ × ℕ}
    (h : Function.update st i (some a) j = some b) : j = i ∧ b = a ∨ j ≠ i ∧ st j = some b := by
  by_cases hj : j = i
  · subst hj
    rw [Function.update_self] at h
    exact .inl ⟨rfl, (Option.some.inj h).symm⟩
  · rw [Function.update_of_ne hj] at h
    exact .inr ⟨hj, h⟩

/-- Stores that free nothing leave the words of handed-out clusters in use. -/
theorem AtomicStores.taken (hfrees : NoneFrees writers) {st : ι → Option (ℕ × ℕ)} {u : Vol}
    (h : AtomicStores fs writers v st u) : ∀ i c x, st i = some (c, x) →
      fatWord fs u c ≠ sfatEntryFree := by
  have hset : ∀ (u : Vol) (cls x c : ℕ), x % 2 ^ 32 ≠ sfatEntryFree →
      (c ≠ cls → fatWord fs u c ≠ sfatEntryFree) →
      fatWord fs (setFatWord fs u cls x) c ≠ sfatEntryFree := by
    intro u cls x c hx hc
    by_cases hcc : c = cls
    · rw [hcc, fatWord_setFatWord]
      exact hx
    · rw [fatWord_setFatWord_ne hcc]
      exact hc hcc
  induction h with
  | start =>
    intro i c x hc
    cases hc
  | acquire _ _ _ _ ih =>
    intro j c x hc
    apply hset _ _ _ _ (by decide)
    intro hne
    rcases update_some hc with ⟨-, h⟩ | ⟨-, h⟩
    · cases h
      exact absurd rfl hne
    · exact ih j c x h
  | modify _ _ hw ih =>
    intro j c x hc
    apply hset _ _ _ _ (hfrees _ _ _ hw)
    intro hne
    rcases update_some hc with ⟨-, h⟩ | ⟨-, h⟩
    · cases h
      exact absurd rfl hne
    · exact ih j c x h

/-- **Atomic stores hand no cluster out twice.** -/
theorem AtomicStores.distinct (hfrees : NoneFrees writers) {st : ι → Option (ℕ × ℕ)} {u : Vol}
    (h : AtomicStores fs writers v st u) : DistinctClusters writers st := by
  induction h with
  | start =>
    intro i j _ _ _ c x d y hc
    cases hc
  | @acquire st u i₀ cls hlog _ _ hfree ih =>
    -- the new cluster was free, so it is none of those handed out before
    have hnew : ∀ i c x, st i = some (c, x) → c ≠ cls := by
      rintro i c x hc rfl
      exact hlog.taken hfrees i c x hc hfree
    intro i j hij hi hj c x d y hc hd
    rcases update_some hc with ⟨rfl, h⟩ | ⟨-, hold⟩
    · rcases update_some hd with ⟨rfl, -⟩ | ⟨-, hd⟩
      · exact absurd rfl hij
      · cases h
        exact (hnew j d y hd).symm
    · rcases update_some hd with ⟨rfl, h⟩ | ⟨-, hd⟩
      · cases h
        exact hnew i c x hold
      · exact ih i j hij hi hj c x d y hold hd
  | @modify st u i₀ cls attr _ _ hw ih =>
    intro i j hij hi hj c x d y hc hd
    rcases update_some hc with ⟨rfl, -⟩ | ⟨-, hc⟩
    · rw [hi] at hw
      cases hw
    · rcases update_some hd with ⟨rfl, -⟩ | ⟨-, hd⟩
      · rw [hj] at hw
        cases hw
      · exact ih i j hij hi hj c x d y hc hd

/-- **Atomic stores to different clusters are all there.** -/
theorem AtomicStores.present {st : ι → Option (ℕ × ℕ)} {u : Vol}
    (h : AtomicStores fs writers v st u) (hapart : StoredApart st) : StoredPresent fs st u := by
  -- one more store: the new word is there, and it is none of the old ones
  have hstep : ∀ (st : ι → Option (ℕ × ℕ)) (u : Vol) (i : ι) (cls x : ℕ), st i = none →
      (StoredApart st → StoredPresent fs st u) → StoredApart (Function.update st i (some (cls, x))) →
      StoredPresent fs (Function.update st i (some (cls, x))) (setFatWord fs u cls x) := by
    intro st u i cls x hnone ih hapart j c y hc
    have hold : ∀ j c y, st j = some (c, y) →
        Function.update st i (some (cls, x)) j = some (c, y) := by
      intro j c y hj
      have hne : j ≠ i := by
        rintro rfl
        rw [hnone] at hj
        cases hj
      rw [Function.update_of_ne hne, hj]
    have hapart' : StoredApart st := by
      intro j k hjk c y d z hc hd
      exact hapart j k hjk c y d z (hold j c y hc) (hold k d z hd)
    rcases update_some hc with ⟨-, h⟩ | ⟨hne, h⟩
    · cases h
      exact fatWord_setFatWord
    · rw [fatWord_setFatWord_ne]
      · exact ih hapart' j c y h
      · exact hapart j i hne c y cls x hc (Function.update_self _ _ _)
  induction h with
  | start =>
    intro i c x hc
    cases hc
  | acquire _ hnone _ _ ih => exact hstep _ _ _ _ _ hnone ih hapart
  | modify _ hnone _ ih => exact hstep _ _ _ _ _ hnone ih hapart

/-! ### The result -/

/-- **Writers of the FAT that are not disturbed.**  In every run in which a block is written only
while it holds what its writer read from it, any two allocations return different clusters, unless a
modification frees one, and the updates of different clusters are all in the FAT. -/
theorem fat_races (hwb : WordBlocks fs) (writers : ι → FatWriter) (v : Vol) {p : FatPool writers}
    (run : Pool.Run H.world rereads (FatPool.start fs writers v) p) :
    (NoneFrees writers → DistinctClusters writers (FatPool.stored p)) ∧
      (StoredApart (FatPool.stored p) → StoredPresent fs (FatPool.stored p) p.shared) := by
  have hlog := (FatPool.atomic hwb run).2
  exact ⟨hlog.distinct, hlog.present⟩

end Runs

/-- A FAT with two blocks. -/
def layout600 : FormatLayout where
  sectors := 600
  fatLengthSectors := 2
  clusters := 146

theorem placed600 : Placed (formattedFsInfo layout600) :=
  formattedFsInfo_placed (show formatLayout 512 600 = some layout600 by decide) (by decide)

/-- Two writers allocate, the one between them links a cluster of the second block of the FAT. -/
def threeWriters (i : Fin 3) : FatWriter := if i = 1 then .modify 130 131 else .acquire

/-- **The requests of the three in turns.**  The link is read and written while both allocations are
on their way, and the second allocation reads its block after the first one has written it. -/
def inTurns : FatPool threeWriters :=
  (FatPool.start (formattedFsInfo layout600) threeWriters (formatVolume layout600 fun _ => 0)).play
    Host.codeAnswers [0, 1, 2, 0, 1, 0, 2, 1, 2]

theorem fat_races_inTurns : FatPool.stored inTurns 0 = some (1, sfatEntryEoc) ∧
    FatPool.stored inTurns 1 = some (130, 131) ∧
    FatPool.stored inTurns 2 = some (2, sfatEntryEoc) ∧
    (NoneFrees threeWriters → DistinctClusters threeWriters (FatPool.stored inTurns)) ∧
    (StoredApart (FatPool.stored inTurns) →
      StoredPresent (formattedFsInfo layout600) (FatPool.stored inTurns) inTurns.shared) :=
  ⟨by decide +kernel, by decide +kernel, by decide +kernel,
    fat_races placed600.wordBlocks threeWriters (formatVolume layout600 fun _ => 0)
      (Pool.Run.of_play Host.codeAnswers_world (by decide +kernel))⟩

def formatted31 : Vol := formatVolume layout31 fun _ => 0

/-- One writer allocates a cluster, the other one links cluster 2 to the end of a chain. -/
def grower31 (linker : Bool) : FatWriter := if linker then .modify 0 2 else .acquire

/-- **Two allocations return cluster 1**, when both read the FAT before either of them writes it; and
an allocation is lost when the other writer wrote back what it had read before. -/
theorem fat_races_fail :
    (∃ p : FatPool fun _ : Bool => FatWriter.acquire,
      Pool.Run (Host.code noFailure).world Guard.none
        (FatPool.start sbi31.fsInfo (fun _ => .acquire) formatted31) p ∧
      FatPool.stored p false = some (1, sfatEntryEoc) ∧
      FatPool.stored p true = some (1, sfatEntryEoc)) ∧
    ∃ p : FatPool grower31,
      Pool.Run (Host.code noFailure).world Guard.none
        (FatPool.start sbi31.fsInfo grower31 formatted31) p ∧
      FatPool.stored p false = some (1, sfatEntryEoc) ∧ FatPool.stored p true = some (0, 2) ∧
      fatWord sbi31.fsInfo p.shared 1 = sfatEntryFree := by
  constructor
  · refine ⟨_, Pool.Run.of_play_none Host.codeAnswers_world [false, false, true, true, false, true] _,
      ?_, ?_⟩
    · decide +kernel
    · decide +kernel
  · refine ⟨_, Pool.Run.of_play_none Host.codeAnswers_world [false, false, true, true, false, true] _,
      ?_, ?_, ?_⟩
    · decide +kernel
    · decide +kernel
    · decide +kernel

end SimpleFat
