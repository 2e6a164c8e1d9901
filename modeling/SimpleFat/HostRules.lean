import SimpleFat.Device

/-!
# The rules of the environment

One rule for each request: what has to be shown of `request >>= f` in the world of a host.  With
them a proof executes a driver function symbolically and never opens `Host.world` again.

`Host.quiet` is a deterministic environment in which nothing fails; `Host.quiet_world` says that it
is one of the environments of the rules, so that concrete runs are executions.
-/

namespace SimpleFat

open SimpleFat.Lib

section Rules

variable {H : Host} {α : Type} {Q : α → Vol → Prop} {v : Vol}

theorem wp_blkholderAlloc (f : Option ℕ → Driver α) :
    wp H.world (blkholderAlloc >>= f) Q v ↔
      ∀ r, (r = none → H.mayFail .blkholderAlloc) → wp H.world (f r) Q v := by
  change wp H.world (.ask .blkholderAlloc f) Q v ↔ _
  rw [wp_ask]
  constructor
  · intro h r hr
    exact h r v ⟨rfl, hr⟩
  · rintro h r _ ⟨rfl, hr⟩
    exact h r hr

theorem wp_readBlock (sz b : ℕ) (f : Option Page → Driver α) :
    wp H.world (readBlock sz b >>= f) Q v ↔
      wp H.world (f (some (blockAt v sz b))) Q v ∧
      (H.mayFail (.readBlock sz b) → wp H.world (f none) Q v) := by
  change wp H.world (.ask (.readBlock sz b) f) Q v ↔ _
  rw [wp_ask]
  constructor
  · intro h
    exact ⟨h _ v ⟨rfl, .inl rfl⟩, fun hf => h _ v ⟨rfl, .inr ⟨rfl, hf⟩⟩⟩
  · rintro ⟨h, hf⟩ r _ ⟨rfl, rfl | ⟨rfl, hm⟩⟩
    · exact h
    · exact hf hm

theorem wp_writeBlock (sz b : ℕ) (d : Page) (f : Bool → Driver α) :
    wp H.world (writeBlock sz b d >>= f) Q v ↔
      wp H.world (f true) Q (putBlock v sz b d) ∧
      (H.mayFail (.writeBlock sz b d) → wp H.world (f false) Q v) := by
  change wp H.world (.ask (.writeBlock sz b d) f) Q v ↔ _
  rw [wp_ask]
  constructor
  · intro h
    exact ⟨h _ _ (.inl ⟨rfl, rfl⟩), fun hf => h _ v (.inr ⟨rfl, rfl, hf⟩)⟩
  · rintro ⟨h, hf⟩ r _ (⟨rfl, rfl⟩ | ⟨rfl, rfl, hm⟩)
    · exact h
    · exact hf hm

theorem wp_le32OfPointer (addr blk pos : ℕ) (d : Page) (f : ℕ → Driver α) :
    wp H.world (le32OfPointer addr blk pos d >>= f) Q v ↔
      ∀ r, H.lookup addr blk pos d r → wp H.world (f r) Q v := by
  change wp H.world (.ask (.le32OfPointer addr blk pos d) f) Q v ↔ _
  rw [wp_ask]
  constructor
  · intro h r hr
    exact h r v ⟨rfl, hr⟩
  · rintro h r _ ⟨rfl, hr⟩
    exact h r hr

theorem wp_copyFromUser (n : ℕ) (f : ℕ → Driver α) :
    wp H.world (copyFromUser n >>= f) Q v ↔
      ∀ r ≤ n, (r ≠ 0 → H.mayFail (.copyFromUser n)) → wp H.world (f r) Q v := by
  change wp H.world (.ask (.copyFromUser n) f) Q v ↔ _
  rw [wp_ask]
  constructor
  · intro h r hr hm
    exact h r v ⟨rfl, hr, hm⟩
  · rintro h r _ ⟨rfl, hr, hm⟩
    exact h r hr hm

theorem wp_copyToUser (n : ℕ) (f : ℕ → Driver α) :
    wp H.world (copyToUser n >>= f) Q v ↔
      ∀ r ≤ n, (r ≠ 0 → H.mayFail (.copyToUser n)) → wp H.world (f r) Q v := by
  change wp H.world (.ask (.copyToUser n) f) Q v ↔ _
  rw [wp_ask]
  constructor
  · intro h r hr hm
    exact h r v ⟨rfl, hr, hm⟩
  · rintro h r _ ⟨rfl, hr, hm⟩
    exact h r hr hm

theorem wp_currentTimeSec (f : ℕ → Driver α) :
    wp H.world (currentTimeSec >>= f) Q v ↔ ∀ t, wp H.world (f t) Q v := by
  change wp H.world (.ask .currentTimeSec f) Q v ↔ _
  rw [wp_ask]
  constructor
  · intro h t
    exact h t v rfl
  · rintro h t _ rfl
    exact h t

theorem wp_newInode (f : Option StaleInfo → Driver α) :
    wp H.world (newInode >>= f) Q v ↔
      ∀ r, (r = none → H.mayFail .newInode) → wp H.world (f r) Q v := by
  change wp H.world (.ask .newInode f) Q v ↔ _
  rw [wp_ask]
  constructor
  · intro h r hr
    exact h r v ⟨rfl, hr⟩
  · rintro h r _ ⟨rfl, hr⟩
    exact h r hr

theorem wp_iunique (m : ℕ) (f : ℕ → Driver α) :
    wp H.world (iunique m >>= f) Q v ↔ ∀ r, m < r → wp H.world (f r) Q v := by
  change wp H.world (.ask (.iunique m) f) Q v ↔ _
  rw [wp_ask]
  constructor
  · intro h r hr
    exact h r v ⟨rfl, hr⟩
  · rintro h r _ ⟨rfl, hr⟩
    exact h r hr

theorem wp_dAllocRoot (f : Bool → Driver α) :
    wp H.world (dAllocRoot >>= f) Q v ↔
      ∀ r, (r = false → H.mayFail .dAllocRoot) → wp H.world (f r) Q v := by
  change wp H.world (.ask .dAllocRoot f) Q v ↔ _
  rw [wp_ask]
  constructor
  · intro h r hr
    exact h r v ⟨rfl, hr⟩
  · rintro h r _ ⟨rfl, hr⟩
    exact h r hr

theorem wp_filldir (call : FilldirCall) (f : ℤ → Driver α) :
    wp H.world (filldir call >>= f) Q v ↔
      ∀ r, (r = 0 ∨ r < 0 ∧ H.mayFail (.filldir call)) → wp H.world (f r) Q v := by
  change wp H.world (.ask (.filldir call) f) Q v ↔ _
  rw [wp_ask]
  constructor
  · intro h r hr
    exact h r v ⟨rfl, hr⟩
  · rintro h r _ ⟨rfl, hr⟩
    exact h r hr

end Rules

/-! ### Bounds on the requests -/

section Bounds

variable {H : Host} {P : Request → Prop} {α : Type} {v : Vol}

theorem asks_blkholderAlloc (f : Option ℕ → Driver α) :
    asks H.world P (blkholderAlloc >>= f) v ↔ P .blkholderAlloc ∧
      ∀ r, (r = none → H.mayFail .blkholderAlloc) → asks H.world P (f r) v := by
  rw [blkholderAlloc, ask, asks_request_bind]
  refine and_congr_right fun _ => (wp_blkholderAlloc _).trans ?_
  simp only [wp_done]

theorem asks_readBlock (sz b : ℕ) (f : Option Page → Driver α) :
    asks H.world P (readBlock sz b >>= f) v ↔ P (.readBlock sz b) ∧
      asks H.world P (f (some (blockAt v sz b))) v ∧
      (H.mayFail (.readBlock sz b) → asks H.world P (f none) v) := by
  rw [readBlock, ask, asks_request_bind]
  refine and_congr_right fun _ => (wp_readBlock sz b _).trans ?_
  simp only [wp_done]

theorem asks_writeBlock (sz b : ℕ) (d : Page) (f : Bool → Driver α) :
    asks H.world P (writeBlock sz b d >>= f) v ↔ P (.writeBlock sz b d) ∧
      asks H.world P (f true) (putBlock v sz b d) ∧
      (H.mayFail (.writeBlock sz b d) → asks H.world P (f false) v) := by
  rw [writeBlock, ask, asks_request_bind]
  refine and_congr_right fun _ => (wp_writeBlock sz b d _).trans ?_
  simp only [wp_done]

theorem asks_le32OfPointer (addr blk pos : ℕ) (d : Page) (f : ℕ → Driver α) :
    asks H.world P (le32OfPointer addr blk pos d >>= f) v ↔ P (.le32OfPointer addr blk pos d) ∧
      ∀ r, H.lookup addr blk pos d r → asks H.world P (f r) v := by
  rw [le32OfPointer, ask, asks_request_bind]
  refine and_congr_right fun _ => (wp_le32OfPointer addr blk pos d _).trans ?_
  simp only [wp_done]

theorem asks_copyFromUser (n : ℕ) (f : ℕ → Driver α) :
    asks H.world P (copyFromUser n >>= f) v ↔ P (.copyFromUser n) ∧
      ∀ r ≤ n, (r ≠ 0 → H.mayFail (.copyFromUser n)) → asks H.world P (f r) v := by
  rw [copyFromUser, ask, asks_request_bind]
  refine and_congr_right fun _ => (wp_copyFromUser n _).trans ?_
  simp only [wp_done]

theorem asks_iunique (m : ℕ) (f : ℕ → Driver α) :
    asks H.world P (iunique m >>= f) v ↔ P (.iunique m) ∧
      ∀ r, m < r → asks H.world P (f r) v := by
  rw [iunique, ask, asks_request_bind]
  refine and_congr_right fun _ => (wp_iunique m _).trans ?_
  simp only [wp_done]

theorem asks_filldir (call : FilldirCall) (f : ℤ → Driver α) :
    asks H.world P (filldir call >>= f) v ↔ P (.filldir call) ∧
      ∀ r, (r = 0 ∨ r < 0 ∧ H.mayFail (.filldir call)) → asks H.world P (f r) v := by
  rw [filldir, ask, asks_request_bind]
  refine and_congr_right fun _ => (wp_filldir call _).trans ?_
  simp only [wp_done]

end Bounds

/-! ### Environments without failures -/

section Lookups

/-- The world in which requests may fail and lookups are a function. -/
abbrev failingWorld (mayFail : Request → Prop) (look : (blk pos : ℕ) → Page → ℕ) :
    World Vol Request Answer :=
  (Host.lookups mayFail look).world

/-- The world in which `filldir` may refuse, nothing else fails and lookups are a function. -/
abbrev refusingWorld (refuse : FilldirCall → Prop) (look : (blk pos : ℕ) → Page → ℕ) :
    World Vol Request Answer :=
  failingWorld (refusing refuse) look

/-- The world in which nothing fails and lookups are a function. -/
abbrev lookupWorld (look : (blk pos : ℕ) → Page → ℕ) : World Vol Request Answer :=
  refusingWorld (fun _ => False) look

variable {refuse : FilldirCall → Prop} {look : (blk pos : ℕ) → Page → ℕ} {α : Type}
  {Q : α → Vol → Prop} {v : Vol}

theorem wp_blkholderAlloc_lookups (f : Option ℕ → Driver α) :
    wp (refusingWorld refuse look) (blkholderAlloc >>= f) Q v ↔
      ∀ addr, wp (refusingWorld refuse look) (f (some addr)) Q v := by
  rw [wp_blkholderAlloc]
  constructor
  · intro h addr
    exact h (some addr) (by simp)
  · intro h r hr
    cases r with
    | none => exact (hr rfl).elim
    | some addr => exact h addr

@[simp] theorem wp_readBlock_lookups (sz b : ℕ) (f : Option Page → Driver α) :
    wp (refusingWorld refuse look) (readBlock sz b >>= f) Q v ↔
      wp (refusingWorld refuse look) (f (some (blockAt v sz b))) Q v := by
  rw [wp_readBlock]
  exact and_iff_left False.elim

@[simp] theorem wp_writeBlock_lookups (sz b : ℕ) (d : Page) (f : Bool → Driver α) :
    wp (refusingWorld refuse look) (writeBlock sz b d >>= f) Q v ↔
      wp (refusingWorld refuse look) (f true) Q (putBlock v sz b d) := by
  rw [wp_writeBlock]
  exact and_iff_left False.elim

theorem wp_newInode_lookups (f : Option StaleInfo → Driver α) :
    wp (refusingWorld refuse look) (newInode >>= f) Q v ↔
      ∀ stale, wp (refusingWorld refuse look) (f (some stale)) Q v := by
  rw [wp_newInode]
  constructor
  · intro h stale
    exact h (some stale) (by simp)
  · intro h r hr
    cases r with
    | none => exact (hr rfl).elim
    | some stale => exact h stale

@[simp] theorem wp_copyFromUser_lookups (n : ℕ) (f : ℕ → Driver α) :
    wp (refusingWorld refuse look) (copyFromUser n >>= f) Q v ↔ wp (refusingWorld refuse look) (f 0) Q v := by
  rw [wp_copyFromUser]
  constructor
  · intro h
    exact h 0 (Nat.zero_le n) (absurd rfl)
  · intro h r _ hr
    obtain rfl : r = 0 := Decidable.not_not.mp hr
    exact h

@[simp] theorem wp_copyToUser_lookups (n : ℕ) (f : ℕ → Driver α) :
    wp (refusingWorld refuse look) (copyToUser n >>= f) Q v ↔ wp (refusingWorld refuse look) (f 0) Q v := by
  rw [wp_copyToUser]
  constructor
  · intro h
    exact h 0 (Nat.zero_le n) (absurd rfl)
  · intro h r _ hr
    obtain rfl : r = 0 := Decidable.not_not.mp hr
    exact h

@[simp] theorem wp_dAllocRoot_lookups (f : Bool → Driver α) :
    wp (refusingWorld refuse look) (dAllocRoot >>= f) Q v ↔ wp (refusingWorld refuse look) (f true) Q v := by
  rw [wp_dAllocRoot]
  constructor
  · intro h
    exact h true (by simp)
  · intro h r hr
    cases r with
    | false => exact (hr rfl).elim
    | true => exact h

end Lookups

/-! ### A deterministic environment -/

/-- Nothing fails; pages are at address 4096, the clock stands still, inodes are recycled clean. -/
def Host.quiet (look : (addr blk pos : ℕ) → Page → ℕ) : Vol → (c : Request) → Answer c × Vol
  | v, .blkholderAlloc => (some 4096, v)
  | v, .readBlock sz b => (some (blockAt v sz b), v)
  | v, .writeBlock sz b d => (true, putBlock v sz b d)
  | v, .le32OfPointer addr blk pos data => (look addr blk pos data, v)
  | v, .copyFromUser _ => ((0 : ℕ), v)
  | v, .copyToUser _ => ((0 : ℕ), v)
  | v, .currentTimeSec => ((0 : ℕ), v)
  | v, .newInode => (some ⟨0, 0, 0⟩, v)
  | v, .iunique m => (m + 1, v)
  | v, .dAllocRoot => (true, v)
  | v, .filldir _ => ((0 : ℤ), v)

/-- The deterministic environment is one of those that allow its lookups. -/
theorem Host.quiet_world {H : Host} {look : (addr blk pos : ℕ) → Page → ℕ}
    (hlook : ∀ addr blk pos d, H.lookup addr blk pos d (look addr blk pos d)) (v : Vol)
    (c : Request) : H.world v c (Host.quiet look v c).1 (Host.quiet look v c).2 := by
  cases c with
  | blkholderAlloc => exact ⟨rfl, by simp [Host.quiet]⟩
  | readBlock sz b => exact ⟨rfl, .inl rfl⟩
  | writeBlock sz b d => exact .inl ⟨rfl, rfl⟩
  | le32OfPointer a b p d => exact ⟨rfl, hlook a b p d⟩
  | copyFromUser n => exact ⟨rfl, Nat.zero_le n, fun h => absurd rfl h⟩
  | copyToUser n => exact ⟨rfl, Nat.zero_le n, fun h => absurd rfl h⟩
  | currentTimeSec => exact rfl
  | newInode => exact ⟨rfl, by simp [Host.quiet]⟩
  | iunique m => exact ⟨rfl, Nat.lt_succ_self m⟩
  | dAllocRoot => exact ⟨rfl, by simp [Host.quiet]⟩
  | filldir call => exact ⟨rfl, .inl rfl⟩

/-- Every run of a program in the deterministic environment is an execution. -/
theorem Exec.of_quiet {α : Type} {H : Host} {look : (addr blk pos : ℕ) → Page → ℕ}
    (hlook : ∀ addr blk pos d, H.lookup addr blk pos d (look addr blk pos d)) (p : Driver α)
    (v : Vol) :
    Exec H.world p v (runTrace (Host.quiet look) p v)
      (run (Host.quiet look) p v).1 (run (Host.quiet look) p v).2 :=
  Exec.of_run (Host.quiet_world hlook) p v

/-- A program has an execution, so what holds after all of them holds after one. -/
theorem wp_lookups_nonempty {α : Type} {refuse : FilldirCall → Prop}
    {look : (blk pos : ℕ) → Page → ℕ} {p : Driver α} {Q : α → Vol → Prop} {v : Vol}
    (h : wp (refusingWorld refuse look) p Q v) : ∃ a v', Q a v' := by
  have hrun := Exec.of_quiet (H := Host.lookups (refusing refuse) look)
    (fun _ blk pos d => (rfl : look blk pos d = look blk pos d)) p v
  exact ⟨_, _, (wp_iff_exec _ _ _).mp h _ _ _ hrun⟩

end SimpleFat
