import SimpleFat.FatWords
import SimpleFat.Lib.Pool

/-!
# Calls that do not disturb each other

Every change of a block goes through a page of the caller: read the block, change some bytes, write
the block back.  `rereads` is the guard under which the calls of a pool do not disturb each other: a
block is written only while it holds what its writer read from it last.

* `lastRead` — the page that a call has read last from a block;
* `rereads` — the guard;
* `putBlock_reread` — what such a write changes.
-/

namespace SimpleFat

open SimpleFat.Lib

/-- The block and the page of a successful `read_block`. -/
def pageRead : (Σ c, Answer c) → Option (ℕ × ℕ × Page)
  | ⟨.readBlock sz b, r⟩ => Option.map (fun d => (sz, b, d)) r
  | _ => none

def lastRead (sz b : ℕ) : Past Request Answer → Option Page
  | [] => none
  | e :: es =>
    match pageRead e with
    | some (sz', b', d) => if sz' = sz ∧ b' = b then some d else lastRead sz b es
    | none => lastRead sz b es

/-- The page was read, and the block holds it. -/
def Holds (v : Vol) (sz b : ℕ) : Option Page → Prop
  | some d => ∀ i < sz, blockAt v sz b i = d i
  | none => False

instance (v : Vol) (sz b : ℕ) : (page : Option Page) → Decidable (Holds v sz b page)
  | some d => inferInstanceAs (Decidable (∀ i < sz, blockAt v sz b i = d i))
  | none => .isFalse id

/-- A block is written only while it holds what its writer read from it last. -/
def rereads : Guard Vol Request Answer := fun past c v =>
  match c with
  | .writeBlock sz b _ => Holds v sz b (lastRead sz b past)
  | _ => True

instance (past : Past Request Answer) (c : Request) (v : Vol) : Decidable (rereads past c v) := by
  cases c with
  | writeBlock sz b d => exact inferInstanceAs (Decidable (Holds v sz b (lastRead sz b past)))
  | _ => exact .isTrue trivial

@[simp] theorem lastRead_read (sz b : ℕ) (d : Page) (past : Past Request Answer) :
    lastRead sz b (⟨.readBlock sz b, (some d : Option Page)⟩ :: past) = some d := by
  simp [lastRead, pageRead]

theorem rereads_writeBlock {past : Past Request Answer} {sz b : ℕ} {d w : Page} {v : Vol}
    (hread : lastRead sz b past = some d) (h : rereads past (.writeBlock sz b w) v) :
    ∀ i < sz, blockAt v sz b i = d i := by
  simpa only [rereads, hread, Holds] using h

/-- A block that is written while it holds what was read from it changes in one word. -/
theorem putBlock_reread {v : Vol} {sz b pos x : ℕ} {d : Page}
    (h : ∀ i < sz, blockAt v sz b i = d i)
    (hpos : pos + 4 ≤ sz) : putBlock v sz b (putLe32 d pos x) = putLe32 v (b * sz + pos) x := by
  rw [← putBlock_putLe32 v hpos, putBlock, putBlock]
  apply patch_congr
  intro i hi
  rw [putLe32, putLe32, patch, patch]
  split
  · rfl
  · exact (h i hi).symm

/-- The answers of the code as it stands, on a device that does not fail. -/
def Host.codeAnswers : Vol → (c : Request) → Answer c × Vol :=
  Host.quiet fun addr _ pos _ => (addr + pos) % 2 ^ 32

theorem Host.codeAnswers_world (v : Vol) (c : Request) :
    (Host.code noFailure).world v c (Host.codeAnswers v c).1 (Host.codeAnswers v c).2 :=
  Host.quiet_world (H := Host.code noFailure) (fun _ _ _ _ => rfl) v c

end SimpleFat
