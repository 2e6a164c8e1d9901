import SimpleFat.Lib.Program

/-!
# Programs side by side

A `Pool` is a family of programs over one state.  Whoever makes the next request is arbitrary, and a
request with its answer is one step, so the runs of a pool are the interleavings of the requests.
The pool also keeps what each program was answered: a `Guard` says which steps are admitted, in terms
of what the program has seen and of the state before the step.

* `Pool.Step`, `Pool.Run` — one step and a run of any length;
* `Pool.Run.keeps` — the induction rule for invariants of the pool;
* `Pool.Step.alone` — what a step does to each of the programs;
* `Pool.play` — a schedule against a deterministic handler, and `Pool.Run.of_play`.
-/

namespace SimpleFat.Lib

variable {C : Type} {R : C → Type} {ι : Type} {α : ι → Type} {S : Type}

/-- The requests that a program made and what they were answered, the last one first. -/
abbrev Past (C : Type) (R : C → Type) : Type := List (Σ c, R c)

/-- Programs side by side: what is left of each, what each has seen, and the state they share. -/
structure Pool (C : Type) (R : C → Type) (ι : Type) (α : ι → Type) (S : Type) where
  left : (i : ι) → Program C R (α i)
  past : ι → Past C R
  shared : S

/-- Which requests are admitted, for a program with this past and in this state. -/
abbrev Guard (S C : Type) (R : C → Type) : Type := Past C R → C → S → Prop

abbrev Guard.none : Guard S C R := fun _ _ _ => True

def Program.result {β : Type} : Program C R β → Option β
  | .done a => some a
  | .ask _ _ => none

theorem Program.result_eq_some {β : Type} {p : Program C R β} {a : β} :
    p.result = some a ↔ p = .done a := by
  cases p with
  | done b => simp [Program.result]
  | ask c k => simp [Program.result]

namespace Pool

def start (programs : (i : ι) → Program C R (α i)) (s : S) : Pool C R ι α S :=
  ⟨programs, fun _ => [], s⟩

@[simp] theorem start_left (programs : (i : ι) → Program C R (α i)) (s : S) (i : ι) :
    (start programs s).left i = programs i := rfl

@[simp] theorem start_past (programs : (i : ι) → Program C R (α i)) (s : S) (i : ι) :
    (start programs s).past i = [] := rfl

@[simp] theorem start_shared (programs : (i : ι) → Program C R (α i)) (s : S) :
    (start programs s).shared = s := rfl

variable [DecidableEq ι]

/-- The pool after program `i` was answered `r` to its request `c`. -/
def answer (p : Pool C R ι α S) (i : ι) (c : C) (r : R c) (rest : Program C R (α i)) (s : S) :
    Pool C R ι α S where
  left := Function.update p.left i rest
  past := Function.update p.past i (⟨c, r⟩ :: p.past i)
  shared := s

section Answer

variable (p : Pool C R ι α S) {i j : ι} (c : C) (r : R c) (rest : Program C R (α i)) (s : S)

@[simp] theorem answer_left : (p.answer i c r rest s).left i = rest := by
  simp [answer]

@[simp] theorem answer_past : (p.answer i c r rest s).past i = ⟨c, r⟩ :: p.past i := by
  simp [answer]

@[simp] theorem answer_shared : (p.answer i c r rest s).shared = s := rfl

theorem answer_left_ne (h : j ≠ i) : (p.answer i c r rest s).left j = p.left j := by
  simp [answer, h]

theorem answer_past_ne (h : j ≠ i) : (p.answer i c r rest s).past j = p.past j := by
  simp [answer, h]

end Answer

/-- One admitted request of one program, and its answer. -/
inductive Step (W : World S C R) (G : Guard S C R) : Pool C R ι α S → Pool C R ι α S → Prop
  | ask {p : Pool C R ι α S} {i : ι} {c : C} {k : R c → Program C R (α i)} {r : R c} {s : S} :
      p.left i = .ask c k → G (p.past i) c p.shared → W p.shared c r s →
      Step W G p (p.answer i c r (k r) s)

abbrev Run (W : World S C R) (G : Guard S C R) : Pool C R ι α S → Pool C R ι α S → Prop :=
  Relation.ReflTransGen (Step W G)

variable {W : World S C R} {G : Guard S C R}

/-- **The rule of invariants**: what every step keeps holds after every run. -/
theorem Run.keeps {I : Pool C R ι α S → Prop} (hstep : ∀ p q, I p → Step W G p q → I q)
    {p q : Pool C R ι α S} (run : Run W G p q) (hp : I p) : I q := by
  induction run with
  | refl => exact hp
  | tail _ hs ih => exact hstep _ _ ih hs

/-- **What a step does**: one program goes on, the others stay where they are. -/
theorem Step.alone {p q : Pool C R ι α S} (h : Step W G p q) : ∃ (i : ι) (c : C)
    (k : R c → Program C R (α i)) (r : R c), p.left i = .ask c k ∧ G (p.past i) c p.shared ∧
      W p.shared c r q.shared ∧ q.left i = k r ∧ q.past i = ⟨c, r⟩ :: p.past i ∧
      ∀ j, j ≠ i → q.left j = p.left j ∧ q.past j = p.past j := by
  cases h with
  | @ask i c k r s hleft hg hw =>
    refine ⟨i, c, k, r, hleft, hg, hw, ?_, ?_, ?_⟩
    · apply answer_left
    · apply answer_past
    · intro j hj
      exact ⟨answer_left_ne p c r (k r) s hj, answer_past_ne p c r (k r) s hj⟩

/-! ### Schedules -/

/-- The turn of program `i`, answered by a handler. -/
def turn (h : S → (c : C) → R c × S) (p : Pool C R ι α S) (i : ι) : Pool C R ι α S :=
  match p.left i with
  | .done _ => p
  | .ask c k => p.answer i c (h p.shared c).1 (k (h p.shared c).1) (h p.shared c).2

def play (h : S → (c : C) → R c × S) (p : Pool C R ι α S) : List ι → Pool C R ι α S
  | [] => p
  | i :: is => play h (p.turn h i) is

def AdmitsNext (G : Guard S C R) {β : Type} (past : Past C R) (s : S) : Program C R β → Prop
  | .done _ => True
  | .ask c _ => G past c s

instance {G : Guard S C R} [∀ past c s, Decidable (G past c s)] {β : Type} (past : Past C R) (s : S) :
    (p : Program C R β) → Decidable (AdmitsNext G past s p)
  | .done _ => .isTrue trivial
  | .ask c _ => inferInstanceAs (Decidable (G past c s))

def AdmitsAll (G : Guard S C R) (h : S → (c : C) → R c × S) (p : Pool C R ι α S) : List ι → Prop
  | [] => True
  | i :: is => AdmitsNext G (p.past i) p.shared (p.left i) ∧ AdmitsAll G h (p.turn h i) is

instance decidableAdmitsAll {G : Guard S C R} [∀ past c s, Decidable (G past c s)]
    {h : S → (c : C) → R c × S} :
    (p : Pool C R ι α S) → (is : List ι) → Decidable (AdmitsAll G h p is)
  | _, [] => .isTrue trivial
  | p, i :: is =>
    have : Decidable (AdmitsAll G h (p.turn h i) is) := decidableAdmitsAll (p.turn h i) is
    inferInstanceAs (Decidable (_ ∧ _))

/-- A turn is a step, or no step at all. -/
theorem Run.of_turn {h : S → (c : C) → R c × S} (hW : ∀ s c, W s c (h s c).1 (h s c).2)
    {p : Pool C R ι α S} {i : ι} (hadm : AdmitsNext G (p.past i) p.shared (p.left i)) :
    Run W G p (p.turn h i) := by
  rw [turn]
  cases hleft : p.left i with
  | done a => exact .refl
  | ask c k =>
    rw [hleft] at hadm
    exact .single (.ask hleft hadm (hW p.shared c))

/-- **An admitted schedule is a run.** -/
theorem Run.of_play {h : S → (c : C) → R c × S} (hW : ∀ s c, W s c (h s c).1 (h s c).2) {is : List ι}
    {p : Pool C R ι α S} (hadm : AdmitsAll G h p is) : Run W G p (p.play h is) := by
  induction is generalizing p with
  | nil => exact .refl
  | cons i is ih => exact (Run.of_turn hW hadm.1).trans (ih hadm.2)

/-- Without a guard every schedule is a run. -/
theorem Run.of_play_none {h : S → (c : C) → R c × S} (hW : ∀ s c, W s c (h s c).1 (h s c).2)
    (is : List ι) (p : Pool C R ι α S) : Run W Guard.none p (p.play h is) := by
  apply Run.of_play hW
  induction is generalizing p with
  | nil => trivial
  | cons i is ih =>
    refine ⟨?_, ih _⟩
    cases p.left i with
    | done a => trivial
    | ask c k => trivial

end Pool

end SimpleFat.Lib
