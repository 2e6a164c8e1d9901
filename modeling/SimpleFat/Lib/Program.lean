import Mathlib

/-!
# Programs that ask their environment

A `Program` is a finite tree of requests: it either ends with a result or asks one request and
goes on with the answer.  The environment is a `World`, a relation that says which answers a
request may get in a state and what it does to that state.  Failing devices, arbitrary clock
readings and fresh addresses are all just several possible answers.

* `Exec` is the big-step execution, with the trace of the requests that were made, `Answered` the
  same with their answers;
* `wp` is the weakest precondition over every execution, with its rules for sequencing and
  consequence;
* `asks` bounds the requests an execution makes, `within` their number;
* `obeys` is a contract for the requests and the result that no answer can break;
* `run` executes a program against a deterministic handler, and `Exec.of_run` turns such a run
  into an execution of every world that admits the handler's answers.
-/

namespace SimpleFat.Lib

/-- A finite program over the requests `C`, where the request `c` is answered in `R c`. -/
inductive Program (C : Type) (R : C → Type) (α : Type) : Type where
  | done (a : α)
  | ask (c : C) (k : R c → Program C R α)

namespace Program

variable {C : Type} {R : C → Type} {S α β γ : Type}

/-- Sequencing: continue every end of the first program. -/
def bind : Program C R α → (α → Program C R β) → Program C R β
  | .done a, f => f a
  | .ask c k, f => .ask c fun r => (k r).bind f

instance : Monad (Program C R) where
  pure := .done
  bind := .bind

@[simp] theorem pure_eq_done (a : α) : (pure a : Program C R α) = .done a := rfl

@[simp] theorem done_bind (a : α) (f : α → Program C R β) :
    (Program.done a >>= f) = f a := rfl

@[simp] theorem ask_bind (c : C) (k : R c → Program C R α) (f : α → Program C R β) :
    (Program.ask c k >>= f) = .ask c fun r => k r >>= f := rfl

theorem bind_assoc (p : Program C R α) (f : α → Program C R β) (g : β → Program C R γ) :
    (p >>= f >>= g) = (p >>= fun a => f a >>= g) := by
  induction p with
  | done a => rfl
  | ask c k ih =>
    show ask c (fun r => k r >>= f >>= g) = ask c (fun r => k r >>= fun a => f a >>= g)
    exact congrArg _ (funext ih)

def request (c : C) : Program C R (R c) := .ask c .done

@[simp] theorem request_bind (c : C) (f : R c → Program C R β) :
    (request c >>= f) = .ask c f := rfl

end Program

/-- Which answers a request may get in a state, and the state it leaves behind. -/
abbrev World (S C : Type) (R : C → Type) : Type := S → (c : C) → R c → S → Prop

section Semantics

variable {C : Type} {R : C → Type} {S α β : Type}

/-- Big-step execution with the trace of requests. -/
inductive Exec (W : World S C R) : Program C R α → S → List C → α → S → Prop
  | done {a : α} {s : S} : Exec W (.done a) s [] a s
  | ask {c : C} {k : R c → Program C R α} {r : R c} {s s₁ s₂ : S} {tr : List C} {a : α} :
      W s c r s₁ → Exec W (k r) s₁ tr a s₂ → Exec W (.ask c k) s (c :: tr) a s₂

/-- Big-step execution with the trace of requests and their answers. -/
inductive Answered (W : World S C R) : Program C R α → S → List (Σ c, R c) → α → S → Prop
  | done {a : α} {s : S} : Answered W (.done a) s [] a s
  | ask {c : C} {k : R c → Program C R α} {r : R c} {s s₁ s₂ : S} {tr : List (Σ c, R c)} {a : α} :
      W s c r s₁ → Answered W (k r) s₁ tr a s₂ → Answered W (.ask c k) s (⟨c, r⟩ :: tr) a s₂

/-- Weakest precondition: every execution ends in `Q`. -/
def wp (W : World S C R) : Program C R α → (α → S → Prop) → S → Prop
  | .done a, Q, s => Q a s
  | .ask c k, Q, s => ∀ r s₁, W s c r s₁ → wp W (k r) Q s₁

/-- Every request of every execution satisfies `P`. -/
def asks (W : World S C R) (P : C → Prop) : Program C R α → S → Prop
  | .done _, _ => True
  | .ask c k, s => P c ∧ ∀ r s₁, W s c r s₁ → asks W P (k r) s₁

variable {W : World S C R}

@[simp] theorem wp_done (a : α) (Q : α → S → Prop) (s : S) :
    wp W (.done a : Program C R α) Q s ↔ Q a s := Iff.rfl

theorem wp_ask (c : C) (k : R c → Program C R α) (Q : α → S → Prop) (s : S) :
    wp W (.ask c k) Q s ↔ ∀ r s₁, W s c r s₁ → wp W (k r) Q s₁ := Iff.rfl

@[simp] theorem asks_done (P : C → Prop) (a : α) (s : S) :
    asks W P (.done a : Program C R α) s := trivial

theorem asks_ask (P : C → Prop) (c : C) (k : R c → Program C R α) (s : S) :
    asks W P (.ask c k) s ↔ P c ∧ ∀ r s₁, W s c r s₁ → asks W P (k r) s₁ := Iff.rfl

-- from here on proofs go by these rules
attribute [irreducible] wp asks

/-- The first request of an execution and the rest of it. -/
theorem Answered.of_request {c : C} {f : R c → Program C R α} {s s' : S} {tr : List (Σ c, R c)}
    {a : α} (h : Answered W (Program.request c >>= f) s tr a s') : ∃ r s₁ tr',
      tr = ⟨c, r⟩ :: tr' ∧ W s c r s₁ ∧ Answered W (f r) s₁ tr' a s' := by
  cases h with
  | ask hw he => exact ⟨_, _, _, rfl, hw, he⟩

theorem Answered.of_pure {a b : α} {s s' : S} {tr : List (Σ c, R c)}
    (h : Answered W (pure a : Program C R α) s tr b s') : tr = [] ∧ b = a ∧ s' = s := by
  cases h with
  | done => exact ⟨rfl, rfl, rfl⟩

/-- An execution without its answers. -/
theorem Answered.exec {p : Program C R α} {s s' : S} {tr : List (Σ c, R c)} {a : α}
    (h : Answered W p s tr a s') : Exec W p s (tr.map Sigma.fst) a s' := by
  induction h with
  | done => exact .done
  | ask hw _ ih => exact .ask hw ih

/-- An execution has answers. -/
theorem Exec.answered {p : Program C R α} {s s' : S} {tr : List C} {a : α}
    (h : Exec W p s tr a s') : ∃ tr', Answered W p s tr' a s' := by
  induction h with
  | done => exact ⟨[], .done⟩
  | ask hw _ ih =>
    obtain ⟨tr', he⟩ := ih
    exact ⟨_, .ask hw he⟩

/-- **Adequacy**: the weakest precondition speaks about exactly the executions. -/
theorem wp_iff_exec (p : Program C R α) (Q : α → S → Prop) (s : S) :
    wp W p Q s ↔ ∀ tr a s', Exec W p s tr a s' → Q a s' := by
  induction p generalizing s with
  | done a =>
    rw [wp_done]
    constructor
    · intro h tr a' s' he
      cases he
      exact h
    · intro h
      exact h [] a s .done
  | ask c k ih =>
    rw [wp_ask]
    constructor
    · intro h tr a s' he
      cases he with
      | ask hw he => exact (ih _ _).mp (h _ _ hw) _ _ _ he
    · intro h r s₁ hw
      exact (ih r s₁).mpr fun tr a s' he => h _ _ _ (.ask hw he)

/-- An execution of a sequence is one of each part. -/
theorem Exec.of_bind {p : Program C R α} {f : α → Program C R β} {s s' : S} {tr : List C} {b : β}
    (h : Exec W (p >>= f) s tr b s') : ∃ tr₁ tr₂ a s₁, Exec W p s tr₁ a s₁ ∧
      Exec W (f a) s₁ tr₂ b s' := by
  induction p generalizing s tr with
  | done a => exact ⟨[], tr, a, s, .done, h⟩
  | ask c k ih =>
    cases h with
    | ask hw he =>
      obtain ⟨tr₁, tr₂, a, s₁, hp, hf⟩ := ih _ he
      exact ⟨c :: tr₁, tr₂, a, s₁, .ask hw hp, hf⟩

theorem Exec.of_pure {a b : α} {s s' : S} {tr : List C}
    (h : Exec W (pure a : Program C R α) s tr b s') : b = a ∧ s' = s := by
  cases h with
  | done => exact ⟨rfl, rfl⟩

/-- The rule of sequencing. -/
theorem wp_bind (p : Program C R α) (f : α → Program C R β) (Q : β → S → Prop) (s : S) :
    wp W (p >>= f) Q s ↔ wp W p (fun a s' => wp W (f a) Q s') s := by
  induction p generalizing s with
  | done a => rw [Program.done_bind, wp_done]
  | ask c k ih =>
    rw [Program.ask_bind, wp_ask, wp_ask]
    constructor
    · intro h r s₁ hw
      exact (ih r s₁).mp (h r s₁ hw)
    · intro h r s₁ hw
      exact (ih r s₁).mpr (h r s₁ hw)

/-- A program whose result is only passed on. -/
theorem wp_bind_pure (p : Program C R α) (f : α → β) (Q : β → S → Prop) (s : S) :
    wp W (p >>= fun a => pure (f a)) Q s ↔ wp W p (fun a s' => Q (f a) s') s := by
  simp only [wp_bind, Program.pure_eq_done, wp_done]

/-- The rule of consequence. -/
theorem wp_mono {p : Program C R α} {Q Q' : α → S → Prop} {s : S}
    (h : wp W p Q s) (hQ : ∀ a s', Q a s' → Q' a s') : wp W p Q' s := by
  rw [wp_iff_exec] at h ⊢
  exact fun tr a s' he => hQ a s' (h tr a s' he)

/-- Two facts about all executions hold together. -/
theorem wp_and {p : Program C R α} {Q Q' : α → S → Prop} {s : S}
    (h : wp W p Q s) (h' : wp W p Q' s) : wp W p (fun a s' => Q a s' ∧ Q' a s') s := by
  rw [wp_iff_exec] at h h' ⊢
  exact fun tr a s' he => ⟨h tr a s' he, h' tr a s' he⟩

/-- A postcondition that always holds holds after every execution. -/
theorem wp_of_forall {p : Program C R α} {Q : α → S → Prop} {s : S} (h : ∀ a s', Q a s') :
    wp W p Q s :=
  (wp_iff_exec p Q s).mpr fun _ a s' _ => h a s'

/-- The rule of sequencing with an intermediate assertion. -/
theorem wp_seq {p : Program C R α} {f : α → Program C R β} {P : α → S → Prop}
    {Q : β → S → Prop} {s : S} (hp : wp W p P s) (hf : ∀ a s', P a s' → wp W (f a) Q s') :
    wp W (p >>= f) Q s :=
  (wp_bind p f Q s).mpr (wp_mono hp hf)

/-- A world with fewer answers has fewer executions. -/
theorem wp_world_mono {W' : World S C R} (hW : ∀ s c r s', W' s c r s' → W s c r s')
    {p : Program C R α} {Q : α → S → Prop} {s : S} (h : wp W p Q s) : wp W' p Q s := by
  induction p generalizing s with
  | done a => rwa [wp_done] at h ⊢
  | ask c k ih =>
    rw [wp_ask] at h ⊢
    exact fun r s₁ hw => ih r (h r s₁ (hW _ _ _ _ hw))

/-- The trace reading of `asks`. -/
theorem asks_iff_exec (P : C → Prop) (p : Program C R α) (s : S)
    (hlive : ∀ s c, ∃ r s', W s c r s') :
    asks W P p s ↔ ∀ tr a s', Exec W p s tr a s' → ∀ c ∈ tr, P c := by
  induction p generalizing s with
  | done a =>
    refine ⟨fun _ tr a' s' he => ?_, fun _ => asks_done P a s⟩
    cases he
    simp
  | ask c k ih =>
    rw [asks_ask]
    constructor
    · rintro ⟨hP, hk⟩ tr a s' he
      cases he with
      | ask hw he =>
        intro d hd
        rcases List.mem_cons.mp hd with rfl | hd
        · exact hP
        · exact (ih _ _).mp (hk _ _ hw) _ _ _ he d hd
    · intro h
      have hk : ∀ r s₁, W s c r s₁ → asks W P (k r) s₁ := fun r s₁ hw =>
        (ih r s₁).mpr fun tr a s' he d hd => h _ _ _ (.ask hw he) d (List.mem_cons_of_mem c hd)
      refine ⟨?_, hk⟩
      -- some execution exists, and its first request is `c`
      have hex : ∀ (q : Program C R α) (t : S), ∃ tr a s', Exec W q t tr a s' := by
        intro q
        induction q with
        | done a => exact fun t => ⟨[], a, t, .done⟩
        | ask d l ihq =>
          intro t
          obtain ⟨r, t₁, hw⟩ := hlive t d
          obtain ⟨tr, a, s', he⟩ := ihq r t₁
          exact ⟨d :: tr, a, s', .ask hw he⟩
      obtain ⟨r, s₁, hw⟩ := hlive s c
      obtain ⟨tr, a, s', he⟩ := hex (k r) s₁
      exact h _ _ _ (.ask hw he) c (by simp)

/-- A wider property of the requests. -/
theorem asks_mono {P P' : C → Prop} (hP : ∀ c, P c → P' c) {p : Program C R α} {s : S}
    (h : asks W P p s) : asks W P' p s := by
  induction p generalizing s with
  | done a => exact asks_done P' a s
  | ask c k ih =>
    rw [asks_ask] at h ⊢
    exact ⟨hP c h.1, fun r s₁ hw => ih r (h.2 r s₁ hw)⟩

/-- Worlds that agree on the requests of a program agree on the program. -/
theorem wp_congr_asks {W' : World S C R} {P : C → Prop}
    (hW : ∀ c, P c → ∀ s r s', W s c r s' ↔ W' s c r s') {p : Program C R α} {Q : α → S → Prop}
    {s : S} (h : asks W P p s) : wp W p Q s ↔ wp W' p Q s := by
  induction p generalizing s with
  | done a => rw [wp_done, wp_done]
  | ask c k ih =>
    rw [asks_ask] at h
    rw [wp_ask, wp_ask]
    refine forall_congr' fun r => forall_congr' fun s₁ => ?_
    rw [← hW c h.1 s r s₁]
    exact forall_congr' fun hw => ih r (h.2 r s₁ hw)

/-- `asks` through a sequence: the second program starts where the first one ends. -/
theorem asks_bind (P : C → Prop) (p : Program C R α) (f : α → Program C R β) (s : S) :
    asks W P (p >>= f) s ↔ asks W P p s ∧ wp W p (fun a s' => asks W P (f a) s') s := by
  induction p generalizing s with
  | done a =>
    rw [Program.done_bind, wp_done]
    exact (and_iff_right (asks_done P a s)).symm
  | ask c k ih =>
    rw [Program.ask_bind, asks_ask, asks_ask, wp_ask, and_assoc]
    refine and_congr_right fun _ => ⟨fun h => ⟨?_, ?_⟩, fun h r s₁ hw => ?_⟩
    · exact fun r s₁ hw => ((ih r s₁).mp (h r s₁ hw)).1
    · exact fun r s₁ hw => ((ih r s₁).mp (h r s₁ hw)).2
    · exact (ih r s₁).mpr ⟨h.1 r s₁ hw, h.2 r s₁ hw⟩

/-- `asks` of one request and what follows it. -/
theorem asks_request_bind (P : C → Prop) (c : C) (f : R c → Program C R β) (s : S) :
    asks W P (Program.request c >>= f) s ↔
      P c ∧ wp W (Program.request c >>= .done) (fun r s' => asks W P (f r) s') s := by
  rw [Program.request_bind, Program.request_bind, asks_ask, wp_ask]
  simp only [wp_done]

/-- The program asks at most so many requests, whatever it is answered. -/
def within : Program C R α → ℕ → Prop
  | .done _, _ => True
  | .ask _ _, 0 => False
  | .ask _ k, n + 1 => ∀ r, within (k r) n

theorem within_done (a : α) (n : ℕ) : within (.done a : Program C R α) n := by
  cases n with
  | zero => trivial
  | succ n => trivial

theorem within_mono {p : Program C R α} {m n : ℕ} (h : within p m) (hmn : m ≤ n) : within p n := by
  induction p generalizing m n with
  | done a => exact within_done a n
  | ask c k ih =>
    cases m with
    | zero => exact h.elim
    | succ m =>
      obtain ⟨j, rfl⟩ : ∃ j, n = j + 1 := ⟨n - 1, by omega⟩
      exact fun r => ih r (h r) (by omega)

/-- The bounds of a sequence add up. -/
theorem within_bind {p : Program C R α} {f : α → Program C R β} {m n : ℕ} (hp : within p m)
    (hf : ∀ a, within (f a) n) : within (p >>= f) (m + n) := by
  induction p generalizing m with
  | done a => exact within_mono (hf a) (Nat.le_add_left n m)
  | ask c k ih =>
    cases m with
    | zero => exact hp.elim
    | succ m =>
      rw [Nat.add_right_comm]
      exact fun r => ih r (hp r)

/-- Whatever the answers are, the requests satisfy `P` and the result satisfies `Q`. -/
def obeys (P : C → Prop) (Q : α → Prop) : Program C R α → Prop
  | .done a => Q a
  | .ask c k => P c ∧ ∀ r, obeys P Q (k r)

section Contract

variable {P : C → Prop} {Q : α → Prop}

theorem obeys_mono {P' : C → Prop} {Q' : α → Prop} {p : Program C R α} (h : obeys P Q p)
    (hP : ∀ c, P c → P' c) (hQ : ∀ a, Q a → Q' a) : obeys P' Q' p := by
  induction p with
  | done a => exact hQ a h
  | ask c k ih => exact ⟨hP c h.1, fun r => ih r (h.2 r)⟩

theorem obeys_request {c : C} {f : R c → Program C R α} (hc : P c) (hf : ∀ r, obeys P Q (f r)) :
    obeys P Q (Program.request c >>= f) :=
  ⟨hc, hf⟩

/-- The contract of a sequence: the second program may rely on that of the first one. -/
theorem obeys_bind {Q' : β → Prop} {p : Program C R α} {f : α → Program C R β}
    (hp : obeys P Q p) (hf : ∀ a, Q a → obeys P Q' (f a)) : obeys P Q' (p >>= f) := by
  induction p with
  | done a => exact hf a hp
  | ask c k ih => exact ⟨hp.1, fun r => ih r (hp.2 r)⟩

/-- What all requests of a contract preserve holds at the end, and so does the result's part. -/
theorem Exec.preserves {I : S → Prop} (hI : ∀ s c r s', P c → W s c r s' → I s → I s')
    {p : Program C R α} {s s' : S} {tr : List C} {a : α} (he : Exec W p s tr a s')
    (hp : obeys P Q p) (hs : I s) : I s' ∧ Q a := by
  induction he with
  | done => exact ⟨hs, hp⟩
  | ask hw _ ih => exact ih (hp.2 _) (hI _ _ _ _ hp.1 hw hs)

end Contract

/-- Execution against a deterministic handler. -/
def run (h : S → (c : C) → R c × S) : Program C R α → S → α × S
  | .done a, s => (a, s)
  | .ask c k, s => run h (k (h s c).1) (h s c).2

def runTrace (h : S → (c : C) → R c × S) : Program C R α → S → List C
  | .done _, _ => []
  | .ask c k, s => c :: runTrace h (k (h s c).1) (h s c).2

@[simp] theorem run_done (h : S → (c : C) → R c × S) (a : α) (s : S) :
    run h (.done a : Program C R α) s = (a, s) := rfl

theorem run_bind (h : S → (c : C) → R c × S) (p : Program C R α) (f : α → Program C R β)
    (s : S) : run h (p >>= f) s = run h (f (run h p s).1) (run h p s).2 := by
  induction p generalizing s with
  | done a => rfl
  | ask c k ih => exact ih _ _

/-- A run is an execution of every world that admits the handler's answers. -/
theorem Exec.of_run {h : S → (c : C) → R c × S} (hW : ∀ s c, W s c (h s c).1 (h s c).2)
    (p : Program C R α) (s : S) :
    Exec W p s (runTrace h p s) (run h p s).1 (run h p s).2 := by
  induction p generalizing s with
  | done a => exact .done
  | ask c k ih => exact .ask (hW s c) (ih _ _)

end Semantics

end SimpleFat.Lib
