import SimpleFat.Lib.Program

/-!
# Where an execution can be cut off

The power can fail between any two requests of a program.  A state in which it fails is one that a
whole execution can end in, if every later request may be refused without a change: so what holds
after all executions with refusals holds wherever the power fails.

* `Reaches` — the states that an execution passes through;
* `Reaches.exec` — a cut execution is a whole one of a world with refusals;
* `Reaches.of_wp` — what holds after every execution with refusals holds at every cut;
* `Reaches.preserves` — what the requests of a contract keep holds at every cut;
* `Reaches.bind` — the states of the first part of a sequence.
-/

namespace SimpleFat.Lib

variable {C : Type} {R : C → Type} {S α : Type} {W W' : World S C R}

/-- The states that an execution passes through, from its start to its end. -/
inductive Reaches (W : World S C R) : Program C R α → S → S → Prop
  | here {p : Program C R α} {s : S} : Reaches W p s s
  | ask {c : C} {k : R c → Program C R α} {r : R c} {s s₁ s' : S} :
      W s c r s₁ → Reaches W (k r) s₁ s' → Reaches W (.ask c k) s s'

/-- Every request may be refused: it gets some answer and changes nothing. -/
def Refuses (W : World S C R) : Prop := ∀ s c, ∃ r, W s c r s

/-- From any state on, a program may be refused everything. -/
theorem Refuses.exec (h : Refuses W) (p : Program C R α) (s : S) : ∃ tr a, Exec W p s tr a s := by
  induction p with
  | done a => exact ⟨[], a, .done⟩
  | ask c k ih =>
    obtain ⟨r, hr⟩ := h s c
    obtain ⟨tr, a, he⟩ := ih r
    exact ⟨c :: tr, a, .ask hr he⟩

/-- **A cut execution is a whole one**, in which everything behind the cut is refused. -/
theorem Reaches.exec (hW : ∀ s c r s', W s c r s' → W' s c r s') (hrefuses : Refuses W')
    {p : Program C R α} {s s' : S} (h : Reaches W p s s') : ∃ tr a, Exec W' p s tr a s' := by
  induction h with
  | here => exact hrefuses.exec _ _
  | ask hw _ ih =>
    obtain ⟨tr, a, he⟩ := ih
    exact ⟨_ :: tr, a, .ask (hW _ _ _ _ hw) he⟩

/-- **What holds after every execution with refusals holds at every cut.** -/
theorem Reaches.of_wp (hW : ∀ s c r s', W s c r s' → W' s c r s') (hrefuses : Refuses W')
    {p : Program C R α} {s s' : S} (h : Reaches W p s s') {Q : S → Prop}
    (hp : wp W' p (fun _ t => Q t) s) : Q s' := by
  obtain ⟨tr, a, he⟩ := h.exec hW hrefuses
  exact (wp_iff_exec p _ s).mp hp tr a s' he

/-- **What the requests of a contract keep** holds at every cut. -/
theorem Reaches.preserves {P : C → Prop} {Q : α → Prop} {I : S → Prop}
    (hI : ∀ s c r s', P c → W s c r s' → I s → I s') {p : Program C R α} {s s' : S}
    (h : Reaches W p s s') (hp : obeys P Q p) (hs : I s) : I s' := by
  induction h with
  | here => exact hs
  | ask hw _ ih => exact ih (hp.2 _) (hI _ _ _ _ hp.1 hw hs)

/-- The states of the first part of a sequence. -/
theorem Reaches.bind {β : Type} {p : Program C R α} {s s' : S} (h : Reaches W p s s')
    (f : α → Program C R β) : Reaches W (p >>= f) s s' := by
  induction h with
  | here => exact .here
  | ask hw _ ih => exact .ask hw ih

/-- The end of an execution is one of its states. -/
theorem Exec.reaches {p : Program C R α} {s s' : S} {tr : List C} {a : α} (h : Exec W p s tr a s') :
    Reaches W p s s' := by
  induction h with
  | done => exact .here
  | ask hw _ ih => exact .ask hw ih

end SimpleFat.Lib
