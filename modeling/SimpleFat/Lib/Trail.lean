import Mathlib

/-!
# Following links

Cells are linked by a partial function `step`.  `trail` is the list of cells that a walk of a
bounded number of rounds visits; it stops early when a cell has no successor.  `PathTo` is the walk
to the first cell with a property `D`: it is unique, so it never visits a cell twice.

* `PathTo.nodup`, `PathTo.length_le` — a path to its first stop has no repetition;
* `PathTo.congr`, `PathTo.concat` — paths under a change of the links;
* `linked_add`, `linked_mono` — steps that are taken one after the other, or along more links.
-/

namespace SimpleFat.Lib

section Trail

variable {κ : Type*}

/-- The cells that a walk of at most `n` rounds from `c` on visits. -/
def trail (step : κ → Option κ) : (n : ℕ) → κ → List κ
  | 0, _ => []
  | n + 1, c => c :: match step c with
    | none => []
    | some d => trail step n d

/-- The cell that is `n` links further. -/
def linked (step : κ → Option κ) : (n : ℕ) → κ → Option κ
  | 0, c => some c
  | n + 1, c => (step c).bind (linked step n)

/-- The list of cells from `c` to the first cell with the property `D`. -/
inductive PathTo (step : κ → Option κ) (D : κ → Prop) : κ → List κ → Prop
  | stop {c : κ} : D c → PathTo step D c [c]
  | next {c d : κ} {cs : List κ} : ¬ D c → step c = some d → PathTo step D d cs →
      PathTo step D c (c :: cs)

variable {step step' : κ → Option κ} {D D' : κ → Prop} {c d : κ} {cs ds : List κ}

theorem trail_length_le (n : ℕ) (c : κ) : (trail step n c).length ≤ n := by
  induction n generalizing c with
  | zero => exact Nat.le_refl 0
  | succ n ih =>
    rw [trail, List.length_cons]
    cases h : step c with
    | none => exact Nat.succ_le_succ (Nat.zero_le n)
    | some d => exact Nat.succ_le_succ (ih d)

theorem trail_congr (h : ∀ c, step c = step' c) (n : ℕ) (c : κ) :
    trail step n c = trail step' n c := by
  rw [funext h]

/-- A walk depends on the links of the cells it visits. -/
theorem trail_congr_mem {n : ℕ} (h : ∀ d ∈ trail step n c, step' d = step d) :
    trail step' n c = trail step n c := by
  induction n generalizing c with
  | zero => rfl
  | succ n ih =>
    rw [trail] at h ⊢
    rw [trail, h c List.mem_cons_self]
    cases hs : step c with
    | none => rfl
    | some d =>
      rw [hs] at h
      exact congrArg _ (ih fun e he => h e (List.mem_cons_of_mem _ he))

/-- One link more. -/
theorem linked_succ (n : ℕ) (c : κ) : linked step (n + 1) c = (linked step n c).bind step := by
  induction n generalizing c with
  | zero =>
    rw [linked, linked, Option.bind_some]
    cases step c with
    | none => rfl
    | some d => rfl
  | succ n ih =>
    rw [linked, linked]
    cases step c with
    | none => rfl
    | some d => exact ih d

/-- A walk on from the end of another. -/
theorem linked_add {m n : ℕ} {e : κ} (hm : linked step m c = some d) (hn : linked step n d = some e) :
    linked step (m + n) c = some e := by
  induction m generalizing c with
  | zero =>
    obtain rfl := Option.some.inj hm
    rwa [Nat.zero_add]
  | succ m ih =>
    obtain ⟨f, hf, hrest⟩ := Option.bind_eq_some_iff.mp hm
    rw [Nat.succ_add, linked, hf]
    exact ih hrest

/-- A walk over links is one over more links. -/
theorem linked_mono {n : ℕ} (h : ∀ a b, step a = some b → step' a = some b)
    (hlinked : linked step n c = some d) : linked step' n c = some d := by
  induction n generalizing c with
  | zero => exact hlinked
  | succ n ih =>
    obtain ⟨e, he, hrest⟩ := Option.bind_eq_some_iff.mp hlinked
    rw [linked, h c e he]
    exact ih hrest

/-- A walk over links of which only that of `e` has changed comes to the same cell, or to `e`. -/
theorem linked_agree {e : κ} (h : ∀ a, a ≠ e → step' a = step a) {n : ℕ}
    (hlinked : linked step n c = some d) :
    (∃ m, linked step' m c = some d) ∨ ∃ m, linked step' m c = some e := by
  induction n generalizing c with
  | zero => exact .inl ⟨0, hlinked⟩
  | succ n ih =>
    by_cases hce : c = e
    · exact .inr ⟨0, congrArg some hce⟩
    · obtain ⟨f, hf, hrest⟩ := Option.bind_eq_some_iff.mp hlinked
      have hgo : ∀ {a : κ}, (∃ m, linked step' m f = some a) → ∃ m, linked step' m c = some a := by
        rintro a ⟨m, hm⟩
        refine ⟨m + 1, ?_⟩
        rw [linked, h c hce, hf]
        exact hm
      exact (ih hrest).imp hgo hgo

/-- A walk that ends outside a set which no link leaves depends on the links outside only. -/
theorem linked_outside {S : κ → Prop} (hclosed : ∀ a, S a → ∀ b, step a = some b → S b)
    (h : ∀ a, ¬ S a → step' a = step a) (hd : ¬ S d) {n : ℕ} (hlinked : linked step n c = some d) :
    linked step' n c = some d := by
  induction n generalizing c with
  | zero => exact hlinked
  | succ n ih =>
    obtain ⟨f, hf, hrest⟩ := Option.bind_eq_some_iff.mp hlinked
    have hstay : ∀ {m a : _}, S a → linked step m a = some d → S d := by
      intro m
      induction m with
      | zero => exact fun ha hm => Option.some.inj hm ▸ ha
      | succ m ihm =>
        intro a ha hm
        obtain ⟨b, hb, hm⟩ := Option.bind_eq_some_iff.mp hm
        exact ihm (hclosed a ha b hb) hm
    by_cases hc : S c
    · exact absurd (hstay hc hlinked) hd
    · rw [linked, h c hc, hf]
      exact ih hrest

/-- A walk seen from one of its cells. -/
theorem trail_split {n : ℕ} (h : trail step n c = cs ++ d :: ds) :
    linked step cs.length c = some d ∧ trail step (n - cs.length) d = d :: ds := by
  induction cs generalizing n c with
  | nil =>
    cases n with
    | zero => simp [trail] at h
    | succ n =>
      rw [List.nil_append] at h
      obtain rfl : c = d := by
        rw [trail] at h
        exact (List.cons.inj h).1
      exact ⟨rfl, h⟩
  | cons e cs ih =>
    cases n with
    | zero => simp [trail] at h
    | succ n =>
      rw [trail, List.cons_append] at h
      obtain ⟨rfl, htail⟩ := List.cons.inj h
      cases hs : step c with
      | none => simp [hs] at htail
      | some e =>
        rw [hs] at htail
        obtain ⟨hl, ht⟩ := ih htail
        rw [List.length_cons, linked, hs, Nat.add_sub_add_right]
        exact ⟨hl, ht⟩

namespace PathTo

theorem head_mem (h : PathTo step D c cs) : c ∈ cs := by
  cases h with
  | stop _ => exact List.mem_singleton_self c
  | next _ _ _ => exact List.mem_cons_self

theorem ne_nil (h : PathTo step D c cs) : cs ≠ [] := List.ne_nil_of_mem h.head_mem

/-- The first cell with the property is found only once. -/
theorem unique (h : PathTo step D c cs) (h' : PathTo step D c ds) : cs = ds := by
  induction h generalizing ds with
  | stop hD =>
    cases h' with
    | stop _ => rfl
    | next hn _ _ => exact absurd hD hn
  | next hn hs _ ih =>
    cases h' with
    | stop hD => exact absurd hD hn
    | next _ hs' h' =>
      rw [hs] at hs'
      obtain rfl := Option.some.inj hs'
      rw [ih h']

/-- A path goes on from each of its cells. -/
theorem suffix (h : PathTo step D c cs) (hd : d ∈ cs) : ∃ ds, PathTo step D d ds ∧ ds <:+ cs := by
  induction h with
  | stop hD =>
    obtain rfl := List.mem_singleton.mp hd
    exact ⟨_, .stop hD, List.suffix_refl _⟩
  | next hn hs hp ih =>
    rcases List.mem_cons.mp hd with rfl | hd
    · exact ⟨_, .next hn hs hp, List.suffix_refl _⟩
    · obtain ⟨ds, hp', hsuf⟩ := ih hd
      exact ⟨ds, hp', hsuf.trans (List.suffix_cons _ _)⟩

/-- The rest of a path from its `i`-th cell on is a path. -/
theorem drop (h : PathTo step D c cs) {i : ℕ} (hi : i < cs.length) :
    PathTo step D (cs[i]) (cs.drop i) := by
  induction h generalizing i with
  | stop hD =>
    obtain rfl : i = 0 := by simpa using hi
    exact .stop hD
  | next hn hs hp ih =>
    cases i with
    | zero => exact .next hn hs hp
    | succ i => exact ih (Nat.lt_of_succ_lt_succ hi)

/-- **A path to its first stop visits no cell twice**: from a cell visited again the rest of the
path would be shorter than itself. -/
theorem nodup (h : PathTo step D c cs) : cs.Nodup := by
  induction h with
  | stop _ => exact List.nodup_singleton _
  | next hn hs hp ih =>
    refine List.nodup_cons.mpr ⟨fun hmem => ?_, ih⟩
    obtain ⟨ds, hp', hsuf⟩ := hp.suffix hmem
    have hsame := hp'.unique (.next hn hs hp)
    have hlen := hsuf.length_le
    rw [hsame, List.length_cons] at hlen
    omega

/-- Only the last cell has the property. -/
theorem last (h : PathTo step D c cs) : D (cs.getLast h.ne_nil) := by
  induction h with
  | stop hD => exact hD
  | next hn hs hp ih =>
    rw [List.getLast_cons hp.ne_nil]
    exact ih

/-- Every cell but the last has a successor on the path and not the property. -/
theorem inner (h : PathTo step D c cs) (hd : d ∈ cs) :
    D d ∨ ¬ D d ∧ ∃ e, step d = some e ∧ e ∈ cs := by
  induction h with
  | stop hD =>
    obtain rfl := List.mem_singleton.mp hd
    exact .inl hD
  | next hn hs hp ih =>
    rcases List.mem_cons.mp hd with rfl | hd
    · exact .inr ⟨hn, _, hs, List.mem_cons_of_mem _ hp.head_mem⟩
    · rcases ih hd with hD | ⟨hD, e, he, hmem⟩
      · exact .inl hD
      · exact .inr ⟨hD, e, he, List.mem_cons_of_mem _ hmem⟩

/-- Every cell before the last has a successor. -/
theorem dropLast_next (h : PathTo step D c cs) (hd : d ∈ cs.dropLast) :
    ¬ D d ∧ ∃ e, step d = some e := by
  induction h with
  | stop _ => simp at hd
  | next hn hs hp ih =>
    rw [List.dropLast_cons_of_ne_nil hp.ne_nil] at hd
    rcases List.mem_cons.mp hd with rfl | hd
    · exact ⟨hn, _, hs⟩
    · exact ih hd

/-- A walk to a cell contains the path to it. -/
theorem of_linked {n : ℕ} (h : linked step n c = some d) : ∃ cs, PathTo step (· = d) c cs := by
  induction n generalizing c with
  | zero => exact ⟨[c], .stop (Option.some.inj h)⟩
  | succ n ih =>
    by_cases hcd : c = d
    · exact ⟨[c], .stop hcd⟩
    · obtain ⟨e, he, hlinked⟩ := Option.bind_eq_some_iff.mp h
      obtain ⟨cs, hcs⟩ := ih hlinked
      exact ⟨c :: cs, .next hcd he hcs⟩

/-- A walk comes to every cell of a path. -/
theorem linked_of_mem (h : PathTo step D c cs) (hd : d ∈ cs) : ∃ n, linked step n c = some d := by
  induction h with
  | stop _ => exact ⟨0, congrArg some (List.mem_singleton.mp hd).symm⟩
  | next hn hs hp ih =>
    rcases List.mem_cons.mp hd with rfl | hd
    · exact ⟨0, rfl⟩
    · obtain ⟨n, hlinked⟩ := ih hd
      exact ⟨n + 1, by rw [linked, hs]; exact hlinked⟩

/-- The first cell of a path. -/
theorem getElem?_zero (h : PathTo step D c cs) : cs[0]? = some c := by
  cases h with
  | stop _ => rfl
  | next _ _ _ => rfl

/-- A cell of a path is linked to the one behind it. -/
theorem getElem?_succ (h : PathTo step D c cs) {k : ℕ} {a b : κ} (ha : cs[k]? = some a)
    (hb : cs[k + 1]? = some b) : step a = some b := by
  induction h generalizing k with
  | stop _ => simp at hb
  | next hn hs hp ih =>
    rw [List.getElem?_cons_succ] at hb
    cases k with
    | zero =>
      obtain rfl := Option.some.inj ha
      rw [hp.getElem?_zero] at hb
      rw [hs, hb]
    | succ k => exact ih ha hb

/-- A path within a finite range of cells is not longer than the range. -/
theorem length_le {c : ℕ} {cs : List ℕ} {step : ℕ → Option ℕ} {D : ℕ → Prop} {n : ℕ}
    (h : PathTo step D c cs) (hlt : ∀ d ∈ cs, d < n) : cs.length ≤ n := by
  have hsub : cs ⊆ List.range n := fun d hd => List.mem_range.mpr (hlt d hd)
  have hle := (List.subperm_of_subset h.nodup hsub).length_le
  rwa [List.length_range] at hle

/-- A walk over other links, which are those of the path up to its last cell. -/
theorem trail_append (h : PathTo step D c cs) (hs : ∀ e ∈ cs, ¬ D e → step' e = step e) {n : ℕ}
    (hn : cs.length ≤ n) : trail step' n c =
      cs ++ (step' (cs.getLast h.ne_nil)).elim [] (trail step' (n - cs.length)) := by
  induction h generalizing n with
  | @stop c hD =>
    obtain ⟨n, rfl⟩ : ∃ m, n = m + 1 := ⟨n - 1, by simp at hn; omega⟩
    rw [trail, List.getLast_singleton]
    cases step' c with
    | none => rfl
    | some d => rfl
  | @next c d cs hn' hst hp ih =>
    obtain ⟨n, rfl⟩ : ∃ m, n = m + 1 := ⟨n - 1, by simp at hn; omega⟩
    rw [trail, hs c List.mem_cons_self hn', hst, List.getLast_cons hp.ne_nil, List.cons_append,
      List.length_cons, Nat.add_sub_add_right]
    exact congrArg _ (ih (fun e he => hs e (List.mem_cons_of_mem _ he)) (by simpa using hn))

/-- A path does not depend on links and properties of other cells. -/
theorem congr (h : PathTo step D c cs) (hs : ∀ d ∈ cs, ¬ D d → step' d = step d)
    (hD : ∀ d ∈ cs, D' d ↔ D d) : PathTo step' D' c cs := by
  induction h with
  | stop hd => exact .stop ((hD _ (List.mem_singleton_self _)).mpr hd)
  | next hn hst hp ih =>
    refine .next (fun hd => hn ((hD _ List.mem_cons_self).mp hd)) ?_ (ih ?_ ?_)
    · rw [hs _ List.mem_cons_self hn, hst]
    · exact fun d hd => hs d (List.mem_cons_of_mem _ hd)
    · exact fun d hd => hD d (List.mem_cons_of_mem _ hd)

/-- Linking a new last cell: the old last cell gets a successor and loses the property. -/
theorem concat (h : PathTo step D c cs) (hlast : step' (cs.getLast h.ne_nil) = some d)
    (hs : ∀ e ∈ cs, ¬ D e → step' e = step e) (hD' : ∀ e ∈ cs, ¬ D' e) (hd : D' d) :
    PathTo step' D' c (cs ++ [d]) := by
  induction h with
  | stop _ => exact .next (hD' _ (List.mem_singleton_self _)) hlast (.stop hd)
  | next hn hst hp ih =>
    rw [List.getLast_cons hp.ne_nil] at hlast
    refine .next (hD' _ List.mem_cons_self) ?_ (ih hlast ?_ ?_)
    · rw [hs _ List.mem_cons_self hn, hst]
    · exact fun e he => hs e (List.mem_cons_of_mem _ he)
    · exact fun e he => hD' e (List.mem_cons_of_mem _ he)

/-- Cells in a row, each linked to the one behind it. -/
theorem range' {step : ℕ → Option ℕ} {D : ℕ → Prop} {c n : ℕ} (hstop : D (c + n))
    (hstep : ∀ d, c ≤ d → d < c + n → ¬ D d ∧ step d = some (d + 1)) :
    PathTo step D c (List.range' c (n + 1)) := by
  induction n generalizing c with
  | zero => exact .stop hstop
  | succ n ih =>
    obtain ⟨hD, hc⟩ := hstep c (Nat.le_refl c) (by omega)
    rw [List.range'_succ]
    refine .next hD hc (ih ?_ fun d hd hd' => hstep d (by omega) (by omega))
    rwa [Nat.add_right_comm]

end PathTo

end Trail

end SimpleFat.Lib
