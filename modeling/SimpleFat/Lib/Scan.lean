import Mathlib

/-!
# Scanning a list with a terminator

A list has elements that end a scan (`stop`) and elements that a scan passes over (`skip`).  `live`
is what a scan sees: the elements before the first stop that are not skipped.  `scanFor` looks for
the first of them with a property and tells a stop from an exhausted list.
-/

namespace SimpleFat.Lib

section Scan

variable {α : Type*} (stop skip : α → Bool)

/-- The elements before the first stop that are not skipped. -/
def live : List α → List α
  | [] => []
  | a :: as => if stop a then [] else if skip a then live as else a :: live as

/-- The scan for the first live element with the property `p`: `some (some a)` found it,
`some none` met a stop, `none` ran to the end. -/
def scanFor (p : α → Bool) : List α → Option (Option α)
  | [] => none
  | a :: as =>
    if stop a then some none
    else if skip a then scanFor p as
    else if p a then some (some a)
    else scanFor p as

variable {stop skip}

theorem live_append_of_stop {as : List α} (h : as.any stop = true) (bs : List α) :
    live stop skip (as ++ bs) = live stop skip as := by
  induction as with
  | nil => simp at h
  | cons a as ih =>
    rw [List.cons_append, live, live]
    by_cases ha : stop a = true
    · rw [if_pos ha, if_pos ha]
    · have has : as.any stop = true := by simpa [ha] using h
      rw [if_neg ha, if_neg ha, ih has]

theorem live_append_of_not_stop {as : List α} (h : as.any stop = false) (bs : List α) :
    live stop skip (as ++ bs) = live stop skip as ++ live stop skip bs := by
  induction as with
  | nil => rfl
  | cons a as ih =>
    simp only [List.any_cons, Bool.or_eq_false_iff] at h
    have ha : ¬ stop a = true := by simp [h.1]
    rw [List.cons_append, live, live, if_neg ha, if_neg ha, ih h.2]
    split
    · rfl
    · rfl

theorem mem_live {as : List α} {a : α} (h : a ∈ live stop skip as) :
    a ∈ as ∧ stop a = false ∧ skip a = false := by
  induction as with
  | nil => simp [live] at h
  | cons b as ih =>
    rw [live] at h
    split at h
    · simp at h
    · split at h
      · obtain ⟨hm, hs⟩ := ih h
        exact ⟨List.mem_cons_of_mem b hm, hs⟩
      · rename_i hstop hskip
        rcases List.mem_cons.mp h with rfl | h
        · exact ⟨List.mem_cons_self, by simpa using hstop, by simpa using hskip⟩
        · obtain ⟨hm, hs⟩ := ih h
          exact ⟨List.mem_cons_of_mem b hm, hs⟩

theorem live_length_le (as : List α) : (live stop skip as).length ≤ as.length := by
  induction as with
  | nil => exact Nat.le_refl 0
  | cons a as ih =>
    rw [live]
    split
    · exact Nat.zero_le _
    · split
      · exact Nat.le_succ_of_le ih
      · exact Nat.succ_le_succ ih

/-- A scan finds the first live element with the property. -/
theorem scanFor_eq (p : α → Bool) (as : List α) :
    scanFor stop skip p as = match (live stop skip as).find? p with
      | some a => some (some a)
      | none => if as.any stop then some none else none := by
  induction as with
  | nil => rfl
  | cons a as ih =>
    rw [scanFor, live]
    by_cases hstop : stop a = true
    · simp [hstop]
    · by_cases hskip : skip a = true
      · simp [hstop, hskip, ih]
      · by_cases hp : p a = true
        · simp [hstop, hskip, hp]
        · simp [hstop, hskip, hp, ih]

/-- A scan of a longer list goes on where the first part left nothing decided. -/
theorem scanFor_append (p : α → Bool) (as bs : List α) :
    scanFor stop skip p (as ++ bs) = (scanFor stop skip p as).or (scanFor stop skip p bs) := by
  induction as with
  | nil => rfl
  | cons a as ih =>
    rw [List.cons_append, scanFor, scanFor]
    split
    · rfl
    · split
      · exact ih
      · split
        · rfl
        · exact ih

theorem scanFor_some {p : α → Bool} {as : List α} {a : α}
    (h : scanFor stop skip p as = some (some a)) :
    a ∈ as ∧ stop a = false ∧ skip a = false ∧ p a = true := by
  rw [scanFor_eq] at h
  split at h
  · rename_i b hb
    obtain rfl := Option.some.inj (Option.some.inj h)
    obtain ⟨hm, hs, hk⟩ := mem_live (List.mem_of_find?_eq_some hb)
    exact ⟨hm, hs, hk, List.find?_some hb⟩
  · split at h
    · exact absurd (Option.some.inj h) (by simp)
    · simp at h

/-- Nothing is free exactly when everything is live. -/
theorem find?_free_eq_none {as : List α} :
    as.find? (fun a => stop a || skip a) = none ↔ live stop skip as = as := by
  rw [List.find?_eq_none]
  induction as with
  | nil => simp [live]
  | cons a as ih =>
    rw [live]
    constructor
    · intro h
      have ha := h a List.mem_cons_self
      simp only [Bool.or_eq_true, not_or] at ha
      rw [if_neg ha.1, if_neg ha.2, ih.mp fun b hb => h b (List.mem_cons_of_mem a hb)]
    · intro h
      split at h
      · simp at h
      · split at h
        · have hlen : (live stop skip as).length ≤ as.length := live_length_le as
          rw [h, List.length_cons] at hlen
          omega
        · rename_i hstop hskip
          have hlive := ih.mpr (List.cons.inj h).2
          intro b hb
          rcases List.mem_cons.mp hb with rfl | hb
          · simp [hstop, hskip]
          · exact hlive b hb

end Scan

end SimpleFat.Lib
