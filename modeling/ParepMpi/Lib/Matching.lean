import Mathlib.Data.Nat.Find

/-!
# First come, first served

Requests are numbered in the order in which they are made and items in the order in which they are offered; every
request says which items it accepts.
-/

namespace Matching

variable (accepts : Nat → Nat → Prop)

def Taken : Nat → Nat → Prop
  | 0, _ => False
  | k + 1, x => Taken k x ∨ accepts k x ∧ ¬ Taken k x ∧ ∀ y < x, accepts k y → Taken k y

def Gets (k x : Nat) : Prop := accepts k x ∧ ¬ Taken accepts k x ∧ ∀ y < x, accepts k y → Taken accepts k y

variable {accepts} {accepts' : Nat → Nat → Prop} {i k n x y : Nat}

theorem taken_succ : Taken accepts (k + 1) x ↔ Taken accepts k x ∨ Gets accepts k x := Iff.rfl

theorem taken_iff : Taken accepts n x ↔ ∃ k < n, Gets accepts k x := by
  induction n with
  | zero => simp [Taken]
  | succ n ih =>
    rw [taken_succ, ih]
    constructor
    · intro h
      rcases h with ⟨k, hk, hget⟩ | hget
      · exact ⟨k, by omega, hget⟩
      · exact ⟨n, by omega, hget⟩
    · intro h
      obtain ⟨k, hk, hget⟩ := h
      rcases Nat.lt_succ_iff_lt_or_eq.mp hk with hlt | rfl
      · exact .inl ⟨k, hlt, hget⟩
      · exact .inr hget

theorem Gets.taken (h : Gets accepts k x) (hk : k < n) : Taken accepts n x := taken_iff.mpr ⟨k, hk, h⟩

theorem Gets.item_eq (h : Gets accepts k x) (h' : Gets accepts k y) : x = y := by
  rcases lt_trichotomy x y with hlt | heq | hlt
  · exact absurd (h'.2.2 x hlt h.1) h.2.1
  · exact heq
  · exact absurd (h.2.2 y hlt h'.1) h'.2.1

theorem Gets.request_eq (h : Gets accepts i x) (h' : Gets accepts k x) : i = k := by
  rcases lt_trichotomy i k with hlt | heq | hlt
  · exact absurd (h.taken hlt) h'.2.1
  · exact heq
  · exact absurd (h'.taken hlt) h.2.1

theorem exists_gets (h : accepts k x) (hfree : ¬ Taken accepts k x) : ∃ z ≤ x, Gets accepts k z := by
  classical
  have hex : ∃ z, accepts k z ∧ ¬ Taken accepts k z := ⟨x, h, hfree⟩
  refine ⟨Nat.find hex, Nat.find_min' hex ⟨h, hfree⟩, (Nat.find_spec hex).1, (Nat.find_spec hex).2, ?_⟩
  intro y hy hacc
  exact by_contra fun hnot => Nat.find_min hex hy ⟨hacc, hnot⟩

theorem Gets.lt (h : Gets accepts i x) (h' : Gets accepts k y) (hik : i < k) (hacc : accepts i y) : x < y := by
  rcases lt_trichotomy x y with hlt | rfl | hlt
  · exact hlt
  · exact absurd (h.taken hik) h'.2.1
  · obtain ⟨m, hm, hget⟩ := taken_iff.mp (h.2.2 y hlt hacc)
    exact absurd (hget.taken (by omega)) h'.2.1

variable (h : ∀ k < n, ∀ x, accepts k x ↔ accepts' k x)

include h

theorem taken_congr : Taken accepts n x ↔ Taken accepts' n x := by
  induction n generalizing x with
  | zero => rfl
  | succ n ih =>
    have ih' : ∀ {y}, Taken accepts n y ↔ Taken accepts' n y := ih fun k hk => h k (by omega)
    simp only [Taken, ih', h n (by omega)]

theorem gets_congr (hk : k < n) : Gets accepts k x ↔ Gets accepts' k x := by
  have htaken : ∀ y, Taken accepts k y ↔ Taken accepts' k y := fun y => taken_congr fun i hi => h i (by omega)
  simp only [Gets, htaken, h k hk]

end Matching
