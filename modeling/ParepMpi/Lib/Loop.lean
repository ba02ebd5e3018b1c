import Mathlib.Tactic.Common

/-!
# Loops that may fail

`forRange lo hi body` is the C loop `for (i = lo; i < hi; i++) body`, over a state and with a body that may fail; a loop
over a list of indices is `List.foldlM`. The rules for both are about loops that end: what holds at the start and is kept
by every round, which must then succeed, holds at the end.
-/

variable {σ : Type*}

def forRounds (body : Int → σ → Option σ) : Nat → Int → σ → Option σ
  | 0, _, s => some s
  | n + 1, i, s => (body i s).bind (forRounds body n (i + 1))

def forRange (lo hi : Int) (body : Int → σ → Option σ) (s : σ) : Option σ :=
  forRounds body (hi - lo).toNat lo s

variable {P : Int → σ → Prop} {body : Int → σ → Option σ}

theorem forRounds_spec (n : Nat) (lo : Int) (s : σ) (hinit : P lo s)
    (hround : ∀ i s, lo ≤ i → i < lo + n → P i s → ∃ t, body i s = some t ∧ P (i + 1) t) :
    ∃ t, forRounds body n lo s = some t ∧ P (lo + n) t := by
  induction n generalizing lo s with
  | zero => exact ⟨s, rfl, by simpa using hinit⟩
  | succ n ih =>
    obtain ⟨t, ht, hP⟩ := hround lo s (by omega) (by omega) hinit
    obtain ⟨u, hu, hQ⟩ := ih (lo + 1) t hP (fun i s hlo hhi => hround i s (by omega) (by omega))
    refine ⟨u, ?_, ?_⟩
    · rw [forRounds, ht, Option.bind_some, hu]
    · rwa [show lo + ((n + 1 : Nat) : Int) = lo + 1 + n by omega]

theorem forRange_spec {lo hi : Int} {s : σ} (hle : lo ≤ hi) (hinit : P lo s)
    (hround : ∀ i s, lo ≤ i → i < hi → P i s → ∃ t, body i s = some t ∧ P (i + 1) t) :
    ∃ t, forRange lo hi body s = some t ∧ P hi t := by
  obtain ⟨t, ht, hP⟩ := forRounds_spec (hi - lo).toNat lo s hinit (fun i s hlo hhi => hround i s hlo (by omega))
  refine ⟨t, ht, ?_⟩
  rwa [show lo + ((hi - lo).toNat : Int) = hi by omega] at hP

theorem foldlM_range'_spec {body : σ → Nat → Option σ} {P : Nat → σ → Prop} (lo n : Nat) {s : σ} (hinit : P lo s)
    (hround : ∀ i s, lo ≤ i → i < lo + n → P i s → ∃ t, body s i = some t ∧ P (i + 1) t) :
    ∃ t, (List.range' lo n).foldlM body s = some t ∧ P (lo + n) t := by
  induction n generalizing lo s with
  | zero => exact ⟨s, rfl, hinit⟩
  | succ n ih =>
    obtain ⟨t, ht, hP⟩ := hround lo s (by omega) (by omega) hinit
    obtain ⟨u, hu, hQ⟩ := ih (lo + 1) hP fun i s hlo hhi => hround i s (by omega) (by omega)
    refine ⟨u, ?_, ?_⟩
    · rw [List.range'_succ, List.foldlM_cons, ht]
      exact hu
    · rwa [show lo + (n + 1) = lo + 1 + n by omega]

theorem exists_round_of_foldlM {ι : Type*} {body : σ → ι → Option σ} {l : List ι} {s t : σ} {i : ι}
    (h : l.foldlM body s = some t) (hi : i ∈ l) : ∃ u v, body u i = some v := by
  induction l generalizing s with
  | nil => contradiction
  | cons j l ih =>
    obtain ⟨u, hu, hrest⟩ := Option.bind_eq_some_iff.mp h
    rcases List.mem_cons.mp hi with rfl | hi
    · exact ⟨s, u, hu⟩
    · exact ih hrest hi

section

variable {α β : Type*} {x : Option α} {f : α → Option β} {P : α → Prop} {Q : β → Prop}

/-- Whatever the partial computation `x` yields has the property `P`. -/
def Ensures (x : Option α) (P : α → Prop) : Prop := ∀ a, x = some a → P a

namespace Ensures

theorem some {a : α} (h : P a) : Ensures (some a) P := fun _ heq => Option.some.inj heq ▸ h

theorem none : Ensures Option.none P := fun _ heq => by cases heq

theorem bind (hx : Ensures x P) (hf : ∀ a, P a → Ensures (f a) Q) : Ensures (x.bind f) Q := by
  intro b hb
  obtain ⟨a, ha, hb⟩ := Option.bind_eq_some_iff.mp hb
  exact hf a (hx a ha) b hb

theorem skip (hf : ∀ a, Ensures (f a) Q) : Ensures (x.bind f) Q := by
  intro b hb
  obtain ⟨a, -, hb⟩ := Option.bind_eq_some_iff.mp hb
  exact hf a b hb

end Ensures

end
