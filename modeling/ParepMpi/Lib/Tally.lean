import Mathlib.Data.Nat.Count

/-!
# Counting the numbers below a bound

`tally p n` is how many `i < n` have `p i`, as an integer, so that counters which go up and down can be compared with
it.
-/

def tally (p : Nat → Bool) (n : Nat) : Int := Nat.count (fun i => p i = true) n

section

variable {p q r : Nat → Bool} {n i : Nat}

theorem tally_succ : tally p (n + 1) = tally p n + if p n = true then 1 else 0 := by
  rw [tally, Nat.count_succ]
  split
  all_goals rfl

theorem tally_congr (h : ∀ i < n, p i = q i) : tally p n = tally q n := by
  induction n with
  | zero => rfl
  | succ n ih => rw [tally_succ, tally_succ, ih fun i hi => h i (by omega), h n (by omega)]

theorem tally_add (h : ∀ i < n, r i = (p i || q i)) (hdisj : ∀ i < n, p i = true → q i = false) :
    tally r n = tally p n + tally q n := by
  induction n with
  | zero => rfl
  | succ n ih =>
    rw [tally_succ, tally_succ, tally_succ, ih (fun i hi => h i (by omega)) fun i hi => hdisj i (by omega),
      h n (by omega)]
    have hn := hdisj n (by omega)
    cases hp : p n
    · simp only [Bool.false_or, Bool.false_eq_true, if_false]
      omega
    · rw [hn hp]
      simp only [Bool.or_false, Bool.false_eq_true, if_false]
      omega

theorem tally_nonneg : 0 ≤ tally p n := Int.natCast_nonneg _

theorem tally_eq_zero (h : ∀ i < n, p i = false) : tally p n = 0 := by
  have hcount : Nat.count (fun i => p i = true) n = 0 := Nat.count_iff_forall_not.mpr fun i hi => by rw [h i hi]; decide
  rw [tally, hcount]
  rfl

theorem tally_true : tally (fun _ => true) n = n := by
  have hcount : Nat.count (fun _ => true = true) n = n := Nat.count_of_forall fun _ _ => rfl
  rw [tally, hcount]

theorem tally_mono (h : ∀ i < n, p i = true → q i = true) : tally p n ≤ tally q n := by
  have hsplit : tally q n = tally p n + tally (fun i => q i && !p i) n := by
    apply tally_add
    · intro i hi
      have := h i hi
      cases hp : p i
      · simp
      · simp [this hp]
    · intro i _ hp
      simp [hp]
  have := tally_nonneg (p := fun i => q i && !p i) (n := n)
  omega

theorem exists_of_tally_lt (h : tally p n < tally q n) : ∃ i < n, q i = true ∧ p i = false := by
  by_contra hnone
  have hmono : tally q n ≤ tally p n := by
    apply tally_mono
    intro i hi hq
    by_contra hp
    exact hnone ⟨i, hi, hq, by simpa using hp⟩
  omega

theorem exists_of_tally_pos (h : 0 < tally p n) : ∃ i < n, p i = true := by
  rw [← tally_eq_zero (p := fun _ => false) (n := n) fun _ _ => rfl] at h
  obtain ⟨i, hi, hp, -⟩ := exists_of_tally_lt h
  exact ⟨i, hi, hp⟩

theorem tally_pos (hi : i < n) (h : p i = true) : 0 < tally p n := by
  have hcount : Nat.count (fun i => p i = true) n ≠ 0 := Nat.count_ne_iff_exists.mpr ⟨i, hi, h⟩
  rw [tally]
  omega

theorem tally_single (hi : i < n) : tally (fun j => j == i) n = 1 := by
  induction n with
  | zero => omega
  | succ n ih =>
    rw [tally_succ]
    rcases Nat.lt_succ_iff_lt_or_eq.mp hi with hlt | rfl
    · rw [ih hlt, if_neg (by simp; omega)]
      rfl
    · rw [tally_eq_zero fun j hj => by simp; omega, if_pos (by simp)]
      rfl

theorem tally_insert (hi : i < n) (hp : p i = false) (h : ∀ j < n, q j = (p j || j == i)) :
    tally q n = tally p n + 1 := by
  rw [← tally_single hi]
  apply tally_add h
  intro j _ hj
  have hne : j ≠ i := fun heq => by simp [heq, hp] at hj
  simp [hne]

theorem or_beq_of_ne {b : Bool} {j : Nat} (h : j ≠ i) : (b || j == i) = b := by rw [beq_false_of_ne h, Bool.or_false]

theorem or_beq_of_true (h : p i = true) (j : Nat) : (p j || j == i) = p j := by
  by_cases hj : j = i
  · rw [hj, h, Bool.true_or]
  · rw [or_beq_of_ne hj]

theorem update_true (j : Nat) : Function.update p i true j = (p j || j == i) := by
  by_cases hj : j = i
  · simp [hj]
  · rw [Function.update_of_ne hj, or_beq_of_ne hj]

theorem tally_and_insert (hi : i < n) (hp : p i = true) (hq : q i = false) :
    tally (fun j => p j && (q j || j == i)) n = tally (fun j => p j && q j) n + 1 := by
  apply tally_insert hi (by rw [hq, Bool.and_false])
  intro j _
  by_cases hj : j = i
  · simp [hj, hp]
  · rw [or_beq_of_ne hj, or_beq_of_ne hj]

theorem tally_and_insert_of_not (hp : p i = false) :
    tally (fun j => p j && (q j || j == i)) n = tally (fun j => p j && q j) n := by
  apply tally_congr
  intro j _
  by_cases hj : j = i
  · simp [hj, hp]
  · rw [or_beq_of_ne hj]

theorem of_tally_le (h : ∀ i < n, p i = true → q i = true) (hle : tally q n ≤ tally p n) (hi : i < n)
    (hq : q i = true) : p i = true := by
  by_contra hp
  have hp : p i = false := by simpa using hp
  have hlt : tally p n + 1 ≤ tally q n := by
    rw [← tally_insert (q := fun j => p j || j == i) hi hp fun _ _ => rfl]
    apply tally_mono
    intro j hj hor
    rcases Bool.or_eq_true _ _ ▸ hor with hpj | heq
    · exact h j hj hpj
    · rwa [beq_iff_eq.mp heq]
  omega

theorem tally_not : tally (fun i => !p i) n = n - tally p n := by
  have hsplit : tally (fun _ => true) n = tally p n + tally (fun i => !p i) n := by
    apply tally_add
    · simp
    · intro i _ hp
      simp [hp]
  rw [tally_true] at hsplit
  omega

end
