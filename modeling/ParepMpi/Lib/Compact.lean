import Mathlib.Tactic.Ring
import ParepMpi.Lib.CArray

/-!
# Compaction in place

Some positions of an array are given up, and the entries that remain move down over them, keeping their order.
-/

namespace Compact

open List CArray

def shift (gone : List Int) (i : Int) : Int := gone.countP (· < i)

def place (gone : List Int) (i : Int) : Int := i - shift gone i

theorem shift_nil (i : Int) : shift [] i = 0 := rfl

theorem shift_snoc (gone : List Int) (q i : Int) : shift (gone ++ [q]) i = shift gone i + if q < i then 1 else 0 := by
  unfold shift
  by_cases h : q < i <;> simp [h]

theorem shift_cons (gone : List Int) (q i : Int) : shift (q :: gone) i = shift gone i + if q < i then 1 else 0 := by
  unfold shift
  by_cases h : q < i <;> simp [h]

theorem shift_map_sub (gone : List Int) (base i : Int) : shift (gone.map (· - base)) i = shift gone (base + i) := by
  induction gone with
  | nil => rfl
  | cons q gone ih =>
    rw [map_cons, shift_cons, shift_cons]
    congr 1
    exact if_congr (by omega) rfl rfl

variable {gone : List Int} {i : Int}

theorem shift_succ (hnodup : gone.Nodup) (i : Int) : shift gone (i + 1) = shift gone i + if i ∈ gone then 1 else 0 := by
  induction gone with
  | nil => simp [shift]
  | cons q gone ih =>
    rw [nodup_cons] at hnodup
    rw [shift_cons, shift_cons, ih hnodup.2]
    by_cases hq : i = q
    · subst hq
      rw [if_neg hnodup.1, if_pos (by omega), if_neg (by omega), if_pos (by simp)]
    · by_cases hlt : q < i
      · rw [if_pos (by omega : q < i + 1), if_pos hlt]
        simp only [mem_cons, hq, false_or]
        ring
      · rw [if_neg (by omega : ¬ q < i + 1), if_neg hlt]
        simp only [mem_cons, hq, false_or]
        ring

theorem shift_nonneg (gone : List Int) (i : Int) : 0 ≤ shift gone i := by
  unfold shift
  omega

theorem shift_eq_zero (h : ∀ q ∈ gone, i ≤ q) : shift gone i = 0 := by
  unfold shift
  rw [countP_eq_zero.mpr]
  · rfl
  · intro q hq
    have := h q hq
    simp only [decide_eq_true_eq]
    omega

theorem shift_eq_length (h : ∀ q ∈ gone, q < i) : shift gone i = gone.length := by
  unfold shift
  rw [countP_eq_length.mpr]
  intro q hq
  simpa using h q hq

theorem place_succ (hnodup : gone.Nodup) (i : Int) : place gone (i + 1) = place gone i + if i ∈ gone then 0 else 1 := by
  unfold place
  rw [shift_succ hnodup]
  split <;> ring

theorem place_le_self (gone : List Int) (i : Int) : place gone i ≤ i := by
  have := shift_nonneg gone i
  unfold place
  omega

theorem place_add_le (hnodup : gone.Nodup) (i : Int) (k : Nat) : place gone i ≤ place gone (i + k) := by
  induction k with
  | zero => simp
  | succ k ih =>
    rw [show i + ((k + 1 : Nat) : Int) = i + k + 1 by omega, place_succ hnodup]
    split <;> omega

theorem place_mono (hnodup : gone.Nodup) {i j : Int} (h : i ≤ j) : place gone i ≤ place gone j := by
  have := place_add_le hnodup i (j - i).toNat
  rwa [show i + ((j - i).toNat : Int) = j by omega] at this

theorem place_lt (hnodup : gone.Nodup) {i j : Int} (hi : i ∉ gone) (h : i < j) : place gone i < place gone j := by
  have hsucc := place_succ hnodup i
  rw [if_neg hi] at hsucc
  have := place_mono hnodup (show i + 1 ≤ j by omega)
  omega

theorem place_injective (hnodup : gone.Nodup) {i j : Int} (hi : i ∉ gone)
    (hj : j ∉ gone) (h : place gone i = place gone j) : i = j := by
  rcases lt_trichotomy i j with hlt | heq | hgt
  · have := place_lt hnodup hi hlt
    omega
  · exact heq
  · have := place_lt hnodup hj hgt
    omega

theorem place_zero (hpos : ∀ q ∈ gone, 0 ≤ q) : place gone 0 = 0 := by
  unfold place
  rw [shift_eq_zero hpos]
  rfl

section

variable (hnodup : gone.Nodup) (hpos : ∀ q ∈ gone, 0 ≤ q)

include hnodup hpos

theorem place_nonneg (hi : 0 ≤ i) : 0 ≤ place gone i := by
  have := place_mono hnodup hi
  rwa [place_zero hpos] at this

private theorem exists_place_nat (n : Nat) {k : Int} (hk : 0 ≤ k) (hlt : k < place gone n) :
    ∃ i : Int, 0 ≤ i ∧ i < n ∧ i ∉ gone ∧ place gone i = k := by
  induction n with
  | zero =>
    rw [Nat.cast_zero, place_zero hpos] at hlt
    omega
  | succ n ih =>
    rw [Nat.cast_succ, place_succ hnodup] at hlt
    by_cases hbelow : k < place gone n
    · obtain ⟨i, hi, hin, hmem, hplace⟩ := ih hbelow
      exact ⟨i, hi, by omega, hmem, hplace⟩
    · by_cases hmem : (n : Int) ∈ gone
      · rw [if_pos hmem] at hlt
        omega
      · exact ⟨n, by omega, by omega, hmem, by omega⟩

theorem exists_place {n k : Int}
    (hn : 0 ≤ n) (hk : 0 ≤ k) (hlt : k < place gone n) :
    ∃ i : Int, 0 ≤ i ∧ i < n ∧ i ∉ gone ∧ place gone i = k := by
  obtain ⟨m, rfl⟩ := Int.eq_ofNat_of_zero_le hn
  exact exists_place_nat hnodup hpos m hk hlt

variable {α : Type*}
    (l : CArray α) (p : α → Bool) (hp : ∀ i v, l.read i = some v → (p v = true ↔ i ∉ gone))

include hp

private theorem length_filter_take (n : Nat)
    (hn : n ≤ l.length) : (((l.take n).filter p).length : Int) = place gone n := by
  induction n with
  | zero =>
    rw [Nat.cast_zero, place_zero hpos]
    rfl
  | succ n ih =>
    have hlt : n < l.length := by omega
    have hkeep := hp n l[n] (by rw [read_natCast, getElem?_eq_getElem hlt])
    rw [take_succ_eq_append_getElem hlt, filter_append, length_append, Nat.cast_add,
      ih (by omega), Nat.cast_succ, place_succ hnodup]
    by_cases hgone : (n : Int) ∈ gone
    · have hdrop : p l[n] = false := by simpa [hgone] using hkeep
      simp [hgone, hdrop]
    · simp [hgone, hkeep.mpr hgone]

theorem read_filter_place
    {v : α} (hi : l.read i = some v) (hkeep : i ∉ gone) :
    read (l.filter p) (place gone i) = some v := by
  obtain ⟨h0, hlt⟩ := read_eq_some_bounds hi
  have hpv := (hp i v hi).mpr hkeep
  obtain ⟨n, rfl⟩ := Int.eq_ofNat_of_zero_le h0
  have hn : n < l.length := by omega
  have hlen := length_filter_take hnodup hpos l p hp n hn.le
  rw [read_natCast, getElem?_eq_getElem hn, Option.some_inj] at hi
  have hsplit : l = l.take n ++ v :: l.drop (n + 1) := by
    rw [← hi, ← drop_eq_getElem_cons hn, take_append_drop]
  have hfilter : l.filter p = (l.take n).filter p ++ v :: (l.drop (n + 1)).filter p := by
    rw [← filter_cons_of_pos hpv, ← filter_append, ← hsplit]
  rw [← hlen, read_natCast, hfilter, getElem?_append_right le_rfl, Nat.sub_self, getElem?_cons_zero]

theorem length_filter_place :
    ((l.filter p).length : Int) = place gone l.length := by
  have h := length_filter_take hnodup hpos l p hp l.length le_rfl
  rwa [take_length] at h

end

structure Packed (gone : List Int) (old : Int → α) (n i : Int) (b : CArray α) : Prop where
  done : ∀ j, 0 ≤ j → j < i → j ∉ gone → b.read (place gone j) = some (old j)
  rest : ∀ j, i ≤ j → j < n → b.read j = some (old j)

namespace Packed

variable {gone : List Int} {old : Int → α} {n i : Int} {b : CArray α}

theorem init (h : b.Holds n old) : Packed gone old n 0 b where
  done := fun j hj hlt => by omega
  rest := h

theorem skip (h : Packed gone old n i b) (hgone : i ∈ gone) : Packed gone old n (i + 1) b where
  done := by
    intro j hj hlt hmem
    have hne : j ≠ i := fun heq => hmem (heq ▸ hgone)
    exact h.done j hj (by omega) hmem
  rest := fun j hj => h.rest j (by omega)

theorem move (h : Packed gone old n i b) (hnodup : gone.Nodup) (hpos : ∀ q ∈ gone, 0 ≤ q)
    (hi : 0 ≤ i) (hlt : i < n) (hkeep : i ∉ gone) :
    ∃ c, b.write (place gone i) (old i) = some c ∧ Packed gone old n (i + 1) c := by
  have hplace := place_le_self gone i
  have hnonneg := place_nonneg hnodup hpos hi
  have hbound := (read_eq_some_bounds (h.rest i le_rfl hlt)).2
  obtain ⟨c, hc⟩ := exists_write hnonneg (show place gone i < (b.length : Int) by omega) (old i)
  refine ⟨c, hc, ?_, ?_⟩
  · intro j hj hji hmem
    by_cases heq : j = i
    · subst heq
      exact read_write_self hc
    · have := place_lt hnodup hmem (show j < i by omega)
      rw [read_write_ne hc (by omega)]
      exact h.done j hj (by omega) hmem
  · intro j hj hjn
    rw [read_write_ne hc (by omega)]
    exact h.rest j (by omega) hjn

end Packed

end Compact
